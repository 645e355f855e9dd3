import OrderedChoice.Rule.Text

set_option autoImplicit false

namespace OrderedChoice

inductive Level where
  | off
  | error
  | warn
  | info
  | debug
  | trace
deriving DecidableEq, Repr

namespace Level

def rank : Level → Nat
  | off => 0
  | error => 1
  | warn => 2
  | info => 3
  | debug => 4
  | trace => 5

def name : Level → String
  | off => "OFF"
  | error => "ERROR"
  | warn => "WARN"
  | info => "INFO"
  | debug => "DEBUG"
  | trace => "TRACE"

def ofName? (s : String) : Option Level :=
  [off, error, warn, info, debug, trace].find? fun level =>
    s.toList.map Char.toUpper == level.name.toList

def shownAt (a b : Level) : Bool :=
  a.rank ≤ b.rank

end Level

inductive Origin where
  | rules
  | forms
  | runs
  | parses
deriving DecidableEq, Repr

def Origin.name : Origin → String
  | rules => "ruleweave::runtime::registry"
  | forms => "ruleweave::runtime::compile"
  | runs => "ruleweave::runtime::eval"
  | parses => "ruleweave::engine"

structure LogLine where
  level : Level
  origin : Origin
  message : String
deriving DecidableEq, Repr

def LogLine.text (l : LogLine) : String :=
  l.level.name ++ " " ++ l.origin.name ++ ": " ++ l.message

inductive Event (H V : Type) where
  /-- A name got a body; `discards` if compiled forms were thrown away for it. -/
  | defined (name : String) (discards : Bool)
  /-- A name got a body that no reference will ever reach. -/
  | shadowed (name : String)
  | reported (d : Diagnostic)
  | compiled (name : String) (form : Rule H V)
  | mismatched (expected : String) (found : Option String)
  | undone (index count position : Nat)
  | tokensLeft
  /-- An action ran, seeing these values in its frame and this one below it. -/
  | acted (label : Option String) (frame : List V) (below : Option V)
  | started (entry : Rule H V)
  | succeeded
  | failed
  | aborted (d : Diagnostic)

namespace Event

variable {H V : Type}

def line? : Event H V → Option LogLine
  | defined name false => some ⟨.debug, .rules, s!"rule '{name}' defined"⟩
  | defined name true =>
    some ⟨.debug, .rules, s!"rule '{name}' defined after compilation; invalidating compiled rules"⟩
  | shadowed name =>
    some ⟨.warn, .rules, s!"rule '{name}' is shadowed by the terminal of the same name"⟩
  | reported d => some ⟨.warn, .rules, d.message⟩
  | compiled name form => some ⟨.debug, .forms, "compiled rule '" ++ name ++ "' as " ++ form.text⟩
  | mismatched expected (some found) =>
    some ⟨.trace, .runs, s!"expected '{expected}', found '{found}'"⟩
  | mismatched expected none => some ⟨.trace, .runs, s!"expected '{expected}', found end of input"⟩
  | undone index count position =>
    some ⟨.trace, .runs,
      s!"alternative {index} of {count} failed; rolling back to token {position}"⟩
  | tokensLeft => some ⟨.trace, .runs, "input remains after a terminated rule"⟩
  | acted .. => none
  | started entry => some ⟨.debug, .parses, "parse started at " ++ entry.text⟩
  | succeeded => some ⟨.debug, .parses, "parse succeeded"⟩
  | failed => some ⟨.debug, .parses, "parse failed"⟩
  | aborted d => some ⟨.debug, .parses, "parse aborted: " ++ d.message⟩

def level? : Event H V → Option Level
  | shadowed _ => some .warn
  | reported _ => some .warn
  | mismatched .. => some .trace
  | undone .. => some .trace
  | tokensLeft => some .trace
  | acted .. => none
  | _ => some .debug

theorem level?_eq (e : Event H V) : e.level? = e.line?.map LogLine.level := by
  cases e with
  | defined _ discards => cases discards <;> rfl
  | mismatched _ found => cases found <;> rfl
  | _ => rfl

end Event

/-- Events, the latest first. -/
abbrev Trace (H V : Type) := List (Event H V)

namespace Trace

variable {H V : Type}

def lines (t : Trace H V) (shown : Level) : List LogLine :=
  (t.filter fun e => e.level?.any (·.shownAt shown)).reverse.filterMap Event.line?

end Trace

end OrderedChoice
