import OrderedChoice.Grammar.Compile
import OrderedChoice.ValueStack
import OrderedChoice.DepthGuard
import OrderedChoice.Token

set_option autoImplicit false

/-!
# Running rules

A backtracking machine over rules. Only an alternative undoes anything: before its next part is
tried, the stack pointer and the position in the tokens go back to where the alternative began. A
sequence that fails leaves what it consumed and pushed. A reference is looked up when it is reached.

The budget bounds how many rules run inside each other. It only makes the definition total: a run
that finishes within one budget is the same within every larger one.
-/

namespace OrderedChoice

inductive Outcome (V : Type) where
  | value (v : V)
  | noMatch
  | limitExceeded (limit : Nat)
  /-- A promise was broken; nothing is tidied up. -/
  | fault (f : Fault)
  /-- The budget was too small to tell. -/
  | unfinished

structure Machine (H V : Type) where
  grammar : Grammar H V
  source : Source V
  stack : ValueStack V
  guard : DepthGuard
  host : H
  trace : Trace H V

namespace Machine

variable {H V : Type}

def note (m : Machine H V) (e : Event H V) : Machine H V :=
  { m with trace := e :: m.trace }

def push (m : Machine H V) (v : V) : Machine H V :=
  { m with stack := m.stack.push v }

def resolve (m : Machine H V) (name : String) : Rule H V × Machine H V :=
  match m.grammar.resolve name with
  | (rule, c) => (rule, { m with grammar := c.grammar, trace := c.trace ++ m.trace })

def matchTerminal (m : Machine H V) (name : String) : Outcome V × Machine H V :=
  match m.source.next? with
  | some (token, source) =>
    if token.name = name then (.value token.value, { m with source }.push token.value)
    else
      match source.seek m.source.position with
      | .ok source => (.noMatch, { m with source }.note (.mismatched name (some token.name)))
      | .error f => (.fault f, { m with source }.note (.mismatched name (some token.name)))
  | none => (.noMatch, m.note (.mismatched name none))

def act (m : Machine H V) (a : Action H V) : Outcome V × Machine H V :=
  let w := m.stack.window
  let m := m.note (.acted a.label w.values w.below?)
  match a.run w m.host with
  | (.value v, host) => (.value v, { m with host }.push v)
  | (.reject, host) => (.noMatch, { m with host })
  | (.fault f, host) => (.fault f, { m with host })

def inScope (exec : Machine H V → Outcome V × Machine H V) (m : Machine H V) :
    Outcome V × Machine H V :=
  let saved := m.stack.saved
  match exec { m with stack := m.stack.openFrame } with
  | (.value v, m) => (.value v, { m with stack := m.stack.closeFrame saved }.push v)
  | (.noMatch, m) => (.noMatch, { m with stack := m.stack.closeFrame saved })
  | (.limitExceeded n, m) => (.limitExceeded n, { m with stack := m.stack.closeFrame saved })
  | (.fault f, m) => (.fault f, m)
  | (.unfinished, m) => (.unfinished, m)

/-- Runs parts in order while they match; `last` is the result of the part before. -/
def inSequence (exec : Rule H V → Machine H V → Outcome V × Machine H V) :
    List (Rule H V) → V → Machine H V → Outcome V × Machine H V
  | [], last, m => (.value last, m)
  | part :: parts, _, m =>
    match exec part m with
    | (.value v, m) => inSequence exec parts v m
    | (.noMatch, m) => (.noMatch, m)
    | (.limitExceeded n, m) => (.limitExceeded n, m)
    | (.fault f, m) => (.fault f, m)
    | (.unfinished, m) => (.unfinished, m)

def undo (m : Machine H V) (mark position : Nat) : Except (Fault × Machine H V) (Machine H V) :=
  match m.stack.rollback mark with
  | .error f => .error (f, m)
  | .ok stack =>
    match m.source.seek position with
    | .error f => .error (f, { m with stack })
    | .ok source => .ok { m with stack, source }

/-- Tries parts in order, the first being number `index` of `count`, until one does not fail; each
failure is undone. -/
def inAlternative (exec : Rule H V → Machine H V → Outcome V × Machine H V)
    (mark position count : Nat) :
    Nat → List (Rule H V) → Machine H V → Outcome V × Machine H V
  | _, [], m => (.noMatch, m)
  | index, part :: parts, m =>
    match exec part m with
    | (.value v, m) => (.value v, m)
    | (.noMatch, m) =>
      match (m.note (.undone index count position)).undo mark position with
      | .ok m => inAlternative exec mark position count (index + 1) parts m
      | .error (f, m) => (.fault f, m)
    | (.limitExceeded n, m) => (.limitExceeded n, m)
    | (.fault f, m) => (.fault f, m)
    | (.unfinished, m) => (.unfinished, m)

def atEnd : Outcome V × Machine H V → Outcome V × Machine H V
  | (.value v, m) => if m.source.done then (.value v, m) else (.noMatch, m.note .tokensLeft)
  | r => r

def dispatch [Inhabited V] (exec : Rule H V → Machine H V → Outcome V × Machine H V)
    (rule : Rule H V) (m : Machine H V) : Outcome V × Machine H V :=
  match rule with
  | .ref name =>
    match m.resolve name with
    | (rule, m) => exec rule m
  | .terminal name => m.matchTerminal name
  | .scope body => inScope (exec body) m
  | .sequence parts => inSequence exec parts default m
  | .alternative parts =>
    inAlternative exec m.stack.pointer m.source.position parts.length 1 parts m
  | .action a => m.act a
  | .terminated body => atEnd (exec body m)

/-- Leaves a level of nesting, unless the run was cut off. -/
def leave : Outcome V × Machine H V → Outcome V × Machine H V
  | (.fault f, m) => (.fault f, m)
  | (.unfinished, m) => (.unfinished, m)
  | (o, m) => (o, { m with guard := m.guard.leave })

def execute [Inhabited V] : Nat → Rule H V → Machine H V → Outcome V × Machine H V
  | 0, _, m => (.unfinished, m)
  | budget + 1, rule, m =>
    let m := { m with guard := m.guard.enter }
    match m.guard.exceeded with
    | some limit => (.limitExceeded limit, m)
    | none => leave (dispatch (execute budget) rule m)

end Machine

end OrderedChoice
