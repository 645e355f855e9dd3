import OrderedChoice.Machine

set_option autoImplicit false

/-!
# Evaluation without a stack

The meaning of rules as a plain recursion on what is left to read. An evaluation works on a view:
what it remembers of the values below the current frame, the values of the frame, and the tokens
that are left. To try the next part of an alternative it takes the view it had before; there is
nothing to roll back and nowhere to seek. How a name is found and how much is remembered below the
frame are parameters. `Floor.nearest` remembers one value at most, the most an action can read.
-/

namespace OrderedChoice

structure Call (V : Type) where
  label : Option String
  frame : List V
  below : Option V
deriving DecidableEq, Repr

def Event.call? {H V : Type} : Event H V → Option (Call V)
  | acted label frame below => some ⟨label, frame, below⟩
  | _ => none

def Trace.calls {H V : Type} (t : Trace H V) : List (Call V) :=
  t.filterMap Event.call?

/-- What is remembered of the values below the current frame: how it changes when a frame is opened
over another, and what an action sees of it. -/
structure Floor (B V : Type) where
  opened : B → List V → B
  window : B → List V → Window V

namespace Floor

variable {V : Type}

def whole : Floor (List V) V where
  opened below frame := below ++ frame
  window below frame := ⟨(below ++ frame).toArray, below.length⟩

/-- The value just below the frame: the last one of the enclosing frame, or if that is empty the one
below it. -/
def nearest : Floor (Option V) V where
  opened below frame := frame.getLast?.or below
  window below frame := ⟨(below.toList ++ frame).toArray, below.toList.length⟩

end Floor

/-- Everything that decides how an evaluation goes on. -/
structure View (B V : Type) where
  below : B
  frame : List V
  rest : List (Token V)

structure Evaluation (G B H V : Type) where
  view : View B V
  names : G
  host : H
  calls : List (Call V)

namespace Evaluation

variable {G B H V : Type}

def push (s : Evaluation G B H V) (v : V) : Evaluation G B H V :=
  { s with view := { s.view with frame := s.view.frame ++ [v] } }

def matchTerminal (s : Evaluation G B H V) (name : String) : Outcome V × Evaluation G B H V :=
  match s.view.rest with
  | token :: rest =>
    if token.name = name then
      (.value token.value, { s with view := { s.view with rest } }.push token.value)
    else (.noMatch, s)
  | [] => (.noMatch, s)

def answered (s : Evaluation G B H V) : Reply V × H → Outcome V × Evaluation G B H V
  | (.value v, host) => (.value v, { s with host }.push v)
  | (.reject, host) => (.noMatch, { s with host })
  | (.fault f, host) => (.fault f, { s with host })

def act (floor : Floor B V) (s : Evaluation G B H V) (a : Action H V) :
    Outcome V × Evaluation G B H V :=
  let w := floor.window s.view.below s.view.frame
  { s with calls := ⟨a.label, w.values, w.below?⟩ :: s.calls }.answered (a.run w s.host)

def closed (outer : View B V) : Outcome V × Evaluation G B H V → Outcome V × Evaluation G B H V
  | (.value v, t) => (.value v, { t with view := { outer with rest := t.view.rest } }.push v)
  | (.noMatch, t) => (.noMatch, { t with view := { outer with rest := t.view.rest } })
  | r => r

def inScope (floor : Floor B V) (run : Evaluation G B H V → Outcome V × Evaluation G B H V)
    (s : Evaluation G B H V) : Outcome V × Evaluation G B H V :=
  closed s.view
    (run { s with view := ⟨floor.opened s.view.below s.view.frame, [], s.view.rest⟩ })

def onMatch (next : V → Evaluation G B H V → Outcome V × Evaluation G B H V) :
    Outcome V × Evaluation G B H V → Outcome V × Evaluation G B H V
  | (.value v, t) => next v t
  | r => r

def onFailure (next : Evaluation G B H V → Outcome V × Evaluation G B H V) :
    Outcome V × Evaluation G B H V → Outcome V × Evaluation G B H V
  | (.noMatch, t) => next t
  | r => r

def inSequence (exec : Rule H V → Evaluation G B H V → Outcome V × Evaluation G B H V) :
    List (Rule H V) → V → Evaluation G B H V → Outcome V × Evaluation G B H V
  | [], last, s => (.value last, s)
  | part :: parts, _, s => onMatch (inSequence exec parts) (exec part s)

def inAlternative (exec : Rule H V → Evaluation G B H V → Outcome V × Evaluation G B H V) :
    List (Rule H V) → Evaluation G B H V → Outcome V × Evaluation G B H V
  | [], s => (.noMatch, s)
  | part :: parts, s =>
    onFailure (fun t => inAlternative exec parts { t with view := s.view }) (exec part s)

def atEnd : Outcome V × Evaluation G B H V → Outcome V × Evaluation G B H V
  | (.value v, t) => if t.view.rest.isEmpty then (.value v, t) else (.noMatch, t)
  | r => r

def dispatch [Inhabited V] (floor : Floor B V) (find : G → String → Rule H V × G)
    (exec : Rule H V → Evaluation G B H V → Outcome V × Evaluation G B H V)
    (rule : Rule H V) (s : Evaluation G B H V) : Outcome V × Evaluation G B H V :=
  match rule with
  | .ref name =>
    match find s.names name with
    | (rule, names) => exec rule { s with names }
  | .terminal name => s.matchTerminal name
  | .scope body => inScope floor (exec body) s
  | .sequence parts => inSequence exec parts default s
  | .alternative parts => inAlternative exec parts s
  | .action a => s.act floor a
  | .terminated body => atEnd (exec body s)

/-- Evaluates a rule. The budget bounds how many rules are evaluated inside each other. -/
def eval [Inhabited V] (floor : Floor B V) (find : G → String → Rule H V × G) :
    Nat → Rule H V → Evaluation G B H V → Outcome V × Evaluation G B H V
  | 0, _, s => (.unfinished, s)
  | budget + 1, rule, s => dispatch floor find (eval floor find budget) rule s

end Evaluation

def Grammar.found {H V : Type} (g : Grammar H V) (name : String) : Rule H V × Grammar H V :=
  ((g.resolve name).1, (g.resolve name).2.grammar)

def fixed {H V : Type} (look : String → Rule H V) : Unit → String → Rule H V × Unit :=
  fun _ name => (look name, ())

/-- What a run leaves behind, apart from its outcome. -/
structure Effects (H V : Type) where
  source : Source V
  host : H
  calls : List (Call V)

def Machine.effects {H V : Type} (m : Machine H V) : Effects H V :=
  ⟨m.source, m.host, m.trace.calls⟩

def Evaluation.effects {G B H V : Type} (s : Evaluation G B H V) (tokens : Array (Token V)) :
    Effects H V :=
  ⟨⟨tokens, tokens.size - s.view.rest.length⟩, s.host, s.calls⟩

end OrderedChoice
