import OrderedChoice.Fault

set_option autoImplicit false

namespace OrderedChoice

structure Token (V : Type) where
  name : String
  value : V
deriving DecidableEq, Repr

/-- A fixed list of tokens and how many of them have been handed out. -/
structure Source (V : Type) where
  tokens : Array (Token V)
  position : Nat

namespace Source

variable {V : Type}

def ofList (tokens : List (Token V)) : Source V :=
  ⟨tokens.toArray, 0⟩

def next? (s : Source V) : Option (Token V × Source V) :=
  match s.tokens[s.position]? with
  | some token => some (token, { s with position := s.position + 1 })
  | none => none

def seek (s : Source V) (position : Nat) : Except Fault (Source V) :=
  if position ≤ s.tokens.size then .ok { s with position }
  else .error (.seek position s.tokens.size)

def done (s : Source V) : Bool :=
  s.tokens.size ≤ s.position

def remaining (s : Source V) : List (Token V) :=
  s.tokens.toList.drop s.position

end Source

end OrderedChoice
