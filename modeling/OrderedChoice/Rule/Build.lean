import OrderedChoice.Rule.Basic

set_option autoImplicit false

namespace OrderedChoice.Rule

variable {H V : Type}

def sequenceParts : Rule H V → List (Rule H V)
  | sequence parts => parts
  | r => [r]

def alternativeParts : Rule H V → List (Rule H V)
  | alternative parts => parts
  | r => [r]

/-- One rule followed by another. A sequence on either side is extended, not nested. -/
def andThen (a b : Rule H V) : Rule H V :=
  sequence (a.sequenceParts ++ b.sequenceParts)

def orElse (a b : Rule H V) : Rule H V :=
  alternative (a.alternativeParts ++ b.alternativeParts)

def seq (parts : List (Rule H V)) : Rule H V :=
  parts.foldl andThen (sequence [])

def alt (parts : List (Rule H V)) : Rule H V :=
  parts.foldl orElse (alternative [])

instance : Add (Rule H V) :=
  ⟨andThen⟩

instance : OrOp (Rule H V) :=
  ⟨orElse⟩

def pureAction (label : String) (f : Window V → Reply V) : Rule H V :=
  action ⟨some label, fun w h => (f w, h)⟩

end OrderedChoice.Rule
