set_option autoImplicit false

namespace OrderedChoice

/-- How deep rules may nest, if that is limited, and how many values a parse makes room for. The
room is assumed to be one that can be allocated, since a parse panics after its entry is compiled
where it cannot; no outcome depends on it then. -/
structure Options where
  maxDepth : Option Nat := none
  stackCapacity : Nat := 64
deriving DecidableEq, Repr

def Options.withMaxDepth (o : Options) (limit : Nat) : Options :=
  { o with maxDepth := some limit }

end OrderedChoice
