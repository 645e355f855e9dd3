import OrderedChoice.Diagnostic

set_option autoImplicit false

namespace OrderedChoice

structure DepthGuard where
  depth : Nat
  limit : Option Nat
deriving DecidableEq, Repr

namespace DepthGuard

def exceeded (g : DepthGuard) : Option Nat :=
  match g.limit with
  | some limit => if limit < g.depth then some limit else none
  | none => none

/-- One level deeper, past the limit or not. -/
def enter (g : DepthGuard) : DepthGuard :=
  { g with depth := g.depth + 1 }

def leave (g : DepthGuard) : DepthGuard :=
  { g with depth := g.depth - 1 }

end DepthGuard

end OrderedChoice
