import OrderedChoice.Diagnostic
import OrderedChoice.Word

set_option autoImplicit false

namespace OrderedChoice

/-- A broken promise of the caller. It ends a run on the spot and leaves everything as it stands. -/
inductive Fault where
  | contract (index size : Nat)
  | sumOverflow
  /-- A frame begins above the last live value, so it has no size. -/
  | differenceUnderflow
  | frameStart (start size : Nat)
  | seek (position size : Nat)
  | rollback (mark pointer : Nat)
deriving DecidableEq, Repr

def Fault.message : Fault → String
  | contract index size =>
    "action contract violated: " ++ (Cause.actionContract index size).message
  | sumOverflow => "attempt to add with overflow"
  | differenceUnderflow => "attempt to subtract with overflow"
  | frameStart start size =>
    s!"range start index {start} out of range for slice of length {size}"
  | seek position size => s!"seek to {position} past the end of a {size}-token source"
  | rollback mark pointer => s!"rollback mark {mark} is above the stack pointer {pointer}"

end OrderedChoice
