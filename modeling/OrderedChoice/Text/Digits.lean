import OrderedChoice.Word

set_option autoImplicit false

namespace OrderedChoice.Text

/-- The value of a digit in a base of at most 36; letters of either case go on after nine. -/
def digit? (base : Nat) (c : Char) : Option Nat :=
  let n :=
    if c.isDigit then some (c.toNat - 48)
    else if 'a' ≤ c && c ≤ 'z' then some (c.toNat - 87)
    else if 'A' ≤ c && c ≤ 'Z' then some (c.toNat - 55)
    else none
  n.filter (· < base)

def word? (base : Nat) : List Char → Option Nat
  | [] => none
  | cs =>
    (cs.foldlM (fun n c => (digit? base c).map (base * n + ·)) 0).filter (· < wordBound)

def withoutPlus : List Char → List Char
  | '+' :: cs => cs
  | cs => cs

end OrderedChoice.Text
