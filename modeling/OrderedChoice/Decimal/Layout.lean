import OrderedChoice.Decimal.Shortest

set_option autoImplicit false

namespace OrderedChoice.Decimal

structure Layout where
  /-- The exponents of the leading digit that are written without an exponent, if not all are. -/
  positional : Option (Int × Int)
  pointZero : Bool
  tie : Tie
  infinity : String
  negativeInfinity : String
  notANumber : String

def plain : Layout where
  positional := none
  pointZero := false
  tie := .up
  infinity := "inf"
  negativeInfinity := "-inf"
  notANumber := "NaN"

/-- Numbers as data: an exponent for very large and very small ones, and always a point otherwise.
-/
def data : Layout where
  positional := some (-5, 15)
  pointZero := true
  tie := .even
  infinity := "null"
  negativeInfinity := "null"
  notANumber := "null"

namespace Layout

def positionalText (l : Layout) (digits : List Char) (places : Int) : String :=
  if places < 0 then
    "0." ++ String.ofList (List.replicate (-places - 1).toNat '0' ++ digits)
  else
    let whole := places.toNat + 1
    if digits.length ≤ whole then
      String.ofList (digits ++ List.replicate (whole - digits.length) '0')
        ++ (if l.pointZero then ".0" else "")
    else String.ofList (digits.take whole) ++ "." ++ String.ofList (digits.drop whole)

def exponentText (digits : List Char) (exponent : Int) : String :=
  let mantissa :=
    match digits with
    | [] => ""
    | [d] => d.toString
    | d :: rest => d.toString ++ "." ++ String.ofList rest
  let sign := if exponent < 0 then "-" else "+"
  mantissa ++ "e" ++ sign ++ toString exponent.natAbs

def decimalText (l : Layout) (d : Numeral) : String :=
  let digits := Nat.toDigits 10 d.digits
  let leading := d.exponent + (digits.length - 1 : Nat)
  match l.positional with
  | none => l.positionalText digits leading
  | some (low, high) =>
    if low ≤ leading && leading ≤ high then l.positionalText digits leading
    else exponentText digits leading

def signBit : Nat := 0x8000000000000000

def infinityBits : Nat := 0x7ff * hiddenBit

def textOfBits (l : Layout) (bits : Nat) : String :=
  let magnitude := bits % signBit
  let negative := bits != magnitude
  if magnitude = infinityBits then (if negative then l.negativeInfinity else l.infinity)
  else if infinityBits < magnitude then l.notANumber
  else
    (if negative then "-" else "") ++
      (if magnitude = 0 then l.positionalText ['0'] 0
        else l.decimalText (shortest magnitude l.tie))

def text (l : Layout) (x : Float) : String :=
  l.textOfBits x.toBits.toNat

end Layout

end OrderedChoice.Decimal
