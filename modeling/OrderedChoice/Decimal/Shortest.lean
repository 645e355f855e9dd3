set_option autoImplicit false

namespace OrderedChoice.Decimal

inductive Tie where
  | up
  | even
deriving DecidableEq, Repr

/-- A positive double with the ends of the interval that rounds to it, as numerators over one
denominator. -/
structure Span where
  low : Nat
  mid : Nat
  high : Nat
  den : Nat
  closed : Bool

structure Numeral where
  digits : Nat
  exponent : Int
deriving DecidableEq, Repr

/-- The leading bit of a mantissa, which is not stored: two to the 52. -/
def hiddenBit : Nat := 0x10000000000000

namespace Span

/-- The span of `mantissa * 2 ^ exponent`. Below a power of two doubles lie closer together, so
`narrow` spans reach only half as far down. -/
def ofBinary (mantissa : Nat) (exponent : Int) (narrow : Bool) : Span :=
  let scale := Nat.pow 2 (exponent - 2).toNat
  { low := (4 * mantissa - if narrow then 1 else 2) * scale
    mid := 4 * mantissa * scale
    high := (4 * mantissa + 2) * scale
    den := Nat.pow 2 (2 - exponent).toNat
    closed := mantissa % 2 == 0 }

def ofBits (bits : Nat) : Span :=
  let fraction := bits % hiddenBit
  match bits / hiddenBit with
  | 0 => ofBinary fraction (-1074) false
  | biased + 1 => ofBinary (hiddenBit + fraction) (biased - 1074) (fraction == 0 && biased != 0)

def scaled (s : Span) (numerator count : Nat) (exponent : Int) : Nat × Nat :=
  (numerator * Nat.pow 10 (-exponent).toNat, count * s.den * Nat.pow 10 exponent.toNat)

def readsBack (s : Span) (d : Numeral) : Bool :=
  let (low, here) := s.scaled s.low d.digits d.exponent
  let (high, _) := s.scaled s.high d.digits d.exponent
  if s.closed then low ≤ here && here ≤ high else low < here && here < high

def magnitude (s : Span) : Int :=
  if s.den ≤ s.mid then (Nat.toDigits 10 (s.mid / s.den)).length - 1
  else
    match (List.range 400).find? fun j => s.den ≤ s.mid * Nat.pow 10 j with
    | some j => -(j : Int)
    | none => 0

/-- The nearer of the double's two neighbours among the multiples of `10 ^ exponent`, of those that
read back. -/
def onGrid (s : Span) (tie : Tie) (exponent : Int) : Option Numeral :=
  let (mid, unit) := s.scaled s.mid 1 exponent
  let below := mid / unit
  let lower : Numeral := ⟨below, exponent⟩
  let upper : Numeral := ⟨below + 1, exponent⟩
  match s.readsBack lower, s.readsBack upper with
  | false, false => none
  | true, false => some lower
  | false, true => some upper
  | true, true =>
    match compare (2 * (mid % unit)) unit with
    | .lt => some lower
    | .gt => some upper
    | .eq =>
      match tie with
      | .up => some upper
      | .even => some (if below % 2 == 0 then lower else upper)

def shortest (s : Span) (tie : Tie) : Numeral :=
  let top := s.magnitude
  ((List.range 17).findSome? fun (n : Nat) => s.onGrid tie (top - n)).getD ⟨s.mid / s.den, 0⟩

end Span

namespace Numeral

def stripWithin : Nat → Numeral → Numeral
  | 0, d => d
  | fuel + 1, d =>
    if d.digits % 10 == 0 && d.digits != 0 then stripWithin fuel ⟨d.digits / 10, d.exponent + 1⟩
    else d

def strip (d : Numeral) : Numeral :=
  d.stripWithin (Nat.toDigits 10 d.digits).length

end Numeral

def shortest (bits : Nat) (tie : Tie) : Numeral :=
  ((Span.ofBits bits).shortest tie).strip

end OrderedChoice.Decimal
