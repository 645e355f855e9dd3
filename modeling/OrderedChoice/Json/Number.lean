import OrderedChoice.Json.Cursor
import OrderedChoice.Decimal.Layout
import OrderedChoice.Word

set_option autoImplicit false

namespace OrderedChoice.Json

/-- A number as it was read; minus zero is a double. -/
inductive Number where
  | natural (n : Nat)
  | negative (magnitude : Nat)
  | real (x : Float)

def Number.description : Number → String
  | natural n => "integer `" ++ toString n ++ "`"
  | negative n => "integer `-" ++ toString n ++ "`"
  | real x => "floating point `" ++ Decimal.data.text x ++ "`"

def exponentMax : Int := 0x7fffffff

def digit (b : UInt8) : Nat :=
  b.toNat - 48

def gather : Nat → Nat → List UInt8 → Nat × Nat
  | significand, count, [] => (significand, count)
  | significand, count, b :: digits =>
    if wordBound ≤ significand * 10 + digit b then (significand, count)
    else gather (significand * 10 + digit b) (count + 1) digits

def tenTo (n : Nat) : Float :=
  Float.ofScientific 1 false n

/-- Divides by powers of ten that are doubles; after a few the quotient is zero. -/
def shrink : Nat → Float → Nat → Float
  | 0, x, _ => x
  | steps + 1, x, n =>
    if n ≤ 308 then x / tenTo n
    else if x == 0.0 then x
    else shrink steps (x / tenTo 308) (n - 308)

/-- The double `significand * 10 ^ exponent`, unless it is too large. -/
def double? (significand : Nat) (exponent : Int) : Option Float :=
  let x := Float.ofScientific significand false 0
  if exponent < 0 then some (shrink 8 x exponent.natAbs)
  else if exponent ≤ 308 then
    let y := x * tenTo exponent.natAbs
    if y.isInf then none else some y
  else if significand = 0 then some x
  else none

namespace Read

def signed (positive : Bool) (x : Float) : Float :=
  if positive then x else -x

def real (positive : Bool) (significand : Nat) (exponent : Int) : Read Number := do
  match double? significand exponent with
  | some x => return .real (signed positive x)
  | none => failHere .numberOutOfRange

def gatherExponent : Int → List UInt8 → Int × Nat × Bool
  | exponent, [] => (exponent, 0, true)
  | exponent, b :: digits =>
    if exponentMax < exponent * 10 + digit b then (exponent, 1, false)
    else
      match gatherExponent (exponent * 10 + digit b) digits with
      | (exponent, count, whole) => (exponent, count + 1, whole)

def exponentPart (positive : Bool) (significand : Nat) (exponent : Int) : Read Number := do
  advance
  let up ← match ← peek? with
    | some b =>
      if b == byte '+' then advance; pure true
      else if b == byte '-' then advance; pure false
      else pure true
    | none => pure true
  match ← next? with
  | none => failHere .endInValue
  | some b =>
    if isDigit b then
      let (power, count, whole) := gatherExponent (digit b) ((← get).rest.takeWhile isDigit)
      modify (Cursor.skip count)
      if whole then
        real positive significand (if up then exponent + power else exponent - power)
      else if significand != 0 && up then failHere .numberOutOfRange
      else
        let _ ← takeWhile isDigit
        return .real (signed positive 0.0)
    else failHere .invalidNumber

def fractionEnd (positive : Bool) (significand : Nat) (exponent : Int) : Read Number := do
  match ← peek? with
  | some b =>
    if b == byte 'e' || b == byte 'E' then exponentPart positive significand exponent
    else real positive significand exponent
  | none => real positive significand exponent

def fractionPart (positive : Bool) (significand : Nat) (exponent : Int) : Read Number := do
  advance
  match ← takeWhile isDigit with
  | [] =>
    match ← peek? with
    | some _ => failAhead .invalidNumber
    | none => failAhead .endInValue
  | digits =>
    let (significand, count) := gather significand 0 digits
    fractionEnd positive significand (exponent - count)

def number (positive : Bool) : Read Number := do
  match ← next? with
  | none => failHere .endInValue
  | some b =>
    if !isDigit b then failHere .invalidNumber
    else if b == byte '0' && (← peek?).any isDigit then failAhead .invalidNumber
    else
      let more ← if b == byte '0' then pure [] else takeWhile isDigit
      let (significand, count) := gather (digit b) 0 more
      let left : Int := (more.length - count : Nat)
      match ← peek? with
      | some c =>
        if c == byte '.' then fractionPart positive significand left
        else if c == byte 'e' || c == byte 'E' then exponentPart positive significand left
        else whole significand left
      | none => whole significand left
where
  whole (significand : Nat) (left : Int) : Read Number := do
    if left != 0 then real positive significand left
    else if positive then return .natural significand
    else if significand = 0 || signedBound < significand then
      return .real (-(Float.ofScientific significand false 0))
    else return .negative significand

end Read

end OrderedChoice.Json
