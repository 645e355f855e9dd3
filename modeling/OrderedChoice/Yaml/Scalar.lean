import OrderedChoice.Text.Digits

set_option autoImplicit false

namespace OrderedChoice.Yaml

inductive Style where
  | plain
  | literal
  | other
deriving DecidableEq, Repr

structure Scalar where
  text : String
  style : Style
  tag : Option String
deriving DecidableEq, Repr

def nullTag : String := "tag:yaml.org,2002:null"

def intTag : String := "tag:yaml.org,2002:int"

/-- A decimal word; one that begins with a zero is no number unless it is zero. -/
def decimal? : List Char → Option Nat
  | '0' :: c :: cs => if (c :: cs).all Char.isDigit then none else Text.word? 10 ('0' :: c :: cs)
  | cs => Text.word? 10 cs

def natural? (cs : List Char) : Option Nat :=
  match Text.withoutPlus cs with
  | '0' :: 'x' :: digits => Text.word? 16 digits
  | '0' :: 'o' :: digits => Text.word? 8 digits
  | '0' :: 'b' :: digits => Text.word? 2 digits
  | digits => decimal? digits

namespace Scalar

def empty : Scalar :=
  ⟨"", .plain, none⟩

def toNat? (s : Scalar) : Option Nat :=
  match s.style with
  | .plain => natural? s.text.toList
  | .literal => if s.tag == some intTag then natural? s.text.toList else none
  | .other => none

def spellsNull (s : Scalar) : Bool :=
  ["null", "Null", "NULL", "~"].contains s.text

def toOption? (s : Scalar) : Option (Option Nat) :=
  if s.style != .plain then s.toNat?.map some
  else if s.tag == some nullTag then (if s.spellsNull then some none else none)
  else if s.tag.isNone && (s.text.isEmpty || s.spellsNull) then some none
  else s.toNat?.map some

end Scalar

end OrderedChoice.Yaml
