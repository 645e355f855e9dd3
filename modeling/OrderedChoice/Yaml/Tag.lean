import OrderedChoice.Text.Digits
import OrderedChoice.Yaml.Cursor

set_option autoImplicit false

namespace OrderedChoice.Yaml

/-- A tag as it is written. Without a handle the suffix is the full tag. -/
structure Tag where
  handle : String
  suffix : String
deriving DecidableEq, Repr

inductive Directive where
  | version (major minor : Nat)
  | handle (name start : String)
deriving DecidableEq, Repr

namespace Read

def isTagChar (all : Bool) (c : Char) : Bool :=
  isNameChar c || ";/?:@&=+$.%!~*'()".toList.contains c || (all && ",[]".toList.contains c)

def octet : Read Nat := do
  match ← rest with
  | '%' :: c :: d :: _ =>
    skip 3
    match Text.word? 16 [c, d] with
    | some n => return n
    | none => failure
  | _ => failure

def octetWidth (n : Nat) : Nat :=
  if n < 0x80 then 1
  else if n < 0xc0 then 0
  else if n < 0xe0 then 2
  else if n < 0xf0 then 3
  else if n < 0xf8 then 4
  else 0

def laterOctets : Nat → Read (List Nat)
  | 0 => return []
  | n + 1 => do
    let o ← octet
    ensure (0x80 ≤ o && o < 0xc0)
    return o :: (← laterOctets n)

def octets : Read (List Nat) := do
  let o ← octet
  ensure (octetWidth o != 0)
  return o :: (← laterOctets (octetWidth o - 1))

def tagCharsWithin (all : Bool) : Nat → List Char → Read (List Char)
  | 0, taken => return taken
  | fuel + 1, taken => do
    match ← peek with
    | some '%' =>
      let os ← octets
      tagCharsWithin all fuel ((os.map Char.ofNat).reverse ++ taken)
    | some c =>
      if isTagChar all c then
        advance
        tagCharsWithin all fuel (c :: taken)
      else return taken
    | none => return taken

/-- The text of a tag that goes on from `head`; it may not be empty unless `head` stands for more
than it holds. -/
def tagText (all optional : Bool) (head : List Char) : Read String := do
  let taken ← tagCharsWithin all ((← rest).length + 1) head.reverse
  ensure (optional || !taken.isEmpty)
  return String.ofList (taken.reverse.takeWhile (· != '\x00'))

def tag (flow : Bool) : Read Tag := do
  advance
  let tag : Tag ←
    match ← peek with
    | some '<' =>
      advance
      let suffix ← tagText true false []
      ensure ((← peek) == some '>')
      advance
      pure ⟨"", suffix⟩
    | _ =>
      let word ← takeWhile isNameChar
      if (← peek) == some '!' then
        advance
        pure ⟨"!" ++ String.ofList word ++ "!", ← tagText false false []⟩
      else
        let suffix ← tagText false true word
        pure (if suffix.isEmpty then ⟨"", "!"⟩ else ⟨"!", suffix⟩)
  ensure (endsWord (← rest) || (flow && (← peek) == some ','))
  return tag

def versionNumber : Read Nat := do
  let digits ← takeWhile Char.isDigit
  ensure (digits.length ≤ 9)
  match Text.word? 10 digits with
  | some n => return n
  | none => failure

def directiveHandle : Read String := do
  ensure ((← peek) == some '!')
  advance
  let word ← takeWhile isNameChar
  if (← peek) == some '!' then
    advance
    return "!" ++ String.ofList word ++ "!"
  else
    ensure word.isEmpty
    return "!"

def directive : Read Directive := do
  advance
  let word ← takeWhile isNameChar
  ensure (endsWord (← rest))
  let _ ← takeWhile isBlank
  let directive : Directive ←
    if word == "YAML".toList then
      let major ← versionNumber
      ensure ((← peek) == some '.')
      advance
      pure (.version major (← versionNumber))
    else
      ensure (word == "TAG".toList)
      let handle ← directiveHandle
      ensure ((← peek).any isBlank)
      let _ ← takeWhile isBlank
      let start ← tagText true false []
      ensure (endsWord (← rest))
      pure (.handle handle start)
  lineEnd
  return directive

end Read

end OrderedChoice.Yaml
