import OrderedChoice.Json.Cursor

set_option autoImplicit false

namespace OrderedChoice.Json

def hexDigit? (b : UInt8) : Option Nat :=
  if isDigit b then some (b.toNat - 48)
  else if 97 ≤ b && b ≤ 102 then some (b.toNat - 87)
  else if 65 ≤ b && b ≤ 70 then some (b.toNat - 55)
  else none

def hexValue? (digits : List UInt8) : Option Nat :=
  digits.foldl (fun n b => do return 16 * (← n) + (← hexDigit? b)) (some 0)

def shortEscape? (b : UInt8) : Option Char :=
  if b == byte '"' then some '"'
  else if b == byte '\\' then some '\\'
  else if b == byte '/' then some '/'
  else if b == byte 'b' then some '\x08'
  else if b == byte 'f' then some '\x0c'
  else if b == byte 'n' then some '\n'
  else if b == byte 'r' then some '\r'
  else if b == byte 't' then some '\t'
  else none

namespace Read

def hexEscape : Read Nat := do
  let digits := (← get).rest.take 4
  modify (Cursor.skip 4)
  if digits.length < 4 then failHere .endInString
  else
    match hexValue? digits with
    | some n => return n
    | none => failHere .invalidEscape

def escapePart (expected : Char) : Read Unit := do
  match ← next? with
  | none => failHere .endInString
  | some b => if b == byte expected then pure () else failHere .endInEscape

/-- The character of an escape by number; one beyond the first plane takes two of them. -/
def unicodeEscape : Read Char := do
  let n ← hexEscape
  if 0xdc00 ≤ n && n ≤ 0xdfff then failHere .loneSurrogate
  else if 0xd800 ≤ n && n ≤ 0xdbff then
    escapePart '\\'
    escapePart 'u'
    let low ← hexEscape
    if 0xdc00 ≤ low && low ≤ 0xdfff then
      return Char.ofNat (0x10000 + (n - 0xd800) * 0x400 + (low - 0xdc00))
    else failHere .loneSurrogate
  else return Char.ofNat n

def escape : Read Char := do
  match ← next? with
  | none => failHere .endInString
  | some b =>
    if b == byte 'u' then unicodeEscape
    else
      match shortEscape? b with
      | some c => return c
      | none => failHere .invalidEscape

def skipEscape : Read Unit := do
  match ← next? with
  | none => failHere .endInString
  | some b =>
    if b == byte 'u' then
      let _ ← hexEscape
    else if (shortEscape? b).isSome then pure ()
    else failHere .invalidEscape

def isPlain (b : UInt8) : Bool :=
  32 ≤ b && b != byte '"' && b != byte '\\'

def stringWithin : Nat → List String → Read String
  | 0, _ => failHere .endInString
  | fuel + 1, pieces => do
    let plain ← takeWhile isPlain
    let pieces := (String.fromUTF8? ⟨plain.toArray⟩).getD "" :: pieces
    match ← next? with
    | none => failHere .endInString
    | some b =>
      if b == byte '"' then return String.join pieces.reverse
      else if b == byte '\\' then
        let c ← escape
        stringWithin fuel (c.toString :: pieces)
      else failHere .controlCharacter

def string : Read String := do
  stringWithin ((← get).rest.length + 1) []

def skipStringWithin : Nat → Read Unit
  | 0 => failHere .endInString
  | fuel + 1 => do
    let _ ← takeWhile isPlain
    match ← peek? with
    | none => failHere .endInString
    | some b =>
      if b == byte '"' then advance
      else if b == byte '\\' then
        advance
        skipEscape
        skipStringWithin fuel
      else failHere .controlCharacter

def skipString : Read Unit := do
  skipStringWithin ((← get).rest.length + 1)

end Read

def hexPair (n : Nat) : String :=
  String.ofList [Nat.digitChar (n / 16), Nat.digitChar (n % 16)]

def writtenChar (c : Char) : String :=
  match c with
  | '"' => "\\\""
  | '\\' => "\\\\"
  | '\n' => "\\n"
  | '\r' => "\\r"
  | '\t' => "\\t"
  | '\x08' => "\\b"
  | '\x0c' => "\\f"
  | c => if c.toNat < 32 then "\\u00" ++ hexPair c.toNat else c.toString

def writeString (s : String) : String :=
  "\"" ++ String.join (s.toList.map writtenChar) ++ "\""

end OrderedChoice.Json
