set_option autoImplicit false

namespace OrderedChoice.Json

/-- A line, counted from one, and how many of its bytes have been passed. -/
structure Place where
  line : Nat
  column : Nat
deriving DecidableEq, Repr

structure Cursor where
  rest : List UInt8
  place : Place

def Place.after (p : Place) (byte : UInt8) : Place :=
  if byte == 10 then ⟨p.line + 1, 0⟩ else ⟨p.line, p.column + 1⟩

inductive Problem where
  | endInValue
  | endInObject
  | endInList
  | endInString
  | expectedValue
  | expectedWord
  | expectedColon
  | expectedMemberEnd
  | expectedElementEnd
  | keyNotString
  | trailingComma
  | trailingCharacters
  | invalidNumber
  | numberOutOfRange
  | invalidEscape
  | endInEscape
  | loneSurrogate
  | controlCharacter
  | wrongType (found expected : String)
  | wrongValue (found expected : String)
  | wrongLength (found : Nat) (expected : String)
  | duplicateField (name : String)
  | unknownField (name : String) (expected : String)
  | missingField (name : String)
deriving DecidableEq, Repr

def Problem.message : Problem → String
  | endInValue => "EOF while parsing a value"
  | endInObject => "EOF while parsing an object"
  | endInList => "EOF while parsing a list"
  | endInString => "EOF while parsing a string"
  | expectedValue => "expected value"
  | expectedWord => "expected ident"
  | expectedColon => "expected `:`"
  | expectedMemberEnd => "expected `,` or `\x7d`"
  | expectedElementEnd => "expected `,` or `]`"
  | keyNotString => "key must be a string"
  | trailingComma => "trailing comma"
  | trailingCharacters => "trailing characters"
  | invalidNumber => "invalid number"
  | numberOutOfRange => "number out of range"
  | invalidEscape => "invalid escape"
  | endInEscape => "unexpected end of hex escape"
  | loneSurrogate => "lone leading surrogate in hex escape"
  | controlCharacter => "control character (\\u0000-\\u001F) found while parsing a string"
  | wrongType found expected => s!"invalid type: {found}, expected {expected}"
  | wrongValue found expected => s!"invalid value: {found}, expected {expected}"
  | wrongLength found expected => s!"invalid length {found}, expected {expected}"
  | duplicateField name => s!"duplicate field `{name}`"
  | unknownField name expected => s!"unknown field `{name}`, expected {expected}"
  | missingField name => s!"missing field `{name}`"

structure Failure where
  problem : Problem
  place : Place
deriving DecidableEq, Repr

def Failure.message (f : Failure) : String :=
  f.problem.message ++ s!" at line {f.place.line} column {f.place.column}"

abbrev Read := StateT Cursor (Except Failure)

def Cursor.ofString (s : String) : Cursor :=
  ⟨s.toUTF8.toList, ⟨1, 0⟩⟩

def Cursor.skip : Nat → Cursor → Cursor
  | 0, c => c
  | n + 1, c =>
    match c.rest with
    | [] => c
    | b :: rest => skip n ⟨rest, c.place.after b⟩

def Cursor.ahead (c : Cursor) : Place :=
  (c.skip 1).place

namespace Read

def failHere {α : Type} (problem : Problem) : Read α := do
  throw ⟨problem, (← get).place⟩

def failAhead {α : Type} (problem : Problem) : Read α := do
  throw ⟨problem, (← get).ahead⟩

def peek? : Read (Option UInt8) := do
  return (← get).rest.head?

def advance : Read Unit :=
  modify (Cursor.skip 1)

def next? : Read (Option UInt8) := do
  let b ← peek?
  advance
  return b

def takeWhile (p : UInt8 → Bool) : Read (List UInt8) := do
  let taken := (← get).rest.takeWhile p
  modify (Cursor.skip taken.length)
  return taken

def isBlank (b : UInt8) : Bool :=
  b == 32 || b == 10 || b == 9 || b == 13

def peekPastBlanks? : Read (Option UInt8) := do
  let _ ← takeWhile isBlank
  peek?

def word : List UInt8 → Read Unit
  | [] => pure ()
  | expected :: letters => do
    match ← next? with
    | none => failHere .endInValue
    | some b => if b == expected then word letters else failHere .expectedWord

end Read

def ascii (s : String) : List UInt8 :=
  s.toUTF8.toList

def byte (c : Char) : UInt8 :=
  c.toNat.toUInt8

def isDigit (b : UInt8) : Bool :=
  48 ≤ b && b ≤ 57

end OrderedChoice.Json
