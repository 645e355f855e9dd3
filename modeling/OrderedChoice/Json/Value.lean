import OrderedChoice.Json.Number
import OrderedChoice.Json.Text
import OrderedChoice.Text.Quoted

set_option autoImplicit false

namespace OrderedChoice.Json.Read

/-- Fails with a description of the value that begins with the byte `first`. A scalar is read to its
end for that, an array or an object is not. -/
def wrongKind {α : Type} (first : UInt8) (expected : String) : Read α := do
  if first == byte 'n' then
    advance
    word (ascii "ull")
    failHere (.wrongType "null" expected)
  else if first == byte 't' then
    advance
    word (ascii "rue")
    failHere (.wrongType "boolean `true`" expected)
  else if first == byte 'f' then
    advance
    word (ascii "alse")
    failHere (.wrongType "boolean `false`" expected)
  else if first == byte '-' then
    advance
    let n ← number false
    failHere (.wrongType n.description expected)
  else if isDigit first then
    let n ← number true
    failHere (.wrongType n.description expected)
  else if first == byte '"' then
    advance
    let s ← string
    failHere (.wrongType ("string " ++ Text.quoted s) expected)
  else if first == byte '[' then failHere (.wrongType "sequence" expected)
  else if first == byte '\x7b' then failHere (.wrongType "map" expected)
  else failAhead .expectedValue

def anyNumber (expected : String) : Read Number := do
  match ← peekPastBlanks? with
  | none => failAhead .endInValue
  | some b =>
    if b == byte '-' then
      advance
      number false
    else if isDigit b then number true
    else wrongKind b expected

def natural : Read Nat := do
  match ← anyNumber "usize" with
  | .natural n => return n
  | .negative n => failHere (.wrongValue (Number.negative n).description "usize")
  | .real x => failHere (.wrongType (Number.real x).description "usize")

def integer : Read Int := do
  match ← anyNumber "i64" with
  | .natural n =>
    if n < signedBound then return n
    else failHere (.wrongValue (Number.natural n).description "i64")
  | .negative n => return -n
  | .real x => failHere (.wrongType (Number.real x).description "i64")

def text : Read String := do
  match ← peekPastBlanks? with
  | none => failAhead .endInValue
  | some b =>
    if b == byte '"' then
      advance
      string
    else wrongKind b "a string"

def optional {α : Type} (value : Read α) : Read (Option α) := do
  match ← peekPastBlanks? with
  | some b =>
    if b == byte 'n' then
      advance
      word (ascii "ull")
      return none
    else return some (← value)
  | none => return some (← value)

def skipDigits : Read Nat := do
  return (← takeWhile isDigit).length

def skipExponent : Read Unit := do
  advance
  match ← peek? with
  | some b => if b == byte '+' || b == byte '-' then advance else pure ()
  | none => pure ()
  match ← next? with
  | some b =>
    if isDigit b then
      let _ ← skipDigits
    else failHere .invalidNumber
  | none => failHere .invalidNumber

def skipNumberEnd (pointAllowed : Bool) : Read Unit := do
  match ← peek? with
  | some b =>
    if pointAllowed && b == byte '.' then
      advance
      if (← skipDigits) == 0 then failAhead .invalidNumber
      match ← peek? with
      | some b => if b == byte 'e' || b == byte 'E' then skipExponent else pure ()
      | none => pure ()
    else if b == byte 'e' || b == byte 'E' then skipExponent
    else pure ()
  | none => pure ()

def skipNumber : Read Unit := do
  match ← next? with
  | some b =>
    if b == byte '0' then
      if (← peek?).any isDigit then failAhead .invalidNumber
      skipNumberEnd true
    else if isDigit b then
      let _ ← skipDigits
      skipNumberEnd true
    else failHere .invalidNumber
  | none => failHere .invalidNumber

mutual
/-- Passes a value of any kind, at most `fuel` values deep and wide. -/
def skipValueWithin : Nat → Read Unit
  | 0 => failAhead .expectedValue
  | fuel + 1 => do
    match ← peekPastBlanks? with
    | none => failAhead .endInValue
    | some b =>
      if b == byte 'n' then
        advance
        word (ascii "ull")
      else if b == byte 't' then
        advance
        word (ascii "rue")
      else if b == byte 'f' then
        advance
        word (ascii "alse")
      else if b == byte '-' then
        advance
        skipNumber
      else if isDigit b then skipNumber
      else if b == byte '"' then
        advance
        skipString
      else if b == byte '[' then
        advance
        match ← peekPastBlanks? with
        | none => failAhead .endInList
        | some b => if b == byte ']' then advance else skipElementsWithin fuel
      else if b == byte '\x7b' then
        advance
        match ← peekPastBlanks? with
        | none => failAhead .endInObject
        | some b => if b == byte '\x7d' then advance else skipMembersWithin fuel
      else failAhead .expectedValue

def skipElementsWithin : Nat → Read Unit
  | 0 => failAhead .expectedValue
  | fuel + 1 => do
    skipValueWithin fuel
    match ← peekPastBlanks? with
    | none => failAhead .endInList
    | some b =>
      if b == byte ',' then
        advance
        skipElementsWithin fuel
      else if b == byte ']' then advance
      else failAhead .expectedElementEnd

def skipMembersWithin : Nat → Read Unit
  | 0 => failAhead .expectedValue
  | fuel + 1 => do
    match ← peekPastBlanks? with
    | none => failAhead .endInObject
    | some b => if b == byte '"' then advance else failAhead .keyNotString
    skipString
    match ← peekPastBlanks? with
    | none => failAhead .endInObject
    | some b => if b == byte ':' then advance else failAhead .expectedColon
    skipValueWithin fuel
    match ← peekPastBlanks? with
    | none => failAhead .endInObject
    | some b =>
      if b == byte ',' then
        advance
        skipMembersWithin fuel
      else if b == byte '\x7d' then advance
      else failAhead .expectedMemberEnd
end

def skipValue : Read Unit := do
  skipValueWithin (2 * (← get).rest.length + 2)

end OrderedChoice.Json.Read
