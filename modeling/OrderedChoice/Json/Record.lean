import OrderedChoice.Json.Value

set_option autoImplicit false

namespace OrderedChoice.Json

structure Record (S : Type) where
  expected : String
  blank : S
  member : String → S → Read S
  elements : S → Read S
  missing : S → Option Problem

namespace Read

/-- Moves past the end of an object that is found wrong, as far as it can be seen. -/
def settleObject : Read Unit := do
  match ← peekPastBlanks? with
  | some b => if b == byte '\x7d' then advance else pure ()
  | none => pure ()

def settleArray : Read Unit := do
  match ← peekPastBlanks? with
  | some b =>
    if b == byte ']' then advance
    else if b == byte ',' then
      advance
      let _ ← peekPastBlanks?
    else pure ()
  | none => pure ()

def failObject {α : Type} (problem : Problem) : Read α := do
  settleObject
  failHere problem

def failArray {α : Type} (problem : Problem) : Read α := do
  settleArray
  failHere problem

def colon : Read Unit := do
  match ← peekPastBlanks? with
  | some b => if b == byte ':' then advance else failAhead .expectedColon
  | none => failAhead .endInObject

def moreMembers (first : Bool) : Read Bool := do
  match ← peekPastBlanks? with
  | none => failAhead .endInObject
  | some b =>
    if b == byte '\x7d' then return false
    else if first then
      if b == byte '"' then return true else failAhead .keyNotString
    else if b == byte ',' then
      advance
      match ← peekPastBlanks? with
      | none => failAhead .endInValue
      | some b =>
        if b == byte '"' then return true
        else if b == byte '\x7d' then failAhead .trailingComma
        else failAhead .keyNotString
    else failAhead .expectedMemberEnd

def moreElements (first : Bool) : Read Bool := do
  match ← peekPastBlanks? with
  | none => failAhead .endInList
  | some b =>
    if b == byte ']' then return false
    else if first then return true
    else if b == byte ',' then
      advance
      match ← peekPastBlanks? with
      | none => failAhead .endInValue
      | some b => if b == byte ']' then failAhead .trailingComma else return true
    else failAhead .expectedElementEnd

def element? {α : Type} (first : Bool) (value : Read α) : Read (Option α) := do
  if ← moreElements first then return some (← value) else return none

def membersWithin {S : Type} (member : String → S → Read S) : Nat → Bool → S → Read S
  | 0, _, draft => return draft
  | fuel + 1, first, draft => do
    if ← moreMembers first then
      advance
      let name ← string
      let draft ← member name draft
      membersWithin member fuel false draft
    else return draft

def closeObject : Read Unit := do
  match ← peekPastBlanks? with
  | some b =>
    if b == byte '\x7d' then advance
    else if b == byte ',' then failAhead .trailingComma
    else failAhead .trailingCharacters
  | none => failAhead .endInObject

def closeArray : Read Unit := do
  match ← peekPastBlanks? with
  | some b =>
    if b == byte ']' then advance
    else if b == byte ',' then
      advance
      match ← peekPastBlanks? with
      | some b => if b == byte ']' then failAhead .trailingComma else failAhead .trailingCharacters
      | none => failAhead .trailingCharacters
    else failAhead .trailingCharacters
  | none => failAhead .endInList

def record {S : Type} (r : Record S) : Read S := do
  match ← peekPastBlanks? with
  | none => failAhead .endInValue
  | some b =>
    if b == byte '[' then
      advance
      let draft ← r.elements r.blank
      closeArray
      return draft
    else if b == byte '\x7b' then
      advance
      let draft ← membersWithin r.member ((← get).rest.length + 1) true r.blank
      match r.missing draft with
      | some problem => failObject problem
      | none =>
        closeObject
        return draft
    else wrongKind b r.expected

def finish : Read Unit := do
  match ← peekPastBlanks? with
  | some _ => failAhead .trailingCharacters
  | none => pure ()

end Read

def readRecord {S : Type} (r : Record S) (text : String) : Except Failure S :=
  (do
    let draft ← Read.record r
    Read.finish
    return draft : Read S).run' (.ofString text)

end OrderedChoice.Json
