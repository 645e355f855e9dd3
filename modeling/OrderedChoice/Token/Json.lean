import OrderedChoice.Decimal.Layout
import OrderedChoice.Json.Record
import OrderedChoice.Token

set_option autoImplicit false

namespace OrderedChoice.Token

structure Draft where
  name : Option String := none
  value : Option Int := none

open Json Read

def jsonMember (name : String) (d : Draft) : Read Draft := do
  if name == "name" then
    if d.name.isSome then failObject (.duplicateField name)
    colon
    return { d with name := some (← text) }
  else if name == "value" then
    if d.value.isSome then failObject (.duplicateField name)
    colon
    return { d with value := some (← integer) }
  else
    colon
    skipValue
    return d

def jsonElements (_ : Draft) : Read Draft := do
  let expected := "struct Token with 2 elements"
  match ← element? true text with
  | none => failArray (.wrongLength 0 expected)
  | some name =>
    match ← element? false integer with
    | none => failArray (.wrongLength 1 expected)
    | some value => return ⟨some name, some value⟩

def jsonMissing (d : Draft) : Option Problem :=
  if d.name.isNone then some (.missingField "name")
  else if d.value.isNone then some (.missingField "value")
  else none

def jsonRecord : Record Draft where
  expected := "struct Token"
  blank := {}
  member := jsonMember
  elements := jsonElements
  missing := jsonMissing

def ofJson (text : String) : Except Failure (Token Int) :=
  (readRecord jsonRecord text).map fun d => ⟨d.name.getD "", d.value.getD 0⟩

def json {V : Type} (value : V → String) (t : Token V) : String :=
  "\x7b\"name\":" ++ writeString t.name ++ ",\"value\":" ++ value t.value ++ "\x7d"

def listJson (tokens : List (Token Float)) : String :=
  "[" ++ ",".intercalate (tokens.map (json Decimal.data.text)) ++ "]"

end OrderedChoice.Token
