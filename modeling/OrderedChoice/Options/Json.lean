import OrderedChoice.Diagnostic
import OrderedChoice.Json.Record
import OrderedChoice.Options.Basic

set_option autoImplicit false

namespace OrderedChoice.Options

structure Draft where
  maxDepth : Option (Option Nat) := none
  stackCapacity : Option Nat := none

def Draft.finish (d : Draft) : Options :=
  let default : Options := {}
  ⟨d.maxDepth.getD default.maxDepth, d.stackCapacity.getD default.stackCapacity⟩

open Json Read

def jsonMember (name : String) (d : Draft) : Read Draft := do
  if name == "max_depth" then
    if d.maxDepth.isSome then failObject (.duplicateField name)
    colon
    return { d with maxDepth := some (← optional natural) }
  else if name == "stack_capacity" then
    if d.stackCapacity.isSome then failObject (.duplicateField name)
    colon
    return { d with stackCapacity := some (← natural) }
  else failObject (.unknownField name "`max_depth` or `stack_capacity`")

def jsonElements (d : Draft) : Read Draft := do
  let maxDepth ← element? true (optional natural)
  let stackCapacity ← element? maxDepth.isNone natural
  return { d with maxDepth, stackCapacity }

def jsonRecord : Record Draft where
  expected := "struct ParseOptions"
  blank := {}
  member := jsonMember
  elements := jsonElements
  missing _ := none

def invalid (reason : String) : Diagnostic :=
  .report .config (.invalidOptions reason)

def ofJson (text : String) : Except Diagnostic Options :=
  match readRecord jsonRecord text with
  | .ok d => .ok d.finish
  | .error f => .error (invalid f.message)

end OrderedChoice.Options
