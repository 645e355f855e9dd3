import OrderedChoice.Options.Json
import OrderedChoice.Yaml.Flat

set_option autoImplicit false

namespace OrderedChoice.Options

def yamlPair (d : Draft) (pair : Yaml.Scalar × Yaml.Scalar) : Option Draft :=
  if pair.1.text == "max_depth" then
    if d.maxDepth.isSome then none
    else pair.2.toOption?.map fun v => { d with maxDepth := some v }
  else if pair.1.text == "stack_capacity" then
    if d.stackCapacity.isSome then none
    else pair.2.toNat?.map fun v => { d with stackCapacity := some v }
  else none

def ofYaml (text : String) : Except Diagnostic Options :=
  match (Yaml.pairs? text).bind (·.foldlM yamlPair {}) with
  | some d => .ok d.finish
  | none => .error (invalid "malformed YAML")

end OrderedChoice.Options
