import OrderedChoice.Yaml.Token

set_option autoImplicit false

namespace OrderedChoice.Yaml

abbrev Pairs := List (Scalar × Scalar)

/-- A scalar in its place, or the number of an anchor that stands for one. -/
inductive Entry where
  | scalar (s : Scalar)
  | numbered (n : Nat)
deriving DecidableEq, Repr

/-- Anchors by name and nodes by number; a node that is not a scalar is left out. -/
structure Anchors where
  numbers : List (String × Nat)
  nodes : List (Nat × Option Scalar)

namespace Anchors

def empty : Anchors :=
  ⟨[], []⟩

/-- Numbers an anchor by how many names are known. Giving a name again makes no new name, so the
anchor after it gets the same number, and the later node takes the place of the earlier. -/
def bind (a : Anchors) (name : Option String) (node : Option Scalar) : Anchors :=
  match name with
  | none => a
  | some name =>
    let number := a.numbers.length
    ⟨(name, number) :: a.numbers.filter (·.1 != name), (number, node) :: a.nodes⟩

def scalar? (a : Anchors) : Entry → Option Scalar
  | .scalar s => some s
  | .numbered n => (a.nodes.lookup n).join

end Anchors

structure Names where
  handles : List (String × String)
  anchors : Anchors

abbrev Parse (α : Type) := Names → List Token → Option (α × Names × List Token)

namespace Parse

def defaultHandles : List (String × String) :=
  [("!", "!"), ("!!", "tag:yaml.org,2002:")]

def fullTag? (handles : List (String × String)) (t : Tag) : Option String :=
  if t.handle.isEmpty then some t.suffix
  else
    match (handles ++ defaultHandles).lookup t.handle with
    | some start => some (start ++ t.suffix)
    | none => none

structure Properties where
  anchor : Option String
  tag : Option String

def Properties.isEmpty (p : Properties) : Bool :=
  p.anchor.isNone && p.tag.isNone

def properties (names : Names) (tokens : List Token) : Option (Properties × List Token) :=
  let tagged := fun (anchor : Option String) (t : Tag) (rest : List Token) =>
    (fullTag? names.handles t).map fun full => (⟨anchor, some full⟩, rest)
  match tokens with
  | .anchor a :: .tag t :: rest => tagged (some a) t rest
  | .tag t :: .anchor a :: rest => tagged (some a) t rest
  | .anchor a :: rest => some (⟨some a, none⟩, rest)
  | .tag t :: rest => tagged none t rest
  | rest => some (⟨none, none⟩, rest)

/-- A scalar or an alias. A lone exclamation mark tags nothing that is written out; properties alone
are an empty scalar. -/
def entry : Parse Entry := fun names tokens =>
  match tokens with
  | .reference a :: rest =>
    (names.anchors.numbers.lookup a).map fun n => (.numbered n, names, rest)
  | _ =>
    match properties names tokens with
    | none => none
    | some (p, rest) =>
      let finish := fun (s : Scalar) rest =>
        some (.scalar s, { names with anchors := names.anchors.bind p.anchor (some s) }, rest)
      match rest with
      | .scalar text style :: rest => finish ⟨text, style, p.tag.filter (· != "!")⟩ rest
      | _ => if p.isEmpty then none else finish ⟨"", .plain, p.tag⟩ rest

def entryUnless (absent : Token → Bool) : Parse Entry := fun names tokens =>
  if tokens.head?.any absent then some (.scalar .empty, names, tokens) else entry names tokens

def valueUnless (absent : Token → Bool) : Parse Entry := fun names tokens =>
  match tokens with
  | .value :: rest => entryUnless absent names rest
  | _ => some (.scalar .empty, names, tokens)

def endsBlockEntry : Token → Bool
  | .key => true
  | .value => true
  | .blockEnd => true
  | _ => false

def blockPairs : Nat → List (Entry × Entry) → Parse (List (Entry × Entry))
  | 0, _, _, _ => none
  | _ + 1, pairs, names, .blockEnd :: rest => some (pairs, names, rest)
  | fuel + 1, pairs, names, .key :: rest => do
    let (key, names, rest) ← entryUnless endsBlockEntry names rest
    let (value, names, rest) ← valueUnless endsBlockEntry names rest
    blockPairs fuel ((key, value) :: pairs) names rest
  | _ + 1, _, _, _ => none

def endsFlowValue : Token → Bool
  | .flowEntry => true
  | .flowMappingEnd => true
  | _ => false

def endsFlowKey (t : Token) : Bool :=
  t == .value || endsFlowValue t

def flowPair : Parse (Entry × Entry) := fun names tokens =>
  match tokens with
  | .key :: rest => do
    let (key, names, rest) ← entryUnless endsFlowKey names rest
    let (value, names, rest) ← valueUnless endsFlowValue names rest
    return ((key, value), names, rest)
  | _ => do
    let (key, names, rest) ← entry names tokens
    return ((key, .scalar .empty), names, rest)

/-- The pairs between braces, in reverse. All but the first need a comma before them, and there may
be one after the last. -/
def flowPairs : Nat → List (Entry × Entry) → Parse (List (Entry × Entry))
  | 0, _, _, _ => none
  | _ + 1, pairs, names, .flowMappingEnd :: rest => some (pairs, names, rest)
  | _ + 1, pairs, names, .flowEntry :: .flowMappingEnd :: rest =>
    if pairs.isEmpty then none else some (pairs, names, rest)
  | fuel + 1, [], names, tokens => do
    let (pair, names, rest) ← flowPair names tokens
    flowPairs fuel [pair] names rest
  | fuel + 1, pairs, names, .flowEntry :: rest => do
    let (pair, names, rest) ← flowPair names rest
    flowPairs fuel (pair :: pairs) names rest
  | _ + 1, _, _, _ => none

def mapping : Parse (List (Entry × Entry)) := fun names tokens => do
  let (p, rest) ← properties names tokens
  let names := { names with anchors := names.anchors.bind p.anchor none }
  match rest with
  | .blockMappingStart :: rest => blockPairs (rest.length + 1) [] names rest
  | .flowMappingStart :: rest => flowPairs (rest.length + 1) [] names rest
  | _ => if p.isEmpty then none else some ([], names, rest)

def directives (versioned : Bool) (handles : List (String × String)) :
    List Token → Option (List (String × String) × List Token)
  | .directive (.version major minor) :: rest =>
    if versioned || major != 1 || (minor != 1 && minor != 2) then none
    else directives true handles rest
  | .directive (.handle name start) :: rest =>
    if (handles.lookup name).isSome then none
    else directives versioned ((name, start) :: handles) rest
  | rest => some (handles, rest)

def endsDocument : Token → Bool
  | .directive _ => true
  | .documentStart => true
  | .documentEnd => true
  | _ => false

def content : Parse (List (Entry × Entry)) := fun names tokens =>
  if tokens.head?.all endsDocument then some ([], names, tokens) else mapping names tokens

def stream (tokens : List Token) : Option Pairs := do
  let (pairs, names, rest) ←
    match tokens with
    | [] => some ([], ⟨[], .empty⟩, [])
    | t :: _ =>
      if t == .documentStart || t matches .directive _ then do
        let (handles, rest) ← directives false [] tokens
        match rest with
        | .documentStart :: rest => content ⟨handles, .empty⟩ rest
        | _ => none
      else mapping ⟨[], .empty⟩ tokens
  if (rest.dropWhile (· == .documentEnd)).isEmpty then
    pairs.reverse.mapM fun (key, value) => do
      return (← names.anchors.scalar? key, ← names.anchors.scalar? value)
  else none

end Parse

def pairs? (text : String) : Option Pairs :=
  (tokens? text).bind Parse.stream

end OrderedChoice.Yaml
