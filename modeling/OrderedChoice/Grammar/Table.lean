import OrderedChoice.Rule.Basic

set_option autoImplicit false

namespace OrderedChoice

structure Entry (H V : Type) where
  source : Rule H V
  compiled : Option (Rule H V)

/-- Names with their entries, in the order in which they were first defined. -/
structure Table (H V : Type) where
  entries : List (String × Entry H V)

def sortedNames (names : List String) : List String :=
  names.eraseDups.mergeSort fun a b => decide (a ≤ b)

namespace Table

variable {H V : Type}

def empty : Table H V :=
  ⟨[]⟩

def get? (t : Table H V) (name : String) : Option (Entry H V) :=
  t.entries.lookup name

def contains (t : Table H V) (name : String) : Bool :=
  (t.get? name).isSome

def names (t : Table H V) : List String :=
  sortedNames (t.entries.map Prod.fst)

def define (t : Table H V) (name : String) (body : Rule H V) : Table H V :=
  if t.contains name then
    ⟨t.entries.map fun e => if e.1 == name then (name, ⟨body, none⟩) else e⟩
  else ⟨t.entries ++ [(name, ⟨body, none⟩)]⟩

def memoize (t : Table H V) (name : String) (form : Rule H V) : Table H V :=
  ⟨t.entries.map fun e => if e.1 == name then (e.1, { e.2 with compiled := some form }) else e⟩

def anyCompiled (t : Table H V) : Bool :=
  t.entries.any fun e => e.2.compiled.isSome

def invalidate (t : Table H V) : Table H V :=
  ⟨t.entries.map fun e => (e.1, { e.2 with compiled := none })⟩

end Table

end OrderedChoice
