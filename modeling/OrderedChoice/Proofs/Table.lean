import OrderedChoice.Grammar.Compile
import Mathlib

set_option autoImplicit false

namespace OrderedChoice

variable {H V : Type}

namespace Table

def change (t : Table H V) (f : String → Entry H V → Entry H V) : Table H V :=
  ⟨t.entries.map fun e => (e.1, f e.1 e.2)⟩

theorem lookup_map_value {α β : Type} (f : String → α → β) (entries : List (String × α))
    (name : String) :
    (entries.map fun e => (e.1, f e.1 e.2)).lookup name = (entries.lookup name).map (f name) := by
  induction entries with
  | nil => rfl
  | cons e entries ih =>
    obtain ⟨key, entry⟩ := e
    by_cases h : name = key
    · subst h
      simp
    · simp only [List.map_cons, List.lookup_cons, beq_eq_false_iff_ne.mpr h, ih]

theorem get?_change (t : Table H V) (f : String → Entry H V → Entry H V) (name : String) :
    (t.change f).get? name = (t.get? name).map (f name) :=
  lookup_map_value f t.entries name

theorem memoize_eq_change (t : Table H V) (name : String) (form : Rule H V) :
    t.memoize name form =
      t.change fun key e => if key = name then ⟨e.source, some form⟩ else e := by
  simp only [memoize, change]
  congr 1
  apply List.map_congr_left
  intro e _
  by_cases h : e.1 = name <;> simp [h]

theorem define_eq_change {t : Table H V} {name : String} (body : Rule H V)
    (h : t.contains name = true) :
    t.define name body = t.change fun key e => if key = name then ⟨body, none⟩ else e := by
  simp only [define, h, ↓reduceIte, change]
  congr 1
  apply List.map_congr_left
  intro e _
  by_cases hk : e.1 = name <;> simp [hk]

theorem get?_memoize (t : Table H V) (name other : String) (form : Rule H V) :
    (t.memoize name form).get? other =
      (t.get? other).map fun e => if other = name then ⟨e.source, some form⟩ else e := by
  rw [memoize_eq_change, get?_change]

theorem get?_invalidate (t : Table H V) (name : String) :
    t.invalidate.get? name = (t.get? name).map fun e => ⟨e.source, none⟩ :=
  get?_change t (fun _ e => ⟨e.source, none⟩) name

theorem get?_define_self (t : Table H V) (name : String) (body : Rule H V) :
    (t.define name body).get? name = some ⟨body, none⟩ := by
  by_cases h : t.contains name = true
  · obtain ⟨e, he⟩ := Option.isSome_iff_exists.mp h
    rw [define_eq_change body h, get?_change, he]
    simp
  · have hn : t.entries.lookup name = none := Option.not_isSome_iff_eq_none.mp h
    rw [define, if_neg h, get?, List.lookup_append, hn]
    simp

theorem get?_define_of_ne (t : Table H V) {name other : String} (body : Rule H V)
    (h : other ≠ name) : (t.define name body).get? other = t.get? other := by
  by_cases hc : t.contains name = true
  · rw [define_eq_change body hc, get?_change]
    simp [h]
  · have hb : (other == name) = false := beq_eq_false_iff_ne.mpr h
    rw [define, if_neg hc, get?, get?, List.lookup_append, List.lookup_cons, hb]
    simp

theorem compiled_eq_none {t : Table H V} (h : t.anyCompiled = false) {name : String}
    {e : Entry H V} (he : t.get? name = some e) : e.compiled = none := by
  have hm : (name, e) ∈ t.entries := by
    obtain ⟨before, after, heq, -⟩ := List.lookup_eq_some_iff.mp he
    simp [heq]
  simpa using List.any_eq_false.mp h _ hm

def sources (t : Table H V) : List (String × Rule H V) :=
  t.entries.map fun e => (e.1, e.2.source)

theorem lookup_sources (t : Table H V) (name : String) :
    t.sources.lookup name = (t.get? name).map Entry.source :=
  lookup_map_value (fun _ (e : Entry H V) => e.source) t.entries name

theorem sources_memoize (t : Table H V) (name : String) (form : Rule H V) :
    (t.memoize name form).sources = t.sources := by
  rw [memoize_eq_change]
  simp only [sources, change, List.map_map]
  apply List.map_congr_left
  intro e _
  by_cases h : e.1 = name <;> simp [h]

end Table

/-- The part of a grammar that only definitions change. -/
structure Bodies (H V : Type) where
  terminals : List String
  sources : List (String × Rule H V)

namespace Bodies

def isTerminal (b : Bodies H V) (name : String) : Bool :=
  b.terminals.contains name

def source? (b : Bodies H V) (name : String) : Option (Rule H V) :=
  b.sources.lookup name

def Defines (b : Bodies H V) (name : String) : Prop :=
  b.isTerminal name = false ∧ (b.source? name).isSome = true

end Bodies

namespace Grammar

def bodies (g : Grammar H V) : Bodies H V :=
  ⟨g.terminals, g.rules.sources⟩

@[simp] theorem bodies_isTerminal (g : Grammar H V) (name : String) :
    g.bodies.isTerminal name = g.isTerminal name := rfl

@[simp] theorem bodies_source? (g : Grammar H V) (name : String) :
    g.bodies.source? name = g.source? name :=
  g.rules.lookup_sources name

/-- A definition leaves no compiled form: nothing was compiled before, or all is discarded. -/
theorem compiled?_define (g : Grammar H V) (name other : String) (body : Rule H V) :
    (g.define name body).compiled? other = none := by
  simp only [define, compiled?]
  split
  · rw [Table.get?_invalidate]
    cases (g.rules.define name body).get? other <;> rfl
  · rename_i h
    have hn : (g.rules.define name body).anyCompiled = false := by
      simpa using (Bool.or_eq_false_iff.mp (Bool.not_eq_true _ ▸ h)).2
    cases he : (g.rules.define name body).get? other with
    | none => rfl
    | some e => simpa using Table.compiled_eq_none hn he

theorem source?_define (g : Grammar H V) (name other : String) (body : Rule H V) :
    (g.define name body).source? other = if other = name then some body else g.source? other := by
  have hdefined : ((g.rules.define name body).get? other).map Entry.source =
      if other = name then some body else g.source? other := by
    by_cases h : other = name
    · rw [h, Table.get?_define_self, if_pos rfl]
      rfl
    · rw [Table.get?_define_of_ne _ _ h, if_neg h]
      rfl
  simp only [define, source?]
  split
  · rw [Table.get?_invalidate, Option.map_map]
    exact hdefined
  · exact hdefined

theorem isDefined_eq (g : Grammar H V) (name : String) :
    g.isDefined name = (g.bodies.source? name).isSome := by
  rw [bodies_source?, source?, Option.isSome_map]
  rfl

theorem bodies_define {g : Grammar H V} {name : String} (body : Rule H V)
    (h : g.bodies.source? name = none) :
    (g.define name body).bodies = ⟨g.terminals, g.bodies.sources ++ [(name, body)]⟩ := by
  have hfresh : g.isDefined name = false := by rw [isDefined_eq, h]; rfl
  have hsources : (g.rules.define name body).sources = g.rules.sources ++ [(name, body)] := by
    have hc : ¬g.rules.contains name = true := by simpa [isDefined] using hfresh
    rw [Table.define, if_neg hc]
    simp [Table.sources]
  have hinvalidate : (g.rules.define name body).invalidate.sources =
      (g.rules.define name body).sources := by
    simp [Table.sources, Table.invalidate]
  simp only [bodies, define, hfresh, Bool.false_or]
  split
  · rw [hinvalidate, hsources]
  · rw [hsources]

end Grammar

end OrderedChoice
