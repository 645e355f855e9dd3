import OrderedChoice.Proofs.Compilation
import OrderedChoice.Proofs.Execution

set_option autoImplicit false

namespace OrderedChoice

variable {H V : Type} {N : String → Prop} {A : Action H V → Prop}

namespace Rule

mutual
/-- Every reference in a rule is to one of the names `N` and every action is one of `A`, scopes
included. -/
def MadeOf (N : String → Prop) (A : Action H V → Prop) : Rule H V → Prop
  | ref name => N name
  | terminal _ => True
  | scope body => MadeOf N A body
  | sequence parts => PartsMadeOf N A parts
  | alternative parts => PartsMadeOf N A parts
  | action act => A act
  | terminated body => MadeOf N A body

def PartsMadeOf (N : String → Prop) (A : Action H V → Prop) : List (Rule H V) → Prop
  | [] => True
  | part :: parts => MadeOf N A part ∧ PartsMadeOf N A parts
end

theorem madeOf_enclosed {r : Rule H V} : r.enclosed.MadeOf N A ↔ r.MadeOf N A := by
  cases r <;> rfl

theorem partsMadeOf_of_forall₂ {parts forms : List (Rule H V)}
    (hp : List.Forall₂ (fun r f => r.MadeOf N A → f.MadeOf N A) parts forms)
    (h : PartsMadeOf N A parts) : PartsMadeOf N A forms := by
  induction hp with
  | nil => trivial
  | cons hq _ ih => exact ⟨hq h.1, ih h.2⟩

mutual
theorem MadeOf.refs : (r : Rule H V) → r.MadeOf N A → ∀ name ∈ r.refs, N name
  | ref name, h => by simpa [Rule.refs, MadeOf] using h
  | terminal _, _ => by simp [Rule.refs]
  | scope _, _ => by simp [Rule.refs]
  | sequence parts, h => PartsMadeOf.partRefs parts h
  | alternative parts, h => PartsMadeOf.partRefs parts h
  | action _, _ => by simp [Rule.refs]
  | terminated body, h => MadeOf.refs body h

theorem PartsMadeOf.partRefs : (parts : List (Rule H V)) → PartsMadeOf N A parts →
    ∀ name ∈ Rule.partRefs parts, N name
  | [], _ => by simp [Rule.partRefs]
  | part :: parts, h => by
    intro name hn
    rcases List.mem_append.mp hn with hn | hn
    · exact MadeOf.refs part h.1 name hn
    · exact PartsMadeOf.partRefs parts h.2 name hn
end

theorem PartsMadeOf.mem {parts : List (Rule H V)} (h : PartsMadeOf N A parts) {part : Rule H V}
    (hp : part ∈ parts) : part.MadeOf N A := by
  induction parts with
  | nil => cases hp
  | cons first parts ih =>
    rcases List.mem_cons.mp hp with rfl | hp
    · exact h.1
    · exact ih h.2 hp

mutual
theorem madeOf_of_forall (hN : ∀ name, N name) (hA : ∀ act, A act) :
    (r : Rule H V) → r.MadeOf N A
  | ref name => hN name
  | terminal _ => trivial
  | scope body => madeOf_of_forall hN hA body
  | sequence parts => partsMadeOf_of_forall hN hA parts
  | alternative parts => partsMadeOf_of_forall hN hA parts
  | action act => hA act
  | terminated body => madeOf_of_forall hN hA body

theorem partsMadeOf_of_forall (hN : ∀ name, N name) (hA : ∀ act, A act) :
    (parts : List (Rule H V)) → PartsMadeOf N A parts
  | [] => trivial
  | part :: parts => ⟨madeOf_of_forall hN hA part, partsMadeOf_of_forall hN hA parts⟩
end

theorem hereditary_madeOf : Hereditary (MadeOf N A : Rule H V → Prop) :=
  ⟨fun h => h, fun h => h, fun h => h, fun h => h⟩

end Rule

namespace Grammar

def MadeOf (N : String → Prop) (A : Action H V → Prop) (g : Grammar H V) : Prop :=
  ∀ name e, g.rules.get? name = some e →
    e.source.MadeOf N A ∧ ∀ form, e.compiled = some form → form.MadeOf N A

theorem madeOf_of_forall (hN : ∀ name, N name) (hA : ∀ act, A act) (g : Grammar H V) :
    g.MadeOf N A :=
  fun _ e _ => ⟨Rule.madeOf_of_forall hN hA e.source, fun form _ =>
    Rule.madeOf_of_forall hN hA form⟩

theorem MadeOf.source {g : Grammar H V} (h : g.MadeOf N A) {name : String} {source : Rule H V}
    (hs : g.source? name = some source) : source.MadeOf N A := by
  obtain ⟨e, he, rfl⟩ := Option.map_eq_some_iff.mp hs
  exact (h name e he).1

theorem madeOf_ofTerminals (terminals : List String) :
    (ofTerminals terminals : Grammar H V).MadeOf N A :=
  nofun

theorem MadeOf.define {g : Grammar H V} (h : g.MadeOf N A) (name : String) {body : Rule H V}
    (hb : body.MadeOf N A) : (g.define name body).MadeOf N A := by
  intro other e he
  constructor
  · have hs := source?_of_get? he
    rw [source?_define] at hs
    by_cases hn : other = name
    · rw [if_pos hn] at hs
      cases hs
      exact hb
    · rw [if_neg hn] at hs
      exact h.source hs
  · intro form hf
    have hnone := compiled?_define g name other body
    rw [compiled?, he, Option.bind_some, hf] at hnone
    cases hnone

theorem MadeOf.memoize {g : Grammar H V} (h : g.MadeOf N A) (name : String) {form : Rule H V}
    (hf : form.MadeOf N A) : MadeOf N A { g with rules := g.rules.memoize name form } := by
  intro other e he
  rw [Table.get?_memoize] at he
  obtain ⟨e', he', rfl⟩ := Option.map_eq_some_iff.mp he
  obtain ⟨hs, hc⟩ := h other e' he'
  by_cases hn : other = name
  · rw [if_pos hn]
    refine ⟨hs, fun form' heq => ?_⟩
    cases heq
    exact hf
  · rw [if_neg hn]
    exact ⟨hs, hc⟩

theorem madeOf_compiles (top : List String) :
    Compiles top (fun _ c => c.grammar.MadeOf N A) (fun r f => r.MadeOf N A → f.MadeOf N A) where
  congruence :=
    ⟨fun _ h => h, fun _ h => h, fun _ h => h, Rule.partsMadeOf_of_forall₂,
      Rule.partsMadeOf_of_forall₂, fun hq h => hq h⟩
  terminal _ _ _ := trivial
  missing hI _ _ _ := ⟨hI, fun _ => trivial⟩
  known hI _ he _ := (hI _ _ he).2 _ rfl
  entered _ _ _ _ _ h := h
  enter hI _ _ _ _ := hI
  finish hI _ hs hq :=
    have hb := Rule.madeOf_enclosed.mpr (hq (hI.source hs))
    ⟨hI.memoize _ hb, fun _ => hb⟩

theorem MadeOf.resolve {g : Grammar H V} (hg : g.MadeOf N A) (name : String) :
    (g.resolve name).2.grammar.MadeOf N A ∧ (N name → (g.resolve name).1.MadeOf N A) :=
  resolve_compiles (madeOf_compiles [name]) g hg

end Grammar

/-- A name that is a terminal or has a body. -/
def Bodies.Means (b : Bodies H V) (name : String) : Prop :=
  b.isTerminal name = true ∨ (b.source? name).isSome = true

namespace Grammar

/-- All names in the rules of a grammar mean something, and nothing but `d` has been recorded. -/
def Silent (b : Bodies H V) (d : List Diagnostic) (g : Grammar H V) : Prop :=
  g.bodies = b ∧ g.MadeOf b.Means (fun _ => True) ∧ g.diagnostics = d

theorem silent_compiles (top : List String) {b : Bodies H V} {d : List Diagnostic}
    (htop : ∀ name ∈ top, b.Means name) :
    Compiles top (fun _ c => c.grammar.Silent b d)
      (fun r f => r.MadeOf b.Means (fun _ => True) → f.MadeOf b.Means (fun _ => True)) where
  congruence := (madeOf_compiles top).congruence
  terminal _ _ _ := trivial
  missing {path c name} hI ha ht hn := by
    obtain ⟨rfl, hm, hd⟩ := hI
    have hmean : c.grammar.bodies.Means name := by
      cases path with
      | nil => exact htop name ha
      | cons owner path =>
        obtain ⟨source, hs, hin⟩ := ha
        exact Rule.MadeOf.refs source (hm.source hs) name hin
    rcases hmean with hmean | hmean
    · rw [bodies_isTerminal, ht] at hmean
      cases hmean
    · rw [bodies_source?, source?, hn] at hmean
      cases hmean
  known hI _ he _ := (hI.2.1 _ _ he).2 _ rfl
  entered _ _ _ _ _ h := h
  enter hI _ _ _ _ := hI
  finish hI _ hs hq := by
    have hb := Rule.madeOf_enclosed.mpr (hq (hI.2.1.source hs))
    exact ⟨⟨(Compiling.memoize_extends _ _ _).1.trans hI.1, hI.2.1.memoize _ hb, hI.2.2⟩,
      fun _ => hb⟩

theorem Silent.compile {b : Bodies H V} {d : List Diagnostic} {g : Grammar H V}
    (hg : g.Silent b d) {rule : Rule H V} (hr : rule.MadeOf b.Means (fun _ => True)) :
    (g.compile rule).2.grammar.Silent b d ∧
      (g.compile rule).1.MadeOf b.Means (fun _ => True) := by
  obtain ⟨h, hq⟩ := compileVisiting_compiles
    (silent_compiles rule.refs (Rule.MadeOf.refs rule hr)) g [] hg
  exact ⟨h, hq hr⟩

theorem Silent.resolve {b : Bodies H V} {d : List Diagnostic} {g : Grammar H V}
    (hg : g.Silent b d) {name : String} (hn : b.Means name) :
    (g.resolve name).2.grammar.Silent b d ∧
      (g.resolve name).1.MadeOf b.Means (fun _ => True) := by
  have htop : ∀ other ∈ [name], b.Means other := by
    intro other ho
    cases List.mem_singleton.mp ho
    exact hn
  obtain ⟨h, hq⟩ := resolve_compiles (silent_compiles [name] htop) g hg
  exact ⟨h, hq hn⟩

theorem Silent.execute [Inhabited V] {b : Bodies H V} {d : List Diagnostic} {m : Machine H V}
    (hm : m.grammar.Silent b d) {rule : Rule H V} (hr : rule.MadeOf b.Means (fun _ => True))
    (budget : Nat) : (m.execute budget rule).2.grammar.Silent b d :=
  Machine.execute_grammar Rule.hereditary_madeOf (fun _ _ hn hg => hg.resolve hn) budget hr hm

end Grammar

end OrderedChoice
