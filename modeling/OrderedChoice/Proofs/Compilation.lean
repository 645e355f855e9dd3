import OrderedChoice.Proofs.Table

set_option autoImplicit false

/-!
# What compilation does

Compilation changes a grammar only by keeping compiled forms and recording diagnostics, and it
enters each body at most once. `Compiles` collects what has to be checked of one step of it; from
that, `resolveWithin_compiles` and `compileVisiting_compiles` tell what holds of a whole run.
-/

namespace OrderedChoice

variable {H V : Type}

namespace Rule

mutual
def refs : Rule H V → List String
  | ref name => [name]
  | terminal _ => []
  | scope _ => []
  | sequence parts => partRefs parts
  | alternative parts => partRefs parts
  | action _ => []
  | terminated body => body.refs

def partRefs : List (Rule H V) → List String
  | [] => []
  | part :: parts => part.refs ++ partRefs parts
end

/-- A rule as it stands for a name: with a frame of its own unless it is a terminal, an action or a
scope. -/
def enclosed : Rule H V → Rule H V
  | ref name => scope (ref name)
  | terminal name => terminal name
  | scope body => scope body
  | sequence parts => scope (sequence parts)
  | alternative parts => scope (alternative parts)
  | action act => action act
  | terminated body => scope (terminated body)

theorem asBody_eq_enclosed (r : Rule H V) : r.asBody = r.enclosed := by
  cases r <;> rfl

/-- A relation between rules that is kept by all constructs and that a rule without references
outside scopes has to itself. -/
structure Congruence (Q : Rule H V → Rule H V → Prop) : Prop where
  terminal (name : String) : Q (.terminal name) (.terminal name)
  scope (body : Rule H V) : Q (.scope body) (.scope body)
  action (act : Action H V) : Q (.action act) (.action act)
  sequence {parts forms : List (Rule H V)} (h : List.Forall₂ Q parts forms) :
    Q (.sequence parts) (.sequence forms)
  alternative {parts forms : List (Rule H V)} (h : List.Forall₂ Q parts forms) :
    Q (.alternative parts) (.alternative forms)
  terminated {body form : Rule H V} (h : Q body form) : Q (.terminated body) (.terminated form)

theorem congruence_true : Congruence (fun _ _ : Rule H V => True) :=
  ⟨fun _ => trivial, fun _ => trivial, fun _ => trivial, fun _ => trivial, fun _ => trivial,
    fun _ => trivial⟩

/-- What is said of forms may depend on how far compilation has got, if it stays true as that goes
on along `R`. -/
structure Accrues (R : Compiling H V → Compiling H V → Prop)
    (Q : Compiling H V → Rule H V → Rule H V → Prop) : Prop where
  refl (c : Compiling H V) : R c c
  trans {c c' c'' : Compiling H V} (h : R c c') (h' : R c' c'') : R c c''
  mono {c c' : Compiling H V} {rule form : Rule H V} (h : R c c') (hq : Q c rule form) :
    Q c' rule form
  congruence (c : Compiling H V) : Congruence (Q c)

/-- What has to hold of every look-up made while a rule is compiled. -/
def Yields (resolve : String → Compiling H V → Option (Rule H V) × Compiling H V)
    (I : Compiling H V → Prop) (R : Compiling H V → Compiling H V → Prop)
    (Q : Compiling H V → Rule H V → Rule H V → Prop) (name : String) : Prop :=
  ∀ c, I c → I (resolve name c).2 ∧ R c (resolve name c).2 ∧
    Q (resolve name c).2 (ref name) ((resolve name c).1.getD (ref name))

def Resolves (resolve : String → Compiling H V → Option (Rule H V) × Compiling H V)
    (I : Compiling H V → Prop) (Q : Rule H V → Rule H V → Prop) (name : String) : Prop :=
  ∀ c, I c → I (resolve name c).2 ∧ Q (ref name) ((resolve name c).1.getD (ref name))

section

variable {resolve : String → Compiling H V → Option (Rule H V) × Compiling H V}
  {I : Compiling H V → Prop} {R : Compiling H V → Compiling H V → Prop}

mutual
theorem compileWith_accrues {Q : Compiling H V → Rule H V → Rule H V → Prop}
    (hA : Accrues R Q) : (rule : Rule H V) → (c : Compiling H V) →
    (∀ name ∈ rule.refs, Yields resolve I R Q name) → I c →
    I (compileWith resolve rule c).2 ∧ R c (compileWith resolve rule c).2 ∧
      Q (compileWith resolve rule c).2 rule (compileWith resolve rule c).1
  | ref name, c, hr, hc => by
    have h := hr name (by simp [refs]) c hc
    rw [compileWith]
    generalize resolve name c = r at h
    obtain ⟨form, c⟩ := r
    cases form <;> exact h
  | terminal name, c, _, hc => ⟨hc, hA.refl c, (hA.congruence c).terminal name⟩
  | scope body, c, _, hc => ⟨hc, hA.refl c, (hA.congruence c).scope body⟩
  | sequence parts, c, hr, hc => by
    obtain ⟨hI, hR, hp⟩ := compilePartsWith_accrues hA parts c hr hc
    exact ⟨hI, hR, (hA.congruence _).sequence hp⟩
  | alternative parts, c, hr, hc => by
    obtain ⟨hI, hR, hp⟩ := compilePartsWith_accrues hA parts c hr hc
    exact ⟨hI, hR, (hA.congruence _).alternative hp⟩
  | action act, c, _, hc => ⟨hc, hA.refl c, (hA.congruence c).action act⟩
  | terminated body, c, hr, hc => by
    obtain ⟨hI, hR, hb⟩ := compileWith_accrues hA body c hr hc
    exact ⟨hI, hR, (hA.congruence _).terminated hb⟩

theorem compilePartsWith_accrues {Q : Compiling H V → Rule H V → Rule H V → Prop}
    (hA : Accrues R Q) : (parts : List (Rule H V)) →
    (c : Compiling H V) → (∀ name ∈ partRefs parts, Yields resolve I R Q name) → I c →
    I (compilePartsWith resolve parts c).2 ∧ R c (compilePartsWith resolve parts c).2 ∧
      List.Forall₂ (Q (compilePartsWith resolve parts c).2) parts
        (compilePartsWith resolve parts c).1
  | [], c, _, hc => ⟨hc, hA.refl c, .nil⟩
  | part :: parts, c, hr, hc => by
    obtain ⟨hI, hR, hp⟩ := compileWith_accrues hA part c
      (fun name hn => hr name (by simp [partRefs, hn])) hc
    obtain ⟨hI', hR', hps⟩ := compilePartsWith_accrues hA parts (compileWith resolve part c).2
      (fun name hn => hr name (by simp [partRefs, hn])) hI
    exact ⟨hI', hA.trans hR hR', .cons (hA.mono hR' hp) hps⟩
end

theorem compileWith_keeps {Q : Rule H V → Rule H V → Prop} (hQ : Congruence Q) (rule : Rule H V)
    (c : Compiling H V) (hr : ∀ name ∈ rule.refs, Resolves resolve I Q name) (hc : I c) :
    I (compileWith resolve rule c).2 ∧ Q rule (compileWith resolve rule c).1 := by
  have hA : Accrues (fun _ _ : Compiling H V => True) (fun _ => Q) :=
    ⟨fun _ => trivial, fun _ _ => trivial, fun _ hq => hq, fun _ => hQ⟩
  have hyields : ∀ name ∈ rule.refs,
      Yields resolve I (fun _ _ => True) (fun _ => Q) name := by
    intro name hn c hc
    obtain ⟨hI, hq⟩ := hr name hn c hc
    exact ⟨hI, trivial, hq⟩
  obtain ⟨hI, -, hq⟩ := compileWith_accrues hA rule c hyields hc
  exact ⟨hI, hq⟩

end

end Rule

namespace Compiling

def Extends (c c' : Compiling H V) : Prop :=
  c'.grammar.bodies = c.grammar.bodies ∧ c.visited ⊆ c'.visited

theorem Extends.refl (c : Compiling H V) : c.Extends c :=
  ⟨rfl, List.Subset.refl _⟩

theorem Extends.trans {c c' c'' : Compiling H V} (h : c.Extends c') (h' : c'.Extends c'') :
    c.Extends c'' :=
  ⟨h'.1.trans h.1, List.Subset.trans h.2 h'.2⟩

theorem visit_extends (c : Compiling H V) (name : String) : c.Extends (c.visit name) :=
  ⟨rfl, List.subset_cons_self name c.visited⟩

theorem memoize_extends (c : Compiling H V) (name : String) (form : Rule H V) :
    c.Extends (c.memoize name form) := by
  refine ⟨?_, List.Subset.refl _⟩
  simp only [Grammar.bodies, memoize, Table.sources_memoize]

theorem reportUndefined_extends (c : Compiling H V) (name : String) (owner : Option String) :
    c.Extends (c.reportUndefined name owner) :=
  ⟨rfl, List.Subset.refl _⟩

def unentered (c : Compiling H V) : Nat :=
  (c.grammar.bodies.sources.filter fun e => !c.visited.contains e.1).length

theorem unentered_sublist {c c' : Compiling H V} (h : c.Extends c') :
    (c'.grammar.bodies.sources.filter fun e => !c'.visited.contains e.1).Sublist
      (c.grammar.bodies.sources.filter fun e => !c.visited.contains e.1) := by
  rw [h.1]
  apply List.monotone_filter_right
  intro e he
  simp only [Bool.not_eq_true', List.contains_eq_mem, decide_eq_false_iff_not] at he ⊢
  exact fun hv => he (h.2 hv)

theorem unentered_le {c c' : Compiling H V} (h : c.Extends c') : c'.unentered ≤ c.unentered :=
  (unentered_sublist h).length_le

theorem unentered_visit_lt {c : Compiling H V} {name : String} {source : Rule H V}
    (hs : c.grammar.source? name = some source) (hv : name ∉ c.visited) :
    (c.visit name).unentered < c.unentered := by
  have hsub := unentered_sublist (c.visit_extends name)
  refine Nat.lt_of_le_of_ne hsub.length_le fun he => ?_
  have hm : (name, source) ∈ c.grammar.bodies.sources := by
    rw [← Grammar.bodies_source?] at hs
    obtain ⟨before, after, heq, -⟩ := List.lookup_eq_some_iff.mp hs
    simp [heq]
  have hin : (name, source) ∈ c.grammar.bodies.sources.filter fun e => !c.visited.contains e.1 := by
    simpa using ⟨hm, hv⟩
  rw [← hsub.eq_of_length he] at hin
  simp [visit] at hin

end Compiling

namespace Grammar

theorem source?_of_get? {g : Grammar H V} {name : String} {e : Entry H V}
    (h : g.rules.get? name = some e) : g.source? name = some e.source := by
  simp [source?, h]

/-- A name whose body has to be entered to find its form. -/
def Fresh (c : Compiling H V) (name : String) (source : Rule H V) : Prop :=
  c.grammar.isTerminal name = false ∧ c.grammar.rules.get? name = some ⟨source, none⟩ ∧
    name ∉ c.visited

/-- The ways to find the form of a name without entering a body. -/
inductive Settled (owner : Option String) (name : String) (c : Compiling H V) :
    Option (Rule H V) × Compiling H V → Prop where
  | terminal (ht : c.grammar.isTerminal name = true) :
    Settled owner name c (some (.terminal name), c)
  | missing (ht : c.grammar.isTerminal name = false) (hn : c.grammar.rules.get? name = none) :
    Settled owner name c (some (.alternative []), c.reportUndefined name owner)
  | known {source form : Rule H V} (ht : c.grammar.isTerminal name = false)
    (he : c.grammar.rules.get? name = some ⟨source, some form⟩) :
    Settled owner name c (some form, c)
  | entered {source : Rule H V} (ht : c.grammar.isTerminal name = false)
    (he : c.grammar.rules.get? name = some ⟨source, none⟩) (hv : name ∈ c.visited) :
    Settled owner name c (none, c)

theorem resolveWithin_settled_or_fresh (budget : Nat) (owner : Option String) (name : String)
    (c : Compiling H V) :
    Settled owner name c (resolveWithin budget owner name c) ∨ ∃ source, Fresh c name source := by
  unfold resolveWithin
  split
  · rename_i ht
    exact .inl (.terminal ht)
  · rename_i ht
    have ht : c.grammar.isTerminal name = false := by simpa using ht
    split
    · rename_i hn
      exact .inl (.missing ht hn)
    · rename_i he
      exact .inl (.known ht he)
    · rename_i source he
      by_cases hv : name ∈ c.visited
      · rw [if_pos (by simpa using hv)]
        exact .inl (.entered ht he hv)
      · exact .inr ⟨source, ht, he, hv⟩

theorem resolveWithin_zero {c : Compiling H V} {name : String} {source : Rule H V}
    (h : Fresh c name source) (owner : Option String) :
    resolveWithin 0 owner name c = (none, c) := by
  obtain ⟨ht, he, hv⟩ := h
  simp [resolveWithin, ht, he]

theorem resolveWithin_succ {c : Compiling H V} {name : String} {source : Rule H V}
    (h : Fresh c name source) (budget : Nat) (owner : Option String) :
    resolveWithin (budget + 1) owner name c =
      (some (source.compileWith (resolveWithin budget (some name)) (c.visit name)).1.enclosed,
        (source.compileWith (resolveWithin budget (some name)) (c.visit name)).2.memoize name
          (source.compileWith (resolveWithin budget (some name)) (c.visit name)).1.enclosed) := by
  obtain ⟨ht, he, hv⟩ := h
  rw [resolveWithin]
  simp [ht, he, hv, Rule.asBody_eq_enclosed]

theorem Fresh.left {c : Compiling H V} {name : String} {source : Rule H V} {budget : Nat}
    (hf : Fresh c name source) (hb : c.unentered ≤ budget) :
    ∃ left, budget = left + 1 ∧ (c.visit name).unentered ≤ left := by
  have hlt := Compiling.unentered_visit_lt (source?_of_get? hf.2.1) hf.2.2
  exact ⟨budget - 1, by omega, by omega⟩

theorem resolveWithin_induction {P : Nat → Option String → String → Compiling H V → Prop}
    (settled : ∀ {budget : Nat} {owner : Option String} {name : String} {c : Compiling H V},
      Settled owner name c (resolveWithin budget owner name c) → P budget owner name c)
    (enter : ∀ {budget : Nat} {owner : Option String} {name : String} {c : Compiling H V}
      {source : Rule H V}, Fresh c name source → (c.visit name).unentered ≤ budget →
      (∀ other c', c'.unentered ≤ budget → P budget (some name) other c') →
      P (budget + 1) owner name c)
    (budget : Nat) (owner : Option String) (name : String) (c : Compiling H V)
    (hc : c.unentered ≤ budget) : P budget owner name c := by
  induction budget generalizing owner name c with
  | zero =>
    obtain h | ⟨source, hf⟩ := resolveWithin_settled_or_fresh 0 owner name c
    · exact settled h
    · obtain ⟨left, hleft, -⟩ := hf.left hc
      cases hleft
  | succ budget ih =>
    obtain h | ⟨source, hf⟩ := resolveWithin_settled_or_fresh (budget + 1) owner name c
    · exact settled h
    · obtain ⟨left, hleft, hc⟩ := hf.left hc
      cases hleft
      exact enter hf hc (ih (some name))

theorem Settled.extends {owner : Option String} {name : String} {c : Compiling H V}
    {r : Option (Rule H V) × Compiling H V} (h : Settled owner name c r) : c.Extends r.2 := by
  cases h with
  | missing => exact c.reportUndefined_extends name owner
  | terminal | known | entered => exact .refl c

theorem resolveWithin_extends (budget : Nat) (owner : Option String) (name : String)
    (c : Compiling H V) : c.Extends (resolveWithin budget owner name c).2 := by
  induction budget generalizing owner name c with
  | zero =>
    obtain h | ⟨source, h⟩ := resolveWithin_settled_or_fresh 0 owner name c
    · exact h.extends
    · rw [resolveWithin_zero h]
      exact .refl c
  | succ budget ih =>
    obtain h | ⟨source, h⟩ := resolveWithin_settled_or_fresh (budget + 1) owner name c
    · exact h.extends
    · rw [resolveWithin_succ h]
      have hstep : ∀ other ∈ source.refs, Rule.Resolves (resolveWithin budget (some name))
          ((c.visit name).Extends ·) (fun _ _ => True) other :=
        fun other _ c' h => ⟨h.trans (ih (some name) other c'), trivial⟩
      have hbody := (Rule.compileWith_keeps Rule.congruence_true source (c.visit name) hstep
        (.refl _)).1
      exact ((c.visit_extends name).trans hbody).trans (Compiling.memoize_extends _ _ _)

theorem compileWith_extends (budget : Nat) (owner : Option String) (rule : Rule H V)
    (c : Compiling H V) : c.Extends (rule.compileWith (resolveWithin budget owner) c).2 := by
  have hstep : ∀ other ∈ rule.refs, Rule.Resolves (resolveWithin budget owner)
      (c.Extends ·) (fun _ _ => True) other :=
    fun other _ c' h => ⟨h.trans (resolveWithin_extends _ _ other c'), trivial⟩
  exact (Rule.compileWith_keeps Rule.congruence_true rule _ hstep (.refl _)).1

theorem compileVisiting_extends (g : Grammar H V) (rule : Rule H V) (visited : List String) :
    Compiling.Extends ⟨g, visited, []⟩ (g.compileVisiting rule visited).2 :=
  compileWith_extends g.bodyCount none rule _

theorem compile_bodies (g : Grammar H V) (rule : Rule H V) :
    (g.compile rule).2.grammar.bodies = g.bodies :=
  (g.compileVisiting_extends rule []).1

theorem resolve_bodies (g : Grammar H V) (name : String) :
    (g.resolve name).2.grammar.bodies = g.bodies := by
  have hext := resolveWithin_extends g.bodyCount none name ⟨g, [], []⟩
  rw [resolve]
  generalize resolveWithin g.bodyCount none name ⟨g, [], []⟩ = r at hext
  obtain ⟨form, c⟩ := r
  cases form <;> exact hext.1

end Grammar

/-- The names that are looked up: those in the body of the first name of `path` while it is compiled
inside the bodies of the others, and those in `top` while none is. -/
def Asks (top path : List String) (name : String) (c : Compiling H V) : Prop :=
  match path with
  | [] => name ∈ top
  | owner :: _ => ∃ source, c.grammar.source? owner = some source ∧ name ∈ source.refs

/-- What one step of compilation has to keep: `I path` holds while the bodies of `path` are being
compiled, the first inside the others, and `Q` relates a rule to its form. -/
structure Compiles (top : List String) (I : List String → Compiling H V → Prop)
    (Q : Rule H V → Rule H V → Prop) : Prop where
  congruence : Rule.Congruence Q
  terminal {path : List String} {c : Compiling H V} {name : String} (hI : I path c)
    (ht : c.grammar.isTerminal name = true) : Q (.ref name) (.terminal name)
  missing {path : List String} {c : Compiling H V} {name : String} (hI : I path c)
    (ha : Asks top path name c) (ht : c.grammar.isTerminal name = false)
    (hn : c.grammar.rules.get? name = none) :
    I path (c.reportUndefined name path.head?) ∧ Q (.ref name) (.alternative [])
  known {path : List String} {c : Compiling H V} {name : String} {source form : Rule H V}
    (hI : I path c) (ht : c.grammar.isTerminal name = false)
    (he : c.grammar.rules.get? name = some ⟨source, some form⟩) : Q (.ref name) form
  entered {path : List String} {c : Compiling H V} {name : String} {source : Rule H V}
    (hI : I path c) (ha : Asks top path name c) (ht : c.grammar.isTerminal name = false)
    (he : c.grammar.rules.get? name = some ⟨source, none⟩) (hv : name ∈ c.visited) :
    Q (.ref name) (.ref name)
  enter {path : List String} {c : Compiling H V} {name : String} {source : Rule H V}
    (hI : I path c) (ha : Asks top path name c) (ht : c.grammar.isTerminal name = false)
    (he : c.grammar.rules.get? name = some ⟨source, none⟩) (hv : name ∉ c.visited) :
    I (name :: path) (c.visit name)
  finish {path : List String} {c : Compiling H V} {name : String} {source body : Rule H V}
    (hI : I (name :: path) c) (ht : c.grammar.isTerminal name = false)
    (hs : c.grammar.source? name = some source) (hq : Q source body) :
    I path (c.memoize name body.enclosed) ∧ Q (.ref name) body.enclosed

namespace Grammar

variable {top : List String} {I : List String → Compiling H V → Prop}
  {Q : Rule H V → Rule H V → Prop}

theorem Settled.compiles (hc : Compiles top I Q) {path : List String} {name : String}
    {c : Compiling H V} {r : Option (Rule H V) × Compiling H V} (ha : Asks top path name c)
    (hI : I path c) (h : Settled path.head? name c r) :
    I path r.2 ∧ Q (.ref name) (r.1.getD (.ref name)) := by
  cases h with
  | terminal ht => exact ⟨hI, hc.terminal hI ht⟩
  | missing ht hn => exact hc.missing hI ha ht hn
  | known ht he => exact ⟨hI, hc.known hI ht he⟩
  | entered ht he hv => exact ⟨hI, hc.entered hI ha ht he hv⟩

theorem resolveWithin_compiles (hc : Compiles top I Q) (budget : Nat) (path : List String)
    (name : String) (c : Compiling H V) (hb : c.unentered ≤ budget) (ha : Asks top path name c)
    (hI : I path c) :
    I path (resolveWithin budget path.head? name c).2 ∧
      Q (.ref name) ((resolveWithin budget path.head? name c).1.getD (.ref name)) := by
  -- The bodies that a look-up lies in come with it; the innermost is the one it is made for.
  refine resolveWithin_induction (P := fun budget owner name c => ∀ path : List String,
    path.head? = owner → Asks top path name c → I path c →
      I path (resolveWithin budget owner name c).2 ∧
        Q (.ref name) ((resolveWithin budget owner name c).1.getD (.ref name)))
    ?_ ?_ budget path.head? name c hb path rfl ha hI
  · rintro budget _ name c h path rfl ha hI
    exact h.compiles hc ha hI
  · rintro budget _ name c source hf hvisit ih path rfl ha hI
    rw [resolveWithin_succ hf]
    obtain ⟨ht, he, hv⟩ := hf
    have hs := source?_of_get? he
    have hstep : ∀ other ∈ source.refs, Rule.Resolves (resolveWithin budget (some name))
        (fun c' => (c.visit name).Extends c' ∧ I (name :: path) c') Q other := by
      intro other ho c' h
      have hle := Compiling.unentered_le h.1
      have hs' : c'.grammar.source? name = some source := by
        rw [← bodies_source?, h.1.1, bodies_source?]
        exact hs
      have hrec := ih other c' (Nat.le_trans hle hvisit) (name :: path) rfl ⟨source, hs', ho⟩ h.2
      exact ⟨⟨h.1.trans (resolveWithin_extends _ _ _ _), hrec.1⟩, hrec.2⟩
    obtain ⟨⟨hext, hin⟩, hq⟩ := Rule.compileWith_keeps hc.congruence source (c.visit name)
      hstep ⟨.refl _, hc.enter hI ha ht he hv⟩
    refine hc.finish hin ?_ ?_ hq
    · rw [← bodies_isTerminal, hext.1, bodies_isTerminal]
      exact ht
    · rw [← bodies_source?, hext.1, bodies_source?]
      exact hs

theorem unentered_le_bodyCount (g : Grammar H V) (visited : List String) (trace : Trace H V) :
    (⟨g, visited, trace⟩ : Compiling H V).unentered ≤ g.bodyCount := by
  have h := List.length_filter_le (fun e : String × Rule H V => !visited.contains e.1)
    g.bodies.sources
  simpa [Compiling.unentered, bodyCount, bodies, Table.sources] using h

theorem compileVisiting_compiles {rule : Rule H V} (hc : Compiles rule.refs I Q)
    (g : Grammar H V) (visited : List String) (hI : I [] ⟨g, visited, []⟩) :
    I [] (g.compileVisiting rule visited).2 ∧ Q rule (g.compileVisiting rule visited).1 := by
  have hstep : ∀ other ∈ rule.refs, Rule.Resolves (resolveWithin g.bodyCount none)
      (fun c => Compiling.Extends ⟨g, visited, []⟩ c ∧ I [] c) Q other := by
    intro other ho c h
    have hle := Compiling.unentered_le h.1
    have hcount := unentered_le_bodyCount g visited []
    have hrec := resolveWithin_compiles hc g.bodyCount [] other c (by omega) ho h.2
    exact ⟨⟨h.1.trans (resolveWithin_extends _ _ _ _), hrec.1⟩, hrec.2⟩
  obtain ⟨⟨-, hI'⟩, hq⟩ := Rule.compileWith_keeps hc.congruence rule ⟨g, visited, []⟩ hstep
    ⟨.refl _, hI⟩
  exact ⟨hI', hq⟩

theorem resolve_compiles {name : String} (hc : Compiles [name] I Q) (g : Grammar H V)
    (hI : I [] ⟨g, [], []⟩) :
    I [] (g.resolve name).2 ∧ Q (.ref name) (g.resolve name).1 := by
  have h := resolveWithin_compiles hc g.bodyCount [] name ⟨g, [], []⟩
    (unentered_le_bodyCount g [] []) (List.mem_singleton_self name) hI
  rw [resolve]
  rw [List.head?_nil] at h
  generalize resolveWithin g.bodyCount none name ⟨g, [], []⟩ = r at h ⊢
  obtain ⟨form, c⟩ := r
  cases form <;> exact h

end Grammar

end OrderedChoice
