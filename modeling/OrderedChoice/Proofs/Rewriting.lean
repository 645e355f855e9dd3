import OrderedChoice.Proofs.Coherence
import OrderedChoice.Proofs.Reporting

set_option autoImplicit false

/-!
# Compilation comes to an end

`Rewrites` tells what compilation does step by step, with no bound on how many bodies are entered
inside each other. Each body that is entered belongs to a name that has not been noted yet, and what
is compiled inside of it is smaller than the body, so every compilation has one result: the one that
is computed with as many bodies inside each other as the table has.
-/

namespace OrderedChoice

variable {H V : Type}

namespace Grammar

/-- `Rewrites owner rule c form c'`: compiling `rule`, which stands in the body of `owner` or in
none, goes from `c` to `c'` and gives `form`. The parts of an alternative are compiled as those of a
sequence are. -/
inductive Rewrites :
    Option String → Rule H V → Compiling H V → Rule H V → Compiling H V → Prop where
  | settled {owner : Option String} {name : String} {c : Compiling H V}
    {r : Option (Rule H V) × Compiling H V} (h : Settled owner name c r) :
    Rewrites owner (.ref name) c (r.1.getD (.ref name)) r.2
  | enter {owner : Option String} {name : String} {c c' : Compiling H V} {source body : Rule H V}
    (hf : Fresh c name source) (h : Rewrites (some name) source (c.visit name) body c') :
    Rewrites owner (.ref name) c body.enclosed (c'.memoize name body.enclosed)
  | terminal (owner : Option String) (name : String) (c : Compiling H V) :
    Rewrites owner (.terminal name) c (.terminal name) c
  | scope (owner : Option String) (body : Rule H V) (c : Compiling H V) :
    Rewrites owner (.scope body) c (.scope body) c
  | action (owner : Option String) (act : Action H V) (c : Compiling H V) :
    Rewrites owner (.action act) c (.action act) c
  | nil (owner : Option String) (c : Compiling H V) :
    Rewrites owner (.sequence []) c (.sequence []) c
  | cons {owner : Option String} {part form : Rule H V} {parts forms : List (Rule H V)}
    {c c' c'' : Compiling H V} (h : Rewrites owner part c form c')
    (h' : Rewrites owner (.sequence parts) c' (.sequence forms) c'') :
    Rewrites owner (.sequence (part :: parts)) c (.sequence (form :: forms)) c''
  | alternative {owner : Option String} {parts forms : List (Rule H V)} {c c' : Compiling H V}
    (h : Rewrites owner (.sequence parts) c (.sequence forms) c') :
    Rewrites owner (.alternative parts) c (.alternative forms) c'
  | terminated {owner : Option String} {body form : Rule H V} {c c' : Compiling H V}
    (h : Rewrites owner body c form c') :
    Rewrites owner (.terminated body) c (.terminated form) c'

end Grammar

namespace Rule

variable {resolve : String → Compiling H V → Option (Rule H V) × Compiling H V}

theorem compileWith_ref (name : String) (c : Compiling H V) :
    compileWith resolve (.ref name) c =
      ((resolve name c).1.getD (.ref name), (resolve name c).2) := by
  rw [compileWith]
  generalize resolve name c = r
  obtain ⟨form, c'⟩ := r
  cases form <;> rfl

theorem compileWith_sequence_cons {part form : Rule H V} {parts forms : List (Rule H V)}
    {c c' c'' : Compiling H V} (h : compileWith resolve part c = (form, c'))
    (h' : compileWith resolve (.sequence parts) c' = (.sequence forms, c'')) :
    compileWith resolve (.sequence (part :: parts)) c = (.sequence (form :: forms), c'') := by
  simp only [compileWith, compilePartsWith, h] at h' ⊢
  generalize compilePartsWith resolve parts c' = r at h' ⊢
  cases h'
  rfl

theorem compileWith_alternative {parts forms : List (Rule H V)} {c c' : Compiling H V}
    (h : compileWith resolve (.sequence parts) c = (.sequence forms, c')) :
    compileWith resolve (.alternative parts) c = (.alternative forms, c') := by
  simp only [compileWith] at h ⊢
  generalize compilePartsWith resolve parts c = r at h ⊢
  cases h
  rfl

end Rule

namespace Grammar

section

variable {budget : Nat} {owner : Option String} {name : String} {rule form : Rule H V}
  {c c' : Compiling H V} {r : Option (Rule H V) × Compiling H V}

theorem Settled.resolveWithin_eq (h : Settled owner name c r) (budget : Nat) :
    resolveWithin budget owner name c = r := by
  cases h with
  | terminal ht =>
    rw [resolveWithin]
    simp only [ht, ↓reduceIte]
  | missing ht hn =>
    rw [resolveWithin]
    simp only [ht, hn, Bool.false_eq_true, ↓reduceIte, Rule.fail]
  | known ht he =>
    rw [resolveWithin]
    simp only [ht, he, Bool.false_eq_true, ↓reduceIte]
  | entered ht he hv =>
    rw [resolveWithin]
    simp only [ht, he, Bool.false_eq_true, ↓reduceIte, List.contains_iff_mem.mpr hv]

theorem Rewrites.compileWith_eq (h : Rewrites owner rule c form c') (hb : c.unentered ≤ budget) :
    rule.compileWith (resolveWithin budget owner) c = (form, c') := by
  induction h generalizing budget with
  | settled h => rw [Rule.compileWith_ref, h.resolveWithin_eq budget]
  | enter hf _ ih =>
    obtain ⟨left, rfl, hleft⟩ := hf.left hb
    rw [Rule.compileWith_ref, resolveWithin_succ hf, ih hleft]
    rfl
  | terminal | scope | action | nil => rfl
  | @cons owner part _ _ _ c _ _ _ _ ih ih' =>
    have hpart := ih hb
    -- A body that the part has entered stays entered, so the budget is enough for the rest.
    have hle := Compiling.unentered_le (compileWith_extends budget owner part c)
    rw [hpart] at hle
    exact Rule.compileWith_sequence_cons hpart (ih' (Nat.le_trans hle hb))
  | alternative _ ih => exact Rule.compileWith_alternative (ih hb)
  | terminated _ ih => rw [Rule.compileWith, ih hb]

end

def RefsRewrite (H V : Type) (budget : Nat) (owner : Option String) : Prop :=
  ∀ (name : String) (c : Compiling H V), c.unentered ≤ budget →
    Rewrites owner (.ref name) c ((resolveWithin budget owner name c).1.getD (.ref name))
      (resolveWithin budget owner name c).2

section

variable {budget : Nat} {owner : Option String}

mutual
theorem RefsRewrite.compileWith (h : RefsRewrite H V budget owner) :
    (rule : Rule H V) → (c : Compiling H V) → c.unentered ≤ budget →
    Rewrites owner rule c (rule.compileWith (resolveWithin budget owner) c).1
      (rule.compileWith (resolveWithin budget owner) c).2
  | .ref name, c, hc => by
    rw [Rule.compileWith_ref]
    exact h name c hc
  | .terminal name, c, _ => .terminal owner name c
  | .scope body, c, _ => .scope owner body c
  | .sequence parts, c, hc => h.compilePartsWith parts c hc
  | .alternative parts, c, hc => .alternative (h.compilePartsWith parts c hc)
  | .action act, c, _ => .action owner act c
  | .terminated body, c, hc => .terminated (h.compileWith body c hc)

theorem RefsRewrite.compilePartsWith (h : RefsRewrite H V budget owner) :
    (parts : List (Rule H V)) → (c : Compiling H V) → c.unentered ≤ budget →
    Rewrites owner (.sequence parts) c
      (.sequence (Rule.compilePartsWith (resolveWithin budget owner) parts c).1)
      (Rule.compilePartsWith (resolveWithin budget owner) parts c).2
  | [], c, _ => .nil owner c
  | part :: parts, c, hc => by
    have hle := Compiling.unentered_le (compileWith_extends budget owner part c)
    exact .cons (h.compileWith part c hc)
      (h.compilePartsWith parts _ (Nat.le_trans hle hc))
end

theorem refs_rewrite (budget : Nat) (owner : Option String) : RefsRewrite H V budget owner := by
  intro name c hc
  refine resolveWithin_induction (fun h => Rewrites.settled h) ?_ budget owner name c hc
  intro budget owner name c source hf hc ih
  rw [resolveWithin_succ hf]
  have hrefs : RefsRewrite H V budget (some name) := ih
  exact .enter hf (hrefs.compileWith source (c.visit name) hc)

end

/-- Every compiled form can stand for its name without a frame around it. -/
def Scoped (g : Grammar H V) : Prop :=
  ∀ name form, g.compiled? name = some form → form.selfScoping = true

theorem Reachable.scoped [Inhabited V] {g : Grammar H V} (hg : g.Reachable) : g.Scoped := by
  intro name form hf
  obtain ⟨-, body, -, -, rfl⟩ := hg.coherent name form hf
  exact body.selfScoping_enclosed

/-- The name of a body that has not been compiled. -/
def Uncompiled (g : Grammar H V) (name : String) : Prop :=
  g.bodies.Defines name ∧ g.isCompiled name = false

section

variable (g : Grammar H V)

theorem rewrites_iff (rule : Rule H V) (visited : List String) (form : Rule H V)
    (c : Compiling H V) : Rewrites none rule ⟨g, visited, []⟩ form c ↔
      g.compileVisiting rule visited = (form, c) := by
  have hcount := unentered_le_bodyCount g visited []
  constructor
  · exact fun h => h.compileWith_eq hcount
  · intro h
    have hsteps := (refs_rewrite g.bodyCount none).compileWith rule _ hcount
    rw [compileVisiting] at h
    rw [h] at hsteps
    exact hsteps

theorem mem_visited_compileVisiting (rule : Rule H V) (visited : List String) {name : String}
    (h : name ∈ (g.compileVisiting rule visited).2.visited) :
    name ∈ visited ∨ g.Uncompiled name := by
  obtain ⟨fresh, hw⟩ := walked_walks.compileVisiting g rule visited
  rcases (hw.visited name).mp h with hv | hf
  · exact .inl hv
  · have ha := hw.ahead hf
    exact .inr ⟨ha.defined, ha.uncompiled⟩

theorem resolve_eq_compileVisiting (name : String) :
    g.resolve name = g.compileVisiting (.ref name) [] := by
  rw [compileVisiting, Rule.compileWith_ref, resolve]
  generalize resolveWithin g.bodyCount none name ⟨g, [], []⟩ = r
  obtain ⟨form, c⟩ := r
  cases form <;> rfl

theorem resolveWithin_found (name : String) : ∃ form c,
    resolveWithin g.bodyCount none name ⟨g, [], []⟩ = (some form, c) ∧
      (form.selfScoping = true ∨ form = .alternative [] ∨ g.compiled? name = some form) := by
  obtain h | ⟨source, hf⟩ := resolveWithin_settled_or_fresh g.bodyCount none name ⟨g, [], []⟩
  · generalize resolveWithin g.bodyCount none name ⟨g, [], []⟩ = r at h
    cases h with
    | terminal ht => exact ⟨_, _, rfl, .inl rfl⟩
    | missing ht hn => exact ⟨_, _, rfl, .inr (.inl rfl)⟩
    | known ht he => exact ⟨_, _, rfl, .inr (.inr (by rw [compiled?, he, Option.bind_some]))⟩
    | entered _ _ hv => cases hv
  · obtain ⟨budget, hbudget, -⟩ := hf.left (unentered_le_bodyCount g [] [])
    rw [hbudget, resolveWithin_succ hf]
    exact ⟨_, _, rfl, .inl (Rule.selfScoping_enclosed _)⟩

theorem Scoped.resolve {g : Grammar H V} (hg : g.Scoped) (name : String) :
    (g.resolve name).1.selfScoping = true ∨ (g.resolve name).1 = .alternative [] := by
  obtain ⟨form, c, h, hform⟩ := g.resolveWithin_found name
  rw [Grammar.resolve, h]
  rcases hform with hform | hform | hform
  · exact .inl hform
  · exact .inr hform
  · exact .inl (hg name form hform)

/-- Compiling a rule, with any names noted as entered, has one result, and so has looking a name up,
which is compiling a reference to it with none noted. The names noted on the way are those of bodies
that had not been compiled. A name that is looked up always has a form, which is a terminal, an
action or a scope or else the failing rule, whatever has been compiled before. -/
theorem compilation_ends :
    (∀ rule visited form c, Rewrites none rule ⟨g, visited, []⟩ form c ↔
      g.compileVisiting rule visited = (form, c)) ∧
    (∀ rule visited, visited ⊆ (g.compileVisiting rule visited).2.visited ∧
      ∀ name ∈ (g.compileVisiting rule visited).2.visited, name ∈ visited ∨ g.Uncompiled name) ∧
    ∀ name, g.resolve name = g.compileVisiting (.ref name) [] ∧
      (∃ form c, resolveWithin g.bodyCount none name ⟨g, [], []⟩ = (some form, c)) ∧
      (g.Scoped →
        (g.resolve name).1.selfScoping = true ∨ (g.resolve name).1 = .alternative []) := by
  refine ⟨g.rewrites_iff, fun rule visited => ⟨?_, fun name h => ?_⟩, fun name => ⟨?_, ?_, ?_⟩⟩
  · exact (g.compileVisiting_extends rule visited).2
  · exact g.mem_visited_compileVisiting rule visited h
  · exact g.resolve_eq_compileVisiting name
  · obtain ⟨form, c, h, -⟩ := g.resolveWithin_found name
    exact ⟨form, c, h⟩
  · exact fun hg => hg.resolve name

end

def knotted : Grammar Unit Nat :=
  ((((((ofTerminals ["x"]).define "x" (.ref "left")).define "left" (.ref "right")).define "right"
    (.alternative [.ref "left", .ref "x"])).define "own" (.sequence [.ref "own", .ref "y"])).resolve
      "own").2.grammar

theorem knotted_compilation_ends :
    Rewrites none (.ref "left") ⟨knotted, ["right"], []⟩ (.scope (.ref "right"))
      (knotted.compileVisiting (.ref "left") ["right"]).2 ∧
    knotted.Uncompiled "left" ∧ knotted.Scoped ∧
    ((knotted.resolve "own").1.selfScoping = true ∨
      (knotted.resolve "own").1 = .alternative []) := by
  have hreached : knotted.Reachable :=
    .resolve (.define (.define (.define (.define (.start _) _ _) _ _) _ _) _ _) _
  obtain ⟨hsteps, hvisited, hresolve⟩ := compilation_ends knotted
  have hform : (knotted.compileVisiting (.ref "left") ["right"]).1 = .scope (.ref "right") := by cbv
  have hleft : "left" ∈ (knotted.compileVisiting (.ref "left") ["right"]).2.visited := by decide
  refine ⟨(hsteps _ _ _ _).mpr (by rw [← hform]), ?_, hreached.scoped, ?_⟩
  · exact ((hvisited _ _).2 _ hleft).resolve_left (by decide)
  · exact (hresolve "own").2.2 hreached.scoped

end Grammar

end OrderedChoice
