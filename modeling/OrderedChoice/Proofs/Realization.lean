import OrderedChoice.Proofs.Coherence
import OrderedChoice.Proofs.Meaning

set_option autoImplicit false

/-!
# Grammars that realize a meaning

A grammar realizes a meaning of names if each compiled form stands for what its name means and the
other names mean what their bodies say. Compilation that begins with no name noted as entered keeps
this: a reference is left in place only inside the body of the name it refers to, and where a frame
is put around one that was left, the names on the way back to it are steady.
-/

namespace OrderedChoice

variable {H V : Type}

/-- What a name means whose body is this rule: a name, if it is one, and else the rule with a frame
of its own unless it needs none. -/
def Rule.named : Rule H V → Rule H V
  | .ref name => .ref name
  | rule => rule.enclosed

def Bodies.meaning (b : Bodies H V) (name : String) : Rule H V :=
  if b.isTerminal name then .terminal name
  else
    match b.source? name with
    | some source => source.named
    | none => .alternative []

structure Realizes (look : String → Rule H V) (g : Grammar H V) : Prop where
  terminal {name : String} (ht : g.isTerminal name = true) : look name = .terminal name
  missing {name : String} (ht : g.isTerminal name = false) (hn : g.rules.get? name = none) :
    look name = .alternative []
  known {name : String} {source form : Rule H V} (ht : g.isTerminal name = false)
    (he : g.rules.get? name = some ⟨source, some form⟩) :
    form.selfScoping = true ∧ StandsFor look (look name) form
  pending {name : String} {source : Rule H V} (ht : g.isTerminal name = false)
    (he : g.rules.get? name = some ⟨source, none⟩) : look name = source.named

variable {look : String → Rule H V} {g : Grammar H V}

namespace Rule

theorem enclosed_of_selfScoping {r : Rule H V} (h : r.selfScoping = true) : r.enclosed = r := by
  cases r with
  | terminal | scope | action => rfl
  | ref | sequence | alternative | terminated => cases h

theorem named_of_mem_refs {r : Rule H V} {name : String} (h : name ∈ r.refs) :
    (∃ body, r.named = .scope body) ∨ r.named = .ref name := by
  cases r with
  | ref k =>
    rw [refs, List.mem_singleton] at h
    exact .inr (by rw [h]; rfl)
  | terminal k => cases h
  | scope body => cases h
  | action act => cases h
  | sequence parts => exact .inl ⟨_, rfl⟩
  | alternative parts => exact .inl ⟨_, rfl⟩
  | terminated body => exact .inl ⟨_, rfl⟩

end Rule

theorem StandsFor.enclosed {rule form : Rule H V} (h : StandsFor look rule form)
    (hr : ∀ name, rule ≠ .ref name) : StandsFor look rule.enclosed form.enclosed := by
  cases h with
  | ref name => exact absurd rfl (hr name)
  | @look name => exact absurd rfl (hr name)
  | @framed name => exact absurd rfl (hr name)
  | @framedFail name => exact absurd rfl (hr name)
  | terminal name => exact .terminal name
  | action act => exact .action act
  | scope h => exact .scope h
  | sequence hl hp => exact .scope (.sequence hl hp)
  | alternative hl hp => exact .scope (.alternative hl hp)
  | terminated h => exact .scope (.terminated h)

/-- A form that stands for a rule, also with a frame of its own if the rule is but a name. -/
def Renders (look : String → Rule H V) (rule form : Rule H V) : Prop :=
  StandsFor look rule form ∧ ∀ name, rule = .ref name → StandsFor look rule form.enclosed

theorem Renders.of_selfScoping {rule form : Rule H V} (h : StandsFor look rule form)
    (hf : form.selfScoping = true) : Renders look rule form := by
  refine ⟨h, fun _ _ => ?_⟩
  rw [Rule.enclosed_of_selfScoping hf]
  exact h

theorem Renders.named {source body : Rule H V} (h : Renders look source body) :
    StandsFor look source.named body.enclosed := by
  cases source with
  | ref name => exact h.2 name rfl
  | _ => exact h.1.enclosed (by simp)

theorem renders_congruence : Rule.Congruence (Renders look) where
  terminal name := .of_selfScoping (.terminal name) rfl
  scope body := .of_selfScoping (.refl _) rfl
  action act := .of_selfScoping (.action act) rfl
  sequence h := by
    obtain ⟨hl, hp⟩ := List.forall₂_iff_zip.mp h
    exact ⟨.sequence hl fun _ hm => (hp hm).1, nofun⟩
  alternative h := by
    obtain ⟨hl, hp⟩ := List.forall₂_iff_zip.mp h
    exact ⟨.alternative hl fun _ hm => (hp hm).1, nofun⟩
  terminated h := ⟨.terminated h.1, nofun⟩

theorem Realizes.memoize (h : Realizes look g) (name : String) {form : Rule H V}
    (hs : form.selfScoping = true) (hf : StandsFor look (look name) form) :
    Realizes look { g with rules := g.rules.memoize name form } where
  terminal ht := h.terminal ht
  missing ht hn := by
    rw [Table.get?_memoize] at hn
    exact h.missing ht (Option.map_eq_none_iff.mp hn)
  known {other source form'} ht he := by
    rw [Table.get?_memoize] at he
    obtain ⟨⟨source', compiled⟩, he', heq⟩ := Option.map_eq_some_iff.mp he
    by_cases hn : other = name
    · rw [if_pos hn] at heq
      cases heq
      rw [hn]
      exact ⟨hs, hf⟩
    · rw [if_neg hn] at heq
      cases heq
      exact h.known ht he'
  pending {other source} ht he := by
    rw [Table.get?_memoize] at he
    obtain ⟨⟨source', compiled⟩, he', heq⟩ := Option.map_eq_some_iff.mp he
    by_cases hn : other = name
    · rw [if_pos hn] at heq
      cases heq
    · rw [if_neg hn] at heq
      cases heq
      exact h.pending ht he'

/-- While the bodies of `path` are being compiled, each inside the next: they are the only ones
entered and not finished, and each means a rule with a frame or the one before it. -/
structure Opened (look : String → Rule H V) (path : List String) (c : Compiling H V) : Prop where
  realizes : Realizes look c.grammar
  finished {name : String} (hv : name ∈ c.visited) :
    name ∈ path ∨ ∃ source form, c.grammar.rules.get? name = some ⟨source, some form⟩
  means {name : String} (hp : name ∈ path) :
    ∃ source, c.grammar.source? name = some source ∧ look name = source.named
  linked : path.IsChain fun inner outer =>
    (∃ body, look outer = .scope body) ∨ look outer = .ref inner

theorem leads_of_isChain {first : String} {path : List String}
    (h : (first :: path).IsChain fun inner outer =>
      (∃ body, look outer = .scope body) ∨ look outer = .ref inner) {name : String}
    (hn : name ∈ path) :
    (∃ body, look name = .scope body) ∨ ∃ k ∈ first :: path, look name = .ref k := by
  induction path generalizing first with
  | nil => cases hn
  | cons second path ih =>
    obtain ⟨hlead, htail⟩ := List.isChain_cons_cons.mp h
    rcases List.mem_cons.mp hn with rfl | hn
    · rcases hlead with hbody | hfirst
      · exact .inl hbody
      · exact .inr ⟨first, List.mem_cons_self, hfirst⟩
    · rcases ih htail hn with hbody | ⟨k, hk, hlook⟩
      · exact .inl hbody
      · exact .inr ⟨k, List.mem_cons_of_mem first hk, hlook⟩

theorem Opened.asked {path : List String} {owner name : String} {c : Compiling H V}
    {top : List String} (h : Opened look (owner :: path) c)
    (ha : Asks top (owner :: path) name c) :
    (∃ body, look owner = .scope body) ∨ look owner = .ref name := by
  obtain ⟨source, hs, hn⟩ := ha
  obtain ⟨source', hs', hlook⟩ := h.means List.mem_cons_self
  cases hs.symm.trans hs'
  rw [hlook]
  exact Rule.named_of_mem_refs hn

theorem Opened.steady {path : List String} {name : String} {c : Compiling H V}
    {top : List String} (h : Opened look path c) (ha : Asks top path name c) (hp : name ∈ path) :
    Steady look name := by
  cases path with
  | nil => cases hp
  | cons owner path =>
    refine ⟨(· ∈ owner :: path), hp, ?_⟩
    intro n hn
    rcases List.mem_cons.mp hn with rfl | hn
    · rcases h.asked ha with hbody | hlook
      · exact .inl hbody
      · exact .inr ⟨name, hp, hlook⟩
    · exact leads_of_isChain h.linked hn

theorem opened_compiles (top : List String) :
    Compiles top (Opened look) (Renders look : Rule H V → Rule H V → Prop) where
  congruence := renders_congruence
  terminal {path c name} h ht := by
    refine .of_selfScoping (.look ?_) rfl
    rw [h.realizes.terminal ht]
    exact .terminal name
  missing {path c name} h _ ht hn := by
    have hlook := h.realizes.missing ht hn
    refine ⟨{ h with realizes := { h.realizes with } }, .look ?_, fun _ _ => .framedFail hlook⟩
    rw [hlook]
    exact .refl (.alternative [])
  known h ht he := by
    obtain ⟨hs, hf⟩ := h.realizes.known ht he
    exact .of_selfScoping (.look hf) hs
  entered {path c name source} h ha _ he hv := by
    refine ⟨.ref name, fun _ _ => .framed (h.steady ha ?_)⟩
    rcases h.finished hv with hp | ⟨source', form, he'⟩
    · exact hp
    · rw [he] at he'
      cases he'
  enter {path c name source} h ha ht he hv := by
    refine ⟨h.realizes, ?_, ?_, ?_⟩
    · intro other ho
      rcases List.mem_cons.mp ho with rfl | ho
      · exact .inl List.mem_cons_self
      · exact (h.finished ho).imp_left (List.mem_cons_of_mem name)
    · intro other ho
      rcases List.mem_cons.mp ho with rfl | ho
      · exact ⟨source, Grammar.source?_of_get? he, h.realizes.pending ht he⟩
      · exact h.means ho
    · cases path with
      | nil => exact .singleton name
      | cons owner path => exact .cons_cons (h.asked ha) h.linked
  finish {path c name source body} h ht hs hq := by
    have hform : StandsFor look (look name) body.enclosed := by
      obtain ⟨source', hs', hlook⟩ := h.means List.mem_cons_self
      cases hs.symm.trans hs'
      rw [hlook]
      exact hq.named
    have hself := body.selfScoping_enclosed
    refine ⟨⟨h.realizes.memoize name hself hform, ?_, ?_, h.linked.tail⟩,
      .of_selfScoping (.look hform) hself⟩
    · intro other ho
      have hget := c.grammar.rules.get?_memoize name other body.enclosed
      by_cases hn : other = name
      · obtain ⟨e, he, -⟩ := Option.map_eq_some_iff.mp hs
        rw [← hn] at he
        simp only [he, if_pos hn, Option.map_some] at hget
        exact .inr ⟨_, _, hget⟩
      · rcases h.finished ho with hp | ⟨source', form, he⟩
        · exact .inl ((List.mem_cons.mp hp).resolve_left hn)
        · simp only [he, if_neg hn, Option.map_some] at hget
          exact .inr ⟨_, _, hget⟩
    · intro other ho
      obtain ⟨source', hs', hlook⟩ := h.means (List.mem_cons_of_mem name ho)
      refine ⟨source', ?_, hlook⟩
      rw [← Grammar.bodies_source?, (c.memoize_extends name body.enclosed).1,
        Grammar.bodies_source?]
      exact hs'

namespace Grammar

theorem resolve_cases (g : Grammar H V) (name : String) :
    (g.isTerminal name = true ∧ (g.resolve name).1 = .terminal name) ∨
    (g.isTerminal name = false ∧ g.rules.get? name = none ∧
      (g.resolve name).1 = .alternative []) ∨
    (g.isTerminal name = false ∧ ∃ source, (g.resolve name).2.grammar.rules.get? name =
      some ⟨source, some (g.resolve name).1⟩) := by
  obtain h | ⟨source, hf⟩ := resolveWithin_settled_or_fresh g.bodyCount none name ⟨g, [], []⟩
  · rw [resolve]
    generalize resolveWithin g.bodyCount none name ⟨g, [], []⟩ = r at h
    cases h with
    | terminal ht => exact .inl ⟨ht, rfl⟩
    | missing ht hn => exact .inr (.inl ⟨ht, hn, rfl⟩)
    | known ht he => exact .inr (.inr ⟨ht, _, he⟩)
    | entered _ _ hv => cases hv
  · have hs := source?_of_get? hf.2.1
    obtain ⟨budget, hbudget, -⟩ := hf.left (unentered_le_bodyCount g [] [])
    have hext := resolveWithin_extends g.bodyCount none name ⟨g, [], []⟩
    have hbody : (resolveWithin g.bodyCount none name ⟨g, [], []⟩).2.grammar.source? name =
        some source := by
      rw [← bodies_source?, hext.1, bodies_source?]
      exact hs
    refine .inr (.inr ⟨hf.1, source, ?_⟩)
    rw [resolve]
    rw [hbudget, resolveWithin_succ hf] at hbody ⊢
    generalize Rule.compileWith (resolveWithin budget (some name)) source
      (Compiling.visit ⟨g, [], []⟩ name) = r at hbody ⊢
    simp only [source?, Compiling.memoize, Table.get?_memoize, ↓reduceIte] at hbody ⊢
    obtain ⟨e, he, heq⟩ := Option.map_eq_some_iff.mp hbody
    obtain ⟨e', he', rfl⟩ := Option.map_eq_some_iff.mp he
    rw [he', ← heq]
    rfl

end Grammar

theorem Realizes.compile (h : Realizes look g) (rule : Rule H V) :
    Realizes look (g.compile rule).2.grammar ∧ StandsFor look rule (g.compile rule).1 := by
  have hopen : Opened look [] ⟨g, [], []⟩ := ⟨h, nofun, nofun, .nil⟩
  obtain ⟨hI, hq⟩ := Grammar.compileVisiting_compiles (opened_compiles rule.refs) g [] hopen
  exact ⟨hI.realizes, hq.1⟩

theorem Realizes.resolve (h : Realizes look g) (name : String) :
    Realizes look (g.resolve name).2.grammar ∧
      StandsFor look (look name) (g.resolve name).1 := by
  have hopen : Opened look [] ⟨g, [], []⟩ := ⟨h, nofun, nofun, .nil⟩
  have hr := (Grammar.resolve_compiles (opened_compiles [name]) g hopen).1.realizes
  refine ⟨hr, ?_⟩
  rcases g.resolve_cases name with ⟨ht, hf⟩ | ⟨ht, hn, hf⟩ | ⟨ht, source, he⟩
  · rw [hf, h.terminal ht]
    exact .terminal name
  · rw [hf, h.missing ht hn]
    exact .refl (.alternative [])
  · have hext := Grammar.resolve_bodies g name
    rw [← Grammar.bodies_isTerminal, ← hext, Grammar.bodies_isTerminal] at ht
    exact (hr.known ht he).2

theorem finds_found : Finds look Grammar.found (Realizes look : Grammar H V → Prop) :=
  fun _ name h => h.resolve name

theorem Machine.execute_bodies [Inhabited V] (m : Machine H V) (budget : Nat) (rule : Rule H V) :
    (m.execute budget rule).2.grammar.bodies = m.grammar.bodies :=
  execute_grammar_of_resolve (I := (·.bodies = m.grammar.bodies))
    (fun g name h => (g.resolve_bodies name).trans h) budget rule rfl

theorem Realizes.execute [Inhabited V] {m : Machine H V} (h : Realizes look m.grammar)
    (budget : Nat) (rule : Rule H V) : Realizes look (m.execute budget rule).2.grammar :=
  Machine.execute_grammar_of_resolve (fun _ name h => (h.resolve name).1) budget rule h

theorem realizes_of_uncompiled (h : ∀ name, g.compiled? name = none) :
    Realizes g.bodies.meaning g where
  terminal ht := by simp [Bodies.meaning, ht]
  missing ht hn := by simp [Bodies.meaning, ht, Grammar.source?, hn]
  known {name source form} _ he := by
    have hnone := h name
    rw [Grammar.compiled?, he] at hnone
    cases hnone
  pending ht he := by simp [Bodies.meaning, ht, Grammar.source?, he]

end OrderedChoice
