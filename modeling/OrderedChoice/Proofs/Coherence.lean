import OrderedChoice.Proofs.Compilation
import OrderedChoice.Proofs.Execution

set_option autoImplicit false

namespace OrderedChoice

variable {H V : Type}

/-- `b.Unfolds rule form`: `form` is `rule` with each reference outside scopes replaced by what the
bodies say of its name. A reference to a name with a body may also stay. -/
inductive Bodies.Unfolds (b : Bodies H V) : Rule H V → Rule H V → Prop where
  | terminalName {name : String} (ht : b.isTerminal name = true) :
    Unfolds b (.ref name) (.terminal name)
  | unknownName {name : String} (ht : b.isTerminal name = false) (hn : b.source? name = none) :
    Unfolds b (.ref name) (.alternative [])
  | inlined {name : String} {source body : Rule H V} (ht : b.isTerminal name = false)
    (hs : b.source? name = some source) (hb : Unfolds b source body) :
    Unfolds b (.ref name) body.enclosed
  | kept {name : String} {source : Rule H V} (ht : b.isTerminal name = false)
    (hs : b.source? name = some source) : Unfolds b (.ref name) (.ref name)
  | terminal (name : String) : Unfolds b (.terminal name) (.terminal name)
  | scope (body : Rule H V) : Unfolds b (.scope body) (.scope body)
  | action (act : Action H V) : Unfolds b (.action act) (.action act)
  | sequence {parts forms : List (Rule H V)} (hp : List.Forall₂ (Unfolds b) parts forms) :
    Unfolds b (.sequence parts) (.sequence forms)
  | alternative {parts forms : List (Rule H V)} (hp : List.Forall₂ (Unfolds b) parts forms) :
    Unfolds b (.alternative parts) (.alternative forms)
  | terminated {body form : Rule H V} (hb : Unfolds b body form) :
    Unfolds b (.terminated body) (.terminated form)

theorem Rule.selfScoping_enclosed (r : Rule H V) : r.enclosed.selfScoping = true := by
  cases r <;> rfl

namespace Grammar

/-- The states of a grammar: it starts with its terminals, and then rules are defined, compiled
(with any names noted as entered), looked up and run, and diagnostics taken, in any order. -/
inductive Reachable [Inhabited V] : Grammar H V → Prop where
  | start (terminals : List String) : Reachable (.ofTerminals terminals)
  | define {g : Grammar H V} (h : Reachable g) (name : String) (body : Rule H V) :
    Reachable (g.define name body)
  | compileVisiting {g : Grammar H V} (h : Reachable g) (rule : Rule H V)
    (visited : List String) : Reachable (g.compileVisiting rule visited).2.grammar
  | resolve {g : Grammar H V} (h : Reachable g) (name : String) :
    Reachable (g.resolve name).2.grammar
  | execute {m : Machine H V} (h : Reachable m.grammar) (budget : Nat) (rule : Rule H V) :
    Reachable (m.execute budget rule).2.grammar
  | clearDiagnostics {g : Grammar H V} (h : Reachable g) : Reachable g.clearDiagnostics

def Coherent (g : Grammar H V) : Prop :=
  ∀ name form, g.compiled? name = some form → ∃ source body,
    g.source? name = some source ∧ g.bodies.Unfolds source body ∧ form = body.enclosed

theorem Coherent.memoize {g : Grammar H V} (h : g.Coherent) {name : String}
    {source body : Rule H V} (hs : g.source? name = some source)
    (hb : g.bodies.Unfolds source body) :
    Coherent { g with rules := g.rules.memoize name body.enclosed } := by
  intro other form hf
  have hbodies : ({ g with rules := g.rules.memoize name body.enclosed } : Grammar H V).bodies =
      g.bodies := by simp only [bodies, Table.sources_memoize]
  rw [← bodies_source?, hbodies, bodies_source?]
  rw [compiled?, Table.get?_memoize] at hf
  cases he : g.rules.get? other with
  | none => simp [he] at hf
  | some e =>
    by_cases hn : other = name
    · subst hn
      simp only [he, Option.map_some, ↓reduceIte, Option.bind_some, Option.some.injEq] at hf
      exact ⟨source, body, hs, hb, hf.symm⟩
    · simp only [he, Option.map_some, if_neg hn, Option.bind_some] at hf
      exact h other form (by simp [compiled?, he, hf])

theorem unfolds_compiles (top : List String) (b : Bodies H V) :
    Compiles top (fun _ c => c.grammar.bodies = b ∧ c.grammar.Coherent) b.Unfolds where
  congruence := ⟨.terminal, .scope, .action, .sequence, .alternative, .terminated⟩
  terminal hI ht := .terminalName (by rw [← hI.1]; exact ht)
  missing hI _ ht hn := by
    refine ⟨hI, .unknownName ?_ ?_⟩
    · rw [← hI.1]
      exact ht
    · rw [← hI.1, bodies_source?, source?, hn]
      rfl
  known {path c name source form} hI ht he := by
    obtain ⟨hb, hcoh⟩ := hI
    obtain ⟨source, body, hs, hu, rfl⟩ := hcoh name form (by simp [compiled?, he])
    subst hb
    exact .inlined ht (by simpa using hs) hu
  entered hI _ ht he _ := by
    obtain ⟨rfl, -⟩ := hI
    exact .kept ht (by simpa using source?_of_get? he)
  enter hI _ _ _ _ := hI
  finish {path c name source body} hI ht hs hq := by
    obtain ⟨rfl, hcoh⟩ := hI
    exact ⟨⟨(c.memoize_extends name body.enclosed).1, hcoh.memoize hs hq⟩,
      .inlined ht (by simpa using hs) hq⟩

theorem Coherent.compileVisiting {g : Grammar H V} (h : g.Coherent) (rule : Rule H V)
    (visited : List String) : (g.compileVisiting rule visited).2.grammar.Coherent :=
  (compileVisiting_compiles (unfolds_compiles rule.refs g.bodies) g visited ⟨rfl, h⟩).1.2

theorem Coherent.resolve {g : Grammar H V} (h : g.Coherent) (name : String) :
    (g.resolve name).2.grammar.Coherent :=
  (resolve_compiles (unfolds_compiles [name] g.bodies) g ⟨rfl, h⟩).1.2

theorem Reachable.coherent [Inhabited V] {g : Grammar H V} (hg : g.Reachable) : g.Coherent := by
  induction hg with
  | start terminals => exact fun name form hf => nomatch hf
  | @define g _ name body _ =>
    intro other form hf
    rw [compiled?_define] at hf
    cases hf
  | compileVisiting _ rule visited ih => exact ih.compileVisiting rule visited
  | resolve _ name ih => exact ih.resolve name
  | execute _ budget rule ih =>
    exact Machine.execute_grammar_of_resolve (fun g name h => h.resolve name) budget rule ih
  | clearDiagnostics _ ih => exact ih

/-- A compiled form of a grammar in any state it can reach stands in one frame at most and unfolds
the body that its name has in that state, by means of the bodies that other names have in it. -/
theorem Reachable.compiled_unfolds [Inhabited V] {g : Grammar H V} (hg : g.Reachable)
    {name : String} {form : Rule H V} (hf : g.compiled? name = some form) :
    form.selfScoping = true ∧ ∃ source body, g.source? name = some source ∧
      g.bodies.Unfolds source body ∧ form = body.enclosed := by
  obtain ⟨source, body, hs, hb, rfl⟩ := hg.coherent name form hf
  exact ⟨body.selfScoping_enclosed, source, body, hs, hb, rfl⟩

def revised : Grammar Unit Nat :=
  ((((((ofTerminals ["x"]).define "a" (.sequence [.ref "b", .ref "a"])).define "b"
    (.ref "x")).resolve "a").2.grammar.define "b" (.sequence [.ref "x", .ref "c"])).resolve
      "a").2.grammar

theorem revised_unfolds :
    revised.compiled? "a" = some (.scope (.sequence
      [.scope (.sequence [.terminal "x", .alternative []]), .ref "a"])) ∧
    ∃ source body, revised.source? "a" = some source ∧ revised.bodies.Unfolds source body ∧
      (.scope (.sequence [.scope (.sequence [.terminal "x", .alternative []]), .ref "a"]) :
        Rule Unit Nat) = body.enclosed := by
  have hform : revised.compiled? "a" = some (.scope (.sequence
      [.scope (.sequence [.terminal "x", .alternative []]), .ref "a"])) := rfl
  have hreached : revised.Reachable :=
    .resolve (.define (.resolve (.define (.define (.start _) _ _) _ _) _) _ _) _
  exact ⟨hform, (hreached.compiled_unfolds hform).2⟩

end Grammar

end OrderedChoice
