import OrderedChoice.Proofs.History
import OrderedChoice.Proofs.Reporting

set_option autoImplicit false

/-!
# Runs compile nothing

A reference that compilation leaves in place is looked up by the run that comes to it, and a look-up
may compile a body and report what it finds there. If no rule has a scope written into it, this does
not happen: when compilation has come to its end, every reference left anywhere is to a name that
has a compiled form by then. So a run leaves the grammar as the compilation of its entry has left
it, however it ends.
-/

namespace OrderedChoice

variable {H V : Type}

namespace Rule

mutual
def ScopeFree : Rule H V → Prop
  | ref _ => True
  | terminal _ => True
  | scope _ => False
  | sequence parts => PartsScopeFree parts
  | alternative parts => PartsScopeFree parts
  | action _ => True
  | terminated body => ScopeFree body

def PartsScopeFree : List (Rule H V) → Prop
  | [] => True
  | part :: parts => ScopeFree part ∧ PartsScopeFree parts
end

variable {N N' : String → Prop} {A : Action H V → Prop}

theorem partsMadeOf_of_scopeFree {parts forms : List (Rule H V)}
    (hp : List.Forall₂ (fun r f => r.ScopeFree → f.MadeOf N A) parts forms)
    (h : PartsScopeFree parts) : PartsMadeOf N A forms := by
  induction hp with
  | nil => trivial
  | cons hq _ ih => exact ⟨hq h.1, ih h.2⟩

mutual
theorem MadeOf.mono (hN : ∀ name, N name → N' name) : (r : Rule H V) → r.MadeOf N A →
    r.MadeOf N' A
  | ref name, h => hN name h
  | terminal _, _ => trivial
  | scope body, h => MadeOf.mono hN body h
  | sequence parts, h => PartsMadeOf.mono hN parts h
  | alternative parts, h => PartsMadeOf.mono hN parts h
  | action _, h => h
  | terminated body, h => MadeOf.mono hN body h

theorem PartsMadeOf.mono (hN : ∀ name, N name → N' name) : (parts : List (Rule H V)) →
    PartsMadeOf N A parts → PartsMadeOf N' A parts
  | [], _ => trivial
  | part :: parts, h => ⟨MadeOf.mono hN part h.1, PartsMadeOf.mono hN parts h.2⟩
end

end Rule

namespace Grammar

def Ready (g : Grammar H V) (name : String) : Prop :=
  g.isTerminal name = false ∧ g.isCompiled name = true

def Links (g : Grammar H V) (rule : Rule H V) : Prop :=
  rule.MadeOf g.Ready fun _ => True

/-- Bodies have no scope in them, and no reference in a compiled form still needs compiling. -/
structure Linked (g : Grammar H V) : Prop where
  closed : g.Closed
  sources {name : String} {source : Rule H V} (hs : g.source? name = some source) :
    source.ScopeFree
  forms {name : String} {form : Rule H V} (hf : g.compiled? name = some form) : g.Links form

theorem Ready.resolve {g : Grammar H V} {name : String} (h : g.Ready name) :
    (g.resolve name).2.grammar = g ∧ g.compiled? name = some (g.resolve name).1 := by
  obtain ⟨ht, hc⟩ := h
  obtain ⟨form, hf⟩ := Option.isSome_iff_exists.mp hc
  obtain ⟨⟨source, compiled⟩, he, hform⟩ := Option.bind_eq_some_iff.mp hf
  cases hform
  have hfound : resolveWithin g.bodyCount none name ⟨g, [], []⟩ = (some form, ⟨g, [], []⟩) := by
    unfold resolveWithin
    simp only [ht, he, Bool.false_eq_true, ↓reduceIte]
  rw [Grammar.resolve, hfound]
  exact ⟨rfl, hf⟩

section

variable {b : Bodies H V} {K : String → Prop} {top : List String}

/-- The names that may be left in a form: those with a body that are in `K` or will be reached. -/
def Awaited (b : Bodies H V) (K : String → Prop) (top : List String) (name : String) : Prop :=
  b.Defines name ∧ (K name ∨ b.Reach top name)

structure Linking (b : Bodies H V) (K : String → Prop) (top path : List String)
    (c : Compiling H V) : Prop where
  bodies : c.grammar.bodies = b
  reached {owner : String} (ho : owner ∈ path) : b.Defines owner ∧ b.Reach top owner
  forms {name : String} {form : Rule H V} (hf : c.grammar.compiled? name = some form) :
    form.MadeOf (Awaited b K top) fun _ => True

theorem Linking.asked {path : List String} {c : Compiling H V} {name : String}
    {source : Rule H V} (h : Linking b K top path c) (ha : Asks top path name c)
    (ht : c.grammar.isTerminal name = false) (hs : c.grammar.source? name = some source) :
    b.Defines name ∧ b.Reach top name := by
  obtain ⟨rfl, hreached, -⟩ := h
  refine ⟨⟨ht, by rw [bodies_source?, hs]; rfl⟩, ?_⟩
  cases path with
  | nil => exact .top ha
  | cons owner path =>
    obtain ⟨source', hs', hn⟩ := ha
    obtain ⟨hd, hr⟩ := hreached List.mem_cons_self
    refine .body hr hd ?_
    rw [Bodies.refsOf, bodies_source?, hs']
    exact hn

theorem compiled?_memoize (c : Compiling H V) (name other : String) (form : Rule H V) :
    (c.memoize name form).grammar.compiled? other =
      if other = name then (c.grammar.source? name).map fun _ => form
      else c.grammar.compiled? other := by
  rw [Compiling.memoize, compiled?, Table.get?_memoize]
  by_cases hn : other = name
  · subst hn
    rw [if_pos rfl, source?]
    cases c.grammar.rules.get? other <;> simp
  · rw [if_neg hn, compiled?]
    cases c.grammar.rules.get? other <;> simp [hn]

theorem linking_compiles (hb : ∀ name source, b.source? name = some source → source.ScopeFree) :
    Compiles top (Linking b K top)
      (fun r f => r.ScopeFree → f.MadeOf (Awaited b K top) fun _ => True) where
  congruence :=
    ⟨fun _ _ => trivial, fun _ h => h.elim, fun _ _ => trivial, Rule.partsMadeOf_of_scopeFree,
      Rule.partsMadeOf_of_scopeFree, fun hq h => hq h⟩
  terminal _ _ _ := trivial
  missing h _ _ _ := ⟨{ h with }, fun _ => trivial⟩
  known h _ he _ := h.forms (by rw [compiled?, he, Option.bind_some])
  entered h ha ht he _ _ := by
    obtain ⟨hd, hr⟩ := h.asked ha ht (source?_of_get? he)
    exact ⟨hd, .inr hr⟩
  enter h ha ht he _ :=
    { h with
      reached := fun ho => by
        rcases List.mem_cons.mp ho with rfl | ho
        · exact h.asked ha ht (source?_of_get? he)
        · exact h.reached ho }
  finish {path c name source body} h _ hs hq := by
    have hbody := hb name source (by rw [← h.bodies, bodies_source?, hs])
    have hform := Rule.madeOf_enclosed.mpr (hq hbody)
    refine ⟨⟨(c.memoize_extends name body.enclosed).1.trans h.bodies,
      fun ho => h.reached (List.mem_cons_of_mem name ho), fun hf => ?_⟩, fun _ => hform⟩
    rw [compiled?_memoize] at hf
    split at hf
    · obtain ⟨-, -, rfl⟩ := Option.map_eq_some_iff.mp hf
      exact hform
    · exact h.forms hf

end

section

variable {g : Grammar H V} {top fresh : List String} {c : Compiling H V}

theorem Linked.linking (hg : g.Linked) :
    Linking g.bodies (g.isCompiled · = true) top [] ⟨g, [], []⟩ where
  bodies := rfl
  reached := nofun
  forms {_ form} hf := by
    refine Rule.MadeOf.mono (fun other ho => ?_) form (hg.forms hf)
    obtain ⟨ht, hc⟩ := ho
    obtain ⟨form', hf'⟩ := Option.isSome_iff_exists.mp hc
    obtain ⟨e, he, -⟩ := Option.bind_eq_some_iff.mp hf'
    exact ⟨⟨ht, by rw [bodies_source?, source?_of_get? he]; rfl⟩, .inl hc⟩

theorem Walked.ready_of_awaited (h : Walked none top ⟨g, [], []⟩ c fresh) (hg : g.Linked)
    {name : String} (hn : Awaited g.bodies (g.isCompiled · = true) top name) :
    c.grammar.Ready name := by
  obtain ⟨hd, hn⟩ := hn
  refine ⟨?_, (h.isCompiled_iff hg.closed name).mpr (hn.imp_right fun hr => ⟨hd, hr⟩)⟩
  rw [← bodies_isTerminal, h.bodies]
  exact hd.1

theorem Walked.linked (h : Walked none top ⟨g, [], []⟩ c fresh) (hg : g.Linked)
    (hl : Linking g.bodies (g.isCompiled · = true) top [] c) : c.grammar.Linked where
  closed := h.keeps_closed hg.closed
  sources hs := by
    rw [← bodies_source?, h.bodies, bodies_source?] at hs
    exact hg.sources hs
  forms {_ form} hf := (hl.forms hf).mono (fun _ => h.ready_of_awaited hg) form

theorem Linked.linking_compiles (hg : g.Linked) :
    Compiles top (Linking g.bodies (g.isCompiled · = true) top)
      (fun r f => r.ScopeFree →
        f.MadeOf (Awaited g.bodies (g.isCompiled · = true) top) fun _ => True) :=
  Grammar.linking_compiles fun name _ hs => hg.sources ((g.bodies_source? name).symm.trans hs)

theorem Linked.compile (hg : g.Linked) (rule : Rule H V) :
    (g.compile rule).2.grammar.Linked ∧
      (rule.ScopeFree → (g.compile rule).2.grammar.Links (g.compile rule).1) := by
  obtain ⟨fresh, hw⟩ := g.compile_walked rule
  obtain ⟨hl, hq⟩ := compileVisiting_compiles hg.linking_compiles g [] hg.linking
  exact ⟨hw.linked hg hl, fun hr => (hq hr).mono (fun _ => hw.ready_of_awaited hg) _⟩

theorem Linked.resolve (hg : g.Linked) (name : String) : (g.resolve name).2.grammar.Linked := by
  obtain ⟨fresh, hw⟩ := g.resolve_walked name
  exact hw.linked hg (resolve_compiles hg.linking_compiles g hg.linking).1

theorem linked_of_uncompiled (h : ∀ name, g.compiled? name = none)
    (hs : ∀ name source, g.source? name = some source → source.ScopeFree) : g.Linked where
  closed := by
    intro owner name ho
    rw [isCompiled, h] at ho
    cases ho
  sources := hs _ _
  forms {name form} hf := by
    rw [h] at hf
    cases hf

theorem Linked.define (hg : g.Linked) (name : String) {body : Rule H V} (hb : body.ScopeFree) :
    (g.define name body).Linked := by
  refine linked_of_uncompiled (fun other => g.compiled?_define name other body) ?_
  intro other source hs
  rw [source?_define] at hs
  by_cases hn : other = name
  · rw [if_pos hn] at hs
    cases hs
    exact hb
  · rw [if_neg hn] at hs
    exact hg.sources hs

end

theorem Linked.execute [Inhabited V] {m : Machine H V} (hg : m.grammar.Linked) {rule : Rule H V}
    (hr : m.grammar.Links rule) (budget : Nat) : (m.execute budget rule).2.grammar = m.grammar := by
  refine Machine.execute_grammar (I := (· = m.grammar)) Rule.hereditary_madeOf ?_ budget hr rfl
  rintro g name hn rfl
  obtain ⟨hsame, hf⟩ := Ready.resolve hn
  exact ⟨hsame, hg.forms hf⟩

end Grammar

namespace Parser

/-- The states of a parser none of whose rules, bodies or entries, has a scope written into it. -/
inductive Plain [Inhabited V] : Parser H V → Prop where
  | start (terminals : List String) : Plain (.ofTerminals terminals)
  | rule {p : Parser H V} (h : Plain p) (name : String) {body : Rule H V} (hb : body.ScopeFree) :
    Plain (p.rule name body)
  | compileRule {p : Parser H V} (h : Plain p) (name : String) : Plain (p.compileRule name).2.1
  | parse {p : Parser H V} (h : Plain p) (budget : Nat) {entry : Rule H V} (he : entry.ScopeFree)
    (source : Source V) (host : H) : Plain (p.parse budget entry source host).parser
  | setOptions {p : Parser H V} (h : Plain p) (options : Options) : Plain (p.setOptions options)
  | clearDiagnostics {p : Parser H V} (h : Plain p) : Plain p.clearDiagnostics

section

variable [Inhabited V] {p : Parser H V} {entry : Rule H V}

theorem parse_grammar_of_linked (hg : p.grammar.Linked) (he : entry.ScopeFree) (budget : Nat)
    (source : Source V) (host : H) :
    (p.parse budget entry source host).parser.grammar = (p.grammar.compile entry).2.grammar := by
  obtain ⟨hlinked, hlinks⟩ := hg.compile entry
  rw [parse_grammar, execution]
  exact Grammar.Linked.execute (m := p.machine entry source host) hlinked (hlinks he) budget

theorem Plain.linked (hp : p.Plain) : p.grammar.Linked := by
  induction hp with
  | start terminals => exact Grammar.linked_of_uncompiled (fun _ => rfl) nofun
  | rule _ name hb ih => exact ih.define name hb
  | compileRule _ name ih => exact ih.resolve name
  | parse _ budget he source host ih =>
    rw [parse_grammar_of_linked ih he]
    exact (ih.compile _).1
  | setOptions _ _ ih => exact ih
  | clearDiagnostics _ ih => exact { ih with }

/-- Whatever has been done with a parser none of whose rules has a scope written into it, a parse
leaves the grammar as it is once its entry has been compiled: bodies, compiled forms and
diagnostics. For every reference left in the compiled entry or in a compiled form is to a name that
is no terminal and has a compiled form then. -/
theorem Plain.parse_compiles_entry_only (hp : p.Plain) (he : entry.ScopeFree) (budget : Nat)
    (source : Source V) (host : H) :
    (p.parse budget entry source host).parser.grammar = (p.grammar.compile entry).2.grammar ∧
    (p.grammar.compile entry).2.grammar.Links (p.grammar.compile entry).1 ∧
    ∀ name form, (p.grammar.compile entry).2.grammar.compiled? name = some form →
      (p.grammar.compile entry).2.grammar.Links form := by
  obtain ⟨hlinked, hlinks⟩ := hp.linked.compile entry
  exact ⟨parse_grammar_of_linked hp.linked he budget source host, hlinks he,
    fun _ _ hf => hlinked.forms hf⟩

end

def rebuilt : Parser Unit Nat :=
  (((((ofTerminals ["x"]).rule "a" (.alternative [.sequence [.ref "x", .ref "b"], .ref "x"])).rule
    "b" (.ref "u")).parse 9 (.ref "a") (.ofList [⟨"x", 7⟩]) ()).parser.rule "b"
      (.terminated (.ref "a"))).compileRule "b" |>.2.1

theorem rebuilt_compiles_entry_only : rebuilt.Plain ∧
    (.ref "b" : Rule Unit Nat).ScopeFree ∧
    (rebuilt.grammar.compile (.ref "b")).1 =
      .scope (.terminated (.scope (.alternative
        [.sequence [.terminal "x", .ref "b"], .terminal "x"]))) ∧
    (rebuilt.parse 20 (.ref "b") (.ofList [⟨"x", 7⟩, ⟨"x", 8⟩]) ()).parser.grammar =
      (rebuilt.grammar.compile (.ref "b")).2.grammar := by
  have hplain : rebuilt.Plain := by
    refine .compileRule (.rule (.parse (.rule (.rule (.start _) _ ?_) _ ?_) _ ?_ _ _) _ ?_) _
    · exact ⟨⟨trivial, trivial, trivial⟩, trivial, trivial⟩
    · trivial
    · trivial
    · trivial
  have hentry : (.ref "b" : Rule Unit Nat).ScopeFree := trivial
  exact ⟨hplain, hentry, rfl, (hplain.parse_compiles_entry_only hentry 20 _ ()).1⟩

end Parser

end OrderedChoice
