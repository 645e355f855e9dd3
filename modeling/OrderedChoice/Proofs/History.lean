import OrderedChoice.Parser
import OrderedChoice.Proofs.Lockstep
import OrderedChoice.Proofs.Realization

set_option autoImplicit false

namespace OrderedChoice

variable {H V : Type}

def Evaluation.start {G : Type} (names : G) (source : Source V) (host : H) :
    Evaluation G (List V) H V :=
  ⟨⟨[], [], source.remaining⟩, names, host, []⟩

/-- Interprets a rule, taking names for what they mean. -/
def interpret [Inhabited V] (look : String → Rule H V) (budget : Nat) (entry : Rule H V)
    (source : Source V) (host : H) : Outcome V × Evaluation Unit (List V) H V :=
  Evaluation.eval Floor.whole (fixed look) budget entry (.start () source host)

def Parsed.effects (p : Parsed H V) : Effects H V :=
  ⟨p.source, p.host, p.trace.calls⟩

namespace Parser

/-- The states of a parser: it starts with its terminals, and then rules are defined and compiled,
tokens parsed in whatever way that ends, options set and diagnostics taken, in any order. -/
inductive Reached [Inhabited V] : Parser H V → Prop where
  | start (terminals : List String) : Reached (.ofTerminals terminals)
  | rule {p : Parser H V} (h : Reached p) (name : String) (body : Rule H V) :
    Reached (p.rule name body)
  | compileRule {p : Parser H V} (h : Reached p) (name : String) :
    Reached (p.compileRule name).2.1
  | parse {p : Parser H V} (h : Reached p) (budget : Nat) (entry : Rule H V) (source : Source V)
    (host : H) : Reached (p.parse budget entry source host).parser
  | setOptions {p : Parser H V} (h : Reached p) (options : Options) :
    Reached (p.setOptions options)
  | clearDiagnostics {p : Parser H V} (h : Reached p) : Reached p.clearDiagnostics

theorem defineAll_madeOf {N : String → Prop} {A : Action H V → Prop} {p : Parser H V}
    {rules : List (String × Rule H V)} (hr : ∀ r ∈ rules, r.2.MadeOf N A)
    (hg : p.grammar.MadeOf N A) : (p.defineAll rules).grammar.MadeOf N A := by
  induction rules generalizing p with
  | nil => exact hg
  | cons r rules ih =>
    obtain ⟨hfirst, hrest⟩ := List.forall_mem_cons.mp hr
    exact ih hrest (hg.define r.1 hfirst)

theorem defineAll_diagnostics (p : Parser H V) (rules : List (String × Rule H V)) :
    (p.defineAll rules).grammar.diagnostics = p.grammar.diagnostics := by
  induction rules generalizing p with
  | nil => rfl
  | cons r rules ih => exact ih (p.rule r.1 r.2)

theorem Reached.defineAll [Inhabited V] {p : Parser H V} (h : p.Reached)
    (rules : List (String × Rule H V)) : (p.defineAll rules).Reached := by
  induction rules generalizing p with
  | nil => exact h
  | cons r rules ih => exact ih (h.rule r.1 r.2)

theorem defineAll_bodies {p : Parser H V} {rules : List (String × Rule H V)}
    (hnodup : (rules.map Prod.fst).Nodup)
    (hfresh : ∀ r ∈ rules, p.grammar.bodies.source? r.1 = none) :
    (p.defineAll rules).grammar.bodies =
      ⟨p.grammar.terminals, p.grammar.bodies.sources ++ rules⟩ := by
  induction rules generalizing p with
  | nil => rw [List.append_nil]; rfl
  | cons r rules ih =>
    obtain ⟨hr, hrules⟩ := List.nodup_cons.mp hnodup
    obtain ⟨hfr, hfrules⟩ := List.forall_mem_cons.mp hfresh
    have hbodies : (p.rule r.1 r.2).grammar.bodies = _ := Grammar.bodies_define r.2 hfr
    have hrest : ∀ r' ∈ rules, (p.rule r.1 r.2).grammar.bodies.source? r'.1 = none := by
      intro r' hm
      have hne : r'.1 ≠ r.1 := by
        intro heq
        exact hr (heq ▸ List.mem_map_of_mem hm)
      have hold := hfrules r' hm
      rw [Grammar.bodies_source?] at hold ⊢
      exact (p.grammar.source?_define r.1 r'.1 r.2).trans ((if_neg hne).trans hold)
    have hall := ih hrules hrest
    rw [hbodies] at hall
    change ((p.rule r.1 r.2).defineAll rules).grammar.bodies = _
    rw [hall, List.append_assoc]
    rfl

section

variable [Inhabited V] (p : Parser H V) (entry : Rule H V) (source : Source V) (host : H)

def machine : Machine H V :=
  { ({ p with grammar := (p.grammar.compile entry).2.grammar }.start source host) with
    trace := .started (p.grammar.compile entry).1 :: (p.grammar.compile entry).2.trace }

def execution (budget : Nat) : Outcome V × Machine H V :=
  Machine.execute budget (p.grammar.compile entry).1 (p.machine entry source host)

theorem parse_outcome (budget : Nat) : (p.parse budget entry source host).outcome =
    (p.execution entry source host budget).1 := rfl

theorem parse_grammar (budget : Nat) : (p.parse budget entry source host).parser.grammar =
    (p.execution entry source host budget).2.grammar := rfl

theorem parse_effects (budget : Nat) : (p.parse budget entry source host).effects =
    (p.execution entry source host budget).2.effects := by
  have hcalls : (p.parse budget entry source host).trace.calls =
      (ending (p.execution entry source host budget).1 ++
        (p.execution entry source host budget).2.trace).filterMap Event.call? := rfl
  rw [List.filterMap_append] at hcalls
  have hending : (ending (p.execution entry source host budget).1 : Trace H V).filterMap
      Event.call? = [] := by
    cases (p.execution entry source host budget).1 <;> rfl
  rw [hending, List.nil_append] at hcalls
  rw [Parsed.effects, hcalls]
  rfl

end

theorem Reached.realizes [Inhabited V] {p : Parser H V} (hp : p.Reached) :
    Realizes p.grammar.bodies.meaning p.grammar := by
  induction hp with
  | start terminals => exact realizes_of_uncompiled fun _ => rfl
  | @rule p _ name body _ =>
    exact realizes_of_uncompiled fun other => p.grammar.compiled?_define name other body
  | @compileRule p _ name ih =>
    have hbodies : (p.compileRule name).2.1.grammar.bodies = p.grammar.bodies :=
      p.grammar.resolve_bodies name
    rw [hbodies]
    exact (ih.resolve name).1
  | @parse p _ budget entry source host ih =>
    have hform := ih.compile entry
    rw [parse_grammar, execution, Machine.execute_bodies]
    change Realizes (p.grammar.compile entry).2.grammar.bodies.meaning _
    rw [Grammar.compile_bodies]
    exact hform.1.execute budget _
  | setOptions _ _ ih => exact ih
  | clearDiagnostics _ ih => exact { ih with }

section

variable [Inhabited V] {p : Parser H V} {source : Source V}

theorem execution_agrees (hd : p.options.maxDepth = none) (entry : Rule H V)
    (hs : source.position ≤ source.tokens.size) (host : H) (budget : Nat) :
    Agrees (fun _ => True) id [] (p.machine entry source host)
      (.start (p.grammar.compile entry).2.grammar source host)
      (p.execution entry source host budget)
      (Evaluation.eval Floor.whole Grammar.found budget (p.grammar.compile entry).1
        (.start (p.grammar.compile entry).2.grammar source host)) := by
  have hcontent (act : Action H V) (_ : True) : act.Content Floor.whole id fun _ => False :=
    act.content_whole _
  have hmade := Rule.madeOf_of_forall (N := fun _ => True) (A := fun _ => True)
    (fun _ => trivial) (fun _ => trivial) (p.grammar.compile entry).1
  have halike : Alike (fun _ => True) id [] (p.machine entry source host)
      (.start (p.grammar.compile entry).2.grammar source host) :=
    { rest := rfl
      bounded := hs
      names := rfl
      host := rfl
      calls := (p.grammar.calls_compile entry).symm
      limit := hd
      actions := Grammar.madeOf_of_forall (fun _ => trivial) (fun _ => trivial) _
      stack := ValueStack.holds_empty
      below := rfl }
  refine execute_inStep Floor.whole_keeps hcontent budget hmade [] _ _ halike ?_
  cases (Machine.execute budget (p.grammar.compile entry).1 (p.machine entry source host)).1 <;>
    exact not_false

theorem returns_iff_of_realizes {look : String → Rule H V} (hreal : Realizes look p.grammar)
    (hd : p.options.maxDepth = none) (entry : Rule H V)
    (hs : source.position ≤ source.tokens.size) (host : H) :
    (∀ o e, Returns (fun n => ((p.parse n entry source host).outcome,
        (p.parse n entry source host).effects)) o e ↔
      Returns (fun n => ((interpret look n entry source host).1,
        (interpret look n entry source host).2.effects source.tokens)) o e) ∧
    ∀ n, (p.parse n entry source host).outcome ≠ .unfinished →
      Returns (fun n => ((p.parse n entry source host).outcome,
          (p.parse n entry source host).effects))
        (p.parse n entry source host).outcome (p.parse n entry source host).effects := by
  obtain ⟨hcompiled, hform⟩ := hreal.compile entry
  have hagrees := execution_agrees hd entry hs host
  have houtcome (n : Nat) := (parse_outcome p entry source host n).trans (hagrees n).outcome.symm
  have heffects (n : Nat) := (parse_effects p entry source host n).trans (hagrees n).effects
  simp only [houtcome, heffects]
  exact eval_returns_iff Floor.whole_level finds_found hform
    (fun x y h => h.2.effects source.tokens) ⟨rfl, hcompiled, rfl, rfl⟩

end

/-- In every state that a parser can reach, a parse without a depth limit returns exactly what
interpreting the entry rule by the bodies of the moment returns: the same outcome, the same place
in the tokens, the same runs of actions. A parse that ends with some budget does return. -/
theorem Reached.parse_returns_iff [Inhabited V] {p : Parser H V} (hp : p.Reached)
    (hd : p.options.maxDepth = none) (entry : Rule H V) {source : Source V}
    (hs : source.position ≤ source.tokens.size) (host : H) :
    (∀ o e, Returns (fun n => ((p.parse n entry source host).outcome,
        (p.parse n entry source host).effects)) o e ↔
      Returns (fun n => ((interpret p.grammar.bodies.meaning n entry source host).1,
        (interpret p.grammar.bodies.meaning n entry source host).2.effects source.tokens)) o e) ∧
    ∀ n, (p.parse n entry source host).outcome ≠ .unfinished →
      Returns (fun n => ((p.parse n entry source host).outcome,
          (p.parse n entry source host).effects))
        (p.parse n entry source host).outcome (p.parse n entry source host).effects :=
  returns_iff_of_realizes hp.realizes hd entry hs host

def relay : Parser Unit Nat :=
  ((((ofTerminals ["x"]).rule "a" (.ref "b")).parse 9 (.ref "a") (.ofList [⟨"x", 7⟩])
    ()).parser).rule "b"
      (.sequence [.ref "x", .action ⟨some "twice", fun w h =>
        (.ofRead ((w.get 1).map (2 * ·)), h)⟩])

theorem relay_returns : relay.Reached ∧ relay.options.maxDepth = none ∧
    Returns (fun n => ((relay.parse n (.ref "a") (.ofList [⟨"x", 7⟩]) ()).outcome,
        (relay.parse n (.ref "a") (.ofList [⟨"x", 7⟩]) ()).effects))
      (.value 14) ⟨⟨#[⟨"x", 7⟩], 1⟩, (), [⟨some "twice", [7], none⟩]⟩ := by
  have hreached : relay.Reached := .rule (.parse (.rule (.start _) _ _) _ _ _ _) _ _
  refine ⟨hreached, rfl, ?_⟩
  refine ((hreached.parse_returns_iff rfl (.ref "a") (Nat.zero_le _) ()).1 _ _).mpr
    ⟨by simp, 6, ?_⟩
  intro k hk
  obtain ⟨j, rfl⟩ := Nat.exists_eq_add_of_le' hk
  rfl

end Parser

end OrderedChoice
