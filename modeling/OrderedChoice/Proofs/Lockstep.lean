import OrderedChoice.Proofs.Contents
import OrderedChoice.Proofs.Evaluation
import OrderedChoice.Proofs.Frames

set_option autoImplicit false

namespace OrderedChoice

variable {B H V : Type}

namespace Source

theorem next?_of_remaining_cons {s : Source V} {token : Token V} {rest : List (Token V)}
    (h : s.remaining = token :: rest) :
    s.next? = some (token, { s with position := s.position + 1 }) ∧
      ({ s with position := s.position + 1 } : Source V).remaining = rest ∧
      s.position + 1 ≤ s.tokens.size := by
  have hlt : s.position < s.tokens.toList.length := by
    apply Nat.lt_of_not_le
    intro hle
    rw [remaining, List.drop_eq_nil_of_le hle] at h
    cases h
  rw [remaining, List.drop_eq_getElem_cons hlt] at h
  obtain ⟨rfl, rfl⟩ := List.cons.inj h
  have hsize : s.position < s.tokens.size := by simpa using hlt
  refine ⟨?_, rfl, hsize⟩
  rw [next?, Array.getElem?_eq_getElem hsize]
  rfl

theorem next?_of_remaining_nil {s : Source V} (h : s.remaining = []) : s.next? = none := by
  have hle : s.tokens.size ≤ s.position := by simpa [remaining] using h
  rw [next?, Array.getElem?_eq_none hle]

theorem done_eq_isEmpty (s : Source V) : s.done = s.remaining.isEmpty := by
  rw [Bool.eq_iff_iff]
  simp [done, remaining]

theorem seek_of_le {s : Source V} {position : Nat} (h : position ≤ s.tokens.size) :
    s.seek position = .ok { s with position } :=
  if_pos h

end Source

def Machine.answered (m : Machine H V) : Reply V × H → Outcome V × Machine H V
  | (.value v, host) => (.value v, { m with host }.push v)
  | (.reject, host) => (.noMatch, { m with host })
  | (.fault f, host) => (.fault f, { m with host })

theorem Machine.act_eq (m : Machine H V) (a : Action H V) :
    m.act a = (m.note (.acted a.label m.stack.window.values m.stack.window.below?)).answered
      (a.run m.stack.window m.host) := by
  have hhost : (m.note (.acted a.label m.stack.window.values m.stack.window.below?)).host =
      m.host := rfl
  simp only [act, hhost]
  generalize a.run m.stack.window m.host = r
  obtain ⟨reply, host⟩ := r
  cases reply <;> rfl

/-- What `floor` remembers of some values is `kept` of them, and it shows actions the frame and the
value below it. -/
structure Floor.Keeps (floor : Floor B V) (kept : List V → B) : Prop where
  opened (lower frame : List V) : floor.opened (kept lower) frame = kept (lower ++ frame)
  values (lower frame : List V) : (floor.window (kept lower) frame).values = frame
  below (lower frame : List V) : (floor.window (kept lower) frame).below? = lower.getLast?

theorem Floor.whole_keeps : (Floor.whole : Floor (List V) V).Keeps id :=
  ⟨fun _ _ => rfl, Window.values_mk, Window.below?_mk⟩

theorem Floor.nearest_keeps : (Floor.nearest : Floor (Option V) V).Keeps List.getLast? := by
  refine ⟨?_, ?_, ?_⟩
  · intro lower frame
    rw [List.getLast?_append]
    rfl
  · intro lower frame
    exact Window.values_mk lower.getLast?.toList frame
  · intro lower frame
    rw [show (Floor.nearest : Floor (Option V) V).window lower.getLast? frame =
      ⟨(lower.getLast?.toList ++ frame).toArray, lower.getLast?.toList.length⟩ from rfl,
      Window.below?_mk]
    cases lower.getLast? <;> rfl

def Reply.isFault (X : Fault → Prop) : Reply V → Prop
  | .fault f => X f
  | _ => False

def Outcome.isFault (X : Fault → Prop) : Outcome V → Prop
  | .fault f => X f
  | _ => False

/-- An action that does on what `floor` shows what it does on all live values, unless that is one
of the faults `X`. -/
def Action.Content (floor : Floor B V) (kept : List V → B) (X : Fault → Prop)
    (a : Action H V) : Prop :=
  ∀ lower frame h,
    ¬(a.run ⟨(lower ++ frame).toArray, lower.length⟩ h).1.isFault X →
    a.run (floor.window (kept lower) frame) h =
      a.run ⟨(lower ++ frame).toArray, lower.length⟩ h

theorem Action.content_whole (X : Fault → Prop) (a : Action H V) :
    a.Content Floor.whole id X :=
  fun _ _ _ _ => rfl

def Outcome.regular : Outcome V → Prop
  | .value _ => True
  | .noMatch => True
  | _ => False

/-- A machine and an evaluation have the same tokens left, names, state of actions and runs of
actions; all actions of the grammar are among `A`. -/
structure Shares (A : Action H V → Prop) (m : Machine H V)
    (s : Evaluation (Grammar H V) B H V) : Prop where
  rest : s.view.rest = m.source.remaining
  bounded : m.source.position ≤ m.source.tokens.size
  names : s.names = m.grammar
  host : s.host = m.host
  calls : s.calls = m.trace.calls
  limit : m.guard.limit = none
  actions : m.grammar.MadeOf (fun _ => True) A

structure Alike (A : Action H V → Prop) (kept : List V → B) (lower : List V) (m : Machine H V)
    (s : Evaluation (Grammar H V) B H V) : Prop extends Shares A m s where
  stack : m.stack.Holds lower s.view.frame
  below : s.view.below = kept lower

structure Agrees (A : Action H V → Prop) (kept : List V → B) (lower : List V) (m : Machine H V)
    (s : Evaluation (Grammar H V) B H V) (x : Outcome V × Machine H V)
    (y : Outcome V × Evaluation (Grammar H V) B H V) : Prop where
  outcome : y.1 = x.1
  shares : Shares A x.2 y.2
  tokens : x.2.source.tokens = m.source.tokens
  alike (h : x.1.regular) : Alike A kept lower x.2 y.2 ∧ s.view.frame <+: y.2.view.frame

variable {X : Fault → Prop} {A : Action H V → Prop} {floor : Floor B V} {kept : List V → B}
  {lower : List V} {m : Machine H V} {s : Evaluation (Grammar H V) B H V}

namespace Alike

theorem refl (h : Alike A kept lower m s) (o : Outcome V) : Agrees A kept lower m s (o, m) (o, s) :=
  ⟨rfl, h.toShares, rfl, fun _ => ⟨h, List.prefix_refl _⟩⟩

theorem matchTerminal (h : Alike A kept lower m s) (name : String) :
    Agrees A kept lower m s (m.matchTerminal name) (s.matchTerminal name) := by
  have hrest := h.rest
  cases hr : s.view.rest with
  | nil =>
    rw [hr] at hrest
    rw [Machine.matchTerminal, Evaluation.matchTerminal, hr,
      Source.next?_of_remaining_nil hrest.symm]
    exact ⟨rfl, { h with }, rfl, fun _ => ⟨{ h with }, List.prefix_refl _⟩⟩
  | cons token rest =>
    rw [hr] at hrest
    obtain ⟨hnext, hrem, hle⟩ := Source.next?_of_remaining_cons hrest.symm
    rw [Machine.matchTerminal, Evaluation.matchTerminal, hr, hnext]
    by_cases hname : token.name = name
    · simp only [hname, ↓reduceIte]
      have hshares : Shares A
          ({ m with source := { m.source with position := m.source.position + 1 } }.push
            token.value)
          ({ s with view := { s.view with rest } }.push token.value) :=
        { h with rest := hrem.symm, bounded := hle }
      exact ⟨rfl, hshares, rfl, fun _ =>
        ⟨{ hshares with stack := h.stack.push token.value, below := h.below },
          List.prefix_append _ _⟩⟩
    · simp only [hname, ↓reduceIte]
      have hseek := @Source.seek_of_le V { m.source with position := m.source.position + 1 }
        m.source.position h.bounded
      rw [hseek]
      exact ⟨rfl, { h with }, rfl, fun _ => ⟨{ h with }, List.prefix_refl _⟩⟩

theorem answered (h : Alike A kept lower m s) (r : Reply V × H) :
    Agrees A kept lower m s (m.answered r) (s.answered r) := by
  obtain ⟨reply, host⟩ := r
  cases reply with
  | value v =>
    exact ⟨rfl, { h with host := rfl }, rfl, fun _ =>
      ⟨{ h with host := rfl, stack := h.stack.push v }, List.prefix_append _ _⟩⟩
  | reject =>
    exact ⟨rfl, { h with host := rfl }, rfl, fun _ => ⟨{ h with host := rfl }, List.prefix_refl _⟩⟩
  | fault f => exact ⟨rfl, { h with host := rfl }, rfl, fun hreg => hreg.elim⟩

theorem act (hfloor : floor.Keeps kept) (h : Alike A kept lower m s) {a : Action H V}
    (ha : a.Content floor kept X) (hno : ¬(m.act a).1.isFault X) :
    Agrees A kept lower m s (m.act a) (s.act floor a) := by
  have hrun : ¬(a.run m.stack.window m.host).1.isFault X := by
    intro hf
    apply hno
    rw [Machine.act_eq]
    generalize a.run m.stack.window m.host = r at hf
    obtain ⟨reply, host⟩ := r
    cases reply with
    | fault f => exact hf
    | _ => exact hf.elim
  rw [h.stack.window] at hrun
  have hsame := ha lower s.view.frame m.host hrun
  rw [Machine.act_eq, Evaluation.act, h.below, h.host, h.stack.window, hsame, hfloor.values,
    hfloor.below, Window.values_mk, Window.below?_mk]
  have hnoted : Alike A kept lower
      (m.note (.acted a.label s.view.frame lower.getLast?))
      ⟨s.view, s.names, m.host, ⟨a.label, s.view.frame, lower.getLast?⟩ :: s.calls⟩ :=
    { h with host := rfl, calls := congrArg (List.cons _) h.calls }
  obtain ⟨ho, hs, ht, hreg⟩ := hnoted.answered
    (a.run ⟨(lower ++ s.view.frame).toArray, lower.length⟩ m.host)
  exact ⟨ho, hs, ht, hreg⟩

theorem undo {m' : Machine H V} {s' : Evaluation (Grammar H V) B H V}
    (h' : Alike A kept lower m' s') (h : Alike A kept lower m s)
    (hf : s.view.frame <+: s'.view.frame) (ht : m'.source.tokens = m.source.tokens)
    {e : Event H V} (he : e.call? = none) :
    ∃ u, (m'.note e).undo m.stack.pointer m.source.position = .ok u ∧
      Alike A kept lower u { s' with view := s.view } ∧
      u.source = m.source ∧ u.stack.pointer = m.stack.pointer := by
  obtain ⟨more, hmore⟩ := hf
  have hstack := h'.stack
  rw [← hmore] at hstack
  obtain ⟨stack, hroll, hholds⟩ := h.stack.rollback hstack
  have hseek : (m'.note e).source.seek m.source.position = .ok m.source := by
    change m'.source.seek m.source.position = .ok m.source
    rw [Source.seek_of_le (by rw [ht]; exact h.bounded), ht]
  have hroll' : (m'.note e).stack.rollback m.stack.pointer = .ok stack := hroll
  refine ⟨{ m'.note e with stack, source := m.source }, ?_, ?_, rfl, ?_⟩
  · rw [Machine.undo, hroll']
    simp only [hseek]
  · have hcalls : s'.calls = (m'.note e).trace.calls := by
      change _ = (e :: m'.trace).filterMap Event.call?
      rw [List.filterMap_cons_none he]
      exact h'.calls
    exact { h' with rest := h.rest, bounded := h.bounded, calls := hcalls, stack := hholds
                    below := h.below }
  · rw [hholds.pointer, h.stack.pointer]

end Alike

section

variable {E : Rule H V → Machine H V → Outcome V × Machine H V}
  {F : Rule H V → Evaluation (Grammar H V) B H V → Outcome V × Evaluation (Grammar H V) B H V}

/-- Running a rule agrees with evaluating it, from any start. -/
def InStep (X : Fault → Prop) (A : Action H V → Prop) (kept : List V → B)
    (E : Machine H V → Outcome V × Machine H V)
    (F : Evaluation (Grammar H V) B H V → Outcome V × Evaluation (Grammar H V) B H V) : Prop :=
  ∀ lower m s, Alike A kept lower m s → ¬(E m).1.isFault X →
    Agrees A kept lower m s (E m) (F s)

theorem Agrees.trans {m' : Machine H V} {s' : Evaluation (Grammar H V) B H V}
    {x : Outcome V × Machine H V} {y : Outcome V × Evaluation (Grammar H V) B H V}
    (ht : m'.source.tokens = m.source.tokens) (hf : s.view.frame <+: s'.view.frame)
    (h : Agrees A kept lower m' s' x y) : Agrees A kept lower m s x y :=
  ⟨h.outcome, h.shares, h.tokens.trans ht,
    fun hreg => ⟨(h.alike hreg).1, hf.trans (h.alike hreg).2⟩⟩

theorem inScope_inStep (hfloor : floor.Keeps kept) {run : Machine H V → Outcome V × Machine H V}
    {eval : Evaluation (Grammar H V) B H V → Outcome V × Evaluation (Grammar H V) B H V}
    (hrun : InStep X A kept run eval) :
    InStep X A kept (Machine.inScope run) (Evaluation.inScope floor eval) := by
  intro lower m s h hno
  have hopen : Alike A kept (lower ++ s.view.frame) { m with stack := m.stack.openFrame }
      { s with view := ⟨floor.opened s.view.below s.view.frame, [], s.view.rest⟩ } :=
    { h with
      stack := h.stack.openFrame
      below := by rw [h.below, hfloor.opened] }
  have hrec := hrun _ _ _ hopen
  simp only [Machine.inScope, Evaluation.inScope] at hno ⊢
  generalize run { m with stack := m.stack.openFrame } = x at hno hrec
  generalize eval { s with view := ⟨floor.opened s.view.below s.view.frame, [], s.view.rest⟩ } = y
    at hrec
  obtain ⟨o, m'⟩ := x
  obtain ⟨o', s'⟩ := y
  cases o with
  | value v =>
    obtain ⟨rfl, hs, ht, hreg⟩ := hrec not_false
    have hstack := h.stack.closeFrame (hreg trivial).1.stack
    exact ⟨rfl, { hs with }, ht, fun _ => ⟨{ hs with stack := hstack.push v, below := h.below },
      List.prefix_append _ _⟩⟩
  | noMatch =>
    obtain ⟨rfl, hs, ht, hreg⟩ := hrec not_false
    have hstack := h.stack.closeFrame (hreg trivial).1.stack
    exact ⟨rfl, { hs with }, ht, fun _ => ⟨{ hs with stack := hstack, below := h.below },
      List.prefix_refl _⟩⟩
  | limitExceeded n =>
    obtain ⟨rfl, hs, ht, -⟩ := hrec not_false
    exact ⟨rfl, { hs with }, ht, fun hreg => hreg.elim⟩
  | fault f =>
    obtain ⟨rfl, hs, ht, -⟩ := hrec hno
    exact ⟨rfl, hs, ht, fun hreg => hreg.elim⟩
  | unfinished =>
    obtain ⟨rfl, hs, ht, -⟩ := hrec not_false
    exact ⟨rfl, hs, ht, fun hreg => hreg.elim⟩

theorem inSequence_inStep {parts : List (Rule H V)}
    (hrun : ∀ part ∈ parts, InStep X A kept (E part) (F part)) (last : V) :
    InStep X A kept (Machine.inSequence E parts last) (Evaluation.inSequence F parts last) := by
  induction parts generalizing last with
  | nil =>
    intro lower m s h _
    exact h.refl (.value last)
  | cons part parts ih =>
    obtain ⟨hpart, hparts⟩ := List.forall_mem_cons.mp hrun
    intro lower m s h hno
    have hrec := hpart lower m s h
    simp only [Machine.inSequence, Evaluation.inSequence] at hno ⊢
    generalize E part m = x at hno hrec
    generalize F part s = y at hrec
    obtain ⟨o, m'⟩ := x
    obtain ⟨o', s'⟩ := y
    cases o with
    | value v =>
      obtain ⟨rfl, -, ht, hreg⟩ := hrec not_false
      obtain ⟨halike, hframe⟩ := hreg trivial
      exact (ih hparts v lower m' s' halike hno).trans ht hframe
    | _ =>
      have h' := hrec hno
      obtain rfl := h'.outcome
      exact h'

theorem inAlternative_inStep {parts : List (Rule H V)}
    (hrun : ∀ part ∈ parts, InStep X A kept (E part) (F part)) (count index : Nat)
    {lower : List V} {m : Machine H V} {s : Evaluation (Grammar H V) B H V}
    (h : Alike A kept lower m s) :
    ¬(Machine.inAlternative E m.stack.pointer m.source.position count index parts m).1.isFault X →
      Agrees A kept lower m s
        (Machine.inAlternative E m.stack.pointer m.source.position count index parts m)
        (Evaluation.inAlternative F parts s) := by
  generalize hmark : m.stack.pointer = mark
  generalize hposition : m.source.position = position
  induction parts generalizing index m s with
  | nil =>
    intro _
    exact h.refl .noMatch
  | cons part parts ih =>
    obtain ⟨hpart, hparts⟩ := List.forall_mem_cons.mp hrun
    intro hno
    have hrec := hpart lower m s h
    simp only [Machine.inAlternative, Evaluation.inAlternative] at hno ⊢
    generalize E part m = x at hno hrec
    generalize F part s = y at hrec
    obtain ⟨o, m'⟩ := x
    obtain ⟨o', s'⟩ := y
    cases o with
    | noMatch =>
      obtain ⟨rfl, hs, ht, hreg⟩ := hrec not_false
      obtain ⟨halike, hframe⟩ := hreg trivial
      obtain ⟨u, hundo, hback, hsource, hpointer⟩ := halike.undo h hframe ht
        (show Event.call? (.undone index count position) = none from rfl)
      rw [hmark, hposition] at hundo
      simp only [hundo] at hno ⊢
      have hlast := ih hparts (index + 1) hback (hpointer.trans hmark)
        ((congrArg Source.position hsource).trans hposition) hno
      refine Agrees.trans (congrArg Source.tokens hsource) ?_ hlast
      exact List.prefix_refl _
    | _ =>
      have h' := hrec hno
      obtain rfl := h'.outcome
      exact h'

theorem atEnd_inStep {run : Machine H V → Outcome V × Machine H V}
    {eval : Evaluation (Grammar H V) B H V → Outcome V × Evaluation (Grammar H V) B H V}
    (hrun : InStep X A kept run eval) :
    InStep X A kept (fun m => Machine.atEnd (run m)) (fun s => Evaluation.atEnd (eval s)) := by
  intro lower m s h hno
  have hrec := hrun lower m s h
  simp only at hno ⊢
  generalize run m = x at hno hrec
  generalize eval s = y at hrec
  obtain ⟨o, m'⟩ := x
  obtain ⟨o', s'⟩ := y
  cases o with
  | value v =>
    have h' := hrec not_false
    obtain rfl := h'.outcome
    have hdone : m'.source.done = s'.view.rest.isEmpty := by
      rw [Source.done_eq_isEmpty, h'.shares.rest]
    simp only [Machine.atEnd, Evaluation.atEnd, hdone]
    split
    · exact h'
    · obtain ⟨halike, hframe⟩ := h'.alike trivial
      exact ⟨rfl, { h'.shares with }, h'.tokens, fun _ => ⟨{ halike with }, hframe⟩⟩
  | _ =>
    have h' := hrec hno
    obtain rfl := h'.outcome
    exact h'

theorem Agrees.leave {x : Outcome V × Machine H V}
    {y : Outcome V × Evaluation (Grammar H V) B H V} (h : Agrees A kept lower m s x y) :
    Agrees A kept lower m s (Machine.leave x) y := by
  obtain ⟨o, m'⟩ := x
  obtain ⟨ho, hs, ht, hreg⟩ := h
  cases o with
  | value v =>
    obtain ⟨halike, hframe⟩ := hreg trivial
    exact ⟨ho, { hs with }, ht, fun _ => ⟨{ halike with }, hframe⟩⟩
  | noMatch =>
    obtain ⟨halike, hframe⟩ := hreg trivial
    exact ⟨ho, { hs with }, ht, fun _ => ⟨{ halike with }, hframe⟩⟩
  | limitExceeded n => exact ⟨ho, { hs with }, ht, fun hreg => hreg.elim⟩
  | fault f => exact ⟨ho, hs, ht, fun hreg => hreg.elim⟩
  | unfinished => exact ⟨ho, hs, ht, fun hreg => hreg.elim⟩

end

theorem uncalled_compiles (top : List String) :
    Compiles top (fun _ c => (c : Compiling H V).trace.calls = []) (fun _ _ => True) where
  congruence := Rule.congruence_true
  terminal _ _ := trivial
  missing hI _ _ _ := ⟨hI, trivial⟩
  known _ _ _ := trivial
  entered _ _ _ _ _ := trivial
  enter hI _ _ _ _ := hI
  finish hI _ _ _ := ⟨hI, trivial⟩

theorem Grammar.calls_compile (g : Grammar H V) (rule : Rule H V) :
    (g.compile rule).2.trace.calls = [] :=
  (compileVisiting_compiles (uncalled_compiles rule.refs) g [] rfl).1

theorem Grammar.calls_resolve (g : Grammar H V) (name : String) :
    (g.resolve name).2.trace.calls = [] :=
  (resolve_compiles (uncalled_compiles [name]) g rfl).1

theorem Alike.resolve (h : Alike A kept lower m s) (name : String) :
    Alike A kept lower (m.resolve name).2 { s with names := (s.names.found name).2 } := by
  have hnames : (s.names.found name).2 = (m.resolve name).2.grammar := by
    rw [h.names]
    rfl
  have hcalls : s.calls = (m.resolve name).2.trace.calls := by
    change _ = ((m.grammar.resolve name).2.trace ++ m.trace).filterMap Event.call?
    rw [List.filterMap_append]
    change _ = (m.grammar.resolve name).2.trace.calls ++ m.trace.calls
    rw [Grammar.calls_resolve, h.calls]
    rfl
  exact { h with names := hnames, calls := hcalls, actions := (h.actions.resolve name).1 }

theorem dispatch_inStep [Inhabited V] (hfloor : floor.Keeps kept)
    (hA : ∀ a, A a → a.Content floor kept X)
    {E : Rule H V → Machine H V → Outcome V × Machine H V}
    {F : Rule H V → Evaluation (Grammar H V) B H V → Outcome V × Evaluation (Grammar H V) B H V}
    (hrec : ∀ rule : Rule H V, rule.MadeOf (fun _ => True) A → InStep X A kept (E rule) (F rule))
    {rule : Rule H V} (hr : rule.MadeOf (fun _ => True) A) :
    InStep X A kept (Machine.dispatch E rule)
      (Evaluation.dispatch floor Grammar.found F rule) := by
  intro lower m s h hno
  cases rule with
  | ref name =>
    have hnext := h.resolve name
    have hform : (s.names.found name).1 = (m.resolve name).1 := by
      rw [h.names]
      rfl
    have hmade : (m.resolve name).1.MadeOf (fun _ => True) A :=
      (h.actions.resolve name).2 trivial
    obtain ⟨ho, hs, ht, hreg⟩ := hrec _ hmade lower _ _ hnext hno
    simp only [Machine.dispatch, Evaluation.dispatch, hform]
    exact ⟨ho, hs, ht, hreg⟩
  | terminal name => exact h.matchTerminal name
  | scope body => exact inScope_inStep hfloor (hrec body hr) lower m s h hno
  | sequence parts =>
    exact inSequence_inStep (fun part hp => hrec part (Rule.PartsMadeOf.mem hr hp)) default lower m
      s h hno
  | alternative parts =>
    exact inAlternative_inStep (fun part hp => hrec part (Rule.PartsMadeOf.mem hr hp)) _ 1 h hno
  | action a => exact h.act hfloor (hA a hr) hno
  | terminated body => exact atEnd_inStep (hrec body hr) lower m s h hno

/-- A machine without a depth limit, all of whose actions are content with what `floor` shows, does
with each budget what an evaluation does that finds names in the same grammar. -/
theorem execute_inStep [Inhabited V] (hfloor : floor.Keeps kept)
    (hA : ∀ a, A a → a.Content floor kept X) (budget : Nat) {rule : Rule H V}
    (hr : rule.MadeOf (fun _ => True) A) :
    InStep X A kept (Machine.execute budget rule)
      (Evaluation.eval floor Grammar.found budget rule) := by
  induction budget generalizing rule with
  | zero =>
    intro lower m s h _
    exact h.refl .unfinished
  | succ budget ih =>
    intro lower m s h hno
    have hlimit : ({ m with guard := m.guard.enter } : Machine H V).guard.exceeded = none := by
      simp [DepthGuard.enter, DepthGuard.exceeded, h.limit]
    have hentered : Alike A kept lower { m with guard := m.guard.enter } s := { h with }
    simp only [Machine.execute, hlimit] at hno ⊢
    rw [Machine.leave_fst] at hno
    have hstep := dispatch_inStep hfloor hA (fun rule hr => ih hr) hr lower _ s hentered hno
    obtain ⟨ho, hs, ht, hreg⟩ := hstep.leave
    exact ⟨ho, hs, ht, hreg⟩

theorem Agrees.effects {x : Outcome V × Machine H V}
    {y : Outcome V × Evaluation (Grammar H V) B H V} (h : Agrees A kept lower m s x y) :
    x.2.effects = y.2.effects m.source.tokens := by
  obtain ⟨-, hs, ht, -⟩ := h
  have hlength : y.2.view.rest.length = x.2.source.tokens.size - x.2.source.position := by
    rw [hs.rest, Source.remaining, List.length_drop, Array.length_toList]
  have hposition : x.2.source.position = m.source.tokens.size - y.2.view.rest.length := by
    have := hs.bounded
    rw [← ht]
    omega
  rw [Machine.effects, Evaluation.effects, ← hposition, ← ht, hs.host, hs.calls]

end OrderedChoice
