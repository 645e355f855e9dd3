import OrderedChoice.Proofs.Lockstep
import OrderedChoice.Proofs.Realization

set_option autoImplicit false

namespace OrderedChoice

variable {H V R : Type}

/-- The questions that can be asked of a window, one after the other, and the answer in the end. -/
inductive Inquiry (V R : Type) where
  | answer (r : R)
  | size (next : Nat → Inquiry V R)
  | frame (next : List V → Inquiry V R)
  | get (index : Nat) (next : V → Inquiry V R)
  | tryGet (index : Nat) (next : Except Diagnostic V → Inquiry V R)

def Inquiry.run : Inquiry V R → Window V → Except Fault R
  | answer r, _ => .ok r
  | size next, w =>
    match w.size with
    | .ok n => (next n).run w
    | .error f => .error f
  | frame next, w =>
    match w.frame with
    | .ok vs => (next vs).run w
    | .error f => .error f
  | get index next, w =>
    match w.get index with
    | .ok v => (next v).run w
    | .error f => .error f
  | tryGet index next, w =>
    match w.tryGet index with
    | .ok v => (next v).run w
    | .error f => .error f

def Action.ofInquiry (label : Option String) (q : H → Inquiry V (Reply V × H)) : Action H V where
  label := label
  run w h :=
    match (q h).run w with
    | .ok r => r
    | .error f => (.fault f, h)

/-- An action that knows its window by questions only. -/
def Action.Inquires (a : Action H V) : Prop :=
  ∃ q, a = .ofInquiry a.label q

namespace Window

variable (lower frame : List V)

theorem tryGet_mk {lower' : List V} (hlast : lower'.getLast? = lower.getLast?)
    (hle : lower'.length ≤ lower.length) {index : Nat}
    (h : (⟨(lower ++ frame).toArray, lower.length⟩ : Window V).tryGet index ≠
      .error .sumOverflow) :
    (⟨(lower' ++ frame).toArray, lower'.length⟩ : Window V).tryGet index =
      (⟨(lower ++ frame).toArray, lower.length⟩ : Window V).tryGet index := by
  have hfits : ¬wordBound ≤ lower.length + index := by
    intro hover
    exact h (if_pos hover)
  simp only [tryGet, slot?_mk, size_mk, hlast, if_neg hfits]
  rw [if_neg (by omega)]

theorem get_mk {lower' : List V} (hlast : lower'.getLast? = lower.getLast?)
    (hle : lower'.length ≤ lower.length) {index : Nat}
    (h : (⟨(lower ++ frame).toArray, lower.length⟩ : Window V).get index ≠ .error .sumOverflow) :
    (⟨(lower' ++ frame).toArray, lower'.length⟩ : Window V).get index =
      (⟨(lower ++ frame).toArray, lower.length⟩ : Window V).get index := by
  have htry : (⟨(lower ++ frame).toArray, lower.length⟩ : Window V).tryGet index ≠
      .error .sumOverflow := by
    intro hover
    apply h
    rw [get, hover]
  rw [get, get, tryGet_mk lower frame hlast hle htry, size_mk, size_mk]

end Window

theorem Inquiry.run_mk (q : Inquiry V R) {lower lower' frame : List V}
    (hlast : lower'.getLast? = lower.getLast?) (hle : lower'.length ≤ lower.length)
    (h : q.run ⟨(lower ++ frame).toArray, lower.length⟩ ≠ .error .sumOverflow) :
    q.run ⟨(lower' ++ frame).toArray, lower'.length⟩ =
      q.run ⟨(lower ++ frame).toArray, lower.length⟩ := by
  induction q with
  | answer r => rfl
  | size next ih =>
    simp only [run, Window.size_mk] at h ⊢
    exact ih _ h
  | frame next ih =>
    simp only [run, Window.frame_mk] at h ⊢
    exact ih _ h
  | get index next ih =>
    have hget : (⟨(lower ++ frame).toArray, lower.length⟩ : Window V).get index ≠
        .error .sumOverflow := by
      intro hover
      apply h
      rw [run, hover]
    simp only [run, Window.get_mk lower frame hlast hle hget] at h ⊢
    split
    · rename_i v hv
      rw [hv] at h
      exact ih v h
    · rfl
  | tryGet index next ih =>
    have hget : (⟨(lower ++ frame).toArray, lower.length⟩ : Window V).tryGet index ≠
        .error .sumOverflow := by
      intro hover
      apply h
      rw [run, hover]
    simp only [run, Window.tryGet_mk lower frame hlast hle hget] at h ⊢
    split
    · rename_i v hv
      rw [hv] at h
      exact ih v h
    · rfl

theorem Action.Inquires.content {a : Action H V} (ha : a.Inquires) :
    a.Content Floor.nearest List.getLast? (· = .sumOverflow) := by
  obtain ⟨q, hq⟩ := ha
  rw [hq]
  intro lower frame h hno
  have hlast : lower.getLast?.toList.getLast? = lower.getLast? := by
    cases lower.getLast? <;> rfl
  have hle : lower.getLast?.toList.length ≤ lower.length := by
    cases lower with
    | nil => exact Nat.le_refl 0
    | cons v lower =>
      rw [List.getLast?_cons, Option.toList_some, List.length_singleton, List.length_cons]
      omega
  have hrun : (q h).run ⟨(lower ++ frame).toArray, lower.length⟩ ≠ .error .sumOverflow := by
    intro hover
    apply hno
    simp only [ofInquiry, hover]
    rfl
  simp only [ofInquiry, Floor.nearest, (q h).run_mk hlast hle hrun]

namespace Grammar

def form (g : Grammar H V) (name : String) : Rule H V :=
  (g.resolve name).1

/-- What names mean to a grammar as it stands: their compiled forms, where it has some. -/
def outlook (g : Grammar H V) (name : String) : Rule H V :=
  if g.isTerminal name then .terminal name
  else
    match g.rules.get? name with
    | none => .alternative []
    | some ⟨_, some form⟩ => form
    | some ⟨source, none⟩ => source.named

theorem realizes_outlook {g : Grammar H V}
    (h : ∀ name form, g.compiled? name = some form → form.selfScoping = true) :
    Realizes g.outlook g where
  terminal ht := by simp [outlook, ht]
  missing ht hn := by simp [outlook, ht, hn]
  known {name source form} ht he := by
    have hlook : g.outlook name = form := by simp [outlook, ht, he]
    refine ⟨h name form (by simp [compiled?, he]), ?_⟩
    rw [hlook]
    exact .refl form
  pending ht he := by simp [outlook, ht, he]

theorem finds_form {look : String → Rule H V} {g : Grammar H V} (h : Realizes look g) :
    Finds look (fixed g.form) (fun _ => True) :=
  fun _ name _ => ⟨trivial, (h.resolve name).2⟩

end Grammar

def Outcome.keeping (o : Outcome V) (frame : List V) : List V :=
  match o with
  | .value _ => frame
  | .noMatch => frame
  | _ => []

/-- What can be seen of a machine at the end of a run: the values of the frame and the effects. -/
def Machine.seen (x : Outcome V × Machine H V) : List V × Effects H V :=
  (x.1.keeping x.2.stack.window.values, x.2.effects)

def Evaluation.seen {G B : Type} (tokens : Array (Token V))
    (x : Outcome V × Evaluation G B H V) : List V × Effects H V :=
  (x.1.keeping x.2.view.frame, x.2.effects tokens)

theorem SameEnd.seen {G G' B : Type} {L : G → G' → Prop} {x : Outcome V × Evaluation G B H V}
    {y : Outcome V × Evaluation G' B H V} (h : SameEnd L x y) (tokens : Array (Token V)) :
    Evaluation.seen tokens y = Evaluation.seen tokens x := by
  rw [Evaluation.seen, Evaluation.seen, h.1, h.2.view, h.2.effects]

theorem Agrees.seen {B : Type} {A : Action H V → Prop} {kept : List V → B} {lower : List V}
    {m : Machine H V} {s : Evaluation (Grammar H V) B H V} {x : Outcome V × Machine H V}
    {y : Outcome V × Evaluation (Grammar H V) B H V} (h : Agrees A kept lower m s x y) :
    Machine.seen x = Evaluation.seen m.source.tokens y := by
  rw [Machine.seen, Evaluation.seen, h.effects, h.outcome]
  have hframe : x.1.regular → x.2.stack.window.values = y.2.view.frame := by
    intro hreg
    rw [(h.alike hreg).1.stack.window, Window.values_mk]
  obtain ⟨o, m'⟩ := x
  cases o with
  | value v => rw [hframe trivial]
  | noMatch => rw [hframe trivial]
  | _ => rfl

namespace Machine

def pure {G : Type} (m : Machine H V) (names : G) : Evaluation G (Option V) H V :=
  ⟨⟨m.stack.window.below?, m.stack.window.values, m.source.remaining⟩, names, m.host,
    m.trace.calls⟩

section

variable [Inhabited V] {m : Machine H V} {rule : Rule H V}

theorem execute_agrees (hb : m.stack.base ≤ m.stack.pointer)
    (hp : m.stack.pointer ≤ m.stack.slots.size)
    (hs : m.source.position ≤ m.source.tokens.size) (hl : m.guard.limit = none)
    (hr : rule.MadeOf (fun _ => True) Action.Inquires)
    (hg : m.grammar.MadeOf (fun _ => True) Action.Inquires) {n : Nat}
    (hno : (m.execute n rule).1 ≠ .fault .sumOverflow) :
    Agrees Action.Inquires List.getLast? (m.stack.live.take m.stack.base) m (m.pure m.grammar)
      (m.execute n rule)
      (Evaluation.eval Floor.nearest Grammar.found n rule (m.pure m.grammar)) := by
  have hholds := ValueStack.holds_of_le hb hp
  have halike : Alike Action.Inquires List.getLast? (m.stack.live.take m.stack.base) m
      (m.pure m.grammar) :=
    { rest := rfl
      bounded := hs
      names := rfl
      host := rfl
      calls := rfl
      limit := hl
      actions := hg
      stack := by
        change m.stack.Holds _ m.stack.window.values
        rw [hholds.window, Window.values_mk]
        exact hholds
      below := by
        change m.stack.window.below? = _
        rw [hholds.window, Window.below?_mk] }
  refine execute_inStep Floor.nearest_keeps (fun _ ha => ha.content) n hr _ m _ halike ?_
  intro hfault
  apply hno
  generalize (m.execute n rule).1 = o at hfault
  cases o with
  | fault f => exact congrArg Outcome.fault hfault
  | _ => exact hfault.elim

/-- A machine without a depth limit, in any context and with a grammar in any state it can reach,
returns what evaluating the rule returns with one value below the frame, the values of the frame
and the tokens left, names being taken for the forms that the grammar finds for them. A run that
ends with some budget does return. -/
theorem execute_returns_iff (hg : m.grammar.Reachable) (hb : m.stack.base ≤ m.stack.pointer)
    (hp : m.stack.pointer ≤ m.stack.slots.size)
    (hs : m.source.position ≤ m.source.tokens.size) (hl : m.guard.limit = none)
    (hr : rule.MadeOf (fun _ => True) Action.Inquires)
    (ha : m.grammar.MadeOf (fun _ => True) Action.Inquires)
    (hno : ∀ n, (m.execute n rule).1 ≠ .fault .sumOverflow) :
    (∀ o c, Returns (fun n => ((m.execute n rule).1, Machine.seen (m.execute n rule))) o c ↔
      Returns (fun n =>
        ((Evaluation.eval Floor.nearest (fixed m.grammar.form) n rule (m.pure ())).1,
          Evaluation.seen m.source.tokens
            (Evaluation.eval Floor.nearest (fixed m.grammar.form) n rule (m.pure ())))) o c) ∧
    ∀ n, (m.execute n rule).1 ≠ .unfinished →
      Returns (fun n => ((m.execute n rule).1, Machine.seen (m.execute n rule)))
        (m.execute n rule).1 (Machine.seen (m.execute n rule)) := by
  have hreal : Realizes m.grammar.outlook m.grammar := by
    refine Grammar.realizes_outlook fun name form hf => ?_
    obtain ⟨source, body, -, -, rfl⟩ := hg.coherent name form hf
    exact body.selfScoping_enclosed
  have hagrees (n : Nat) := execute_agrees hb hp hs hl hr ha (hno n)
  have houtcome (n : Nat) := (hagrees n).outcome.symm
  have hseen (n : Nat) := (hagrees n).seen
  obtain ⟨hthreaded, hends⟩ := eval_returns_iff Floor.nearest_level finds_found (.refl rule)
    (fun x y h => h.seen m.source.tokens) (s := m.pure m.grammar) (t := m.pure ())
    ⟨rfl, hreal, rfl, rfl⟩
  obtain ⟨hfixed, -⟩ := eval_returns_iff Floor.nearest_level (Grammar.finds_form hreal)
    (.refl rule) (fun x y h => h.seen m.source.tokens) (s := m.pure ()) (t := m.pure ())
    ⟨rfl, trivial, rfl, rfl⟩
  simp only [houtcome, hseen]
  exact ⟨fun o c => (hthreaded o c).trans (hfixed o c).symm, hends⟩

end

def midway : Machine Unit Nat where
  grammar := (Grammar.ofTerminals ["x"]).define "sum" (.sequence [.ref "x", .action
    (.ofInquiry (some "add") fun h => .get 0 fun a => .get 1 fun b => .answer (.value (a + b), h))])
  source := ⟨#[⟨"y", 0⟩, ⟨"x", 4⟩], 1⟩
  stack := ⟨#[1, 2, 3], 2, 1⟩
  guard := ⟨0, none⟩
  host := ()
  trace := []

theorem midway_returns :
    (∀ n, (midway.execute n (.ref "sum")).1 ≠ .fault .sumOverflow) ∧
    Returns (fun n => ((midway.execute n (.ref "sum")).1,
        Machine.seen (midway.execute n (.ref "sum"))))
      (.value 6) ([2, 6], ⟨⟨#[⟨"y", 0⟩, ⟨"x", 4⟩], 2⟩, (), [⟨some "add", [4], some 2⟩]⟩) := by
  have hno (n : Nat) : (midway.execute n (.ref "sum")).1 ≠ .fault .sumOverflow := by
    have hends : (midway.execute n (.ref "sum")).1 = .unfinished ∨
        (midway.execute n (.ref "sum")).1 = .value 6 := by
      rcases n with _ | _ | _ | _ | n
      · exact .inl rfl
      · exact .inl rfl
      · exact .inl rfl
      · exact .inl rfl
      · exact .inr (by cbv)
    rcases hends with hend | hend <;> simp [hend]
  have hmade : midway.grammar.MadeOf (fun _ => True) Action.Inquires :=
    (Grammar.madeOf_ofTerminals _).define "sum" ⟨trivial, ⟨_, rfl⟩, trivial⟩
  refine ⟨hno, ?_⟩
  have hrule : (.ref "sum" : Rule Unit Nat).MadeOf (fun _ => True) Action.Inquires := trivial
  refine ((execute_returns_iff (.define (.start _) _ _) (by decide) (by decide) (by decide) rfl
    hrule hmade hno).1 _ _).mpr ⟨by simp, 4, ?_⟩
  intro k hk
  obtain ⟨j, rfl⟩ := Nat.exists_eq_add_of_le' hk
  rfl

end Machine

end OrderedChoice
