import OrderedChoice.Proofs.Depth

set_option autoImplicit false

namespace OrderedChoice

variable {H V : Type}

namespace Machine

/-- What a run is about, the depth and the log of its attempts apart. -/
def essence (m : Machine H V) : Grammar H V × ValueStack V × Effects H V :=
  (m.grammar, m.stack, m.effects)

/-- Two machines without a limit that differ at most in their depth and in events that tell of no
action. -/
structure Akin (m m' : Machine H V) : Prop where
  grammar : m'.grammar = m.grammar
  source : m'.source = m.source
  stack : m'.stack = m.stack
  host : m'.host = m.host
  calls : m'.trace.calls = m.trace.calls
  limit : m.guard.limit = none
  limit' : m'.guard.limit = none

def AkinEnds (x y : Outcome V × Machine H V) : Prop :=
  y.1 = x.1 ∧ Akin x.2 y.2

namespace Akin

variable {m m' : Machine H V}

theorem refl (h : m.guard.limit = none) : Akin m m :=
  ⟨rfl, rfl, rfl, rfl, rfl, h, h⟩

theorem essence (h : Akin m m') : m'.essence = m.essence := by
  simp only [Machine.essence, Machine.effects, h.grammar, h.stack, h.source, h.host, h.calls]

theorem deeper (h : Akin m m') : Akin m.entered m'.entered :=
  { h with }

theorem enter_left (h : Akin m m') : Akin m.entered m' :=
  { h with }

theorem enter_right (h : Akin m m') : Akin m m'.entered :=
  { h with }

theorem push (h : Akin m m') (v : V) : Akin (m.push v) (m'.push v) :=
  { h with stack := by simp only [Machine.push, h.stack] }

theorem note (h : Akin m m') {e e' : Event H V} (he : e'.call? = e.call?) :
    Akin (m.note e) (m'.note e') := by
  refine { h with calls := ?_ }
  have hcalls : m'.trace.filterMap Event.call? = m.trace.filterMap Event.call? := h.calls
  simp only [Machine.note, Trace.calls, List.filterMap_cons, he, hcalls]

theorem note_left (h : Akin m m') {e : Event H V} (he : e.call? = none) : Akin (m.note e) m' :=
  have hcalls : (m.note e).trace.calls = m.trace.calls := List.filterMap_cons_none he
  { h with calls := h.calls.trans hcalls.symm }

theorem note_right (h : Akin m m') {e : Event H V} (he : e.call? = none) : Akin m (m'.note e) :=
  have hcalls : (m'.note e).trace.calls = m'.trace.calls := List.filterMap_cons_none he
  { h with calls := hcalls.trans h.calls }

theorem matchTerminal (h : Akin m m') (name : String) :
    AkinEnds (m.matchTerminal name) (m'.matchTerminal name) := by
  simp only [Machine.matchTerminal, h.source]
  cases m.source.next? with
  | none => exact ⟨rfl, h.note rfl⟩
  | some p =>
    obtain ⟨token, source⟩ := p
    have hmoved (source : Source V) : Akin { m with source } { m' with source } :=
      { h with source := rfl }
    by_cases hname : token.name = name
    · simp only [hname, ↓reduceIte]
      exact ⟨rfl, (hmoved source).push token.value⟩
    · simp only [hname, ↓reduceIte]
      cases source.seek m.source.position with
      | ok back => exact ⟨rfl, (hmoved back).note rfl⟩
      | error f => exact ⟨rfl, (hmoved source).note rfl⟩

theorem answered (h : Akin m m') (r : Reply V × H) : AkinEnds (m.answered r) (m'.answered r) := by
  obtain ⟨reply, host⟩ := r
  have hhost : Akin { m with host } { m' with host } := { h with host := rfl }
  cases reply with
  | value v => exact ⟨rfl, hhost.push v⟩
  | reject => exact ⟨rfl, hhost⟩
  | fault f => exact ⟨rfl, hhost⟩

theorem act (h : Akin m m') (a : Action H V) : AkinEnds (m.act a) (m'.act a) := by
  rw [act_eq, act_eq, h.stack, h.host]
  exact answered (h.note rfl) _

theorem resolve (h : Akin m m') (name : String) :
    (m'.resolve name).1 = (m.resolve name).1 ∧
      Akin (m.resolve name).2 (m'.resolve name).2 := by
  have hcalls : m'.trace.filterMap Event.call? = m.trace.filterMap Event.call? := h.calls
  simp only [Machine.resolve, h.grammar]
  refine ⟨trivial, { h with grammar := rfl, calls := ?_ }⟩
  simp only [Trace.calls, List.filterMap_append, hcalls]

theorem undo (h : Akin m m') (mark position : Nat) :
    (∃ u u', m.undo mark position = .ok u ∧ m'.undo mark position = .ok u' ∧ Akin u u') ∨
    ∃ f u u', m.undo mark position = .error (f, u) ∧ m'.undo mark position = .error (f, u') ∧
      Akin u u' := by
  simp only [Machine.undo, h.stack, h.source]
  cases m.stack.rollback mark with
  | error f => exact .inr ⟨f, m, m', rfl, rfl, h⟩
  | ok stack =>
    cases m.source.seek position with
    | error f => exact .inr ⟨f, _, _, rfl, rfl, { h with stack := rfl, source := rfl }⟩
    | ok source => exact .inl ⟨_, _, rfl, rfl, { h with stack := rfl, source := rfl }⟩

theorem leave {x y : Outcome V × Machine H V} (h : AkinEnds x y) :
    AkinEnds (leave x) (leave y) := by
  obtain ⟨o, u⟩ := x
  obtain ⟨o', u'⟩ := y
  obtain ⟨rfl, hu⟩ := h
  cases o' <;> exact ⟨rfl, { hu with }⟩

theorem atEnd {x y : Outcome V × Machine H V} (h : AkinEnds x y) :
    AkinEnds (atEnd x) (atEnd y) := by
  obtain ⟨o, u⟩ := x
  obtain ⟨o', u'⟩ := y
  obtain ⟨rfl, hu⟩ := h
  have hsource : u'.source = u.source := hu.source
  cases o' with
  | value v =>
    simp only [Machine.atEnd, hsource]
    split
    · exact ⟨rfl, hu⟩
    · exact ⟨rfl, hu.note rfl⟩
  | _ => exact ⟨rfl, hu⟩

section

variable {E : Rule H V → Machine H V → Outcome V × Machine H V}

theorem inScope {run : Machine H V → Outcome V × Machine H V}
    (hrun : ∀ {m m' : Machine H V}, Akin m m' → AkinEnds (run m) (run m')) (h : Akin m m') :
    AkinEnds (inScope run m) (inScope run m') := by
  have hinner : AkinEnds (run { m with stack := m.stack.openFrame })
      (run { m' with stack := m'.stack.openFrame }) :=
    hrun { h with stack := by rw [h.stack] }
  simp only [Machine.inScope, h.stack] at hinner ⊢
  generalize run { m with stack := m.stack.openFrame } = x at hinner
  generalize run { m' with stack := m.stack.openFrame } = y at hinner
  obtain ⟨o, u⟩ := x
  obtain ⟨o', u'⟩ := y
  obtain ⟨rfl, hu⟩ := hinner
  have hclosed : Akin { u with stack := u.stack.closeFrame m.stack.saved }
      { u' with stack := u'.stack.closeFrame m.stack.saved } :=
    { hu with stack := by rw [show u'.stack = u.stack from hu.stack] }
  cases o' with
  | value v => exact ⟨rfl, hclosed.push v⟩
  | noMatch => exact ⟨rfl, hclosed⟩
  | limitExceeded n => exact ⟨rfl, hclosed⟩
  | fault f => exact ⟨rfl, hu⟩
  | unfinished => exact ⟨rfl, hu⟩

theorem inSequence (hE : ∀ rule {m m' : Machine H V}, Akin m m' → AkinEnds (E rule m) (E rule m'))
    (parts : List (Rule H V)) (last : V) (h : Akin m m') :
    AkinEnds (inSequence E parts last m) (inSequence E parts last m') := by
  induction parts generalizing last m m' with
  | nil => exact ⟨rfl, h⟩
  | cons part parts ih =>
    have hpart : AkinEnds (E part m) (E part m') := hE part h
    simp only [Machine.inSequence]
    generalize E part m = x at hpart
    generalize E part m' = y at hpart
    obtain ⟨o, u⟩ := x
    obtain ⟨o', u'⟩ := y
    obtain ⟨rfl, hu⟩ := hpart
    cases o' with
    | value v => exact ih v hu
    | _ => exact ⟨rfl, hu⟩

theorem inAlternative
    (hE : ∀ rule {m m' : Machine H V}, Akin m m' → AkinEnds (E rule m) (E rule m'))
    (mark position count index count' index' : Nat) (parts : List (Rule H V)) (h : Akin m m') :
    AkinEnds (inAlternative E mark position count index parts m)
      (inAlternative E mark position count' index' parts m') := by
  induction parts generalizing index index' m m' with
  | nil => exact ⟨rfl, h⟩
  | cons part parts ih =>
    have hpart : AkinEnds (E part m) (E part m') := hE part h
    simp only [Machine.inAlternative]
    generalize E part m = x at hpart
    generalize E part m' = y at hpart
    obtain ⟨o, u⟩ := x
    obtain ⟨o', u'⟩ := y
    obtain ⟨rfl, hu⟩ := hpart
    cases o' with
    | noMatch =>
      have hnoted : Akin (u.note (.undone index count position))
        (u'.note (.undone index' count' position)) := hu.note rfl
      rcases hnoted.undo mark position with ⟨w, w', hw, hw', ha⟩ | ⟨f, w, w', hw, hw', ha⟩
      · simp only [hw, hw']
        exact ih _ _ ha
      · simp only [hw, hw']
        exact ⟨rfl, ha⟩
    | _ => exact ⟨rfl, hu⟩

theorem execute [Inhabited V] (n : Nat) (rule : Rule H V) (h : Akin m m') :
    AkinEnds (execute n rule m) (execute n rule m') := by
  induction n generalizing rule m m' with
  | zero => exact ⟨rfl, h⟩
  | succ n ih =>
    have hg : m.entered.guard.exceeded = none := by
      simp only [DepthGuard.exceeded, h.deeper.limit]
    have hg' : m'.entered.guard.exceeded = none := by
      simp only [DepthGuard.exceeded, h.deeper.limit']
    rw [execute_succ, execute_succ, hg, hg']
    refine leave ?_
    have h := h.deeper
    cases rule with
    | ref name =>
      obtain ⟨hform, hu⟩ := h.resolve name
      simp only [dispatch, hform]
      exact ih _ hu
    | terminal name => exact h.matchTerminal name
    | scope body => exact h.inScope fun h => ih body h
    | sequence parts => exact h.inSequence (fun rule _ _ h => ih rule h) parts default
    | alternative parts =>
      simp only [dispatch, h.stack, h.source]
      exact h.inAlternative (fun rule _ _ h => ih rule h) _ _ _ _ _ _ parts
    | action a => exact h.act a
    | terminated body => exact atEnd (ih body h)

end

end Akin

end Machine

end OrderedChoice
