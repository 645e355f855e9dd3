import OrderedChoice.Proofs.Depth

set_option autoImplicit false

namespace OrderedChoice

variable {H V : Type}

def Outcome.returned : Outcome V → Prop
  | .value _ => True
  | .noMatch => True
  | .limitExceeded _ => True
  | _ => False

namespace Machine

/-- The frame begins among the live values, these lie in slots, and the tokens are not overrun. -/
structure InOrder (m : Machine H V) : Prop where
  base : m.stack.base ≤ m.stack.pointer
  fits : m.stack.pointer ≤ m.stack.slots.size
  bounded : m.source.position ≤ m.source.tokens.size

theorem InOrder.window {m : Machine H V} (hm : m.InOrder) :
    m.stack.window.size = .ok (m.stack.pointer - m.stack.base) ∧
      m.stack.window.frame = .ok (m.stack.live.drop m.stack.base) :=
  ⟨ValueStack.window_size hm.base hm.fits, ValueStack.window_frame hm.base hm.fits⟩

/-- What a run that began on `m` and returned has kept. -/
structure Keeps (m m' : Machine H V) : Prop where
  base : m'.stack.base = m.stack.base
  pointer : m.stack.pointer ≤ m'.stack.pointer
  fits : m'.stack.pointer ≤ m'.stack.slots.size
  below (i : Nat) (hi : i < m.stack.pointer) : m'.stack.slots[i]? = m.stack.slots[i]?
  tokens : m'.source.tokens = m.source.tokens
  position : m.source.position ≤ m'.source.position
  bounded : m'.source.position ≤ m'.source.tokens.size

theorem Keeps.refl {m : Machine H V} (hm : m.InOrder) : m.Keeps m :=
  ⟨rfl, Nat.le_refl _, hm.fits, fun _ _ => rfl, rfl, Nat.le_refl _, hm.bounded⟩

theorem Keeps.trans {m m' u : Machine H V} (h : m.Keeps m') (h' : m'.Keeps u) : m.Keeps u where
  base := h'.base.trans h.base
  pointer := Nat.le_trans h.pointer h'.pointer
  fits := h'.fits
  below i hi := (h'.below i (Nat.lt_of_lt_of_le hi h.pointer)).trans (h.below i hi)
  tokens := h'.tokens.trans h.tokens
  position := Nat.le_trans h.position h'.position
  bounded := h'.bounded

theorem Keeps.inOrder {m m' : Machine H V} (h : m.Keeps m') (hm : m.InOrder) : m'.InOrder := by
  refine ⟨?_, h.fits, h.bounded⟩
  rw [h.base]
  exact Nat.le_trans hm.base h.pointer

theorem Keeps.push {m m' : Machine H V} (h : m.Keeps m') (v : V) : m.Keeps (m'.push v) where
  base := h.base
  pointer := Nat.le_succ_of_le h.pointer
  fits := by
    have hfits := h.fits
    simp only [Machine.push, ValueStack.push]
    split
    · rw [Array.size_setIfInBounds]
      omega
    · rw [Array.size_push]
      omega
  below i hi := by
    have hi' := Nat.lt_of_lt_of_le hi h.pointer
    rw [← h.below i hi]
    simp only [Machine.push, ValueStack.push]
    split
    · exact Array.getElem?_setIfInBounds_ne (Nat.ne_of_gt hi')
    · have hfits := h.fits
      rw [Array.getElem?_push, if_neg (by omega)]
  tokens := h.tokens
  position := h.position
  bounded := h.bounded

theorem Keeps.undone {m m' u : Machine H V} {e : Event H V} (h : m.Keeps m')
    (hu : (m'.note e).undo m.stack.pointer m.source.position = .ok u) : m.Keeps u := by
  obtain ⟨hp, hs, rfl⟩ := undo_eq_ok hu
  exact ⟨h.base, Nat.le_refl _, Nat.le_trans hp h.fits, h.below, h.tokens, Nat.le_refl _, hs⟩

theorem Keeps.undo {m m' : Machine H V} (h : m.Keeps m') (hm : m.InOrder) (e : Event H V) :
    ∃ u, (m'.note e).undo m.stack.pointer m.source.position = .ok u := by
  have hroll : (m'.note e).stack.rollback m.stack.pointer =
      .ok { m'.stack with pointer := m.stack.pointer } := if_pos h.pointer
  have hseek : (m'.note e).source.seek m.source.position =
      .ok { m'.source with position := m.source.position } :=
    Source.seek_of_le (by
      rw [show (m'.note e).source = m'.source from rfl, h.tokens]
      exact hm.bounded)
  exact ⟨_, by simp only [Machine.undo, hroll, hseek]; rfl⟩

theorem Keeps.closeFrame {m m' : Machine H V}
    (h : Keeps { m with stack := m.stack.openFrame } m') :
    m.Keeps { m' with stack := m'.stack.closeFrame m.stack.saved } where
  base := rfl
  pointer := Nat.le_refl _
  fits := Nat.le_trans h.pointer h.fits
  below := h.below
  tokens := h.tokens
  position := h.position
  bounded := h.bounded

theorem keeps_executes : Executes (fun (_ : Rule H V) (m : Machine H V) r =>
    m.InOrder → r.1.returned → m.Keeps r.2) where
  unfinished _ _ _ hr := hr.elim
  exceeded _ _ _ hm _ := { Keeps.refl hm with }
  leave {_ m r} h hm hr := by
    obtain ⟨o, m'⟩ := r
    cases o with
    | fault f => exact hr.elim
    | unfinished => exact hr.elim
    | _ => exact { h { hm with } trivial with }
  ref h hm hr := { h { hm with } hr with }
  terminal name m hm _ := by
    rcases m.matchTerminal_cases name with ⟨token, source, hnext, he⟩ | ⟨e, he⟩
    · rw [he]
      have htaken : m.Keeps { m with source } := by
        obtain ⟨hlt, rfl⟩ := Source.next?_eq_some hnext
        exact { Keeps.refl hm with position := Nat.le_succ _, bounded := hlt }
      exact htaken.push token.value
    · rw [he]
      exact { Keeps.refl hm with }
  scope {_ m r} h hm hr := by
    obtain ⟨o, m'⟩ := r
    have hopen : InOrder { m with stack := m.stack.openFrame } :=
      ⟨Nat.le_refl _, hm.fits, hm.bounded⟩
    cases o with
    | value v => exact (Keeps.closeFrame (h hopen trivial)).push v
    | noMatch => exact Keeps.closeFrame (h hopen trivial)
    | limitExceeded limit => exact Keeps.closeFrame (h hopen trivial)
    | fault f => exact hr.elim
    | unfinished => exact hr.elim
  nil _ _ hm _ := .refl hm
  cons h h' hm hr := by
    have hpart := h hm trivial
    exact hpart.trans (h' (hpart.inOrder hm) hr)
  stop _ _ h := h
  exhausted _ hm _ := .refl hm
  first _ _ h := h
  next {_ _ m m' u _ _ r} h hu h' hm hr := by
    have hback : m.Keeps u := Keeps.undone (h hm trivial) hu
    exact hback.trans (h' (hback.inOrder hm) hr)
  stuck _ _ _ _ hr := hr.elim
  action a m hm hr := by
    rcases m.act_cases a with ⟨v, e, host, he⟩ | ⟨e, host, he⟩ | ⟨f, e, host, -, he⟩
    · rw [he]
      have hnoted : m.Keeps { m.note e with host } := { Keeps.refl hm with }
      exact hnoted.push v
    · rw [he]
      exact { Keeps.refl hm with }
    · rw [he] at hr
      exact hr.elim
  terminated {_ m r} h hm hr := by
    obtain ⟨o, m'⟩ := r
    cases o with
    | value v =>
      have hbody := h hm trivial
      simp only [atEnd]
      split
      · exact hbody
      · exact { hbody with }
    | _ => exact h hm hr

section

variable [Inhabited V] {m m' : Machine H V} {rule part : Rule H V}

theorem Calls.inOrder (h : Calls rule m part m') (hm : m.InOrder) : m'.InOrder := by
  cases h with
  | ref name => exact { hm with }
  | scope body => exact ⟨Nat.le_refl _, hm.fits, hm.bounded⟩
  | @sequence before _ _ _ _ _ k h =>
    have hkept := keeps_executes.inSequence (keeps_executes.execute k) before default m hm
    rw [h] at hkept
    exact (hkept trivial).inOrder hm
  | @alternative before after _ _ _ k h =>
    have hkept := keeps_executes.inAlternative (keeps_executes.execute k)
      (before ++ part :: after).length 1 before m hm
    rw [h] at hkept
    exact (hkept trivial).inOrder hm
  | terminated body => exact hm

theorem Reaches.inOrder {depth : Nat} (h : Reaches depth rule m part m') (hm : m.InOrder) :
    m'.InOrder := by
  induction h with
  | here => exact hm
  | inside _ hc _ ih => exact ih (hc.inOrder { hm with })

/-- `Invokes rule m a m'`: running `rule` on `m` comes to run the action `a`, on `m'`. -/
def Invokes (rule : Rule H V) (m : Machine H V) (a : Action H V) (m' : Machine H V) : Prop :=
  ∃ depth u, Reaches depth rule m (.action a) u ∧ u.entered.guard.exceeded = none ∧ m' = u.entered

theorem Invokes.inOrder {a : Action H V} (h : Invokes rule m a m') (hm : m.InOrder) :
    m'.InOrder := by
  obtain ⟨depth, u, hr, -, rfl⟩ := h
  exact { hr.inOrder hm with }

theorem Invokes.inside {a : Action H V} {u : Machine H V}
    (hg : m.entered.guard.exceeded = none) (hc : Calls rule m.entered part m')
    (h : Invokes part m' a u) : Invokes rule m a u := by
  obtain ⟨depth, w, hr, hw, rfl⟩ := h
  exact ⟨depth + 1, w, .inside hg hc hr, hw, rfl⟩

theorem dispatch_fault (hm : m.InOrder) {budget : Nat} {f : Fault}
    (h : (dispatch (execute budget) rule m).1 = .fault f) :
    (∃ a, rule = .action a ∧ (a.run m.stack.window m.host).1 = .fault f) ∨
      ∃ part m', Calls rule m part m' ∧ (execute budget part m').1 = .fault f := by
  cases rule with
  | ref name => exact .inr ⟨_, _, .ref name m, h⟩
  | terminal name =>
    rcases m.matchTerminal_cases name with ⟨token, source, -, he⟩ | ⟨e, he⟩ <;>
      simp [dispatch, he] at h
  | scope body =>
    refine .inr ⟨_, _, .scope body m, ?_⟩
    simp only [dispatch, inScope] at h
    generalize execute budget body { m with stack := m.stack.openFrame } = r at h ⊢
    obtain ⟨o, u⟩ := r
    cases o with
    | fault f' => exact h
    | _ => simp at h
  | sequence parts =>
    simp only [dispatch] at h
    obtain ⟨before, part, after, v, m', rfl, hb, he⟩ := inSequence_stops
      (show ∀ v, (inSequence (execute budget) parts default m).1 ≠ .value v by simp [h])
    exact .inr ⟨part, m', .sequence budget hb, by rw [← he]; exact h⟩
  | alternative parts =>
    simp only [dispatch] at h
    obtain ⟨before, part, after, m', hparts, hb, he | ⟨u, e, f', u', hpart, hu, he⟩⟩ :=
      inAlternative_stops (show (inAlternative (execute budget) m.stack.pointer m.source.position
        parts.length 1 parts m).1 ≠ .noMatch by simp [h])
    · subst hparts
      exact .inr ⟨part, m', .alternative budget hb, by rw [← he]; exact h⟩
    · -- A part that has failed has kept what is needed to undo it.
      have hbefore := keeps_executes.inAlternative (keeps_executes.execute budget) parts.length 1
        before m hm
      have hfailed := keeps_executes.execute budget part m'
      rw [hb] at hbefore
      rw [hpart] at hfailed
      have hkept := (hbefore trivial).trans (hfailed ((hbefore trivial).inOrder hm) trivial)
      obtain ⟨w, hw⟩ := hkept.undo hm e
      rw [hw] at hu
      cases hu
  | action a =>
    rcases m.act_cases a with ⟨v, e, host, he⟩ | ⟨e, host, he⟩ | ⟨f', e, host, hf, he⟩
    · simp [dispatch, he] at h
    · simp [dispatch, he] at h
    · rw [dispatch, he] at h
      cases h
      exact .inl ⟨a, rfl, hf⟩
  | terminated body =>
    refine .inr ⟨_, _, .terminated body m, ?_⟩
    simp only [dispatch] at h
    generalize execute budget body m = r at h ⊢
    obtain ⟨o, u⟩ := r
    cases o with
    | value v =>
      simp only [atEnd] at h
      split at h <;> cases h
    | _ => exact h

theorem fault_invoked (hm : m.InOrder) {budget : Nat} {f : Fault}
    (h : (execute budget rule m).1 = .fault f) :
    ∃ a u, Invokes rule m a u ∧ (a.run u.stack.window u.host).1 = .fault f := by
  induction budget generalizing rule m with
  | zero => cases h
  | succ budget ih =>
    rw [execute_succ] at h
    cases hg : m.entered.guard.exceeded with
    | some limit =>
      rw [hg] at h
      cases h
    | none =>
      rw [hg] at h
      simp only [leave_fst] at h
      have hentered : m.entered.InOrder := { hm with }
      rcases dispatch_fault hentered h with ⟨a, rfl, hf⟩ | ⟨part, m', hc, hf⟩
      · exact ⟨a, m.entered, ⟨0, m, .here _ m, hg, rfl⟩, hf⟩
      · obtain ⟨a, u, hi, hu⟩ := ih (hc.inOrder hentered) hf
        exact ⟨a, u, hi.inside hg hc, hu⟩

/-- On a machine in order, running any rule with any budget does the following. If it matches or
fails, the frame, the live values, the tokens and the depth are kept, and if it exceeds the depth
limit, all but the depth, which is one greater. If it ends with a fault, this is the answer of an
action that was run. And each action is run on a machine in order, so that the size of its frame and
the values in it can be told. -/
theorem execute_in_order (hm : m.InOrder) (rule : Rule H V) (budget : Nat) :
    ((execute budget rule m).1.regular →
      m.Keeps (execute budget rule m).2 ∧
        (execute budget rule m).2.guard.depth = m.guard.depth) ∧
    (∀ limit, (execute budget rule m).1 = .limitExceeded limit →
      m.Keeps (execute budget rule m).2 ∧
        (execute budget rule m).2.guard.depth = m.guard.depth + 1) ∧
    (∀ f, (execute budget rule m).1 = .fault f →
      ∃ a u, Invokes rule m a u ∧ (a.run u.stack.window u.host).1 = .fault f) ∧
    ∀ a u, Invokes rule m a u → u.InOrder ∧
      u.stack.window.size = .ok (u.stack.pointer - u.stack.base) ∧
      u.stack.window.frame = .ok (u.stack.live.drop u.stack.base) := by
  have hkept := keeps_executes.execute budget rule m hm
  have hguards := guards_executes.execute budget rule m
  refine ⟨fun hr => ?_, fun limit hl => ?_, fun f hf => fault_invoked hm hf, fun a u hi => ?_⟩
  · have hreturned : (execute budget rule m).1.returned := by
      generalize (execute budget rule m).1 = o at hr
      cases o with
      | value v => trivial
      | noMatch => trivial
      | _ => exact hr.elim
    exact ⟨hkept hreturned, by rw [hguards.regular hr]⟩
  · obtain ⟨-, hguard⟩ := hguards.exceeded hl
    rw [hl] at hkept
    exact ⟨hkept trivial, by rw [hguard]; rfl⟩
  · have hu := hi.inOrder hm
    exact ⟨hu, hu.window⟩

end

def cramped : Machine Unit Nat where
  grammar := (Grammar.ofTerminals ["x"]).define "xs" (.sequence [.ref "x", .ref "xs"])
  source := ⟨#[⟨"y", 0⟩, ⟨"x", 4⟩], 1⟩
  stack := ⟨#[1, 2, 3], 2, 1⟩
  guard := ⟨0, some 5⟩
  host := ()
  trace := []

theorem cramped_in_order : cramped.InOrder ∧
    (cramped.execute 9 (.ref "xs")).1 = .limitExceeded 5 ∧
    cramped.Keeps (cramped.execute 9 (.ref "xs")).2 ∧
    (cramped.execute 9 (.ref "xs")).2.guard.depth = 1 := by
  have horder : cramped.InOrder := ⟨by decide, by decide, by decide⟩
  have hlimit : (cramped.execute 9 (.ref "xs")).1 = .limitExceeded 5 := by cbv
  obtain ⟨-, hexceeded, -, -⟩ := execute_in_order horder (.ref "xs") 9
  exact ⟨horder, hlimit, hexceeded 5 hlimit⟩

end Machine

end OrderedChoice
