import OrderedChoice.Proofs.Lockstep
import OrderedChoice.Proofs.Nesting

set_option autoImplicit false

namespace OrderedChoice

variable {H V : Type}

namespace Machine

theorem exceeded_eq_some {g : DepthGuard} {limit : Nat} (h : g.exceeded = some limit) :
    g.limit = some limit := by
  unfold DepthGuard.exceeded at h
  split at h
  · rename_i hl
    split at h
    · cases h
      exact hl
    · cases h
  · cases h

/-- How a run that began with the guard `g` leaves it. -/
structure Guards (g : DepthGuard) (r : Outcome V × Machine H V) : Prop where
  regular (h : r.1.regular) : r.2.guard = g
  exceeded {limit : Nat} (h : r.1 = .limitExceeded limit) :
    g.limit = some limit ∧ r.2.guard = g.enter

theorem Guards.of_eq {g : DepthGuard} {r : Outcome V × Machine H V} (hg : r.2.guard = g)
    (hr : ∀ limit, r.1 ≠ .limitExceeded limit) : Guards g r :=
  ⟨fun _ => hg, fun h => absurd h (hr _)⟩

theorem Guards.irregular {g : DepthGuard} {r : Outcome V × Machine H V} (ho : ¬r.1.regular)
    (hr : ∀ limit, r.1 ≠ .limitExceeded limit) : Guards g r :=
  ⟨fun h => absurd h ho, fun h => absurd h (hr _)⟩

theorem Guards.leave {g : DepthGuard} {r : Outcome V × Machine H V} (h : Guards g.enter r) :
    Guards g (leave r) := by
  obtain ⟨o, m⟩ := r
  have hleave : g.enter.leave = g := rfl
  cases o with
  | value v =>
    have hguard : m.guard = g.enter := h.regular trivial
    exact .of_eq (by simp only [Machine.leave, hguard, hleave]) (by simp [Machine.leave])
  | noMatch =>
    have hguard : m.guard = g.enter := h.regular trivial
    exact .of_eq (by simp only [Machine.leave, hguard, hleave]) (by simp [Machine.leave])
  | limitExceeded limit =>
    obtain ⟨hl, hguard⟩ := h.exceeded rfl
    have hguard : m.guard = g.enter.enter := hguard
    refine ⟨fun hr => hr.elim, fun he => ?_⟩
    cases he
    refine ⟨hl, ?_⟩
    simp only [Machine.leave, hguard]
    rfl
  | fault f => exact .irregular id (by simp [Machine.leave])
  | unfinished => exact .irregular id (by simp [Machine.leave])

theorem guards_executes :
    Executes (fun (_ : Rule H V) (m : Machine H V) r => Guards m.guard r) where
  unfinished _ m := .of_eq rfl (by simp)
  exceeded {limit} _ m hg := by
    refine ⟨fun hr => hr.elim, fun h => ?_⟩
    cases h
    have hl : m.entered.guard.limit = some limit := exceeded_eq_some hg
    exact ⟨hl, rfl⟩
  leave h := h.leave
  ref h := h
  terminal name m := by
    rcases m.matchTerminal_cases name with ⟨token, source, -, he⟩ | ⟨e, he⟩ <;> rw [he]
    · exact .of_eq rfl (by simp)
    · exact .of_eq rfl (by simp)
  scope {_ m r} h := by
    obtain ⟨o, m'⟩ := r
    cases o with
    | value v => exact .of_eq (h.regular trivial) (by simp [inScope])
    | noMatch => exact .of_eq (h.regular trivial) (by simp [inScope])
    | limitExceeded limit => exact ⟨fun hr => hr.elim, fun he => h.exceeded he⟩
    | fault f => exact h
    | unfinished => exact h
  nil _ m := .of_eq rfl (by simp)
  cons {_ _ m m' _ r} h h' := by
    have hguard : m'.guard = m.guard := h.regular trivial
    rw [← hguard]
    exact h'
  stop _ _ h := h
  exhausted m := .of_eq rfl (by simp)
  first _ _ h := h
  next {_ _ m m' u _ _ r} h hu h' := by
    have hguard : m'.guard = m.guard := h.regular trivial
    obtain ⟨-, -, rfl⟩ := undo_eq_ok hu
    rw [← hguard]
    exact h'
  stuck _ _ _ := .irregular id (by simp)
  action a m := by
    rcases m.act_cases a with ⟨v, e, host, he⟩ | ⟨e, host, he⟩ | ⟨f, e, host, -, he⟩ <;> rw [he]
    · exact .of_eq rfl (by simp)
    · exact .of_eq rfl (by simp)
    · exact .irregular id (by simp)
  terminated {_ m r} h := by
    obtain ⟨o, m'⟩ := r
    cases o with
    | value v =>
      simp only [atEnd]
      split
      · exact h
      · exact .of_eq (h.regular trivial) (by simp)
    | _ => exact h

theorem execute_within_limit [Inhabited V] {m : Machine H V} (hl : m.guard.limit = none)
    (budget : Nat) (rule : Rule H V) (limit : Nat) :
    (execute budget rule m).1 ≠ .limitExceeded limit := by
  intro h
  obtain ⟨hsome, -⟩ := (guards_executes.execute budget rule m).exceeded h
  rw [hl] at hsome
  cases hsome

end Machine

end OrderedChoice
