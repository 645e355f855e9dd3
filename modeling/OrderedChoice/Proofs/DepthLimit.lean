import OrderedChoice.Proofs.History

set_option autoImplicit false

namespace OrderedChoice

variable {H V : Type}

namespace Machine

/-- How a run under a limit `L` that began at depth `d` compares with one without a limit and with
the depth left as its budget. -/
inductive Limited (L d : Nat) : Outcome V × Machine H V → Outcome V × Machine H V → Prop where
  | exceeded (m m' : Machine H V) : Limited L d (.limitExceeded L, m) (.unfinished, m')
  | within {x y : Outcome V × Machine H V} (g : DepthGuard) (hy : y.1 ≠ .unfinished)
    (hx : x = (y.1, { y.2 with guard := g }))
    (hg : y.1.regular → g = ⟨d, some L⟩ ∧ y.2.guard.limit = none) : Limited L d x y

def Limits (L d : Nat) (E F : Machine H V → Outcome V × Machine H V) : Prop :=
  ∀ m, m.guard.limit = none → Limited L d (E { m with guard := ⟨d, some L⟩ }) (F m)

variable {L d : Nat}

theorem Limited.limitExceeded {x y : Outcome V × Machine H V} (h : Limited L d x y)
    (hy : y.1 = .unfinished) : x.1 = .limitExceeded L := by
  cases h with
  | exceeded m m' => rfl
  | within g hy' hx hg => exact absurd hy hy'

theorem Limited.outcome {x y : Outcome V × Machine H V} (h : Limited L d x y)
    (hy : y.1 ≠ .unfinished) : x.1 = y.1 := by
  cases h with
  | exceeded m m' => exact absurd rfl hy
  | within g hy' hx hg => rw [hx]

theorem matchTerminal_limits (name : String) :
    Limits L d (fun m => m.matchTerminal name) (fun m : Machine H V => m.matchTerminal name) := by
  intro m hl
  cases hnext : m.source.next? with
  | none =>
    simp only [matchTerminal, hnext]
    exact .within _ (by simp) rfl fun _ => ⟨rfl, hl⟩
  | some p =>
    obtain ⟨token, source⟩ := p
    by_cases hn : token.name = name
    · simp only [matchTerminal, hnext, hn, ↓reduceIte]
      exact .within _ (by simp) rfl fun _ => ⟨rfl, hl⟩
    · cases hs : source.seek m.source.position with
      | ok source' =>
        simp only [matchTerminal, hnext, hn, ↓reduceIte, hs]
        exact .within _ (by simp) rfl fun _ => ⟨rfl, hl⟩
      | error f =>
        simp only [matchTerminal, hnext, hn, ↓reduceIte, hs]
        exact .within _ (by simp) rfl fun _ => ⟨rfl, hl⟩

theorem act_limits (a : Action H V) : Limits L d (fun m => m.act a) (fun m => m.act a) := by
  intro m hl
  simp only [act_eq]
  generalize a.run m.stack.window m.host = r
  obtain ⟨reply, host⟩ := r
  cases reply with
  | value v => exact .within _ (by simp [answered]) rfl fun _ => ⟨rfl, hl⟩
  | reject => exact .within _ (by simp [answered]) rfl fun _ => ⟨rfl, hl⟩
  | fault f => exact .within _ (by simp [answered]) rfl fun _ => ⟨rfl, hl⟩

theorem inScope_limits {E F : Machine H V → Outcome V × Machine H V} (h : Limits L d E F) :
    Limits L d (inScope E) (inScope F) := by
  intro m hl
  have hrec := h { m with stack := m.stack.openFrame } hl
  simp only [inScope] at hrec ⊢
  generalize E { m with stack := m.stack.openFrame, guard := ⟨d, some L⟩ } = x at hrec ⊢
  generalize F { m with stack := m.stack.openFrame } = y at hrec ⊢
  cases hrec with
  | exceeded m m' => exact .exceeded _ _
  | within g hy hx hg =>
    obtain ⟨o, m'⟩ := y
    subst hx
    cases o with
    | unfinished => exact absurd rfl hy
    | _ => exact .within g hy rfl hg

theorem inSequence_limits {E F : Rule H V → Machine H V → Outcome V × Machine H V}
    (h : ∀ rule, Limits L d (E rule) (F rule)) (parts : List (Rule H V)) (last : V) :
    Limits L d (inSequence E parts last) (inSequence F parts last) := by
  induction parts generalizing last with
  | nil =>
    intro m hl
    exact .within _ (by simp [inSequence]) rfl fun _ => ⟨rfl, hl⟩
  | cons part parts ih =>
    intro m hl
    have hrec := h part m hl
    simp only [inSequence] at hrec ⊢
    generalize E part { m with guard := ⟨d, some L⟩ } = x at hrec ⊢
    generalize F part m = y at hrec ⊢
    cases hrec with
    | exceeded m m' => exact .exceeded _ _
    | within g hy hx hg =>
      obtain ⟨o, m'⟩ := y
      subst hx
      cases o with
      | value v =>
        obtain ⟨rfl, hl'⟩ := hg trivial
        exact ih v m' hl'
      | unfinished => exact absurd rfl hy
      | _ => exact .within g hy rfl hg

theorem undo_guard (m : Machine H V) (g : DepthGuard) (mark position : Nat) :
    ({ m with guard := g } : Machine H V).undo mark position =
      match m.undo mark position with
      | .ok m => .ok { m with guard := g }
      | .error (f, m) => .error (f, { m with guard := g }) := by
  cases hr : m.stack.rollback mark with
  | error f => simp only [undo, hr]
  | ok stack =>
    cases hs : m.source.seek position with
    | error f => simp only [undo, hr, hs]
    | ok source => simp only [undo, hr, hs]

theorem guard_of_undo {m u : Machine H V} {mark position : Nat}
    (h : m.undo mark position = .ok u) : u.guard = m.guard := by
  unfold undo at h
  split at h
  · cases h
  · split at h
    · cases h
    · cases h
      rfl

theorem inAlternative_limits {E F : Rule H V → Machine H V → Outcome V × Machine H V}
    (h : ∀ rule, Limits L d (E rule) (F rule)) (mark position count index : Nat)
    (parts : List (Rule H V)) :
    Limits L d (inAlternative E mark position count index parts)
      (inAlternative F mark position count index parts) := by
  induction parts generalizing index with
  | nil =>
    intro m hl
    exact .within _ (by simp [inAlternative]) rfl fun _ => ⟨rfl, hl⟩
  | cons part parts ih =>
    intro m hl
    have hrec := h part m hl
    simp only [inAlternative] at hrec ⊢
    generalize E part { m with guard := ⟨d, some L⟩ } = x at hrec ⊢
    generalize F part m = y at hrec ⊢
    cases hrec with
    | exceeded m m' => exact .exceeded _ _
    | within g hy hx hg =>
      obtain ⟨o, m'⟩ := y
      subst hx
      cases o with
      | noMatch =>
        obtain ⟨rfl, hl'⟩ := hg trivial
        have hundo : (({ m' with guard := ⟨d, some L⟩ } : Machine H V).note
            (.undone index count position)).undo mark position = _ :=
          undo_guard (m'.note (.undone index count position)) ⟨d, some L⟩ mark position
        simp only [hundo]
        cases hu : (m'.note (.undone index count position)).undo mark position with
        | ok u =>
          have hguard := guard_of_undo hu
          exact ih (index + 1) u (by rw [hguard]; exact hl')
        | error p => exact .within _ (by simp) rfl fun hreg => hreg.elim
      | unfinished => exact absurd rfl hy
      | _ => exact .within g hy rfl hg

theorem atEnd_limits {E F : Machine H V → Outcome V × Machine H V} (h : Limits L d E F) :
    Limits L d (fun m => atEnd (E m)) (fun m => atEnd (F m)) := by
  intro m hl
  have hrec := h m hl
  simp only
  generalize E { m with guard := ⟨d, some L⟩ } = x at hrec ⊢
  generalize F m = y at hrec ⊢
  cases hrec with
  | exceeded m m' => exact .exceeded _ _
  | within g hy hx hg =>
    obtain ⟨o, m'⟩ := y
    subst hx
    cases o with
    | value v =>
      simp only [atEnd]
      split
      · exact .within g hy rfl hg
      · exact .within g (by simp) rfl hg
    | unfinished => exact absurd rfl hy
    | _ => exact .within g hy rfl hg

theorem dispatch_limits [Inhabited V] {E F : Rule H V → Machine H V → Outcome V × Machine H V}
    (h : ∀ rule, Limits L d (E rule) (F rule)) (rule : Rule H V) :
    Limits L d (dispatch E rule) (dispatch F rule) := by
  cases rule with
  | ref name =>
    intro m hl
    exact h _ (m.resolve name).2 hl
  | terminal name => exact matchTerminal_limits name
  | scope body => exact inScope_limits (h body)
  | sequence parts => exact inSequence_limits h parts default
  | alternative parts =>
    intro m hl
    exact inAlternative_limits h _ _ _ 1 parts m hl
  | action a => exact act_limits a
  | terminated body => exact atEnd_limits (h body)

theorem Limited.leave {x y : Outcome V × Machine H V} (h : Limited L (d + 1) x y) :
    Limited L d (leave x) (leave y) := by
  cases h with
  | exceeded m m' => exact .exceeded _ _
  | within g hy hx hg =>
    obtain ⟨o, m'⟩ := y
    subst hx
    cases o with
    | value v =>
      obtain ⟨rfl, hl⟩ := hg trivial
      exact .within _ hy rfl fun _ => ⟨rfl, hl⟩
    | noMatch =>
      obtain ⟨rfl, hl⟩ := hg trivial
      exact .within _ hy rfl fun _ => ⟨rfl, hl⟩
    | unfinished => exact absurd rfl hy
    | _ => exact .within _ hy rfl fun hreg => hreg.elim

/-- A run under a limit, with any budget that is larger than the depth left, and a run without one
whose budget is the depth left. -/
theorem execute_limits [Inhabited V] {k n : Nat} (hd : d + k = L) (hn : k < n)
    (rule : Rule H V) : Limits L d (execute n rule) (execute k rule) := by
  induction k generalizing n d rule with
  | zero =>
    intro m hl
    obtain ⟨n, rfl⟩ := Nat.exists_eq_succ_of_ne_zero (Nat.ne_of_gt hn)
    have hover : L < d + 1 := by omega
    simp only [execute, DepthGuard.enter, DepthGuard.exceeded, hover, ↓reduceIte]
    exact .exceeded _ _
  | succ k ih =>
    intro m hl
    obtain ⟨n, rfl⟩ := Nat.exists_eq_succ_of_ne_zero (Nat.ne_of_gt (Nat.zero_lt_of_lt hn))
    have hunder : ¬L < d + 1 := by omega
    have hrec := dispatch_limits (fun rule => ih (d := d + 1) (n := n) (by omega) (by omega) rule)
      rule { m with guard := m.guard.enter } hl
    have hstep := hrec.leave
    simp only [execute, DepthGuard.enter, DepthGuard.exceeded, hunder, ↓reduceIte, hl] at hstep ⊢
    exact hstep

end Machine

namespace Parser

theorem execution_limited [Inhabited V] {p : Parser H V} {L n : Nat}
    (hL : p.options.maxDepth = some L) (hn : L < n) (entry : Rule H V) (source : Source V)
    (host : H) :
    Machine.Limited L 0 (p.execution entry source host n)
      ((p.setOptions { p.options with maxDepth := none }).execution entry source host L) := by
  have hmachine : p.machine entry source host =
      { (p.setOptions { p.options with maxDepth := none }).machine entry source host with
        guard := ⟨0, some L⟩ } := by
    rw [← hL]
    rfl
  rw [execution, hmachine]
  exact Machine.execute_limits (Nat.zero_add L) hn _ _ rfl

end Parser

end OrderedChoice
