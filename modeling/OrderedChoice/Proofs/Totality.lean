import OrderedChoice.Proofs.Guarding
import OrderedChoice.Proofs.Discipline

set_option autoImplicit false

namespace OrderedChoice

variable {H V : Type}

def Outcome.error? : Outcome V → Option Diagnostic
  | .limitExceeded limit => some (.report .execute (.recursionLimit limit))
  | _ => none

namespace Machine

section

variable [Inhabited V] {m m' : Machine H V} {rule part : Rule H V}

theorem Calls.guard (h : Calls rule m part m') : m'.guard = m.guard := by
  cases h with
  | ref name => rfl
  | scope body => rfl
  | @sequence before _ _ _ _ _ k h =>
    have hbefore := guards_executes.inSequence (guards_executes.execute k) before default m
    rw [h] at hbefore
    exact hbefore.regular trivial
  | @alternative before after _ _ _ k h =>
    have hbefore := guards_executes.inAlternative (guards_executes.execute k)
      (before ++ part :: after).length 1 before m
    rw [h] at hbefore
    exact hbefore.regular trivial
  | terminated body => rfl

theorem Reaches.guard {depth : Nat} (h : Reaches depth rule m part m') :
    m'.guard = ⟨m.guard.depth + depth, m.guard.limit⟩ := by
  induction h with
  | here => rfl
  | inside _ hc _ ih =>
    rw [ih, hc.guard]
    simp only [entered, DepthGuard.enter, DepthGuard.mk.injEq, and_true]
    omega

theorem depth_le_of_not_exceeded {g : DepthGuard} {limit : Nat}
    (hg : g.exceeded = none) (hl : g.limit = some limit) : g.depth ≤ limit := by
  unfold DepthGuard.exceeded at hg
  rw [hl] at hg
  by_contra hover
  simp only [Nat.lt_of_not_le hover, ↓reduceIte, reduceCtorEq] at hg

/-- What a run comes to inside of something else lies no deeper than the limit. -/
theorem Reaches.le_limit {depth limit : Nat} (h : Reaches depth rule m part m') (hd : 0 < depth)
    (hl : m.guard.limit = some limit) : m'.guard.depth ≤ limit := by
  induction h with
  | here => exact absurd hd (Nat.lt_irrefl 0)
  | @inside depth _ _ _ m _ _ hg hc h ih =>
    cases depth with
    | zero =>
      rw [h.guard, hc.guard]
      exact depth_le_of_not_exceeded hg hl
    | succ depth => exact ih (Nat.succ_pos depth) (by rw [hc.guard]; exact hl)

theorem execute_ends {budget limit : Nat} (hl : m.guard.limit = some limit) (hb : 0 < budget)
    (hlimit : limit < m.guard.depth + budget) : (execute budget rule m).1 ≠ .unfinished := by
  intro h
  obtain ⟨part, m', hr⟩ := (unfinished_iff_reaches budget rule m).mp h
  have hdepth := hr.le_limit hb hl
  rw [hr.guard] at hdepth
  exact absurd hdepth (Nat.not_le_of_lt hlimit)

theorem execute_returns_or_faults (hm : m.InOrder) {budget : Nat}
    (hends : (execute budget rule m).1 ≠ .unfinished) :
    (execute budget rule m).1.returned ∨ ∃ f a u, (execute budget rule m).1 = .fault f ∧
      Invokes rule m a u ∧ (a.run u.stack.window u.host).1 = .fault f := by
  have hfault : ∀ f, (execute budget rule m).1 = .fault f →
      ∃ a u, Invokes rule m a u ∧ (a.run u.stack.window u.host).1 = .fault f :=
    fun f hf => fault_invoked hm hf
  generalize (execute budget rule m).1 = o at hends hfault
  cases o with
  | fault f =>
    obtain ⟨a, u, hi, hu⟩ := hfault f rfl
    exact .inr ⟨f, a, u, rfl, hi, hu⟩
  | unfinished => exact absurd rfl hends
  | _ => exact .inl trivial

theorem execute_error (budget : Nat) {d : Diagnostic}
    (h : (execute budget rule m).1.error? = some d) : ∃ limit, m.guard.limit = some limit ∧
      (execute budget rule m).1 = .limitExceeded limit ∧
      d = .report .execute (.recursionLimit limit) := by
  have hguards := guards_executes.execute budget rule m
  generalize execute budget rule m = r at h hguards
  obtain ⟨o, u⟩ := r
  cases o with
  | limitExceeded limit =>
    cases h
    exact ⟨limit, (hguards.exceeded rfl).1, rfl, rfl⟩
  | _ => cases h

end

end Machine

namespace Parser

theorem parse_error [Inhabited V] {p : Parser H V} {budget : Nat} {entry : Rule H V}
    {source : Source V} {host : H} {d : Diagnostic}
    (h : (p.parse budget entry source host).outcome.error? = some d) :
    ∃ limit, p.options.maxDepth = some limit ∧ d = .report .execute (.recursionLimit limit) ∧
      (p.parse budget entry source host).trace.head? = some (.aborted d) := by
  rw [parse_eq] at h ⊢
  obtain ⟨limit, hl, ho, rfl⟩ := Machine.execute_error budget h
  change (p.execution entry source host budget).1 = .limitExceeded limit at ho
  refine ⟨limit, hl, rfl, ?_⟩
  simp only [ho]
  rfl

/-- Under a limit, every parse has one result, which it comes to with any budget that is larger than
the limit: it matches, fails or ends with the error of this limit, unless an action that was run has
answered with a fault. Without a limit no parse ends with an error. Nothing is asked of the grammar,
so references may lead back to themselves, with or without other rules in between. -/
theorem parse_ends_under_limit [Inhabited V] (p : Parser H V) (entry : Rule H V)
    (source : Source V) (hs : source.position ≤ source.tokens.size) (host : H) :
    (∀ limit, ∃ r : Parsed H V,
      (∀ n, limit < n → (p.limited (some limit)).parse n entry source host = r) ∧
      (r.outcome.returned ∨ ∃ f a u, r.outcome = .fault f ∧
        Machine.Invokes (p.grammar.compile entry).1
          ((p.limited (some limit)).machine entry source host) a u ∧
        (a.run u.stack.window u.host).1 = .fault f) ∧
      ∀ d, r.outcome.error? = some d →
        d.cause = .recursionLimit limit ∧ d.phase = .execute ∧
          r.trace.head? = some (.aborted d)) ∧
    ∀ n, ((p.limited none).parse n entry source host).outcome.error? = none := by
  constructor
  · intro limit
    have horder : ((p.limited (some limit)).machine entry source host).InOrder :=
      ⟨Nat.le_refl _, Nat.zero_le _, hs⟩
    have hends : ((p.limited (some limit)).execution entry source host (limit + 1)).1 ≠
        .unfinished := Machine.execute_ends rfl (Nat.succ_pos limit) (by
      change limit < 0 + (limit + 1)
      omega)
    refine ⟨(p.limited (some limit)).parse (limit + 1) entry source host, fun n hn => ?_,
      Machine.execute_returns_or_faults horder hends, fun d hd => ?_⟩
    · have hsame : (p.limited (some limit)).execution entry source host n =
          (p.limited (some limit)).execution entry source host (limit + 1) :=
        Machine.execute_approximates hn _ _ hends
      rw [parse_eq, parse_eq, hsame]
    · obtain ⟨_, hl, rfl, htrace⟩ := parse_error hd
      cases hl
      exact ⟨rfl, rfl, htrace⟩
  · intro n
    rw [Option.eq_none_iff_forall_ne_some]
    intro d hd
    obtain ⟨limit, hl, -⟩ := parse_error hd
    cases hl

def endless : Parser Unit Nat where
  grammar := (((Grammar.ofTerminals ["x"]).define "left" (.ref "right")).define "right"
    (.ref "left")).define "xs" (.alternative [.ref "left", .sequence [.ref "xs", .ref "x"]])
  options := {}

theorem endless_ends : ∃ r : Parsed Unit Nat,
    (∀ n, 9 < n → (endless.limited (some 9)).parse n (.ref "xs") ⟨#[⟨"x", 1⟩], 0⟩ () = r) ∧
    r.outcome = .limitExceeded 9 ∧
    r.trace.head? = some (.aborted (.report .execute (.recursionLimit 9))) := by
  obtain ⟨hlimited, -⟩ := parse_ends_under_limit endless (.ref "xs") ⟨#[⟨"x", 1⟩], 0⟩ (by decide) ()
  obtain ⟨r, hr, -, herror⟩ := hlimited 9
  have houtcome : r.outcome = .limitExceeded 9 := by
    rw [← hr 10 (by decide)]
    cbv
  obtain ⟨-, -, htrace⟩ := herror _ (by rw [houtcome]; rfl)
  exact ⟨r, hr, houtcome, htrace⟩

end Parser

end OrderedChoice
