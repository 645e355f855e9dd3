import OrderedChoice.Proofs.DepthLimit
import OrderedChoice.Proofs.Depth

set_option autoImplicit false

namespace OrderedChoice.Parser

variable {H V : Type}

def limited (p : Parser H V) (limit : Option Nat) : Parser H V :=
  p.setOptions { p.options with maxDepth := limit }

section

variable [Inhabited V] (p : Parser H V) (entry : Rule H V) (source : Source V) (host : H)

/-- Without a limit, the parse comes to run a rule inside `depth` others, so that `depth + 1` of
them are running then. -/
def Nests (depth : Nat) : Prop :=
  ∃ part m, Machine.Reaches depth (p.grammar.compile entry).1
    ((p.limited none).machine entry source host) part m

/-- Under a limit, the parse gives up for it. -/
def Exceeds (limit : Nat) : Prop :=
  Settles (fun n => ((p.limited (some limit)).parse n entry source host).outcome)
    (.limitExceeded limit)

theorem parse_eq (budget : Nat) : p.parse budget entry source host =
    ⟨(p.execution entry source host budget).1,
      { p with grammar := (p.execution entry source host budget).2.grammar },
      (p.execution entry source host budget).2.source,
      (p.execution entry source host budget).2.host,
      ending (p.execution entry source host budget).1 ++
        (p.execution entry source host budget).2.trace⟩ := rfl

theorem nests_iff_unfinished (depth : Nat) : p.Nests entry source host depth ↔
    ((p.limited none).execution entry source host depth).1 = .unfinished :=
  (Machine.unfinished_iff_reaches depth _ _).symm

variable {p entry source host}

theorem Nests.le {depth depth' : Nat} (h : p.Nests entry source host depth) (hd : depth' ≤ depth) :
    p.Nests entry source host depth' := by
  rw [nests_iff_unfinished] at h ⊢
  by_contra hends
  have hsame := Machine.execute_approximates hd _ _ hends
  rw [execution, hsame] at h
  exact hends h

theorem parse_unlimited {depth budget : Nat} (h : ¬p.Nests entry source host depth)
    (hb : depth ≤ budget) :
    (p.limited none).parse budget entry source host =
      (p.limited none).parse depth entry source host := by
  rw [nests_iff_unfinished] at h
  have hsame : (p.limited none).execution entry source host budget =
      (p.limited none).execution entry source host depth :=
    Machine.execute_approximates hb _ _ h
  rw [parse_eq, parse_eq, hsame]

theorem parse_within {limit budget : Nat} (h : ¬p.Nests entry source host limit)
    (hb : limit < budget) :
    (p.limited (some limit)).parse budget entry source host =
      { (p.limited none).parse limit entry source host with
        parser :=
          ((p.limited none).parse limit entry source host).parser.limited (some limit) } := by
  rw [nests_iff_unfinished] at h
  have hmax : (p.limited (some limit)).options.maxDepth = some limit := rfl
  have hcompare : Machine.Limited limit 0
      ((p.limited (some limit)).execution entry source host budget)
      ((p.limited none).execution entry source host limit) :=
    execution_limited hmax hb entry source host
  rw [parse_eq, parse_eq]
  generalize (p.limited (some limit)).execution entry source host budget = x at hcompare
  generalize (p.limited none).execution entry source host limit = y at hcompare h
  cases hcompare with
  | exceeded m m' => exact absurd rfl h
  | within g hy hx hg =>
    subst hx
    rfl

theorem exceeds_iff_nests (limit : Nat) :
    p.Exceeds entry source host limit ↔ p.Nests entry source host limit := by
  constructor
  · rintro ⟨n, hn⟩
    by_contra hnests
    have hend : ((p.limited (some limit)).parse (max n (limit + 1)) entry source host).outcome =
        .limitExceeded limit := hn _ (Nat.le_max_left _ _)
    rw [parse_within hnests (Nat.le_max_right n (limit + 1))] at hend
    exact Machine.execute_within_limit rfl limit _ limit hend
  · intro h
    rw [nests_iff_unfinished] at h
    refine ⟨limit + 1, fun n hn => ?_⟩
    exact (execution_limited rfl hn entry source host).limitExceeded h

end

/-- A parse gives up for a limit exactly if without one more rules than that come to run inside each
other. Otherwise there is one result that it has under this limit, under every larger one and under
none. A parse that gives up for a limit gives up for every smaller one. -/
theorem limit_only_guards [Inhabited V] (p : Parser H V) (entry : Rule H V) (source : Source V)
    (host : H) (limit : Nat) :
    (p.Exceeds entry source host limit ↔ p.Nests entry source host limit) ∧
    (¬p.Nests entry source host limit →
      ∃ r : Parsed H V, r.outcome ≠ .unfinished ∧ (∀ l, r.outcome ≠ .limitExceeded l) ∧
        (∀ n, limit ≤ n → (p.limited none).parse n entry source host = r) ∧
        ∀ larger, limit ≤ larger → ∀ n, larger < n →
          (p.limited (some larger)).parse n entry source host =
            { r with parser := r.parser.limited (some larger) }) ∧
    ∀ smaller, smaller ≤ limit → p.Exceeds entry source host limit →
      p.Exceeds entry source host smaller := by
  refine ⟨exceeds_iff_nests limit, fun h => ?_, fun smaller hs h => ?_⟩
  · refine ⟨(p.limited none).parse limit entry source host, ?_, ?_, ?_, ?_⟩
    · exact fun hu => h ((nests_iff_unfinished p entry source host limit).mpr hu)
    · exact Machine.execute_within_limit rfl limit _
    · exact fun n hn => parse_unlimited h hn
    · intro larger hl n hn
      have hlarger : ¬p.Nests entry source host larger := fun hnests => h (hnests.le hl)
      rw [parse_within hlarger hn, parse_unlimited h hl]
  · rw [exceeds_iff_nests] at h ⊢
    exact h.le hs

end OrderedChoice.Parser
