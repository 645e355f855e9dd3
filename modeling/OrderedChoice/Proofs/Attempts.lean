import OrderedChoice.Proofs.Discipline

set_option autoImplicit false

namespace OrderedChoice

variable {H V : Type}

structure Attempt (H V : Type) where
  part : Rule H V
  start : Machine H V
  result : Outcome V × Machine H V

namespace Attempt

def Fails (a : Attempt H V) : Prop :=
  a.result.1 = .noMatch

/-- `u` is the machine that the attempt left, with the stack pointer and the place in the tokens put
back to where it began, and one more event. -/
def Undone (a : Attempt H V) (u : Machine H V) : Prop :=
  ∃ e, (a.result.2.note e).undo a.start.stack.pointer a.start.source.position = .ok u

end Attempt

namespace Machine

/-- `u` stands where `m` stood: the same live values, frame, depth and place in the tokens. -/
structure StandsAs (m u : Machine H V) : Prop where
  live : u.stack.live = m.stack.live
  base : u.stack.base = m.stack.base
  guard : u.guard = m.guard
  source : u.source = m.source

theorem StandsAs.refl (m : Machine H V) : m.StandsAs m :=
  ⟨rfl, rfl, rfl, rfl⟩

theorem StandsAs.trans {m u w : Machine H V} (h : m.StandsAs u) (h' : u.StandsAs w) :
    m.StandsAs w :=
  ⟨h'.live.trans h.live, h'.base.trans h.base, h'.guard.trans h.guard, h'.source.trans h.source⟩

theorem Keeps.live {m u : Machine H V} (h : m.Keeps u) (hp : u.stack.pointer = m.stack.pointer) :
    u.stack.live = m.stack.live := by
  apply List.ext_getElem?
  intro i
  simp only [ValueStack.live, hp, List.getElem?_take, Array.getElem?_toList]
  split
  · rename_i hi
    exact h.below i hi
  · rfl

theorem Keeps.standsAs {m m' u : Machine H V} {e : Event H V} (h : m.Keeps m')
    (hguard : m'.guard = m.guard)
    (hu : (m'.note e).undo m.stack.pointer m.source.position = .ok u) : m.StandsAs u := by
  have hkept := h.undone hu
  obtain ⟨-, -, rfl⟩ := undo_eq_ok hu
  exact ⟨hkept.live rfl, h.base, hguard, congrArg (Source.mk · _) h.tokens⟩

/-- What it means that parts which are run by `run` are tried on `m`, with these attempts and the
result `r`. Between two attempts, and after the last of them, nothing happens but that one which has
failed is undone. -/
structure Tries (run : Rule H V → Machine H V → Outcome V × Machine H V) (m : Machine H V)
    (parts : List (Rule H V)) (attempts : List (Attempt H V)) (r : Outcome V × Machine H V) :
    Prop where
  ordered : attempts.map Attempt.part <+: parts
  ran : ∀ a ∈ attempts, a.result = run a.part a.start
  first : ∀ a ∈ attempts.head?, a.start = m
  level : ∀ a ∈ attempts, m.StandsAs a.start
  chained : attempts.IsChain fun a b => a.Fails ∧ a.Undone b.start
  stopped : ∀ a ∈ attempts.getLast?, ¬a.Fails → r = a.result
  exhausted : (∀ a ∈ attempts, a.Fails) →
    attempts.map Attempt.part = parts ∧ r.1 = .noMatch ∧ m.StandsAs r.2 ∧
      ∀ a ∈ attempts.getLast?, a.Undone r.2
  idle : attempts = [] → r = (.noMatch, m)

section

variable {run : Rule H V → Machine H V → Outcome V × Machine H V} {m m' u : Machine H V}
  {part : Rule H V} {parts : List (Rule H V)} {attempts : List (Attempt H V)} {e : Event H V}
  {r : Outcome V × Machine H V}

theorem Tries.nil (m : Machine H V) : Tries run m [] [] (.noMatch, m) where
  ordered := List.prefix_refl []
  ran := by simp
  first := by simp
  level := by simp
  chained := .nil
  stopped := by simp
  exhausted _ := ⟨rfl, rfl, .refl m, by simp⟩
  idle _ := rfl

theorem Tries.stop (parts : List (Rule H V)) (hr : run part m = r) (ho : r.1 ≠ .noMatch) :
    Tries run m (part :: parts) [⟨part, m, r⟩] r where
  ordered := ⟨parts, rfl⟩
  ran := by simp [hr]
  first := by simp
  level := by simpa using StandsAs.refl m
  chained := .singleton _
  stopped := by simp
  exhausted hall := absurd (hall ⟨part, m, r⟩ List.mem_cons_self) ho
  idle := nofun

theorem Tries.cons (hr : run part m = (.noMatch, m'))
    (hu : (m'.note e).undo m.stack.pointer m.source.position = .ok u) (hlevel : m.StandsAs u)
    (h : Tries run u parts attempts r) :
    Tries run m (part :: parts) (⟨part, m, (.noMatch, m')⟩ :: attempts) r where
  ordered := (List.prefix_cons_inj part).mpr h.ordered
  ran := List.forall_mem_cons.mpr ⟨hr.symm, h.ran⟩
  first := by simp
  level := List.forall_mem_cons.mpr ⟨.refl m, fun a ha => hlevel.trans (h.level a ha)⟩
  chained := by
    cases attempts with
    | nil => exact .singleton _
    | cons a attempts =>
      refine .cons_cons ⟨rfl, e, ?_⟩ h.chained
      rw [h.first a rfl]
      exact hu
  stopped a ha hfails := by
    cases attempts with
    | nil =>
      cases ha
      exact absurd rfl hfails
    | cons a' attempts => exact h.stopped a ha hfails
  exhausted hall := by
    obtain ⟨hparts, ho, hstands, hlast⟩ := h.exhausted (List.forall_mem_cons.mp hall).2
    refine ⟨congrArg (part :: ·) hparts, ho, hlevel.trans hstands, fun a ha => ?_⟩
    cases attempts with
    | nil =>
      cases ha
      rw [h.idle rfl]
      exact ⟨e, hu⟩
    | cons a' attempts => exact hlast a ha
  idle := nofun

theorem Tries.noMatch_iff (h : Tries run m parts attempts r) :
    r.1 = .noMatch ↔ ∀ a ∈ attempts, a.Fails := by
  refine ⟨fun hr => ?_, fun hall => (h.exhausted hall).2.1⟩
  have hlast : ∀ a ∈ attempts.getLast?, a.Fails := by
    intro a ha
    by_contra hfails
    rw [h.stopped a ha hfails] at hr
    exact hfails hr
  have hchained := h.chained
  clear h
  induction attempts with
  | nil => simp
  | cons a attempts ih =>
    cases attempts with
    | nil => simpa using hlast
    | cons b attempts =>
      obtain ⟨⟨hfails, -⟩, htail⟩ := List.isChain_cons_cons.mp hchained
      exact List.forall_mem_cons.mpr ⟨hfails, ih hlast htail⟩

theorem inAlternative_tries
    (hrun : ∀ (rule : Rule H V) (m m' : Machine H V), m.InOrder → run rule m = (.noMatch, m') →
      m.Keeps m' ∧ m'.guard = m.guard)
    (count index : Nat) (parts : List (Rule H V)) (hm : m.InOrder) :
    ∃ attempts, Tries run m parts attempts
      (inAlternative run m.stack.pointer m.source.position count index parts m) := by
  induction parts generalizing index m with
  | nil => exact ⟨[], .nil m⟩
  | cons part parts ih =>
    cases hr : run part m with
    | mk o m' =>
      by_cases ho : o = .noMatch
      · subst ho
        obtain ⟨hkept, hguard⟩ := hrun part m m' hm hr
        obtain ⟨u, hu⟩ := hkept.undo hm (.undone index count m.source.position)
        have hlevel : m.StandsAs u := hkept.standsAs hguard hu
        obtain ⟨attempts, h⟩ := ih (index + 1) ((hkept.undone hu).inOrder hm)
        have hnext : inAlternative run m.stack.pointer m.source.position count index
            (part :: parts) m = inAlternative run u.stack.pointer u.source.position count
              (index + 1) parts u := by
          simp only [inAlternative, hr, hu]
          obtain ⟨-, -, rfl⟩ := undo_eq_ok hu
          rfl
        rw [hnext]
        exact ⟨_, .cons hr hu hlevel h⟩
      · have hstop : inAlternative run m.stack.pointer m.source.position count index (part :: parts)
            m = (o, m') := by
          cases o with
          | noMatch => exact absurd rfl ho
          | _ => simp only [inAlternative, hr]
        rw [hstop]
        exact ⟨_, .stop parts hr ho⟩

end

section

variable [Inhabited V] {m : Machine H V}

theorem execute_failed {budget : Nat} {rule : Rule H V} {m' : Machine H V} (hm : m.InOrder)
    (h : execute budget rule m = (.noMatch, m')) : m.Keeps m' ∧ m'.guard = m.guard := by
  have hkept := keeps_executes.execute budget rule m hm
  have hguards := guards_executes.execute budget rule m
  rw [h] at hkept hguards
  exact ⟨hkept trivial, hguards.regular trivial⟩

/-- An alternative that is run on a machine in order starts nothing if it is itself past the depth
limit. Otherwise it starts parts in order, each at most once and where the first one started, one
level deeper than the alternative; the first that does not fail ends it, with its own result. It
fails exactly if all parts have been started and have failed, and then stands where it began. -/
theorem alternative_tries_parts (hm : m.InOrder) (parts : List (Rule H V)) (budget : Nat) :
    (∀ limit, m.entered.guard.exceeded = some limit →
      execute (budget + 1) (.alternative parts) m = (.limitExceeded limit, m.entered)) ∧
    (m.entered.guard.exceeded = none →
      ∃ (attempts : List (Attempt H V)) (r : Outcome V × Machine H V),
        Tries (execute budget) m.entered parts attempts r ∧
        execute (budget + 1) (.alternative parts) m = leave r ∧
        ((execute (budget + 1) (.alternative parts) m).1 = .noMatch ↔
          attempts.map Attempt.part = parts ∧ ∀ a ∈ attempts, a.Fails) ∧
        ((execute (budget + 1) (.alternative parts) m).1 = .noMatch →
          m.StandsAs (execute (budget + 1) (.alternative parts) m).2)) := by
  rw [execute_succ]
  refine ⟨fun limit hg => by rw [hg], fun hg => ?_⟩
  rw [hg]
  have hentered : m.entered.InOrder := { hm with }
  have hfailed (rule : Rule H V) (u u' : Machine H V) (hu : u.InOrder)
      (h : execute budget rule u = (.noMatch, u')) : u.Keeps u' ∧ u'.guard = u.guard :=
    execute_failed hu h
  obtain ⟨attempts, ht⟩ := inAlternative_tries hfailed parts.length 1 parts hentered
  refine ⟨attempts, _, ht, rfl, ?_⟩
  simp only [dispatch, leave_fst, ht.noMatch_iff]
  refine ⟨⟨fun hall => ⟨(ht.exhausted hall).1, hall⟩, And.right⟩, fun hall => ?_⟩
  obtain ⟨-, ho, hlevel, -⟩ := ht.exhausted hall
  generalize inAlternative (execute budget) m.entered.stack.pointer m.entered.source.position
    parts.length 1 parts m.entered = r at ho hlevel
  obtain ⟨o, u⟩ := r
  obtain rfl : o = .noMatch := ho
  have hguard : u.guard.leave = m.guard := by
    rw [show u.guard = m.entered.guard from hlevel.guard]
    rfl
  exact { hlevel with guard := hguard }

end

def poised : Machine Unit Nat where
  grammar := (Grammar.ofTerminals ["x", "y"]).define "xs" (.sequence [.ref "x", .ref "xs"])
  source := ⟨#[⟨"y", 5⟩, ⟨"x", 6⟩, ⟨"x", 7⟩], 1⟩
  stack := ⟨#[1, 2, 3], 2, 1⟩
  guard := ⟨4, some 20⟩
  host := ()
  trace := []

theorem poised_tries_parts : poised.InOrder ∧ poised.entered.guard.exceeded = none ∧
    (∃ (attempts : List (Attempt Unit Nat)) (r : Outcome Nat × Machine Unit Nat),
      Tries (execute 15) poised.entered [.sequence [.terminal "x", .terminal "y"], .ref "xs"]
        attempts r ∧ attempts.length = 2) ∧
    poised.StandsAs (execute 16 (.alternative
      [.sequence [.terminal "x", .terminal "y"], .ref "xs"]) poised).2 := by
  have horder : poised.InOrder := ⟨by decide, by decide, by decide⟩
  have hfails : (execute 16 (.alternative
      [.sequence [.terminal "x", .terminal "y"], .ref "xs"]) poised).1 = .noMatch := by cbv
  obtain ⟨attempts, r, ht, -, hiff, hstands⟩ := (alternative_tries_parts horder
    [.sequence [.terminal "x", .terminal "y"], .ref "xs"] 15).2 rfl
  have hlength := congrArg List.length (hiff.mp hfails).1
  exact ⟨horder, rfl, ⟨attempts, r, ht, by simpa using hlength⟩, hstands hfails⟩

end Machine

end OrderedChoice
