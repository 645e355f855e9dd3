import OrderedChoice.Rule.Build
import OrderedChoice.Proofs.Following
import OrderedChoice.Proofs.Kinship

set_option autoImplicit false

namespace OrderedChoice

variable {H V : Type}

namespace Machine

/-- If `x` is an end, `run` comes to the same one with every budget that is large enough, on a
machine that is akin. -/
def RepeatedBy (x : Outcome V × Machine H V) (run : Nat → Outcome V × Machine H V) : Prop :=
  x.1 ≠ .unfinished → ∃ y, AkinEnds x y ∧ Settles run y

def onMatch (next : V → Machine H V → Outcome V × Machine H V) :
    Outcome V × Machine H V → Outcome V × Machine H V
  | (.value v, m) => next v m
  | r => r

def onFailure (next : Machine H V → Outcome V × Machine H V) :
    Outcome V × Machine H V → Outcome V × Machine H V
  | (.noMatch, m) => next m
  | r => r

namespace RepeatedBy

variable {x x' : Outcome V × Machine H V} {run : Nat → Outcome V × Machine H V}

theorem succ (h : RepeatedBy x (fun k => run (k + 1))) : RepeatedBy x run := by
  intro hx
  obtain ⟨y, hy, hs⟩ := h hx
  exact ⟨y, hy, hs.succ⟩

theorem left (h : RepeatedBy x run) (hu : x.1 = .unfinished → x'.1 = .unfinished)
    (hx : ∀ y, AkinEnds x y → AkinEnds x' y) : RepeatedBy x' run := by
  intro hx'
  obtain ⟨y, hy, hs⟩ := h (fun he => hx' (hu he))
  exact ⟨y, hx y hy, hs⟩

theorem right (h : RepeatedBy x run) (f : Outcome V × Machine H V → Outcome V × Machine H V)
    (hf : ∀ y, AkinEnds x y → AkinEnds x (f y)) : RepeatedBy x (fun k => f (run k)) := by
  intro hx
  obtain ⟨y, hy, hs⟩ := h hx
  exact ⟨f y, hf y hy, hs.map f⟩

theorem leave_left (h : RepeatedBy x run) : RepeatedBy (leave x) run := by
  refine h.left (fun hu => (leave_fst x).trans hu) fun y hy => ?_
  obtain ⟨o, u⟩ := x
  obtain ⟨ho, ha⟩ := hy
  cases o <;> exact ⟨ho, { ha with }⟩

theorem leave_right (h : RepeatedBy x run) : RepeatedBy x (fun k => leave (run k)) := by
  refine h.right leave fun y hy => ?_
  obtain ⟨o, u⟩ := y
  obtain ⟨ho, ha⟩ := hy
  cases o <;> exact ⟨ho, { ha with }⟩

theorem onMatch {next : V → Machine H V → Outcome V × Machine H V}
    {next' : V → Nat → Machine H V → Outcome V × Machine H V} (h : RepeatedBy x run)
    (hnext : ∀ v {u u' : Machine H V}, Akin u u' → RepeatedBy (next v u) (next' v · u')) :
    RepeatedBy (onMatch next x) (fun k => Machine.onMatch (next' · k) (run k)) := by
  obtain ⟨o, u⟩ := x
  intro hx
  cases o with
  | value v =>
    obtain ⟨⟨o', u'⟩, ⟨ho, hu⟩, hs⟩ := h (by simp)
    cases ho
    obtain ⟨z, hz, hsz⟩ := hnext v hu hx
    exact ⟨z, hz, @Settles.bind _ _ _ _ (fun y k => Machine.onMatch (next' · k) y) z hs hsz⟩
  | unfinished => exact absurd rfl hx
  | _ =>
    obtain ⟨⟨o', u'⟩, ⟨ho, hu⟩, n, hn⟩ := h (by simp)
    cases ho
    exact ⟨(_, u'), ⟨rfl, hu⟩, n, fun k hk => by simp only [hn k hk]; rfl⟩

theorem onFailure {next : Machine H V → Outcome V × Machine H V}
    {next' : Nat → Machine H V → Outcome V × Machine H V} (h : RepeatedBy x run)
    (hnext : ∀ {u u' : Machine H V}, x = (.noMatch, u) → Akin u u' →
      RepeatedBy (next u) (next' · u')) :
    RepeatedBy (onFailure next x) (fun k => Machine.onFailure (next' k) (run k)) := by
  obtain ⟨o, u⟩ := x
  intro hx
  cases o with
  | noMatch =>
    obtain ⟨⟨o', u'⟩, ⟨ho, hu⟩, hs⟩ := h (by simp)
    cases ho
    obtain ⟨z, hz, hsz⟩ := hnext rfl hu hx
    exact ⟨z, hz, @Settles.bind _ _ _ _ (fun y k => Machine.onFailure (next' k) y) z hs hsz⟩
  | unfinished => exact absurd rfl hx
  | _ =>
    obtain ⟨⟨o', u'⟩, ⟨ho, hu⟩, n, hn⟩ := h (by simp)
    cases ho
    exact ⟨(_, u'), ⟨rfl, hu⟩, n, fun k hk => by simp only [hn k hk]; rfl⟩

end RepeatedBy

section

variable {E : Rule H V → Machine H V → Outcome V × Machine H V}

theorem inSequence_split (before after : List (Rule H V)) (last : V) (m : Machine H V) :
    inSequence E (before ++ after) last m =
      onMatch (inSequence E after) (inSequence E before last m) := by
  rw [inSequence_append]
  generalize inSequence E before last m = r
  obtain ⟨o, u⟩ := r
  cases o <;> rfl

theorem inSequence_singleton (rule : Rule H V) (last : V) (m : Machine H V) :
    inSequence E [rule] last m = E rule m := by
  simp only [inSequence]
  generalize E rule m = r
  obtain ⟨o, u⟩ := r
  cases o <;> rfl

theorem inSequence_last {parts : List (Rule H V)} (hp : parts ≠ []) (last last' : V)
    (m : Machine H V) : inSequence E parts last m = inSequence E parts last' m := by
  cases parts with
  | nil => exact absurd rfl hp
  | cons part parts => rfl

theorem sequenceParts_ne_nil {rule : Rule H V} (h : rule ≠ .succeed) : rule.sequenceParts ≠ [] := by
  cases rule with
  | sequence parts => exact fun hp => h (congrArg Rule.sequence hp)
  | _ => exact List.cons_ne_nil _ _

theorem inAlternative_split (mark position count index : Nat) (before after : List (Rule H V))
    (m : Machine H V) :
    inAlternative E mark position count index (before ++ after) m =
      onFailure (inAlternative E mark position count (index + before.length) after)
        (inAlternative E mark position count index before m) := by
  rw [inAlternative_append]
  generalize inAlternative E mark position count index before m = r
  obtain ⟨o, u⟩ := r
  cases o <;> rfl

def retract (mark position : Nat) (e : Event H V) :
    Outcome V × Machine H V → Outcome V × Machine H V
  | (.noMatch, m) =>
    match (m.note e).undo mark position with
    | .ok m => (.noMatch, m)
    | .error (f, m) => (.fault f, m)
  | r => r

theorem inAlternative_singleton (mark position count index : Nat) (rule : Rule H V)
    (m : Machine H V) :
    inAlternative E mark position count index [rule] m =
      retract mark position (.undone index count position) (E rule m) := by
  simp only [inAlternative]
  generalize E rule m = r
  obtain ⟨o, u⟩ := r
  cases o <;> rfl

structure Stands (mark position : Nat) (m : Machine H V) : Prop where
  at_mark : m.stack.pointer = mark
  at_position : m.source.position = position
  bounded : position ≤ m.source.tokens.size

section

variable {mark position : Nat} {m m' : Machine H V}

theorem Stands.akin (h : Stands mark position m) (ha : Akin m m') : Stands mark position m' :=
  ⟨by rw [ha.stack]; exact h.at_mark, by rw [ha.source]; exact h.at_position,
    by rw [ha.source]; exact h.bounded⟩

theorem Stands.retract (h : Stands mark position m) (e : Event H V) :
    retract mark position e (.noMatch, m) = (.noMatch, m.note e) := by
  obtain ⟨rfl, rfl, hbounded⟩ := h
  have hback : m.source.seek m.source.position = .ok m.source := if_pos hbounded
  simp only [Machine.retract, Machine.undo, note, ValueStack.rollback, Nat.le_refl, ↓reduceIte,
    hback]

theorem AkinEnds.retract_left {x y : Outcome V × Machine H V} (h : AkinEnds x y)
    (hx : ∀ u, x = (.noMatch, u) → Stands mark position u) {e : Event H V} (he : e.call? = none) :
    AkinEnds (Machine.retract mark position e x) y := by
  obtain ⟨o, u⟩ := x
  cases o with
  | noMatch =>
    rw [(hx u rfl).retract]
    exact ⟨h.1, h.2.note_left he⟩
  | _ => exact h

theorem AkinEnds.retract_right {x y : Outcome V × Machine H V} (h : AkinEnds x y)
    (hx : ∀ u, x = (.noMatch, u) → Stands mark position u) {e : Event H V} (he : e.call? = none) :
    AkinEnds x (Machine.retract mark position e y) := by
  obtain ⟨o, u⟩ := x
  obtain ⟨o', u'⟩ := y
  obtain ⟨ho, hu⟩ := h
  cases ho
  cases o with
  | noMatch =>
    rw [((hx u rfl).akin hu).retract]
    exact ⟨rfl, hu.note_right he⟩
  | _ => exact ⟨rfl, hu⟩

theorem RepeatedBy.retract_left {x : Outcome V × Machine H V} {run : Nat → Outcome V × Machine H V}
    (h : RepeatedBy x run) (hx : ∀ u, x = (.noMatch, u) → Stands mark position u) {e : Event H V}
    (he : e.call? = none) : RepeatedBy (Machine.retract mark position e x) run := by
  refine h.left (fun hu => ?_) fun y hy => hy.retract_left hx he
  obtain ⟨o, u⟩ := x
  cases hu
  rfl

theorem stands_of_left {x : Outcome V × Machine H V}
    (hx : ∀ u, x = (.noMatch, u) → Stands mark position u) {u : Machine H V}
    (hu : leave x = (.noMatch, u)) : Stands mark position u := by
  obtain ⟨o, w⟩ := x
  cases o with
  | noMatch =>
    cases hu
    exact { hx w rfl with }
  | _ => cases hu

theorem stands_of_failed {count index : Nat} {parts : List (Rule H V)} {u : Machine H V}
    (h : inAlternative E mark position count index parts m = (.noMatch, u))
    (hm : Stands mark position m) : Stands mark position u := by
  induction parts generalizing index m with
  | nil =>
    cases h
    exact hm
  | cons part parts ih =>
    simp only [inAlternative] at h
    generalize E part m = r at h
    obtain ⟨o, w⟩ := r
    cases o with
    | noMatch =>
      simp only at h
      split at h
      · rename_i u' hu
        obtain ⟨-, hbounded, rfl⟩ := undo_eq_ok hu
        exact ih h ⟨rfl, rfl, hbounded⟩
      · cases h
    | _ => cases h

end

end

section

variable [Inhabited V] {m m' : Machine H V}

theorem Akin.repeated (h : Akin m m') (n : Nat) (rule : Rule H V) :
    RepeatedBy (Machine.execute n rule m) (Machine.execute · rule m') := by
  intro hx
  have hsame := h.execute n rule
  exact ⟨_, hsame, n, fun k hk =>
    execute_approximates hk rule m' (fun hu => hx (hsame.1.symm.trans hu))⟩

theorem execute_of_unlimited (hl : m.guard.limit = none) (n : Nat) (rule : Rule H V) :
    Machine.execute (n + 1) rule m = leave (dispatch (Machine.execute n) rule m.entered) := by
  have hg : m.entered.guard.exceeded = none := by
    simp only [DepthGuard.exceeded, entered, DepthGuard.enter, hl]
  rw [execute_succ, hg]

/-- Running the first parts is repeated by running the second. -/
def SequenceRepeats (parts parts' : List (Rule H V)) (last : V) : Prop :=
  ∀ n {m m' : Machine H V}, Akin m m' →
    RepeatedBy (inSequence (execute n) parts last m)
      (fun k => inSequence (execute k) parts' last m')

theorem SequenceRepeats.refl (parts : List (Rule H V)) (last : V) :
    SequenceRepeats parts parts last := by
  intro n m m' h hx
  have hsame := h.inSequence (fun rule _ _ h => h.execute n rule) parts last
  exact ⟨_, hsame, n, fun k hk => inSequence_approximates (execute_approximates hk) parts last m'
    (fun hu => hx (hsame.1.symm.trans hu))⟩

theorem SequenceRepeats.last {parts parts' : List (Rule H V)}
    (h : SequenceRepeats parts parts' default) (hp : parts ≠ []) (hp' : parts' ≠ []) (v : V) :
    SequenceRepeats parts parts' v := by
  intro n m m' ha
  simp only [inSequence_last hp v default, inSequence_last hp' v default]
  exact h n ha

theorem SequenceRepeats.append {before before' after after' : List (Rule H V)}
    (hb : SequenceRepeats before before' default) (ha : ∀ v, SequenceRepeats after after' v) :
    SequenceRepeats (before ++ after) (before' ++ after') default := by
  intro n m m' h
  simp only [inSequence_split]
  exact (hb n h).onMatch fun v _ _ hu => ha v n hu

theorem SequenceRepeats.execute {parts parts' : List (Rule H V)}
    (h : SequenceRepeats parts parts' default) (hm : Akin m m') (n : Nat) :
    RepeatedBy (execute n (.sequence parts) m) (Machine.execute · (.sequence parts') m') := by
  cases n with
  | zero => exact fun hx => absurd rfl hx
  | succ n =>
    refine .succ ?_
    simp only [execute_of_unlimited hm.limit, execute_of_unlimited hm.limit']
    exact (h n hm.deeper).leave_left.leave_right

theorem sequenceParts_repeats (rule : Rule H V) :
    SequenceRepeats rule.sequenceParts [rule] default := by
  cases rule with
  | sequence parts =>
    intro n m m' h
    simp only [inSequence_singleton]
    refine .succ ?_
    simp only [execute_of_unlimited h.limit']
    exact (SequenceRepeats.refl parts default n h.enter_right).leave_right
  | _ => exact .refl _ default

theorem repeats_sequenceParts (rule : Rule H V) :
    SequenceRepeats [rule] rule.sequenceParts default := by
  cases rule with
  | sequence parts =>
    intro n m m' h
    simp only [inSequence_singleton]
    cases n with
    | zero => exact fun hx => absurd rfl hx
    | succ n =>
      rw [execute_of_unlimited h.limit]
      exact (SequenceRepeats.refl parts default n h.enter_left).leave_left
  | _ => exact .refl _ default

def AlternativeRepeats (parts parts' : List (Rule H V)) : Prop :=
  ∀ n mark position count index count' index' {m m' : Machine H V}, Akin m m' →
    Stands mark position m →
    RepeatedBy (inAlternative (execute n) mark position count index parts m)
      (fun k => inAlternative (execute k) mark position count' index' parts' m')

theorem AlternativeRepeats.refl (parts : List (Rule H V)) : AlternativeRepeats parts parts := by
  intro n mark position count index count' index' m m' h _ hx
  have hsame := h.inAlternative (fun rule _ _ h => h.execute n rule) mark position count index
    count' index' parts
  exact ⟨_, hsame, n, fun k hk => inAlternative_approximates (execute_approximates hk) mark position
    count' index' parts m' (fun hu => hx (hsame.1.symm.trans hu))⟩

theorem AlternativeRepeats.append {before before' after after' : List (Rule H V)}
    (hb : AlternativeRepeats before before') (ha : AlternativeRepeats after after') :
    AlternativeRepeats (before ++ after) (before' ++ after') := by
  intro n mark position count index count' index' m m' h hs
  simp only [inAlternative_split]
  exact (hb n mark position count index count' index' h hs).onFailure fun hu hakin =>
    ha n mark position count _ count' _ hakin (stands_of_failed hu hs)

theorem AlternativeRepeats.execute {parts parts' : List (Rule H V)}
    (h : AlternativeRepeats parts parts') (hm : Akin m m')
    (hs : m.source.position ≤ m.source.tokens.size) (n : Nat) :
    RepeatedBy (execute n (.alternative parts) m)
      (Machine.execute · (.alternative parts') m') := by
  cases n with
  | zero => exact fun hx => absurd rfl hx
  | succ n =>
    have hstands : Stands m.stack.pointer m.source.position m.entered := ⟨rfl, rfl, hs⟩
    refine .succ ?_
    simp only [execute_of_unlimited hm.limit, execute_of_unlimited hm.limit', dispatch,
      hm.deeper.stack, hm.deeper.source]
    exact (h n _ _ _ _ _ _ hm.deeper hstands).leave_left.leave_right

theorem alternativeParts_repeats (rule : Rule H V) :
    AlternativeRepeats rule.alternativeParts [rule] := by
  cases rule with
  | alternative parts =>
    intro n mark position count index count' index' m m' h hs
    have hentered := hs.akin h.enter_right
    have hparts := AlternativeRepeats.refl parts n mark position count index parts.length 1
      h.enter_right hs
    simp only [inAlternative_singleton]
    refine .succ ?_
    simp only [execute_of_unlimited h.limit', dispatch, hentered.at_mark, hentered.at_position]
    -- The inner alternative fails where it began, so the outer one has nothing to undo.
    exact hparts.leave_right.right _ fun y hy =>
      hy.retract_right (fun u hu => stands_of_failed hu hs) rfl
  | _ => exact .refl _

theorem repeats_alternativeParts (rule : Rule H V) :
    AlternativeRepeats [rule] rule.alternativeParts := by
  cases rule with
  | alternative parts =>
    intro n mark position count index count' index' m m' h hs
    simp only [inAlternative_singleton]
    cases n with
    | zero => exact fun hx => absurd rfl hx
    | succ n =>
      have hentered : Stands mark position m.entered := { hs with }
      have hparts := AlternativeRepeats.refl parts n mark position parts.length 1 count' index'
        h.enter_left hentered
      simp only [execute_of_unlimited h.limit, dispatch, hentered.at_mark, hentered.at_position]
      exact hparts.leave_left.retract_left
        (fun _ => stands_of_left fun _ hu => stands_of_failed hu hentered) rfl
  | _ => exact .refl _

/-- What running a rule within a budget comes to, as far as it does not depend on how rules are
nested. -/
def observed (n : Nat) (rule : Rule H V) (m : Machine H V) :
    Outcome V × Grammar H V × ValueStack V × Effects H V :=
  ((execute n rule m).1, (execute n rule m).2.essence)

theorem RepeatedBy.returns {rule rule' : Rule H V} {n : Nat}
    (h : RepeatedBy (execute n rule m) (Machine.execute · rule' m))
    (hn : (execute n rule m).1 ≠ .unfinished) :
    Returns (fun k => observed k rule' m) (observed n rule m).1 (observed n rule m).2 := by
  obtain ⟨y, hy, hs⟩ := h hn
  have hend := hs.map fun y => (y.1, y.2.essence)
  rw [hy.1, hy.2.essence] at hend
  exact ⟨hn, hend⟩

theorem returns_iff_of_repeated {rule rule' : Rule H V}
    (h : ∀ n, RepeatedBy (execute n rule m) (Machine.execute · rule' m))
    (h' : ∀ n, RepeatedBy (execute n rule' m) (Machine.execute · rule m))
    (o : Outcome V) (c : Grammar H V × ValueStack V × Effects H V) :
    Returns (fun n => observed n rule m) o c ↔ Returns (fun n => observed n rule' m) o c :=
  (returns_iff_of_ends (fun n hn => (h n).returns hn) (fun n hn => (h' n).returns hn)).1 o c

end

end Machine

def Outcome.replaced (v : V) : Outcome V → Outcome V
  | .value _ => .value v
  | o => o

namespace Machine

section

variable [Inhabited V] {m : Machine H V}

theorem andThen_succeed_returns_iff (hl : m.guard.limit = none) (a : Rule H V) (o : Outcome V)
    (c : Grammar H V × ValueStack V × Effects H V) :
    Returns (fun n => observed n (a.andThen .succeed) m) o c ↔
      Returns (fun n => observed n a m) o c := by
  have hm : Akin m m := .refl hl
  have hparts : a.andThen .succeed = .sequence a.sequenceParts :=
    congrArg Rule.sequence (List.append_nil _)
  rw [hparts]
  refine returns_iff_of_repeated (fun n => ?_) (fun n => ?_) o c
  · cases n with
    | zero => exact fun hx => absurd rfl hx
    | succ n =>
      have ha := sequenceParts_repeats a n hm.enter_left
      simp only [inSequence_singleton] at ha
      rw [execute_of_unlimited hl]
      exact ha.leave_left
  · have ha := repeats_sequenceParts a n hm.enter_right
    simp only [inSequence_singleton] at ha
    refine .succ ?_
    simp only [execute_of_unlimited hl]
    exact ha.leave_right

theorem execute_sequence_succeed (hl : m.guard.limit = none) (n : Nat) (a : Rule H V) :
    observed (n + 2) (.sequence [a, .succeed]) m =
      ((observed (n + 1) a m).1.replaced default, (observed (n + 1) a m).2) := by
  have hm : Akin m m := .refl hl
  obtain ⟨ho, hu⟩ := hm.enter_right.execute (n + 1) a
  rw [observed, observed, execute_of_unlimited hl, ← ho, ← hu.essence]
  simp only [dispatch, inSequence]
  have hl' := hu.limit'
  generalize execute (n + 1) a m.entered = r at hl'
  obtain ⟨o, u⟩ := r
  cases o with
  | value v =>
    simp only [execute_of_unlimited hl', Rule.succeed, dispatch, inSequence]
    rfl
  | _ => rfl

theorem sequence_succeed_returns_iff (hl : m.guard.limit = none) (a : Rule H V) (o : Outcome V)
    (c : Grammar H V × ValueStack V × Effects H V) :
    Returns (fun n => observed n (.sequence [a, .succeed]) m) o c ↔
      ∃ o', o = o'.replaced default ∧ Returns (fun n => observed n a m) o' c := by
  have hm : Akin m m := .refl hl
  constructor
  · rintro ⟨ho, n, hn⟩
    have hend : observed (n + 2) (.sequence [a, .succeed]) m = (o, c) := hn (n + 2) (by omega)
    rw [execute_sequence_succeed hl] at hend
    obtain ⟨rfl, rfl⟩ := Prod.mk.inj hend
    refine ⟨_, rfl, (hm.repeated (n + 1) a).returns fun hu => ho ?_⟩
    have hu : (observed (n + 1) a m).1 = .unfinished := hu
    rw [hu]
    rfl
  · rintro ⟨o', rfl, ho, n, hn⟩
    refine ⟨?_, n + 2, fun k hk => ?_⟩
    · cases o' with
      | unfinished => exact absurd rfl ho
      | _ => exact nofun
    · obtain ⟨j, rfl⟩ := Nat.exists_eq_add_of_le' hk
      have hend : observed (j + n + 1) a m = (o', c) := hn (j + n + 1) (by omega)
      have hnested := execute_sequence_succeed hl (j + n) a
      rw [hend] at hnested
      exact hnested

/-- Without a depth limit, whatever the rules and the machine are: joining two rules as alternatives
is to run the alternative of the two, and joining them in sequence is to run the sequence of the
two, as far as outcome, compiled forms, diagnostics, stack, place in the tokens, state of the
actions and the actions run are concerned. Only where the second rule is the empty sequence do the
values differ: joined flat, the value is that of the first rule; the nested sequence has the default
value. A run that ends with some budget does return. -/
theorem flat_meets_nested (a b : Rule H V) (hl : m.guard.limit = none)
    (hs : m.source.position ≤ m.source.tokens.size) :
    (∀ o c, Returns (fun n => observed n (a.orElse b) m) o c ↔
      Returns (fun n => observed n (.alternative [a, b]) m) o c) ∧
    (b ≠ .succeed → ∀ o c, Returns (fun n => observed n (a.andThen b) m) o c ↔
      Returns (fun n => observed n (.sequence [a, b]) m) o c) ∧
    (∀ o c, Returns (fun n => observed n (a.andThen .succeed) m) o c ↔
      Returns (fun n => observed n a m) o c) ∧
    (∀ o c, Returns (fun n => observed n (.sequence [a, .succeed]) m) o c ↔
      ∃ o', o = o'.replaced default ∧
        Returns (fun n => observed n (a.andThen .succeed) m) o' c) ∧
    ∀ rule n, (execute n rule m).1 ≠ .unfinished →
      Returns (fun n => observed n rule m) (observed n rule m).1 (observed n rule m).2 := by
  have hm : Akin m m := .refl hl
  refine ⟨?_, fun hb => ?_, andThen_succeed_returns_iff hl a, fun o c => ?_,
    fun rule n hn => (hm.repeated n rule).returns hn⟩
  · have hflat : AlternativeRepeats (a.alternativeParts ++ b.alternativeParts) ([a] ++ [b]) :=
      (alternativeParts_repeats a).append (alternativeParts_repeats b)
    have hnested : AlternativeRepeats ([a] ++ [b]) (a.alternativeParts ++ b.alternativeParts) :=
      (repeats_alternativeParts a).append (repeats_alternativeParts b)
    exact returns_iff_of_repeated (hflat.execute hm hs) (hnested.execute hm hs)
  · have hparts := sequenceParts_ne_nil hb
    have hflat : SequenceRepeats (a.sequenceParts ++ b.sequenceParts) ([a] ++ [b]) default :=
      (sequenceParts_repeats a).append
        ((sequenceParts_repeats b).last hparts (List.cons_ne_nil b []))
    have hnested : SequenceRepeats ([a] ++ [b]) (a.sequenceParts ++ b.sequenceParts) default :=
      (repeats_sequenceParts a).append
        ((repeats_sequenceParts b).last (List.cons_ne_nil b []) hparts)
    exact returns_iff_of_repeated (hflat.execute hm) (hnested.execute hm)
  · simp only [andThen_succeed_returns_iff hl a]
    exact sequence_succeed_returns_iff hl a o c

end

def underway : Machine Unit Nat where
  grammar := .ofTerminals ["x", "z"]
  source := ⟨#[⟨"y", 0⟩, ⟨"x", 4⟩], 1⟩
  stack := ⟨#[1, 2, 3], 2, 1⟩
  guard := ⟨0, none⟩
  host := ()
  trace := []

def hesitant : Rule Unit Nat :=
  .alternative [.sequence [.terminal "x", .action ⟨some "no", fun _ h => (.reject, h)⟩],
    .terminal "z"]

theorem hesitant_joined : underway.guard.limit = none ∧
    underway.source.position ≤ underway.source.tokens.size ∧
    hesitant.orElse (.terminal "x") = .alternative
      [.sequence [.terminal "x", .action ⟨some "no", fun _ h => (.reject, h)⟩], .terminal "z",
        .terminal "x"] ∧
    Returns (fun n => observed n (hesitant.orElse (.terminal "x")) underway) (.value 4)
      (underway.grammar, ⟨#[1, 2, 4], 3, 1⟩,
        ⟨⟨#[⟨"y", 0⟩, ⟨"x", 4⟩], 2⟩, (), [⟨some "no", [2, 4], some 1⟩]⟩) := by
  have hs : underway.source.position ≤ underway.source.tokens.size := by decide
  have hnested : Returns (fun n => observed n (.alternative [hesitant, .terminal "x"]) underway)
      (.value 4) (underway.grammar, ⟨#[1, 2, 4], 3, 1⟩,
        ⟨⟨#[⟨"y", 0⟩, ⟨"x", 4⟩], 2⟩, (), [⟨some "no", [2, 4], some 1⟩]⟩) := by
    refine ⟨by simp, 4, fun k hk => ?_⟩
    obtain ⟨j, rfl⟩ := Nat.exists_eq_add_of_le' hk
    cbv
  exact ⟨rfl, hs, rfl, ((flat_meets_nested hesitant (.terminal "x") rfl hs).1 _ _).mpr hnested⟩

end Machine

end OrderedChoice
