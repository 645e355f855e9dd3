import OrderedChoice.Proofs.Execution

set_option autoImplicit false

/-!
# Rules running inside rules

Running a rule means running others inside it. `Calls` says which, and from which machine; `Reaches`
follows such calls inward. A run is unfinished with some budget exactly if it comes to a call that
lies inside that many others, so a rule comes to an end if all that it calls do. A run that ends
with one budget ends in the same way with every larger one.
-/

namespace OrderedChoice

variable {H V : Type}

namespace Machine

theorem inScope_unfinished_iff (run : Machine H V → Outcome V × Machine H V) (m : Machine H V) :
    (inScope run m).1 = .unfinished ↔
      (run { m with stack := m.stack.openFrame }).1 = .unfinished := by
  simp only [inScope]
  generalize run { m with stack := m.stack.openFrame } = r
  obtain ⟨o, m'⟩ := r
  cases o <;> simp

def Approximates (E F : Machine H V → Outcome V × Machine H V) : Prop :=
  ∀ m, (E m).1 ≠ .unfinished → F m = E m

section

variable {E F : Rule H V → Machine H V → Outcome V × Machine H V}

theorem inScope_approximates {run run' : Machine H V → Outcome V × Machine H V}
    (h : Approximates run run') : Approximates (inScope run) (inScope run') := by
  intro m hm
  have hrun : (run { m with stack := m.stack.openFrame }).1 ≠ .unfinished :=
    fun hu => hm ((inScope_unfinished_iff run m).mpr hu)
  simp only [inScope, h _ hrun]

theorem inSequence_approximates (h : ∀ rule, Approximates (E rule) (F rule))
    (parts : List (Rule H V)) (last : V) :
    Approximates (inSequence E parts last) (inSequence F parts last) := by
  induction parts generalizing last with
  | nil => exact fun _ _ => rfl
  | cons part parts ih =>
    intro m hm
    have hpart := h part m
    simp only [inSequence] at hm ⊢
    generalize E part m = x at hm hpart ⊢
    obtain ⟨o, m'⟩ := x
    cases o with
    | unfinished => exact absurd rfl hm
    | value v =>
      rw [hpart (by simp)]
      exact ih v m' hm
    | _ => rw [hpart (by simp)]

theorem inAlternative_approximates (h : ∀ rule, Approximates (E rule) (F rule))
    (mark position count index : Nat) (parts : List (Rule H V)) :
    Approximates (inAlternative E mark position count index parts)
      (inAlternative F mark position count index parts) := by
  induction parts generalizing index with
  | nil => exact fun _ _ => rfl
  | cons part parts ih =>
    intro m hm
    have hpart := h part m
    simp only [inAlternative] at hm ⊢
    generalize E part m = x at hm hpart ⊢
    obtain ⟨o, m'⟩ := x
    cases o with
    | unfinished => exact absurd rfl hm
    | noMatch =>
      rw [hpart (by simp)]
      simp only at hm ⊢
      split
      · rename_i hu
        rw [hu] at hm
        exact ih _ _ hm
      · rfl
    | _ => rw [hpart (by simp)]

theorem atEnd_unfinished_iff (r : Outcome V × Machine H V) :
    (atEnd r).1 = .unfinished ↔ r.1 = .unfinished := by
  obtain ⟨o, m⟩ := r
  cases o with
  | value v =>
    simp only [atEnd]
    split <;> simp
  | _ => simp [atEnd]

theorem dispatch_approximates [Inhabited V] (h : ∀ rule, Approximates (E rule) (F rule))
    (rule : Rule H V) : Approximates (dispatch E rule) (dispatch F rule) := by
  cases rule with
  | ref name => exact fun m hm => h _ _ hm
  | terminal name => exact fun _ _ => rfl
  | scope body => exact inScope_approximates (h body)
  | sequence parts => exact inSequence_approximates h parts default
  | alternative parts => exact fun m hm => inAlternative_approximates h _ _ _ 1 parts m hm
  | action a => exact fun _ _ => rfl
  | terminated body =>
    intro m hm
    have hbody : (E body m).1 ≠ .unfinished := fun hu => hm ((atEnd_unfinished_iff _).mpr hu)
    simp only [dispatch, h body m hbody]

theorem inSequence_append (before after : List (Rule H V)) (last : V) (m : Machine H V) :
    inSequence E (before ++ after) last m =
      match inSequence E before last m with
      | (.value v, m') => inSequence E after v m'
      | r => r := by
  induction before generalizing last m with
  | nil => rfl
  | cons part before ih =>
    simp only [List.cons_append, inSequence]
    generalize E part m = r
    obtain ⟨o, m'⟩ := r
    cases o with
    | value v => exact ih v m'
    | _ => rfl

theorem inAlternative_append (mark position count index : Nat) (before after : List (Rule H V))
    (m : Machine H V) :
    inAlternative E mark position count index (before ++ after) m =
      match inAlternative E mark position count index before m with
      | (.noMatch, m') => inAlternative E mark position count (index + before.length) after m'
      | r => r := by
  induction before generalizing index m with
  | nil => rfl
  | cons part before ih =>
    simp only [List.cons_append, inAlternative]
    generalize E part m = r
    obtain ⟨o, m'⟩ := r
    cases o with
    | noMatch =>
      simp only
      cases (m'.note (.undone index count position)).undo mark position with
      | error e => rfl
      | ok u =>
        simp only
        rw [ih, List.length_cons, Nat.add_right_comm, Nat.add_assoc]
    | _ => rfl

theorem inSequence_stops {parts : List (Rule H V)} {last : V} {m : Machine H V}
    (h : ∀ v, (inSequence E parts last m).1 ≠ .value v) :
    ∃ before part after v m', parts = before ++ part :: after ∧
      inSequence E before last m = (.value v, m') ∧ inSequence E parts last m = E part m' := by
  induction parts generalizing last m with
  | nil => exact absurd rfl (h last)
  | cons part parts ih =>
    cases hr : E part m with
    | mk o m' =>
      cases o with
      | value v =>
        have hcons : inSequence E (part :: parts) last m = inSequence E parts v m' := by
          simp only [inSequence, hr]
        rw [hcons] at h ⊢
        obtain ⟨before, part', after, v', u, rfl, hb, he⟩ := ih h
        refine ⟨part :: before, part', after, v', u, rfl, ?_, he⟩
        simp only [inSequence, hr]
        exact hb
      | _ => exact ⟨[], part, parts, last, m, rfl, rfl, by simp only [inSequence, hr]⟩

theorem inAlternative_stops {mark position count index : Nat} {parts : List (Rule H V)}
    {m : Machine H V} (h : (inAlternative E mark position count index parts m).1 ≠ .noMatch) :
    ∃ before part after m', parts = before ++ part :: after ∧
      inAlternative E mark position count index before m = (.noMatch, m') ∧
      (inAlternative E mark position count index parts m = E part m' ∨
        ∃ u e f u', E part m' = (.noMatch, u) ∧ (u.note e).undo mark position = .error (f, u') ∧
          inAlternative E mark position count index parts m = (.fault f, u')) := by
  induction parts generalizing index m with
  | nil => exact absurd rfl h
  | cons part parts ih =>
    cases hr : E part m with
    | mk o m' =>
      cases o with
      | noMatch =>
        cases hu : (m'.note (.undone index count position)).undo mark position with
        | error p =>
          refine ⟨[], part, parts, m, rfl, rfl, .inr ⟨m', _, p.1, p.2, hr, hu, ?_⟩⟩
          simp only [inAlternative, hr, hu]
        | ok u =>
          have hcons (rest : List (Rule H V)) :
              inAlternative E mark position count index (part :: rest) m =
                inAlternative E mark position count (index + 1) rest u := by
            simp only [inAlternative, hr, hu]
          rw [hcons] at h ⊢
          obtain ⟨before, part', after, m'', rfl, hb, he⟩ := ih h
          exact ⟨part :: before, part', after, m'', rfl, by rw [hcons, hb], he⟩
      | _ => exact ⟨[], part, parts, m, rfl, rfl, .inl (by simp only [inAlternative, hr])⟩

end

section

variable [Inhabited V]

theorem execute_approximates {n k : Nat} (hk : n ≤ k) (rule : Rule H V) :
    Approximates (execute n rule) (execute k rule) := by
  induction n generalizing k rule with
  | zero => exact fun _ hm => absurd rfl hm
  | succ n ih =>
    obtain ⟨k, rfl⟩ := Nat.exists_eq_succ_of_ne_zero (Nat.ne_of_gt (Nat.zero_lt_of_lt hk))
    intro m hm
    simp only [execute] at hm ⊢
    split at hm
    · rfl
    · rw [leave_fst] at hm
      rw [dispatch_approximates (fun rule => ih (Nat.le_of_succ_le_succ hk) rule) rule _ hm]

/-- `Calls rule m part m'`: to run `rule` on the machine `m`, `part` is run on `m'`. A part of a
sequence is called once those before it have matched, a part of an alternative once those before it
have failed and been undone. -/
inductive Calls : Rule H V → Machine H V → Rule H V → Machine H V → Prop where
  | ref (name : String) (m : Machine H V) :
    Calls (.ref name) m (m.resolve name).1 (m.resolve name).2
  | scope (body : Rule H V) (m : Machine H V) :
    Calls (.scope body) m body { m with stack := m.stack.openFrame }
  | sequence {before after : List (Rule H V)} {part : Rule H V} {m m' : Machine H V} {v : V}
    (budget : Nat) (h : inSequence (execute budget) before default m = (.value v, m')) :
    Calls (.sequence (before ++ part :: after)) m part m'
  | alternative {before after : List (Rule H V)} {part : Rule H V} {m m' : Machine H V}
    (budget : Nat)
    (h : inAlternative (execute budget) m.stack.pointer m.source.position
      (before ++ part :: after).length 1 before m = (.noMatch, m')) :
    Calls (.alternative (before ++ part :: after)) m part m'
  | terminated (body : Rule H V) (m : Machine H V) : Calls (.terminated body) m body m

theorem inSequence_execute_eq {n k : Nat} {parts : List (Rule H V)} {last : V} {m : Machine H V}
    (hn : (inSequence (execute n) parts last m).1 ≠ .unfinished)
    (hk : (inSequence (execute k) parts last m).1 ≠ .unfinished) :
    inSequence (execute n) parts last m = inSequence (execute k) parts last m := by
  rcases Nat.le_total n k with h | h
  · exact (inSequence_approximates (execute_approximates h) parts last m hn).symm
  · exact inSequence_approximates (execute_approximates h) parts last m hk

theorem inAlternative_execute_eq {n k mark position count index : Nat} {parts : List (Rule H V)}
    {m : Machine H V}
    (hn : (inAlternative (execute n) mark position count index parts m).1 ≠ .unfinished)
    (hk : (inAlternative (execute k) mark position count index parts m).1 ≠ .unfinished) :
    inAlternative (execute n) mark position count index parts m =
      inAlternative (execute k) mark position count index parts m := by
  rcases Nat.le_total n k with h | h
  · exact (inAlternative_approximates (execute_approximates h) _ _ _ _ parts m hn).symm
  · exact inAlternative_approximates (execute_approximates h) _ _ _ _ parts m hk

theorem Calls.unfinished {rule part : Rule H V} {m m' : Machine H V} (h : Calls rule m part m')
    {budget : Nat} (hu : (execute budget part m').1 = .unfinished) :
    (dispatch (execute budget) rule m).1 = .unfinished := by
  cases h with
  | ref name => exact hu
  | scope body => exact (inScope_unfinished_iff _ _).mpr hu
  | @sequence before after _ _ _ v k h =>
    simp only [dispatch]
    rw [inSequence_append]
    by_cases hb : (inSequence (execute budget) before default m).1 = .unfinished
    · generalize inSequence (execute budget) before default m = r at hb
      obtain ⟨o, u⟩ := r
      cases hb
      rfl
    · have hsame := inSequence_execute_eq (k := k) hb (by rw [h]; simp)
      rw [hsame, h]
      simp only [inSequence]
      generalize execute budget part m' = r at hu
      obtain ⟨o, u⟩ := r
      cases hu
      rfl
  | @alternative before after _ _ _ k h =>
    simp only [dispatch]
    generalize (before ++ part :: after).length = count at h ⊢
    rw [inAlternative_append]
    by_cases hb : (inAlternative (execute budget) m.stack.pointer m.source.position count 1 before
        m).1 = .unfinished
    · generalize inAlternative (execute budget) m.stack.pointer m.source.position count 1 before m =
        r at hb
      obtain ⟨o, u⟩ := r
      cases hb
      rfl
    · have hsame := inAlternative_execute_eq (k := k) hb (by rw [h]; simp)
      rw [hsame, h]
      simp only [inAlternative]
      generalize execute budget part m' = r at hu
      obtain ⟨o, u⟩ := r
      cases hu
      rfl
  | terminated body => exact (atEnd_unfinished_iff _).mpr hu

theorem dispatch_unfinished_iff (budget : Nat) (rule : Rule H V) (m : Machine H V) :
    (dispatch (execute budget) rule m).1 = .unfinished ↔
      ∃ part m', Calls rule m part m' ∧ (execute budget part m').1 = .unfinished := by
  constructor
  · intro hu
    cases rule with
    | ref name => exact ⟨_, _, .ref name m, hu⟩
    | terminal name =>
      rcases m.matchTerminal_cases name with ⟨token, source, -, he⟩ | ⟨e, he⟩ <;>
        simp [dispatch, he] at hu
    | scope body => exact ⟨_, _, .scope body m, (inScope_unfinished_iff _ _).mp hu⟩
    | sequence parts =>
      have hstop : ∀ v, (inSequence (execute budget) parts default m).1 ≠ .value v := by
        intro v hv
        rw [dispatch, hv] at hu
        cases hu
      obtain ⟨before, part, after, v, m', rfl, hb, he⟩ := inSequence_stops hstop
      exact ⟨part, m', .sequence budget hb, by rw [← he]; exact hu⟩
    | alternative parts =>
      simp only [dispatch] at hu
      have hstop : (inAlternative (execute budget) m.stack.pointer m.source.position parts.length 1
          parts m).1 ≠ .noMatch := by rw [hu]; simp
      obtain ⟨before, part, after, m', hparts, hb, he | ⟨u, e, f, u', -, -, he⟩⟩ :=
        inAlternative_stops hstop
      · subst hparts
        exact ⟨part, m', .alternative budget hb, by rw [← he]; exact hu⟩
      · rw [he] at hu
        cases hu
    | action a =>
      rcases m.act_cases a with ⟨v, e, host, he⟩ | ⟨e, host, he⟩ | ⟨f, e, host, -, he⟩ <;>
        simp [dispatch, he] at hu
    | terminated body => exact ⟨_, _, .terminated body m, (atEnd_unfinished_iff _).mp hu⟩
  · rintro ⟨part, m', hc, hu⟩
    exact hc.unfinished hu

/-- `Reaches depth rule m part m'`: running `rule` on `m` comes to run `part` on `m'` inside `depth`
rules that are not finished then, `rule` being the outermost of them. -/
inductive Reaches : Nat → Rule H V → Machine H V → Rule H V → Machine H V → Prop where
  | here (rule : Rule H V) (m : Machine H V) : Reaches 0 rule m rule m
  | inside {depth : Nat} {rule part inner : Rule H V} {m m' u : Machine H V}
    (hg : m.entered.guard.exceeded = none) (hc : Calls rule m.entered part m')
    (h : Reaches depth part m' inner u) : Reaches (depth + 1) rule m inner u

/-- A budget is too small exactly if the run comes to a call inside that many others. -/
theorem unfinished_iff_reaches (budget : Nat) (rule : Rule H V) (m : Machine H V) :
    (execute budget rule m).1 = .unfinished ↔ ∃ part m', Reaches budget rule m part m' := by
  induction budget generalizing rule m with
  | zero => exact ⟨fun _ => ⟨rule, m, .here rule m⟩, fun _ => rfl⟩
  | succ budget ih =>
    rw [execute_succ]
    cases hg : m.entered.guard.exceeded with
    | some limit =>
      simp only [reduceCtorEq, false_iff]
      rintro ⟨part, m', h⟩
      cases h with
      | inside hg' => rw [hg] at hg'; cases hg'
    | none =>
      simp only [leave_fst, dispatch_unfinished_iff]
      constructor
      · rintro ⟨part, m', hc, hu⟩
        obtain ⟨inner, u, h⟩ := (ih part m').mp hu
        exact ⟨inner, u, .inside hg hc h⟩
      · rintro ⟨inner, u, h⟩
        cases h with
        | inside _ hc h => exact ⟨_, _, hc, (ih _ _).mpr ⟨inner, u, h⟩⟩

def Halts (rule : Rule H V) (m : Machine H V) : Prop :=
  ∃ n, (execute n rule m).1 ≠ .unfinished

theorem inSequence_halts {parts : List (Rule H V)} {m : Machine H V}
    (h : ∀ part m', Calls (.sequence parts) m part m' → Halts part m') :
    ∃ n, (inSequence (execute n) parts default m).1 ≠ .unfinished := by
  suffices hgo : ∀ after before v m' k, parts = before ++ after →
      inSequence (execute k) before default m = (.value v, m') →
      ∃ n, (inSequence (execute n) after v m').1 ≠ .unfinished from
    hgo parts [] default m 0 rfl rfl
  intro after
  induction after with
  | nil => exact fun _ v m' _ _ _ => ⟨0, by simp [inSequence]⟩
  | cons part after ih =>
    intro before v m' k hparts hb
    obtain ⟨n, hn⟩ : Halts part m' := h part m' (by rw [hparts]; exact .sequence k hb)
    cases hr : execute n part m' with
    | mk o u =>
      have hlater {j : Nat} (hj : n ≤ j) : execute j part m' = (o, u) :=
        (execute_approximates hj part m' hn).trans hr
      cases o with
      | unfinished => exact absurd (congrArg Prod.fst hr) hn
      | value w =>
        have hb' : inSequence (execute (max n k)) before default m = (.value v, m') := by
          rw [← hb]
          exact inSequence_approximates (execute_approximates (Nat.le_max_right n k)) before default
            m (by rw [hb]; simp)
        obtain ⟨j, hj⟩ := ih (before ++ [part]) w u (max n k) (by simp [hparts]) (by
          rw [inSequence_append, hb']
          simp only [inSequence, hlater (Nat.le_max_left n k)])
        refine ⟨max n j, ?_⟩
        simp only [inSequence, hlater (Nat.le_max_left n j)]
        rw [inSequence_approximates (execute_approximates (Nat.le_max_right n j)) after w u hj]
        exact hj
      | _ => exact ⟨n, by simp [inSequence, hr]⟩

theorem inAlternative_halts {parts : List (Rule H V)} {m : Machine H V}
    (h : ∀ part m', Calls (.alternative parts) m part m' → Halts part m') :
    ∃ n, (inAlternative (execute n) m.stack.pointer m.source.position parts.length 1 parts m).1 ≠
      .unfinished := by
  suffices hgo : ∀ after before m' k, parts = before ++ after →
      inAlternative (execute k) m.stack.pointer m.source.position parts.length 1 before m =
        (.noMatch, m') →
      ∃ n, (inAlternative (execute n) m.stack.pointer m.source.position parts.length
        (1 + before.length) after m').1 ≠ .unfinished from
    hgo parts [] m 0 rfl rfl
  intro after
  induction after with
  | nil => exact fun _ m' _ _ _ => ⟨0, by simp [inAlternative]⟩
  | cons part after ih =>
    intro before m' k hparts hb
    obtain ⟨n, hn⟩ : Halts part m' := h part m' (by subst hparts; exact .alternative k hb)
    cases hr : execute n part m' with
    | mk o u =>
      have hlater {j : Nat} (hj : n ≤ j) : execute j part m' = (o, u) :=
        (execute_approximates hj part m' hn).trans hr
      cases o with
      | unfinished => exact absurd (congrArg Prod.fst hr) hn
      | noMatch =>
        cases hu : (u.note (.undone (1 + before.length) parts.length m.source.position)).undo
            m.stack.pointer m.source.position with
        | error p => exact ⟨n, by simp [inAlternative, hr, hu]⟩
        | ok u' =>
          have hb' : inAlternative (execute (max n k)) m.stack.pointer m.source.position
              parts.length 1 before m = (.noMatch, m') := by
            rw [← hb]
            exact inAlternative_approximates (execute_approximates (Nat.le_max_right n k)) _ _ _ _
              before m (by rw [hb]; simp)
          obtain ⟨j, hj⟩ := ih (before ++ [part]) u' (max n k) (by simp [hparts]) (by
            rw [inAlternative_append, hb']
            simp only [inAlternative, hlater (Nat.le_max_left n k), hu])
          refine ⟨max n j, ?_⟩
          simp only [inAlternative, hlater (Nat.le_max_left n j), hu]
          rw [List.length_append, List.length_singleton, ← Nat.add_assoc] at hj
          rw [inAlternative_approximates (execute_approximates (Nat.le_max_right n j)) _ _ _ _ after
            u' hj]
          exact hj
      | _ => exact ⟨n, by simp [inAlternative, hr]⟩

theorem halts_of_calls {rule : Rule H V} {m : Machine H V}
    (h : ∀ part m', Calls rule m.entered part m' → Halts part m') : Halts rule m := by
  have hdispatch : ∃ n, (dispatch (execute n) rule m.entered).1 ≠ .unfinished := by
    cases rule with
    | ref name => exact h _ _ (.ref name _)
    | terminal name =>
      refine ⟨0, fun hu => ?_⟩
      obtain ⟨_, _, hc, -⟩ := (dispatch_unfinished_iff 0 _ _).mp hu
      cases hc
    | scope body =>
      obtain ⟨n, hn⟩ := h _ _ (.scope body _)
      exact ⟨n, fun hu => hn ((inScope_unfinished_iff _ _).mp hu)⟩
    | sequence parts => exact inSequence_halts h
    | alternative parts => exact inAlternative_halts h
    | action a =>
      refine ⟨0, fun hu => ?_⟩
      obtain ⟨_, _, hc, -⟩ := (dispatch_unfinished_iff 0 _ _).mp hu
      cases hc
    | terminated body =>
      obtain ⟨n, hn⟩ := h _ _ (.terminated body _)
      exact ⟨n, fun hu => hn ((atEnd_unfinished_iff _).mp hu)⟩
  obtain ⟨n, hn⟩ := hdispatch
  refine ⟨n + 1, ?_⟩
  rw [execute_succ]
  split
  · simp
  · rw [leave_fst]
    exact hn

end

end Machine

end OrderedChoice
