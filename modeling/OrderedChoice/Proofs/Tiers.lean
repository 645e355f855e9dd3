import OrderedChoice.Calculator.Basic
import OrderedChoice.Proofs.Frames
import OrderedChoice.Proofs.Judgement

set_option autoImplicit false

namespace OrderedChoice.Calculator

variable {H N : Type}

/-- Two operators of one precedence: their names, labels, and what they do. -/
structure Tier (N : Type) where
  name : String
  tail : String
  operand : String
  first : String × String × (N → N → Option N)
  second : String × String × (N → N → Option N)

def Tier.branch (t : Tier N) (o : String × String × (N → N → Option N)) : Rule H N :=
  .sequence [.ref o.1, .ref t.operand, combine o.2.1 o.2.2, .ref t.tail]

structure Tier.Meant (t : Tier N) (look : String → Rule H N) : Prop where
  name : look t.name = .scope (.sequence [.ref t.operand, .ref t.tail])
  tail : look t.tail =
    .scope (.alternative [t.branch t.first, t.branch t.second, pick "done" 0 id])
  first : look t.first.1 = .terminal t.first.1
  second : look t.second.1 = .terminal t.second.1
  distinct : t.second.1 ≠ t.first.1

theorem Tier.Meant.operator {t : Tier N} {look : String → Rule H N} (h : t.Meant look)
    {o : String × String × (N → N → Option N)} (ho : o = t.first ∨ o = t.second) :
    look o.1 = .terminal o.1 := by
  rcases ho with rfl | rfl
  · exact h.first
  · exact h.second

/-- There is room for two values for each token left. -/
def Room (below frame : List N) (rest : List (Token N)) : Prop :=
  below.length + frame.length + 2 * rest.length < wordBound

section

variable [Inhabited N] {look : String → Rule H N} {t : Tier N}

/-- A name reads tokens to the result `r`, whatever lies below. -/
def Reads (look : String → Rule H N) (name : String) (ts : List (Token N))
    (r : Option (N × List (Token N))) : Prop :=
  ∀ below frame, Room below frame ts → Adds (meant look (.ref name)) ⟨below, frame, ts⟩ r

/-- A tail reads tokens to the result `r` where the result so far is `x`. -/
def Continues (look : String → Rule H N) (name : String) (x : N) (ts : List (Token N))
    (r : Option (N × List (Token N))) : Prop :=
  ∀ below frame, (below ++ frame).getLast? = some x → Room below frame ts →
    Adds (meant look (.ref name)) ⟨below, frame, ts⟩ r

theorem adds_combine {label : String} {op : N → N → Option N} {lower : List N} {x y v : N}
    {rest : List (Token N)} (hx : lower.getLast? = some x) (hroom : lower.length + 2 < wordBound) :
    Adds (meant look (combine label op)) ⟨lower, [v, y], rest⟩
      ((op x y).map fun z => (z, rest)) := by
  have h0 := Window.get_mk_of_slot lower [v, y]
    ((Window.slot?_mk lower [v, y] 0).trans hx) (by omega)
  have h2 := Window.get_mk_of_slot lower [v, y] (Window.slot?_mk lower [v, y] 2) hroom
  cases hz : op x y with
  | none =>
    refine Adds.action_reject fun host => ?_
    simp only [Floor.whole, h0, h2, hz]
  | some z =>
    refine Adds.action fun host => ?_
    simp only [Floor.whole, h0, h2, hz]

theorem adds_pick {label : String} {index : Nat} {change : N → N} {lower frame : List N} {x : N}
    {rest : List (Token N)}
    (hx : (⟨(lower ++ frame).toArray, lower.length⟩ : Window N).slot? index = some x)
    (hroom : lower.length + index < wordBound) :
    Adds (meant look (pick label index change)) ⟨lower, frame, rest⟩
      (some (change x, rest)) := by
  refine Adds.action fun host => ?_
  have h0 := Window.get_mk_of_slot lower frame hx hroom
  simp only [Floor.whole, h0]
  rfl

theorem branch_miss {o : String × String × (N → N → Option N)} (ho : look o.1 = .terminal o.1)
    {lower : List N} {ts : List (Token N)} (hn : ∀ token ∈ ts.head?, token.name ≠ o.1) :
    Ends (meant look (t.branch o)) ⟨lower, [], ts⟩ none :=
  .sequence (.cons_fail _ (Adds.ref ho (.terminal_miss hn)).ends)

theorem branch_operand_none {o : String × String × (N → N → Option N)}
    (ho : look o.1 = .terminal o.1) {lower : List N} {token : Token N} {ts : List (Token N)}
    (hn : token.name = o.1) (hroom : Room lower [] (token :: ts))
    (hy : Reads look t.operand ts none) :
    Ends (meant look (t.branch o)) ⟨lower, [], token :: ts⟩ none := by
  have hroom' : Room lower [token.value] ts := by
    simp only [Room, List.length_cons, List.length_nil] at hroom ⊢
    omega
  exact .sequence (.cons _ (.ref ho (.terminal hn _ _ _)) (.cons_fail _ (hy _ _ hroom').ends))

theorem branch_refused {o : String × String × (N → N → Option N)}
    (ho : look o.1 = .terminal o.1) {lower : List N} {token : Token N}
    {ts us : List (Token N)} {x y : N} (hn : token.name = o.1) (hx : lower.getLast? = some x)
    (hroom : Room lower [] (token :: ts)) (hy : Reads look t.operand ts (some (y, us)))
    (hz : o.2.2 x y = none) :
    Ends (meant look (t.branch o)) ⟨lower, [], token :: ts⟩ none := by
  have hroom' : Room lower [token.value] ts ∧ lower.length + 2 < wordBound := by
    simp only [Room, List.length_cons, List.length_nil] at hroom ⊢
    omega
  have hcombine : Adds (meant look (combine o.2.1 o.2.2)) ⟨lower, [token.value, y], us⟩
      ((o.2.2 x y).map fun z => (z, us)) := adds_combine hx hroom'.2
  rw [hz] at hcombine
  exact .sequence (.cons _ (.ref ho (.terminal hn _ _ _))
    (.cons _ (hy _ _ hroom'.1) (.cons_fail _ hcombine.ends)))

theorem branch_match {o : String × String × (N → N → Option N)}
    (ho : look o.1 = .terminal o.1) {lower : List N} {token : Token N}
    {ts us : List (Token N)} {x y z w : N} {rest : List (Token N)} (hn : token.name = o.1)
    (hx : lower.getLast? = some x) (hroom : Room lower [] (token :: ts))
    (hy : Reads look t.operand ts (some (y, us))) (hlt : us.length < ts.length)
    (hz : o.2.2 x y = some z) (hw : Continues look t.tail z us (some (w, rest))) :
    Ends (meant look (t.branch o)) ⟨lower, [], token :: ts⟩ (some (w, rest)) := by
  have hroom' : Room lower [token.value] ts ∧ lower.length + 2 < wordBound ∧
      Room lower [token.value, y, z] us := by
    simp only [Room, List.length_cons, List.length_nil] at hroom ⊢
    omega
  have hcombine : Adds (meant look (combine o.2.1 o.2.2)) ⟨lower, [token.value, y], us⟩
      ((o.2.2 x y).map fun z => (z, us)) := adds_combine hx hroom'.2.1
  rw [hz] at hcombine
  have htail := hw lower [token.value, y, z] (by simp) hroom'.2.2
  exact .sequence (.cons _ (.ref ho (.terminal hn _ _ _))
    (.cons _ (hy _ _ hroom'.1) (.cons _ hcombine (.cons _ htail (.nil w)))))

theorem Tier.Meant.continues_done (h : t.Meant look) {x : N} {ts : List (Token N)}
    (hbranch : ∀ o, o = t.first ∨ o = t.second → ∀ lower, lower.getLast? = some x →
      Room lower [] ts → Ends (meant look (t.branch o)) ⟨lower, [], ts⟩ none) :
    Continues look t.tail x ts (some (x, ts)) := by
  intro below frame hx hroom
  have hroom' : Room (below ++ frame) [] ts := by
    simpa only [Room, List.length_append, List.length_nil, Nat.add_zero] using hroom
  have hdone : Adds (meant look (pick "done" 0 id)) ⟨below ++ frame, [], ts⟩ (some (x, ts)) := by
    refine adds_pick ((Window.slot?_mk _ _ 0).trans hx) ?_
    simp only [Room] at hroom'
    omega
  exact .ref h.tail (.scope (.alternative
    (.next (hbranch _ (.inl rfl) _ hx hroom')
      (.next (hbranch _ (.inr rfl) _ hx hroom') (.first hdone.ends)))))

theorem Tier.Meant.continues_branch (h : t.Meant look) {x w : N} {token : Token N}
    {ts rest : List (Token N)} {o : String × String × (N → N → Option N)}
    (ho : o = t.first ∨ o = t.second) (hn : token.name = o.1)
    (hbranch : ∀ lower, lower.getLast? = some x → Room lower [] (token :: ts) →
      Ends (meant look (t.branch o)) ⟨lower, [], token :: ts⟩ (some (w, rest))) :
    Continues look t.tail x (token :: ts) (some (w, rest)) := by
  intro below frame hx hroom
  have hroom' : Room (below ++ frame) [] (token :: ts) := by
    simpa only [Room, List.length_append, List.length_nil, Nat.add_zero] using hroom
  refine .ref h.tail (.scope (.alternative ?_))
  rcases ho with rfl | rfl
  · exact .first (hbranch _ hx hroom')
  · refine .next (branch_miss h.first ?_) (.first (hbranch _ hx hroom'))
    intro token' hm
    cases hm
    rw [hn]
    exact h.distinct

theorem Tier.Meant.continues_step (h : t.Meant look)
    {o : String × String × (N → N → Option N)} (ho : o = t.first ∨ o = t.second)
    {token : Token N} {ts us rest : List (Token N)} {x y z w : N} (hn : token.name = o.1)
    (hy : Reads look t.operand ts (some (y, us))) (hlt : us.length < ts.length)
    (hz : o.2.2 x y = some z) (hw : Continues look t.tail z us (some (w, rest))) :
    Continues look t.tail x (token :: ts) (some (w, rest)) :=
  h.continues_branch ho hn fun _ hx hroom =>
    branch_match (h.operator ho) hn hx hroom hy hlt hz hw

theorem Tier.Meant.continues_stop (h : t.Meant look) {x : N} {ts : List (Token N)}
    (hn : ∀ token ∈ ts.head?, token.name ≠ t.first.1 ∧ token.name ≠ t.second.1) :
    Continues look t.tail x ts (some (x, ts)) := by
  refine h.continues_done fun o ho _ _ _ => branch_miss (h.operator ho) fun token hm => ?_
  rcases ho with rfl | rfl
  · exact (hn token hm).1
  · exact (hn token hm).2

theorem Tier.Meant.reads (h : t.Meant look) {ts us rest : List (Token N)} {x w : N}
    (hx : Reads look t.operand ts (some (x, us))) (hlt : us.length < ts.length)
    (hw : Continues look t.tail x us (some (w, rest))) :
    Reads look t.name ts (some (w, rest)) := by
  intro below frame hroom
  have hroom' : Room (below ++ frame) [] ts ∧ Room (below ++ frame) [x] us := by
    simp only [Room, List.length_append, List.length_cons, List.length_nil] at hroom ⊢
    omega
  have htail := hw (below ++ frame) [x] (by simp) hroom'.2
  exact .ref h.name (.scope (.sequence (.cons _ (hx _ _ hroom'.1) (.cons _ htail (.nil w)))))

theorem Tier.Meant.reads_none (h : t.Meant look) {ts : List (Token N)}
    (hx : Reads look t.operand ts none) : Reads look t.name ts none := by
  intro below frame hroom
  have hroom' : Room (below ++ frame) [] ts := by
    simpa only [Room, List.length_append, List.length_nil, Nat.add_zero] using hroom
  exact .ref h.name (.scope (.sequence (.cons_fail _ (hx _ _ hroom').ends)))

def Sound (look : String → Rule H N) (name : String) (D : List (Token N) → N → Prop) (n : Nat) :
    Prop :=
  ∀ ts, ts.length ≤ n → ∃ r, Reads look name ts r ∧ ∀ v us, r = some (v, us) →
    ∃ pre, pre ≠ [] ∧ ts = pre ++ us ∧ D pre v

structure Tier.Derivable (t : Tier N) (O D : List (Token N) → N → Prop) : Prop where
  operand {ts : List (Token N)} {v : N} (h : O ts v) : D ts v
  step {o : String × String × (N → N → Option N)} (ho : o = t.first ∨ o = t.second)
    {token : Token N} (hn : token.name = o.1) {ts us : List (Token N)} {x y z : N} (hx : D ts x)
    (hy : O us y) (hz : o.2.2 x y = some z) : D (ts ++ token :: us) z

variable {O D : List (Token N) → N → Prop} {n : Nat}

theorem Tier.Meant.tail_sound (h : t.Meant look) (hd : t.Derivable O D)
    (hO : Sound look t.operand O n) {ts : List (Token N)} (hts : ts.length ≤ n) (x : N) :
    ∃ v us pre, Continues look t.tail x ts (some (v, us)) ∧ ts = pre ++ us ∧
      ∀ pre', D pre' x → D (pre' ++ pre) v := by
  induction hk : ts.length using Nat.strongRecOn generalizing ts x with
  | ind k ih =>
    subst hk
    cases ts with
    | nil =>
      refine ⟨x, [], [], h.continues_stop nofun, rfl, fun pre' hpre => ?_⟩
      rw [List.append_nil]
      exact hpre
    | cons token ts =>
      rw [List.length_cons] at hts
      obtain ⟨r, hr, hsound⟩ := hO ts (by omega)
      by_cases hgoes : ∃ o y us z, (o = t.first ∨ o = t.second) ∧ token.name = o.1 ∧
          r = some (y, us) ∧ o.2.2 x y = some z
      · obtain ⟨o, y, us, z, ho, hn, rfl, hz⟩ := hgoes
        obtain ⟨pre, hne, rfl, hy⟩ := hsound y us rfl
        have hlt : us.length < (pre ++ us).length := by
          have := List.length_pos_iff.mpr hne
          rw [List.length_append]
          omega
        obtain ⟨v, rest, pre'', htail, rfl, hv⟩ := ih us.length
          (by rw [List.length_cons]; omega) (by omega) z rfl
        refine ⟨v, rest, token :: pre ++ pre'', h.continues_step ho hn hr hlt hz htail, by simp,
          fun pre' hpre => ?_⟩
        have hstep := hv _ (hd.step ho hn hpre hy hz)
        rw [List.append_assoc] at hstep
        exact hstep
      · refine ⟨x, token :: ts, [], h.continues_done ?_, rfl, fun pre' hpre => ?_⟩
        · intro o ho lower hx hroom
          by_cases hn : token.name = o.1
          · cases r with
            | none => exact branch_operand_none (h.operator ho) hn hroom hr
            | some p =>
              have hz : o.2.2 x p.1 = none := by
                cases hz : o.2.2 x p.1 with
                | none => rfl
                | some z => exact absurd ⟨o, p.1, p.2, z, ho, hn, rfl, hz⟩ hgoes
              exact branch_refused (h.operator ho) hn hx hroom hr hz
          · refine branch_miss (h.operator ho) fun token' hm => ?_
            cases hm
            exact hn
        · rw [List.append_nil]
          exact hpre

theorem Tier.Meant.sound (h : t.Meant look) (hd : t.Derivable O D)
    (hO : Sound look t.operand O n) : Sound look t.name D n := by
  intro ts hts
  obtain ⟨r, hr, hsound⟩ := hO ts hts
  cases r with
  | none => exact ⟨none, h.reads_none hr, nofun⟩
  | some p =>
    obtain ⟨x, us⟩ := p
    obtain ⟨pre, hne, rfl, hx⟩ := hsound x us rfl
    have hlt : us.length < (pre ++ us).length := by
      have := List.length_pos_iff.mpr hne
      rw [List.length_append]
      omega
    obtain ⟨v, rest, pre', htail, rfl, hv⟩ := h.tail_sound hd hO
      (show us.length ≤ n by omega) x
    refine ⟨some (v, rest), h.reads hr hlt htail, ?_⟩
    intro v' us' heq
    cases heq
    exact ⟨pre ++ pre', by simp [hne], (List.append_assoc _ _ _).symm, hv pre (hd.operand hx)⟩

end

end OrderedChoice.Calculator
