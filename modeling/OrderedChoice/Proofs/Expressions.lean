import OrderedChoice.Proofs.Realization
import OrderedChoice.Proofs.Tiers

set_option autoImplicit false

namespace OrderedChoice.Calculator

variable {H N : Type}

inductive Phrase where
  | expr
  | term
  | factor

def both (op : N → N → Option N) (x y : Option N) : Option N :=
  x.bind fun x => y.bind fun y => op x y

theorem both_eq_some {op : N → N → Option N} {x y : Option N} {z : N}
    (h : both op x y = some z) : ∃ x' y', x = some x' ∧ y = some y' ∧ op x' y' = some z := by
  obtain ⟨x', rfl, hy⟩ := Option.bind_eq_some_iff.mp h
  obtain ⟨y', rfl, hz⟩ := Option.bind_eq_some_iff.mp hy
  exact ⟨x', y', rfl, rfl, hz⟩

def Arithmetic.quotient (a : Arithmetic N) (x y : N) : Option N :=
  if a.isZero y then none else some (a.div x y)

/-- `Derives a phrase ts v`: the tokens form such a phrase, and its evaluation gives `v`. -/
inductive Derives (a : Arithmetic N) : Phrase → List (Token N) → Option N → Prop where
  | term {ts : List (Token N)} {v : Option N} (h : Derives a .term ts v) : Derives a .expr ts v
  | add {ts us : List (Token N)} {x y : Option N} {token : Token N} (hn : token.name = "+")
    (hx : Derives a .expr ts x) (hy : Derives a .term us y) :
    Derives a .expr (ts ++ token :: us) (both (fun x y => some (a.add x y)) x y)
  | sub {ts us : List (Token N)} {x y : Option N} {token : Token N} (hn : token.name = "-")
    (hx : Derives a .expr ts x) (hy : Derives a .term us y) :
    Derives a .expr (ts ++ token :: us) (both (fun x y => some (a.sub x y)) x y)
  | factor {ts : List (Token N)} {v : Option N} (h : Derives a .factor ts v) :
    Derives a .term ts v
  | mul {ts us : List (Token N)} {x y : Option N} {token : Token N} (hn : token.name = "*")
    (hx : Derives a .term ts x) (hy : Derives a .factor us y) :
    Derives a .term (ts ++ token :: us) (both (fun x y => some (a.mul x y)) x y)
  | div {ts us : List (Token N)} {x y : Option N} {token : Token N} (hn : token.name = "/")
    (hx : Derives a .term ts x) (hy : Derives a .factor us y) :
    Derives a .term (ts ++ token :: us) (both a.quotient x y)
  | group {ts : List (Token N)} {v : Option N} {left right : Token N} (hl : left.name = "(")
    (hr : right.name = ")") (h : Derives a .expr ts v) :
    Derives a .factor (left :: ts ++ [right]) v
  | number {token : Token N} (hn : token.name = "num") :
    Derives a .factor [token] (some token.value)
  | negation {ts : List (Token N)} {v : Option N} {token : Token N} (hn : token.name = "-")
    (h : Derives a .factor ts v) : Derives a .factor (token :: ts) (v.map a.neg)

theorem Derives.length_lt {a : Arithmetic N} {phrase : Phrase} {ts : List (Token N)}
    {v : Option N} (h : Derives a phrase ts v) (us : List (Token N)) :
    us.length < (ts ++ us).length := by
  have hpos : 0 < ts.length := by
    induction h with
    | term _ ih => exact ih
    | factor _ ih => exact ih
    | _ =>
      simp only [List.length_append, List.length_cons]
      omega
  rw [List.length_append]
  omega

def Arithmetic.sums (a : Arithmetic N) : Tier N where
  name := "expr"
  tail := "expr_tail"
  operand := "term"
  first := ("+", "add", fun x y => some (a.add x y))
  second := ("-", "sub", fun x y => some (a.sub x y))

def Arithmetic.products (a : Arithmetic N) : Tier N where
  name := "term"
  tail := "term_tail"
  operand := "factor"
  first := ("*", "mul", fun x y => some (a.mul x y))
  second := ("/", "div", a.quotient)

def bodies (a : Arithmetic N) : Bodies H N :=
  ⟨terminals, rules a⟩

def names (a : Arithmetic N) : String → Rule H N :=
  (bodies a).meaning

def groupRule : Rule H N :=
  .sequence [.ref "(", .ref "expr", .ref ")", pick "group" 2 id]

def negationRule (a : Arithmetic N) : Rule H N :=
  .sequence [.ref "-", .ref "factor", pick "neg" 2 a.neg]

section

variable (a : Arithmetic N)

theorem sums_meant : a.sums.Meant (names a : String → Rule H N) :=
  ⟨rfl, rfl, rfl, rfl, show "-" ≠ "+" by decide⟩

theorem products_meant : a.products.Meant (names a : String → Rule H N) :=
  ⟨rfl, rfl, rfl, rfl, show "/" ≠ "*" by decide⟩

theorem names_terminal {name : String} (h : name ∈ terminals) :
    (names a name : Rule H N) = .terminal name := by
  simp [names, bodies, Bodies.meaning, Bodies.isTerminal, h]

theorem names_factor : (names a "factor" : Rule H N) =
    .scope (.alternative [groupRule, .ref Lexeme.numberName, negationRule a]) := rfl

theorem sums_derivable : a.sums.Derivable (fun ts v => Derives a .term ts (some v))
    (fun ts v => Derives a .expr ts (some v)) where
  operand h := .term h
  step {o} ho {token} hn {ts us x y z} hx hy hz := by
    rw [← hz]
    rcases ho with rfl | rfl
    · exact .add hn hx hy
    · exact .sub hn hx hy

theorem products_derivable : a.products.Derivable (fun ts v => Derives a .factor ts (some v))
    (fun ts v => Derives a .term ts (some v)) where
  operand h := .factor h
  step {o} ho {token} hn {ts us x y z} hx hy hz := by
    rw [← hz]
    rcases ho with rfl | rfl
    · exact .mul hn hx hy
    · exact .div hn hx hy

end

section

variable [Inhabited N] {a : Arithmetic N} {ts us : List (Token N)} {token : Token N} {v : N}

theorem adds_terminal {name : String} (hname : name ∈ terminals) (hn : token.name = name)
    (below frame : List N) :
    Adds (H := H) (meant (names a) (.ref name)) ⟨below, frame, token :: ts⟩
      (some (token.value, ts)) :=
  .ref (names_terminal a hname) (.terminal hn _ _ _)

theorem adds_terminal_none {name : String} (hname : name ∈ terminals)
    (hn : ∀ token ∈ ts.head?, token.name ≠ name) (below frame : List N) :
    Adds (H := H) (meant (names a) (.ref name)) ⟨below, frame, ts⟩ none :=
  .ref (names_terminal a hname) (.terminal_miss hn)

theorem reads_factor {r : Option (N × List (Token N))}
    (h : ∀ lower, Room lower [] ts → Ends (H := H)
      (meantAny (names a) [groupRule, .ref Lexeme.numberName, negationRule a]) ⟨lower, [], ts⟩ r) :
    Reads (H := H) (names a) "factor" ts r := by
  intro below frame hroom
  have hroom' : Room (below ++ frame) [] ts := by
    simpa only [Room, List.length_append, List.length_nil, Nat.add_zero] using hroom
  exact .ref (names_factor a) (.scope (.alternative (h _ hroom')))

theorem ends_group {lower : List N} {right : Token N} (hn : token.name = "(")
    (hr : right.name = ")") (hroom : Room lower [] (token :: ts))
    (h : Reads (H := H) (names a) "expr" ts (some (v, right :: us))) :
    Ends (H := H) (meant (names a) groupRule) ⟨lower, [], token :: ts⟩ (some (v, us)) := by
  have hroom' : Room lower [token.value] ts ∧ lower.length + 2 < wordBound := by
    simp only [Room, List.length_cons, List.length_nil] at hroom ⊢
    omega
  have hpick : Adds (H := H) (meant (names a) (pick "group" 2 id))
      ⟨lower, [token.value, v, right.value], us⟩ (some (id v, us)) :=
    adds_pick (Window.slot?_mk lower [token.value, v, right.value] 2) hroom'.2
  exact .sequence (.cons _ (adds_terminal (by decide) hn _ _) (.cons _ (h _ _ hroom'.1)
    (.cons _ (adds_terminal (by decide) hr _ _) (.cons _ hpick (.nil v)))))

theorem ends_group_none {lower : List N} (hroom : Room lower [] (token :: ts))
    (h : Reads (H := H) (names a) "expr" ts none ∨ ∃ v us,
      Reads (H := H) (names a) "expr" ts (some (v, us)) ∧
        ∀ right ∈ us.head?, right.name ≠ ")") :
    Ends (H := H) (meant (names a) groupRule) ⟨lower, [], token :: ts⟩ none := by
  have hroom' : Room lower [token.value] ts := by
    simp only [Room, List.length_cons, List.length_nil] at hroom ⊢
    omega
  refine .sequence ?_
  by_cases hn : token.name = "("
  · refine .cons _ (adds_terminal (by decide) hn _ _) ?_
    rcases h with h | ⟨v, us, h, hright⟩
    · exact .cons_fail _ (h _ _ hroom').ends
    · exact .cons _ (h _ _ hroom') (.cons_fail _ (adds_terminal_none (by decide) hright _ _).ends)
  · refine .cons_fail _ (adds_terminal_none (by decide) (fun token' hm => ?_) _ _).ends
    cases hm
    exact hn

theorem ends_negation {lower : List N} (hn : token.name = "-")
    (hroom : Room lower [] (token :: ts))
    (h : Reads (H := H) (names a) "factor" ts (some (v, us))) :
    Ends (H := H) (meant (names a) (negationRule a)) ⟨lower, [], token :: ts⟩
      (some (a.neg v, us)) := by
  have hroom' : Room lower [token.value] ts ∧ lower.length + 2 < wordBound := by
    simp only [Room, List.length_cons, List.length_nil] at hroom ⊢
    omega
  have hpick : Adds (H := H) (meant (names a) (pick "neg" 2 a.neg))
      ⟨lower, [token.value, v], us⟩ (some (a.neg v, us)) :=
    adds_pick (Window.slot?_mk lower [token.value, v] 2) hroom'.2
  exact .sequence (.cons _ (adds_terminal (by decide) hn _ _) (.cons _ (h _ _ hroom'.1)
    (.cons _ hpick (.nil _))))

theorem ends_negation_none {lower : List N} (hn : token.name = "-")
    (hroom : Room lower [] (token :: ts)) (h : Reads (H := H) (names a) "factor" ts none) :
    Ends (H := H) (meant (names a) (negationRule a)) ⟨lower, [], token :: ts⟩ none := by
  have hroom' : Room lower [token.value] ts := by
    simp only [Room, List.length_cons, List.length_nil] at hroom ⊢
    omega
  exact .sequence (.cons _ (adds_terminal (by decide) hn _ _) (.cons_fail _ (h _ _ hroom').ends))

theorem ends_miss {name : String} {lower : List N} {parts : List (Rule H N)}
    (hname : name ∈ terminals) (hn : ∀ token ∈ ts.head?, token.name ≠ name) :
    Ends (meant (names a) (.sequence (.ref name :: parts))) ⟨lower, [], ts⟩ none :=
  .sequence (.cons_fail _ (adds_terminal_none hname hn _ _).ends)

theorem group_cases (token : Token N) {r : Option (N × List (Token N))}
    (hr : Reads (H := H) (names a) "expr" ts r) :
    (∃ v right us, token.name = "(" ∧ r = some (v, right :: us) ∧ right.name = ")") ∨
      ∀ lower, Room lower [] (token :: ts) →
        Ends (H := H) (meant (names a) groupRule) ⟨lower, [], token :: ts⟩ none := by
  by_cases hn : token.name = "("
  · cases r with
    | none => exact .inr fun lower hroom => ends_group_none hroom (.inl hr)
    | some p =>
      obtain ⟨v, us⟩ := p
      by_cases hright : ∃ right us', us = right :: us' ∧ right.name = ")"
      · obtain ⟨right, us', rfl, hright⟩ := hright
        exact .inl ⟨v, right, us', hn, rfl, hright⟩
      · refine .inr fun lower hroom => ends_group_none hroom (.inr ⟨v, us, hr, ?_⟩)
        intro right hm hname
        obtain ⟨us', rfl⟩ := List.head?_eq_some_iff.mp hm
        exact hright ⟨right, us', rfl, hname⟩
  · exact .inr fun lower _ => ends_miss (by decide) (by simpa using hn)

theorem negation_cases (token : Token N) {r : Option (N × List (Token N))}
    (hr : Reads (H := H) (names a) "factor" ts r) :
    (∃ v us, token.name = "-" ∧ r = some (v, us)) ∨
      ∀ lower, Room lower [] (token :: ts) →
        Ends (H := H) (meant (names a) (negationRule a)) ⟨lower, [], token :: ts⟩ none := by
  by_cases hn : token.name = "-"
  · cases r with
    | none => exact .inr fun lower hroom => ends_negation_none hn hroom hr
    | some p => exact .inl ⟨p.1, p.2, hn, rfl⟩
  · exact .inr fun lower _ => ends_miss (by decide) (by simpa using hn)

theorem factor_sound (a : Arithmetic N) (n : Nat) :
    Sound (H := H) (names a) "factor" (fun ts v => Derives a .factor ts (some v)) n := by
  induction n with
  | zero =>
    intro ts hts
    obtain rfl := List.length_eq_zero_iff.mp (Nat.le_zero.mp hts)
    refine ⟨none, reads_factor fun lower _ => ?_, nofun⟩
    exact .next (ends_miss (by decide) (by simp))
      (.next (adds_terminal_none (by decide) (by simp) _ _).ends
        (.next (ends_miss (by decide) (by simp)) .exhausted))
  | succ n ih =>
    have hexpr := (sums_meant a).sound (sums_derivable a)
      ((products_meant a).sound (products_derivable a) ih)
    intro ts hts
    cases ts with
    | nil => exact ih [] (Nat.zero_le n)
    | cons token ts =>
      rw [List.length_cons, Nat.add_le_add_iff_right] at hts
      obtain ⟨r, hr, hsound⟩ := hexpr ts hts
      obtain ⟨q, hq, hsound'⟩ := ih ts hts
      rcases group_cases token hr with ⟨v, right, us, hn, rfl, hright⟩ | hgroup
      · refine ⟨some (v, us), reads_factor fun lower hroom =>
          .first (ends_group hn hright hroom hr), ?_⟩
        rintro _ _ ⟨⟩
        obtain ⟨pre, -, rfl, hd⟩ := hsound v (right :: us) rfl
        exact ⟨token :: pre ++ [right], by simp, by simp, .group hn hright hd⟩
      by_cases hnumber : token.name = Lexeme.numberName
      · refine ⟨some (token.value, ts), reads_factor fun lower hroom =>
          .next (hgroup lower hroom) (.first (adds_terminal (by decide) hnumber _ _).ends), ?_⟩
        rintro _ _ ⟨⟩
        exact ⟨[token], by simp, rfl, .number hnumber⟩
      have hmiss : ∀ token' ∈ (token :: ts).head?, token'.name ≠ Lexeme.numberName := by
        simpa using hnumber
      rcases negation_cases token hq with ⟨v, us, hn, rfl⟩ | hnegation
      · refine ⟨some (a.neg v, us), reads_factor fun lower hroom => .next (hgroup lower hroom)
          (.next (adds_terminal_none (by decide) hmiss _ _).ends
            (.first (ends_negation hn hroom hq))), ?_⟩
        rintro _ _ ⟨⟩
        obtain ⟨pre, -, rfl, hd⟩ := hsound' v us rfl
        exact ⟨token :: pre, by simp, rfl, .negation hn hd⟩
      · refine ⟨none, reads_factor fun lower hroom => .next (hgroup lower hroom)
          (.next (adds_terminal_none (by decide) hmiss _ _).ends
            (.next (hnegation lower hroom) .exhausted)), nofun⟩

theorem expr_sound (a : Arithmetic N) (n : Nat) :
    Sound (H := H) (names a) "expr" (fun ts v => Derives a .expr ts (some v)) n :=
  (sums_meant a).sound (sums_derivable a)
    ((products_meant a).sound (products_derivable a) (factor_sound a n))

/-- All of a phrase is read. A tier goes on with its tail, so what is read from there on is what the
tail reads after the phrase. -/
def Completes (H : Type) (a : Arithmetic N) : Phrase → List (Token N) → N → Prop
  | .factor, ts, v => ∀ us, Reads (H := H) (names a) "factor" (ts ++ us) (some (v, us))
  | .term, ts, v => ∀ us w rest,
    Continues (H := H) (names a) "term_tail" v us (some (w, rest)) →
    Reads (H := H) (names a) "term" (ts ++ us) (some (w, rest))
  | .expr, ts, v => ∀ us w rest,
    (∀ token ∈ us.head?, token.name ≠ "*" ∧ token.name ≠ "/") →
    Continues (H := H) (names a) "expr_tail" v us (some (w, rest)) →
    Reads (H := H) (names a) "expr" (ts ++ us) (some (w, rest))

theorem Completes.term {a : Arithmetic N} (h : Completes H a .term ts v)
    (hn : ∀ token ∈ us.head?, token.name ≠ "*" ∧ token.name ≠ "/") :
    Reads (H := H) (names a) "term" (ts ++ us) (some (v, us)) :=
  h us v us ((products_meant a).continues_stop hn)

theorem Completes.sum {a : Arithmetic N} {x y z : N}
    {o : String × String × (N → N → Option N)} (ho : o = a.sums.first ∨ o = a.sums.second)
    (hn : token.name = o.1) (hlt : ∀ us', us'.length < (us ++ us').length)
    (hx : Completes H a .expr ts x) (hy : Completes H a .term us y) (hz : o.2.2 x y = some z) :
    Completes H a .expr (ts ++ token :: us) z := by
  intro us' w rest hprod htail
  rw [List.append_assoc]
  refine hx (token :: us ++ us') w rest ?_
    ((sums_meant a).continues_step ho hn (hy.term hprod) (hlt us') hz htail)
  intro token' hm
  cases hm
  rw [hn]
  rcases ho with rfl | rfl
  · exact show "+" ≠ "*" ∧ "+" ≠ "/" by decide
  · exact show "-" ≠ "*" ∧ "-" ≠ "/" by decide

theorem Completes.product {a : Arithmetic N} {x y z : N}
    {o : String × String × (N → N → Option N)}
    (ho : o = a.products.first ∨ o = a.products.second) (hn : token.name = o.1)
    (hlt : ∀ us', us'.length < (us ++ us').length) (hx : Completes H a .term ts x)
    (hy : Completes H a .factor us y) (hz : o.2.2 x y = some z) :
    Completes H a .term (ts ++ token :: us) z := by
  intro us' w rest htail
  rw [List.append_assoc]
  exact hx (token :: us ++ us') w rest
    ((products_meant a).continues_step ho hn (hy us') (hlt us') hz htail)

theorem Derives.completes {phrase : Phrase} {o : Option N} (h : Derives a phrase ts o) :
    ∀ v, o = some v → Completes H a phrase ts v := by
  induction h with
  | term h ih =>
    intro v hv us w rest hprod htail
    exact (sums_meant a).reads ((ih v hv).term hprod) (h.length_lt us) htail
  | add hn _ hy ihx ihy =>
    intro v hv
    obtain ⟨x, y, hx', hy', hz⟩ := both_eq_some hv
    exact .sum (.inl rfl) hn hy.length_lt (ihx x hx') (ihy y hy') hz
  | sub hn _ hy ihx ihy =>
    intro v hv
    obtain ⟨x, y, hx', hy', hz⟩ := both_eq_some hv
    exact .sum (.inr rfl) hn hy.length_lt (ihx x hx') (ihy y hy') hz
  | factor h ih =>
    intro v hv us w rest htail
    exact (products_meant a).reads (ih v hv us) (h.length_lt us) htail
  | mul hn _ hy ihx ihy =>
    intro v hv
    obtain ⟨x, y, hx', hy', hz⟩ := both_eq_some hv
    exact .product (.inl rfl) hn hy.length_lt (ihx x hx') (ihy y hy') hz
  | div hn _ hy ihx ihy =>
    intro v hv
    obtain ⟨x, y, hx', hy', hz⟩ := both_eq_some hv
    exact .product (.inr rfl) hn hy.length_lt (ihx x hx') (ihy y hy') hz
  | @group ts o left right hl hr _ ih =>
    intro v hv us
    have hright : ∀ token ∈ (right :: us).head?, token.name = ")" := by simpa using hr
    have hexpr := ih v hv (right :: us) v (right :: us)
      (fun token hm => by rw [hright token hm]; decide)
      ((sums_meant a).continues_stop fun token hm => by
        rw [hright token hm]
        exact show ")" ≠ "+" ∧ ")" ≠ "-" by decide)
    have heq : left :: ts ++ [right] ++ us = left :: (ts ++ right :: us) := by simp
    rw [heq]
    exact reads_factor fun lower hroom => .first (ends_group hl hr hroom hexpr)
  | @number token hn =>
    intro v hv us
    cases hv
    refine reads_factor fun lower _ => .next (ends_miss (by decide) ?_)
      (.first (adds_terminal (by decide) hn _ _).ends)
    simp [hn]
  | @negation ts o token hn _ ih =>
    intro v hv us
    obtain ⟨v', rfl, rfl⟩ := Option.map_eq_some_iff.mp hv
    refine reads_factor fun lower hroom => .next (ends_miss (by decide) ?_)
      (.next (adds_terminal_none (by decide) ?_ _ _).ends
        (.first (ends_negation hn hroom (ih v' rfl us))))
    · simp [hn]
    · simpa [hn] using (by decide : "-" ≠ Lexeme.numberName)

end

end OrderedChoice.Calculator
