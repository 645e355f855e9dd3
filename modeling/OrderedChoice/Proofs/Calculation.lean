import OrderedChoice.Proofs.DepthLimit
import OrderedChoice.Proofs.Expressions
import OrderedChoice.Proofs.History

set_option autoImplicit false

namespace OrderedChoice

variable {H V N : Type}

namespace Calculator

theorem parser_bodies (a : Arithmetic N) (options : Options) :
    (parser a options : Parser H N).grammar.bodies = bodies a := by
  refine Parser.defineAll_bodies ?_ fun _ _ => rfl
  simp [rules]

theorem rules_madeOf (a : Arithmetic N) : ∀ r ∈ (rules a : List (String × Rule H N)),
    r.2.MadeOf (bodies a : Bodies H N).Means (fun _ => True) := by
  rw [rules]
  simp only [List.forall_mem_cons, List.not_mem_nil, false_imp_iff, implies_true, and_true]
  refine ⟨?_, ?_, ?_, ?_, ?_⟩
  · exact ⟨.inr rfl, .inr rfl, trivial⟩
  · exact ⟨⟨.inl rfl, .inr rfl, trivial, .inr rfl, trivial⟩,
      ⟨.inl rfl, .inr rfl, trivial, .inr rfl, trivial⟩, trivial, trivial⟩
  · exact ⟨.inr rfl, .inr rfl, trivial⟩
  · exact ⟨⟨.inl rfl, .inr rfl, trivial, .inr rfl, trivial⟩,
      ⟨.inl rfl, .inr rfl, trivial, .inr rfl, trivial⟩, trivial, trivial⟩
  · exact ⟨⟨.inl rfl, .inr rfl, .inl rfl, trivial, trivial⟩, .inl rfl,
      ⟨.inl rfl, .inr rfl, trivial, trivial⟩, trivial⟩

theorem evaluate_silent [Inhabited N] {a : Arithmetic N} {p : Parser H N}
    (h : p.grammar.Silent (bodies a) []) (budget : Nat) (tokens : List (Token N)) (host : H) :
    (evaluate budget p tokens host).parser.grammar.Silent (bodies a) [] := by
  have hentry : (entry : Rule H N).MadeOf (bodies a : Bodies H N).Means (fun _ => True) := .inr rfl
  obtain ⟨hcompiled, hform⟩ := h.compile hentry
  exact Grammar.Silent.execute
    (m := Parser.machine p entry (.ofList tokens) host) hcompiled hform budget

section

variable {a : Arithmetic N} {options : Options} {p : Parser H N}

/-- A calculator after any number of evaluations. -/
inductive Used [Inhabited N] (a : Arithmetic N) (options : Options) : Parser H N → Prop where
  | fresh : Used a options (parser a options)
  | again {p : Parser H N} (h : Used a options p) (budget : Nat) (tokens : List (Token N))
    (host : H) : Used a options (evaluate budget p tokens host).parser

variable [Inhabited N]

theorem Used.options_eq (h : Used a options p) : p.options = options := by
  induction h with
  | fresh => rfl
  | again _ _ _ _ ih => exact ih

theorem Used.reached (h : Used a options p) : p.Reached := by
  induction h with
  | fresh => exact ((Parser.Reached.start terminals).setOptions options).defineAll _
  | again _ budget tokens host ih => exact ih.parse budget entry _ host

theorem Used.silent (h : Used a options p) : p.grammar.Silent (bodies a) [] := by
  induction h with
  | fresh =>
    exact ⟨parser_bodies a options,
      Parser.defineAll_madeOf (rules_madeOf a) (Grammar.madeOf_ofTerminals terminals),
      Parser.defineAll_diagnostics _ _⟩
  | @again p _ budget tokens host ih => exact evaluate_silent ih budget tokens host

theorem Used.realizes (h : Used a options p) : Realizes (names a) p.grammar := by
  have hreal := h.reached.realizes
  rw [h.silent.1] at hreal
  exact hreal

theorem entry_ends (a : Arithmetic N) {tokens : List (Token N)}
    (ht : tokens.length < signedBound) (host : H) :
    ∃ r : Option N, Ends (H := H) (meant (names a) entry) ⟨[], [], tokens⟩
        (r.map fun v => (v, [])) ∧
      ∀ v, r = some v ↔ Derives a .expr tokens (some v) := by
  have hroom : Room [] [] tokens := by
    simp only [Room, List.length_nil, wordBound, signedBound] at ht ⊢
    omega
  obtain ⟨r, hr, hsound⟩ := expr_sound (H := H) a tokens.length tokens (Nat.le_refl _)
  have hends := (hr [] [] hroom).ends
  refine ⟨(r.filter fun p => p.2.isEmpty).map Prod.fst, ?_, ?_⟩
  · have hlast : ((r.filter fun p => p.2.isEmpty).map Prod.fst).map (fun v => (v, [])) =
        r.filter fun p => p.2.isEmpty := by
      rcases r with _ | ⟨v, _ | ⟨token, rest⟩⟩ <;> rfl
    rw [hlast]
    exact hends.terminated
  · intro v
    constructor
    · intro hv
      rcases r with _ | ⟨w, _ | ⟨token, rest⟩⟩
      · cases hv
      · cases hv
        obtain ⟨pre, -, rfl, hd⟩ := hsound w [] rfl
        rw [List.append_nil]
        exact hd
      · cases hv
    · intro hd
      have hread := hd.completes (H := H) v rfl [] v [] (by simp)
        ((sums_meant a).continues_stop (by simp))
      rw [List.append_nil] at hread
      rw [hends.unique (hread [] [] hroom).ends host]
      rfl

theorem outcome_settles (hreal : Realizes (names a) p.grammar)
    (hd : p.options.maxDepth = none) {tokens : List (Token N)}
    (ht : tokens.length < signedBound) (host : H) :
    ∃ o, Settles (fun n => (evaluate n p tokens host).outcome) o ∧
      (∀ n, (evaluate n p tokens host).outcome ≠ .unfinished →
        (evaluate n p tokens host).outcome = o) ∧
      ((∃ v, o = .value v) ∨ o = .noMatch) ∧
      ∀ v, o = .value v ↔ Derives a .expr tokens (some v) := by
  obtain ⟨r, hends, hvalue⟩ := entry_ends (H := H) a ht host
  obtain ⟨x, hsettles, hx⟩ := hends host []
  have hoption : x.1 = r.elim .noMatch .value := by
    cases r with
    | none => exact hx
    | some v => exact hx.1
  have hfinished : x.1 ≠ .unfinished := by
    rw [hoption]
    cases r <;> simp
  have hstart : (Source.ofList tokens).position ≤ (Source.ofList tokens).tokens.size :=
    Nat.zero_le _
  obtain ⟨hiff, hagain⟩ := Parser.returns_iff_of_realizes hreal hd entry hstart host
  have hparse := (hiff x.1 (x.2.effects (Source.ofList tokens).tokens)).mpr
    ⟨hfinished, hsettles.map fun y => (y.1, y.2.effects (Source.ofList tokens).tokens)⟩
  refine ⟨x.1, hparse.2.map Prod.fst, fun n hn => ?_, ?_, fun v => ?_⟩
  · exact congrArg Prod.fst ((hagain n hn).2.unique hparse.2)
  · rw [hoption]
    cases r with
    | none => exact .inr rfl
    | some v => exact .inl ⟨v, rfl⟩
  · rw [← hvalue v, hoption]
    cases r with
    | none => simp
    | some w => simp

/-- A calculator that has been used in any way settles, with every budget that is large enough, on
an outcome and reports nothing. The outcome is that the depth limit is exceeded, if there is one, or
else the value of the tokens, if they form an expression that has one, or else a failure. An array
in memory has fewer than `signedBound` tokens, so no sum of an index and a frame's base overflows.
-/
theorem Used.evaluate_settles (hp : Used a options p) {tokens : List (Token N)}
    (ht : tokens.length < signedBound) (host : H) :
    ∃ o, Settles (fun n => ((evaluate n p tokens host).outcome,
        (evaluate n p tokens host).parser.grammar.diagnostics)) (o, []) ∧
      ((∃ limit, options.maxDepth = some limit ∧ o = .limitExceeded limit) ∨
        ((∃ v, o = .value v) ∨ o = .noMatch) ∧
          ∀ v, o = .value v ↔ Derives a .expr tokens (some v)) := by
  have hsilent (n : Nat) : (evaluate n p tokens host).parser.grammar.diagnostics = [] :=
    (evaluate_silent hp.silent n tokens host).2.2
  simp only [hsilent]
  cases hlimit : options.maxDepth with
  | none =>
    obtain ⟨o, hsettles, -, hvalue⟩ :=
      outcome_settles hp.realizes (by rw [hp.options_eq, hlimit]) ht host
    exact ⟨o, hsettles.map fun o => (o, []), .inr hvalue⟩
  | some limit =>
    have hmax : p.options.maxDepth = some limit := by rw [hp.options_eq, hlimit]
    obtain ⟨o, -, hends, hvalue⟩ :=
      outcome_settles (p := p.setOptions { p.options with maxDepth := none }) hp.realizes rfl ht
        host
    have hcompare (n : Nat) (hn : limit < n) :=
      Parser.execution_limited hmax hn entry (.ofList tokens) host
    by_cases hshort : (evaluate limit (p.setOptions { p.options with maxDepth := none }) tokens
        host).outcome = .unfinished
    · refine ⟨.limitExceeded limit, ⟨limit + 1, fun n hn => ?_⟩, .inl ⟨limit, rfl, rfl⟩⟩
      exact congrArg (·, []) ((hcompare n hn).limitExceeded hshort)
    · refine ⟨o, ⟨limit + 1, fun n hn => ?_⟩, .inr hvalue⟩
      exact congrArg (·, []) (((hcompare n hn).outcome hshort).trans (hends limit hshort))

end

def integers : Arithmetic Int where
  zero := 0
  ofDecimal digits places := digits / 10 ^ places
  add := (· + ·)
  sub := (· - ·)
  mul := (· * ·)
  div := (· / ·)
  neg := (- ·)
  isZero x := x == 0

def refused : Parser Unit Int :=
  (evaluate 99 (parser integers {}) [⟨"num", 8⟩, ⟨"/", 0⟩, ⟨"num", 0⟩] ()).parser

def differences : List (Token Int) :=
  [⟨"num", 10⟩, ⟨"-", 0⟩, ⟨"num", 2⟩, ⟨"*", 0⟩, ⟨"num", 3⟩, ⟨"-", 0⟩, ⟨"-", 0⟩, ⟨"num", 1⟩]

theorem refused_settles : Used integers {} refused ∧ differences.length < signedBound ∧
    Settles (fun n => ((evaluate n refused differences ()).outcome,
      (evaluate n refused differences ()).parser.grammar.diagnostics)) (.value 5, []) := by
  have hused : Used integers {} refused := .again .fresh _ _ _
  have hlength : differences.length < signedBound := by decide
  refine ⟨hused, hlength, ?_⟩
  have hderives : Derives integers .expr differences (some 5) :=
    .sub rfl (.sub rfl (.term (.factor (.number rfl)))
      (.mul rfl (.factor (.number rfl)) (.number rfl))) (.factor (.negation rfl (.number rfl)))
  obtain ⟨o, hsettles, ⟨limit, hlimit, -⟩ | ⟨-, hvalue⟩⟩ := hused.evaluate_settles hlength ()
  · cases hlimit
  · rw [(hvalue 5).mpr hderives] at hsettles
    exact hsettles

end Calculator

end OrderedChoice
