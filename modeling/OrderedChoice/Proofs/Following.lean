import OrderedChoice.Proofs.Evaluation
import Mathlib

set_option autoImplicit false

namespace OrderedChoice

def Settles {α : Type} (run : Nat → α) (y : α) : Prop :=
  ∃ n, ∀ k, n ≤ k → run k = y

namespace Settles

variable {α β : Type} {run : Nat → α} {y : α}

theorem const (y : α) : Settles (fun _ => y) y :=
  ⟨0, fun _ _ => rfl⟩

theorem bind {next : α → Nat → β} {z : β} (h : Settles run y) (h' : Settles (next y) z) :
    Settles (fun k => next (run k) k) z := by
  obtain ⟨n, hn⟩ := h
  obtain ⟨n', hn'⟩ := h'
  refine ⟨max n n', fun k hk => ?_⟩
  have hy := hn k (by omega)
  have hz := hn' k (by omega)
  simp only [hy, hz]

theorem map (h : Settles run y) (f : α → β) : Settles (fun k => f (run k)) (f y) :=
  @bind α β run y (fun y _ => f y) (f y) h (.const (f y))

theorem succ (h : Settles (fun k => run (k + 1)) y) : Settles run y := by
  obtain ⟨n, hn⟩ := h
  refine ⟨n + 1, fun k hk => ?_⟩
  obtain ⟨j, rfl⟩ := Nat.exists_eq_add_of_lt hk
  exact hn (n + j) (by omega)

theorem of_succ (h : ∀ k, run (k + 1) = y) : Settles run y :=
  succ ⟨0, fun k _ => h k⟩

theorem unique {z : α} (h : Settles run y) (h' : Settles run z) : y = z := by
  obtain ⟨n, hn⟩ := h
  obtain ⟨n', hn'⟩ := h'
  rw [← hn (max n n') (by omega), ← hn' (max n n') (by omega)]

end Settles

variable {G G' B H V : Type}

/-- Two evaluations that differ only in where they look names up, in a way described by `L`. -/
structure Same (L : G → G' → Prop) (s : Evaluation G B H V) (t : Evaluation G' B H V) : Prop where
  view : t.view = s.view
  names : L s.names t.names
  host : t.host = s.host
  calls : t.calls = s.calls

def SameEnd (L : G → G' → Prop) (x : Outcome V × Evaluation G B H V)
    (y : Outcome V × Evaluation G' B H V) : Prop :=
  y.1 = x.1 ∧ Same L x.2 y.2

theorem SameEnd.forget {L : G → G' → Prop} {x : Outcome V × Evaluation G B H V}
    {y : Outcome V × Evaluation G' B H V} (h : SameEnd L x y) :
    SameEnd (fun _ _ => True) x y :=
  ⟨h.1, { h.2 with names := trivial }⟩

theorem SameEnd.symm {L : G → G' → Prop} {x : Outcome V × Evaluation G B H V}
    {y : Outcome V × Evaluation G' B H V} (h : SameEnd L x y) :
    SameEnd (fun g' g => L g g') y x :=
  ⟨h.1.symm, h.2.view.symm, h.2.names, h.2.host.symm, h.2.calls.symm⟩

/-- If `x` is an end, then `run` comes to the same one. -/
def Follows (L : G → G' → Prop) (x : Outcome V × Evaluation G B H V)
    (run : Nat → Outcome V × Evaluation G' B H V) : Prop :=
  x.1 ≠ .unfinished → ∃ y, SameEnd L x y ∧ Settles run y

variable {L : G → G' → Prop} {s : Evaluation G B H V} {t : Evaluation G' B H V}
  {x : Outcome V × Evaluation G B H V} {run : Nat → Outcome V × Evaluation G' B H V}

theorem SameEnd.follows {y : Outcome V × Evaluation G' B H V} (h : SameEnd L x y) :
    Follows L x (fun _ => y) :=
  fun _ => ⟨y, h, .const y⟩

theorem Follows.succ (h : Follows L x (fun k => run (k + 1))) : Follows L x run := by
  intro hx
  obtain ⟨y, hy, hs⟩ := h hx
  exact ⟨y, hy, hs.succ⟩

theorem Follows.map {f : Outcome V × Evaluation G B H V → Outcome V × Evaluation G B H V}
    {f' : Outcome V × Evaluation G' B H V → Outcome V × Evaluation G' B H V}
    (hf : ∀ x y, SameEnd L x y → SameEnd L (f x) (f' y))
    (hu : ∀ s, (f (.unfinished, s)).1 = .unfinished) (h : Follows L x run) :
    Follows L (f x) (fun k => f' (run k)) := by
  intro hx
  have hx' : x.1 ≠ .unfinished := by
    intro he
    obtain ⟨o, s⟩ := x
    cases he
    exact hx (hu s)
  obtain ⟨y, hy, hs⟩ := h hx'
  exact ⟨f' y, hf x y hy, hs.map f'⟩

namespace Same

theorem push (h : Same L s t) (v : V) : Same L (s.push v) (t.push v) :=
  { h with view := by simp only [Evaluation.push, h.view] }

theorem matchTerminal (h : Same L s t) (name : String) :
    SameEnd L (s.matchTerminal name) (t.matchTerminal name) := by
  simp only [Evaluation.matchTerminal, h.view]
  cases s.view.rest with
  | nil => exact ⟨rfl, h⟩
  | cons token rest =>
    by_cases hn : token.name = name
    · simp only [hn, ↓reduceIte]
      have htaken : Same L { s with view := { s.view with rest } }
          { t with view := { s.view with rest } } := { h with view := rfl }
      exact ⟨rfl, htaken.push token.value⟩
    · simp only [hn, ↓reduceIte]
      exact ⟨rfl, h⟩

theorem answered (h : Same L s t) (r : Reply V × H) :
    SameEnd L (s.answered r) (t.answered r) := by
  obtain ⟨reply, host⟩ := r
  have hhost : Same L { s with host } { t with host } := { h with host := rfl }
  cases reply with
  | value v => exact ⟨rfl, hhost.push v⟩
  | reject => exact ⟨rfl, hhost⟩
  | fault f => exact ⟨rfl, hhost⟩

theorem act (floor : Floor B V) (h : Same L s t) (a : Action H V) :
    SameEnd L (s.act floor a) (t.act floor a) := by
  have hwindow : floor.window t.view.below t.view.frame =
      floor.window s.view.below s.view.frame := by rw [h.view]
  rw [Evaluation.act, Evaluation.act, h.host, hwindow]
  have hcalled (c : Call V) : Same L { s with calls := c :: s.calls }
      { t with calls := c :: t.calls } := { h with calls := congrArg (List.cons c) h.calls }
  exact (hcalled _).answered _

theorem effects (h : Same L s t) (tokens : Array (Token V)) :
    t.effects tokens = s.effects tokens := by
  simp only [Evaluation.effects, h.view, h.host, h.calls]

end Same

theorem closed_sameEnd (outer : View B V) {y : Outcome V × Evaluation G' B H V}
    (h : SameEnd L x y) : SameEnd L (Evaluation.closed outer x) (Evaluation.closed outer y) := by
  obtain ⟨o, s⟩ := x
  obtain ⟨o', t⟩ := y
  obtain ⟨rfl, h⟩ := h
  have hclosed : Same L { s with view := { outer with rest := s.view.rest } }
      { t with view := { outer with rest := t.view.rest } } :=
    { h with view := by rw [show t.view = s.view from h.view] }
  cases o' with
  | value v => exact ⟨rfl, hclosed.push v⟩
  | noMatch => exact ⟨rfl, hclosed⟩
  | _ => exact ⟨rfl, h⟩

theorem atEnd_sameEnd {y : Outcome V × Evaluation G' B H V} (h : SameEnd L x y) :
    SameEnd L (Evaluation.atEnd x) (Evaluation.atEnd y) := by
  obtain ⟨o, s⟩ := x
  obtain ⟨o', t⟩ := y
  obtain ⟨rfl, h⟩ := h
  cases o' with
  | value v =>
    simp only [Evaluation.atEnd, show t.view = s.view from h.view]
    split
    · exact ⟨rfl, h⟩
    · exact ⟨rfl, h⟩
  | _ => exact ⟨rfl, h⟩

def Tracks (L : G → G' → Prop) (F : Evaluation G B H V → Outcome V × Evaluation G B H V)
    (F' : Nat → Evaluation G' B H V → Outcome V × Evaluation G' B H V) : Prop :=
  ∀ s t, Same L s t → Follows L (F s) (fun k => F' k t)

theorem inScope_tracks (floor : Floor B V)
    {F : Evaluation G B H V → Outcome V × Evaluation G B H V}
    {F' : Nat → Evaluation G' B H V → Outcome V × Evaluation G' B H V} (h : Tracks L F F') :
    Tracks L (Evaluation.inScope floor F) (fun k => Evaluation.inScope floor (F' k)) := by
  intro s t hst
  have hopen : Same L
      { s with view := ⟨floor.opened s.view.below s.view.frame, [], s.view.rest⟩ }
      { t with view := ⟨floor.opened t.view.below t.view.frame, [], t.view.rest⟩ } :=
    { hst with view := by rw [hst.view] }
  have hrec := Follows.map (fun _ _ => closed_sameEnd s.view) (fun _ => rfl) (h _ _ hopen)
  simp only [Evaluation.inScope, hst.view] at hrec ⊢
  exact hrec

theorem atEnd_tracks {F : Evaluation G B H V → Outcome V × Evaluation G B H V}
    {F' : Nat → Evaluation G' B H V → Outcome V × Evaluation G' B H V} (h : Tracks L F F') :
    Tracks L (fun s => Evaluation.atEnd (F s)) (fun k t => Evaluation.atEnd (F' k t)) := by
  intro s t hst
  exact Follows.map (fun _ _ => atEnd_sameEnd) (fun _ => rfl) (h s t hst)

theorem Follows.onMatch {next : V → Evaluation G B H V → Outcome V × Evaluation G B H V}
    {next' : Nat → V → Evaluation G' B H V → Outcome V × Evaluation G' B H V}
    (hnext : ∀ v, Tracks L (next v) (fun k => next' k v)) (h : Follows L x run) :
    Follows L (Evaluation.onMatch next x) (fun k => Evaluation.onMatch (next' k) (run k)) := by
  intro hx
  obtain ⟨o, s⟩ := x
  have hfinished : o ≠ .unfinished := by
    rintro rfl
    exact hx rfl
  obtain ⟨⟨o', t⟩, ⟨rfl, hst⟩, hs⟩ := h hfinished
  have hgo : ∃ z, SameEnd L (Evaluation.onMatch next (o', s)) z ∧
      Settles (fun k => Evaluation.onMatch (next' k) (o', t)) z := by
    cases o' with
    | value v => exact hnext v s t hst hx
    | _ => exact ⟨_, ⟨rfl, hst⟩, .const _⟩
  obtain ⟨z, hz, hs'⟩ := hgo
  exact ⟨z, hz, @Settles.bind _ _ _ _ (fun y k => Evaluation.onMatch (next' k) y) _ hs hs'⟩

theorem Follows.onFailure {next : Evaluation G B H V → Outcome V × Evaluation G B H V}
    {next' : Nat → Evaluation G' B H V → Outcome V × Evaluation G' B H V}
    (hnext : Tracks L next next') (h : Follows L x run) :
    Follows L (Evaluation.onFailure next x) (fun k => Evaluation.onFailure (next' k) (run k)) := by
  intro hx
  obtain ⟨o, s⟩ := x
  have hfinished : o ≠ .unfinished := by
    rintro rfl
    exact hx rfl
  obtain ⟨⟨o', t⟩, ⟨rfl, hst⟩, hs⟩ := h hfinished
  have hgo : ∃ z, SameEnd L (Evaluation.onFailure next (o', s)) z ∧
      Settles (fun k => Evaluation.onFailure (next' k) (o', t)) z := by
    cases o' with
    | noMatch => exact hnext s t hst hx
    | _ => exact ⟨_, ⟨rfl, hst⟩, .const _⟩
  obtain ⟨z, hz, hs'⟩ := hgo
  exact ⟨z, hz, @Settles.bind _ _ _ _ (fun y k => Evaluation.onFailure (next' k) y) _ hs hs'⟩

section

variable {F : Rule H V → Evaluation G B H V → Outcome V × Evaluation G B H V}
  {F' : Nat → Rule H V → Evaluation G' B H V → Outcome V × Evaluation G' B H V}

theorem inSequence_tracks {parts forms : List (Rule H V)}
    (h : List.Forall₂ (fun part form => Tracks L (F part) (fun k => F' k form)) parts forms)
    (last : V) :
    Tracks L (Evaluation.inSequence F parts last)
      (fun k => Evaluation.inSequence (F' k) forms last) := by
  induction h generalizing last with
  | nil =>
    intro s t hst
    exact SameEnd.follows ⟨rfl, hst⟩
  | cons hpart _ ih =>
    intro s t hst
    exact (hpart s t hst).onMatch ih

theorem inAlternative_tracks {parts forms : List (Rule H V)}
    (h : List.Forall₂ (fun part form => Tracks L (F part) (fun k => F' k form)) parts forms) :
    Tracks L (Evaluation.inAlternative F parts)
      (fun k => Evaluation.inAlternative (F' k) forms) := by
  induction h with
  | nil =>
    intro s t hst
    exact SameEnd.follows ⟨rfl, hst⟩
  | cons hpart _ ih =>
    intro s t hst
    refine (hpart s t hst).onFailure fun s' t' hst' => ih _ _ ?_
    exact { hst' with view := hst.view }

end

/-- With every budget that is large enough, `run` ends, with outcome `o` and `c` to be seen. -/
def Returns {γ : Type} (run : Nat → Outcome V × γ) (o : Outcome V) (c : γ) : Prop :=
  o ≠ .unfinished ∧ Settles run (o, c)

theorem Tracks.returns {γ : Type} {F : Evaluation G B H V → Outcome V × Evaluation G B H V}
    {F' : Nat → Evaluation G' B H V → Outcome V × Evaluation G' B H V}
    {see : Outcome V × Evaluation G B H V → γ} {see' : Outcome V × Evaluation G' B H V → γ}
    (h : Tracks L F F') (hst : Same L s t) (hsee : ∀ x y, SameEnd L x y → see' y = see x)
    (hx : (F s).1 ≠ .unfinished) :
    Returns (fun k => ((F' k t).1, see' (F' k t))) (F s).1 (see (F s)) := by
  obtain ⟨y, hy, hs⟩ := h s t hst hx
  have hend := hs.map fun y => (y.1, see' y)
  rw [hy.1, hsee _ y hy] at hend
  exact ⟨hx, hend⟩

theorem returns_iff_of_ends {γ : Type} {run run' : Nat → Outcome V × γ}
    (h : ∀ n, (run n).1 ≠ .unfinished → Returns run' (run n).1 (run n).2)
    (h' : ∀ n, (run' n).1 ≠ .unfinished → Returns run (run' n).1 (run' n).2) :
    (∀ o c, Returns run o c ↔ Returns run' o c) ∧
      ∀ n, (run n).1 ≠ .unfinished → Returns run (run n).1 (run n).2 := by
  have hmp (o : Outcome V) (c : γ) : Returns run o c → Returns run' o c := by
    rintro ⟨ho, n, hn⟩
    have hend := h n
    rw [hn n (Nat.le_refl n)] at hend
    exact hend ho
  have hmpr (o : Outcome V) (c : γ) : Returns run' o c → Returns run o c := by
    rintro ⟨ho, n, hn⟩
    have hend := h' n
    rw [hn n (Nat.le_refl n)] at hend
    exact hend ho
  exact ⟨fun o c => ⟨hmp o c, hmpr o c⟩, fun n hn => hmpr _ _ (h n hn)⟩

end OrderedChoice
