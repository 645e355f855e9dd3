import OrderedChoice.Machine
import OrderedChoice.Proofs.Table

set_option autoImplicit false

namespace OrderedChoice

variable {H V : Type}

theorem Source.next?_eq_some {s s' : Source V} {token : Token V} (h : s.next? = some (token, s')) :
    s.position < s.tokens.size ∧ s' = { s with position := s.position + 1 } := by
  unfold Source.next? at h
  split at h
  · rename_i hget
    cases h
    exact ⟨(Array.getElem?_eq_some_iff.mp hget).1, rfl⟩
  · cases h

namespace Machine

def entered (m : Machine H V) : Machine H V :=
  { m with guard := m.guard.enter }

theorem execute_succ [Inhabited V] (budget : Nat) (rule : Rule H V) (m : Machine H V) :
    execute (budget + 1) rule m =
      match m.entered.guard.exceeded with
      | some limit => (.limitExceeded limit, m.entered)
      | none => leave (dispatch (execute budget) rule m.entered) := rfl

theorem matchTerminal_cases (m : Machine H V) (name : String) :
    (∃ token source, m.source.next? = some (token, source) ∧
      m.matchTerminal name = (.value token.value, { m with source }.push token.value)) ∨
    ∃ e, m.matchTerminal name = (.noMatch, m.note e) := by
  cases hnext : m.source.next? with
  | none => exact .inr ⟨_, by simp only [matchTerminal, hnext]; rfl⟩
  | some p =>
    obtain ⟨token, source⟩ := p
    by_cases hname : token.name = name
    · exact .inl ⟨token, source, rfl, by simp only [matchTerminal, hnext, hname, ↓reduceIte]⟩
    · have hback : source.seek m.source.position = .ok m.source := by
        obtain ⟨hlt, rfl⟩ := Source.next?_eq_some hnext
        exact if_pos (Nat.le_of_lt hlt)
      exact .inr ⟨_, by simp only [matchTerminal, hnext, hname, ↓reduceIte, hback]; rfl⟩

theorem act_cases (m : Machine H V) (a : Action H V) :
    (∃ v e host, m.act a = (.value v, { m.note e with host }.push v)) ∨
    (∃ e host, m.act a = (.noMatch, { m.note e with host })) ∨
    ∃ f e host, (a.run m.stack.window m.host).1 = .fault f ∧
      m.act a = (.fault f, { m.note e with host }) := by
  simp only [act]
  cases hr : a.run m.stack.window (m.note _).host with
  | mk reply host =>
    cases reply with
    | value v => exact .inl ⟨v, _, host, rfl⟩
    | reject => exact .inr (.inl ⟨_, host, rfl⟩)
    | fault f => exact .inr (.inr ⟨f, _, host, congrArg Prod.fst hr, rfl⟩)

theorem undo_eq_ok {m u : Machine H V} {mark position : Nat} (h : m.undo mark position = .ok u) :
    mark ≤ m.stack.pointer ∧ position ≤ m.source.tokens.size ∧
      u = { m with
        stack := { m.stack with pointer := mark }, source := { m.source with position } } := by
  unfold undo at h
  split at h
  · cases h
  · rename_i stack hstack
    split at h
    · cases h
    · rename_i source hsource
      simp only [ValueStack.rollback] at hstack
      simp only [Source.seek] at hsource
      split at hstack
      · split at hsource
        · rename_i hmark hposition
          cases hstack
          cases hsource
          cases h
          exact ⟨hmark, hposition, rfl⟩
        · cases hsource
      · cases hstack

theorem leave_fst (r : Outcome V × Machine H V) : (leave r).1 = r.1 := by
  obtain ⟨o, m⟩ := r
  cases o <;> rfl

/-- What has to hold of each step of a run: `R rule m r` relates a rule and the machine it is run on
to the result. What is left of a sequence or an alternative counts as a rule of its own. -/
structure Executes (R : Rule H V → Machine H V → Outcome V × Machine H V → Prop) : Prop where
  unfinished (rule : Rule H V) (m : Machine H V) : R rule m (.unfinished, m)
  exceeded {limit : Nat} (rule : Rule H V) (m : Machine H V)
    (hg : m.entered.guard.exceeded = some limit) : R rule m (.limitExceeded limit, m.entered)
  leave {rule : Rule H V} {m : Machine H V} {r : Outcome V × Machine H V}
    (h : R rule m.entered r) : R rule m (Machine.leave r)
  ref {name : String} {m : Machine H V} {r : Outcome V × Machine H V}
    (h : R (m.resolve name).1 (m.resolve name).2 r) : R (.ref name) m r
  terminal (name : String) (m : Machine H V) : R (.terminal name) m (m.matchTerminal name)
  scope {body : Rule H V} {m : Machine H V} {r : Outcome V × Machine H V}
    (h : R body { m with stack := m.stack.openFrame } r) :
    R (.scope body) m (inScope (fun _ => r) m)
  nil (last : V) (m : Machine H V) : R (.sequence []) m (.value last, m)
  cons {part : Rule H V} {parts : List (Rule H V)} {m m' : Machine H V} {v : V}
    {r : Outcome V × Machine H V} (h : R part m (.value v, m')) (h' : R (.sequence parts) m' r) :
    R (.sequence (part :: parts)) m r
  stop {part : Rule H V} {m : Machine H V} {r : Outcome V × Machine H V}
    (parts : List (Rule H V)) (hr : ∀ v, r.1 ≠ .value v) (h : R part m r) :
    R (.sequence (part :: parts)) m r
  exhausted (m : Machine H V) : R (.alternative []) m (.noMatch, m)
  first {part : Rule H V} {m : Machine H V} {r : Outcome V × Machine H V}
    (parts : List (Rule H V)) (hr : r.1 ≠ .noMatch) (h : R part m r) :
    R (.alternative (part :: parts)) m r
  next {part : Rule H V} {parts : List (Rule H V)} {m m' u : Machine H V} {index count : Nat}
    {r : Outcome V × Machine H V} (h : R part m (.noMatch, m'))
    (hu : (m'.note (.undone index count m.source.position)).undo m.stack.pointer
      m.source.position = .ok u)
    (h' : R (.alternative parts) u r) : R (.alternative (part :: parts)) m r
  stuck {part : Rule H V} {m m' u : Machine H V} {index count : Nat} {f : Fault}
    (parts : List (Rule H V)) (h : R part m (.noMatch, m'))
    (hu : (m'.note (.undone index count m.source.position)).undo m.stack.pointer
      m.source.position = .error (f, u)) :
    R (.alternative (part :: parts)) m (.fault f, u)
  action (a : Action H V) (m : Machine H V) : R (.action a) m (m.act a)
  terminated {body : Rule H V} {m : Machine H V} {r : Outcome V × Machine H V} (h : R body m r) :
    R (.terminated body) m (atEnd r)

section

variable {R : Rule H V → Machine H V → Outcome V × Machine H V → Prop}
  {exec : Rule H V → Machine H V → Outcome V × Machine H V}

theorem Executes.inSequence (hR : Executes R) (h : ∀ rule m, R rule m (exec rule m))
    (parts : List (Rule H V)) (last : V) (m : Machine H V) :
    R (.sequence parts) m (inSequence exec parts last m) := by
  induction parts generalizing last m with
  | nil => exact hR.nil last m
  | cons part parts ih =>
    have hpart := h part m
    simp only [Machine.inSequence]
    generalize exec part m = r at hpart ⊢
    obtain ⟨o, m'⟩ := r
    cases o with
    | value v => exact hR.cons hpart (ih v m')
    | _ => exact hR.stop parts (by simp) hpart

theorem Executes.inAlternative (hR : Executes R) (h : ∀ rule m, R rule m (exec rule m))
    (count index : Nat) (parts : List (Rule H V)) (m : Machine H V) :
    R (.alternative parts) m
      (inAlternative exec m.stack.pointer m.source.position count index parts m) := by
  induction parts generalizing index m with
  | nil => exact hR.exhausted m
  | cons part parts ih =>
    have hpart := h part m
    simp only [Machine.inAlternative]
    generalize exec part m = r at hpart ⊢
    obtain ⟨o, m'⟩ := r
    cases o with
    | noMatch =>
      simp only
      cases hu : (m'.note (.undone index count m.source.position)).undo m.stack.pointer
          m.source.position with
      | error p => exact hR.stuck parts hpart hu
      | ok u =>
        -- What is undone stands where the alternative began, as its next part requires.
        obtain ⟨-, -, rfl⟩ := undo_eq_ok hu
        exact hR.next hpart hu (ih (index + 1) _)
    | _ => exact hR.first parts (by simp) hpart

theorem Executes.execute [Inhabited V] (hR : Executes R) (budget : Nat) (rule : Rule H V)
    (m : Machine H V) : R rule m (execute budget rule m) := by
  induction budget generalizing rule m with
  | zero => exact hR.unfinished rule m
  | succ budget ih =>
    rw [execute_succ]
    cases hg : m.entered.guard.exceeded with
    | some limit => exact hR.exceeded rule m hg
    | none =>
      refine hR.leave ?_
      cases rule with
      | ref name => exact hR.ref (ih _ _)
      | terminal name => exact hR.terminal name _
      | scope body => exact hR.scope (ih body _)
      | sequence parts => exact hR.inSequence ih parts default _
      | alternative parts => exact hR.inAlternative ih _ 1 parts _
      | action a => exact hR.action a _
      | terminated body => exact hR.terminated (ih body _)

end

theorem matchTerminal_grammar (m : Machine H V) (name : String) :
    (m.matchTerminal name).2.grammar = m.grammar := by
  rcases m.matchTerminal_cases name with ⟨token, source, -, he⟩ | ⟨e, he⟩ <;> rw [he] <;> rfl

theorem act_grammar (m : Machine H V) (a : Action H V) : (m.act a).2.grammar = m.grammar := by
  rcases m.act_cases a with ⟨v, e, host, he⟩ | ⟨e, host, he⟩ | ⟨f, e, host, -, he⟩ <;>
    rw [he] <;> rfl

theorem undo_grammar {m m' : Machine H V} {mark position : Nat}
    (h : m.undo mark position = .ok m') : m'.grammar = m.grammar := by
  obtain ⟨-, -, rfl⟩ := undo_eq_ok h
  rfl

theorem undo_error_grammar {m m' : Machine H V} {mark position : Nat} {f : Fault}
    (h : m.undo mark position = .error (f, m')) : m'.grammar = m.grammar := by
  unfold undo at h
  split at h
  · cases h
    rfl
  · split at h <;> cases h
    rfl

theorem atEnd_grammar (r : Outcome V × Machine H V) : (atEnd r).2.grammar = r.2.grammar := by
  obtain ⟨o, m⟩ := r
  cases o with
  | value v =>
    simp only [atEnd]
    split <;> rfl
  | _ => rfl

theorem leave_grammar (r : Outcome V × Machine H V) : (leave r).2.grammar = r.2.grammar := by
  obtain ⟨o, m⟩ := r
  cases o <;> rfl

end Machine

structure Rule.Hereditary (K : Rule H V → Prop) : Prop where
  scope {body : Rule H V} (h : K (.scope body)) : K body
  sequence {part : Rule H V} {parts : List (Rule H V)} (h : K (.sequence (part :: parts))) :
    K part ∧ K (.sequence parts)
  alternative {part : Rule H V} {parts : List (Rule H V)} (h : K (.alternative (part :: parts))) :
    K part ∧ K (.alternative parts)
  terminated {body : Rule H V} (h : K (.terminated body)) : K body

namespace Machine

section

variable {I : Grammar H V → Prop} {K : Rule H V → Prop}

theorem grammar_executes (hK : Rule.Hereditary K)
    (hI : ∀ g name, K (.ref name) → I g → I (g.resolve name).2.grammar ∧ K (g.resolve name).1) :
    Executes (fun rule (m : Machine H V) r => K rule → I m.grammar → I r.2.grammar) where
  unfinished _ _ _ hm := hm
  exceeded _ _ _ _ hm := hm
  leave {_ m r} h hk hm := by
    rw [leave_grammar]
    exact h hk hm
  ref {name m r} h hk hm := by
    obtain ⟨hg, hf⟩ := hI m.grammar name hk hm
    exact h hf hg
  terminal name m _ hm := by
    rw [matchTerminal_grammar]
    exact hm
  scope {_ m r} h hk hm := by
    have hbody := h (hK.scope hk) hm
    obtain ⟨o, m'⟩ := r
    cases o <;> exact hbody
  nil _ _ _ hm := hm
  cons h h' hk hm := by
    obtain ⟨hpart, hparts⟩ := hK.sequence hk
    exact h' hparts (h hpart hm)
  stop _ _ h hk hm := h (hK.sequence hk).1 hm
  exhausted _ _ hm := hm
  first _ _ h hk hm := h (hK.alternative hk).1 hm
  next h hu h' hk hm := by
    obtain ⟨hpart, hparts⟩ := hK.alternative hk
    refine h' hparts ?_
    rw [undo_grammar hu]
    exact h hpart hm
  stuck _ h hu hk hm := by
    rw [undo_error_grammar hu]
    exact h (hK.alternative hk).1 hm
  action a m _ hm := by
    rw [act_grammar]
    exact hm
  terminated {_ m r} h hk hm := by
    rw [atEnd_grammar]
    exact h (hK.terminated hk) hm

theorem execute_grammar [Inhabited V] (hK : Rule.Hereditary K)
    (hI : ∀ g name, K (.ref name) → I g → I (g.resolve name).2.grammar ∧ K (g.resolve name).1)
    (budget : Nat) {rule : Rule H V} (hr : K rule) {m : Machine H V} (hm : I m.grammar) :
    I (execute budget rule m).2.grammar :=
  (grammar_executes hK hI).execute budget rule m hr hm

theorem execute_grammar_of_resolve [Inhabited V]
    (hI : ∀ g name, I g → I (g.resolve name).2.grammar) (budget : Nat) (rule : Rule H V)
    {m : Machine H V} (hm : I m.grammar) : I (execute budget rule m).2.grammar := by
  have hK : Rule.Hereditary (fun _ : Rule H V => True) :=
    ⟨fun _ => trivial, fun _ => ⟨trivial, trivial⟩, fun _ => ⟨trivial, trivial⟩, fun _ => trivial⟩
  exact execute_grammar hK (fun g name _ h => ⟨hI g name h, trivial⟩) budget trivial hm

end

end Machine

end OrderedChoice
