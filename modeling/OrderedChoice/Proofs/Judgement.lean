import OrderedChoice.Proofs.Following

set_option autoImplicit false

namespace OrderedChoice

variable {H V : Type}

abbrev Running (H V : Type) :=
  Nat → Evaluation Unit (List V) H V → Outcome V × Evaluation Unit (List V) H V

/-- From this view, whatever the state of the actions and their runs so far, an evaluation comes to
the result `r`: a failure, or a match with its value and the tokens that it leaves. -/
def Ends (run : Running H V) (view : View (List V) V) (r : Option (V × List (Token V))) : Prop :=
  ∀ host calls, ∃ x, Settles (fun n => run n ⟨view, (), host, calls⟩) x ∧
    match r with
    | none => x.1 = .noMatch
    | some (v, rest) => x.1 = .value v ∧ x.2.view.rest = rest

/-- The same, and a match adds its value, and nothing else, to the frame. -/
def Adds (run : Running H V) (view : View (List V) V) (r : Option (V × List (Token V))) : Prop :=
  ∀ host calls, ∃ x, Settles (fun n => run n ⟨view, (), host, calls⟩) x ∧
    match r with
    | none => x.1 = .noMatch
    | some (v, rest) => x.1 = .value v ∧ x.2.view = ⟨view.below, view.frame ++ [v], rest⟩

theorem Adds.ends {run : Running H V} {view : View (List V) V} {r : Option (V × List (Token V))}
    (h : Adds run view r) : Ends run view r := by
  intro host calls
  obtain ⟨x, hs, hx⟩ := h host calls
  refine ⟨x, hs, ?_⟩
  cases r with
  | none => exact hx
  | some p => exact ⟨hx.1, congrArg View.rest hx.2⟩

theorem Ends.unique {run : Running H V} {view : View (List V) V}
    {r r' : Option (V × List (Token V))} (h : Ends run view r) (h' : Ends run view r') (host : H) :
    r = r' := by
  obtain ⟨x, hs, hx⟩ := h host []
  obtain ⟨x', hs', hx'⟩ := h' host []
  cases hs.unique hs'
  cases r with
  | none =>
    cases r' with
    | none => rfl
    | some p' => exact absurd (hx.symm.trans hx'.1) (by simp)
  | some p =>
    cases r' with
    | none => exact absurd (hx'.symm.trans hx.1) (by simp)
    | some p' =>
      obtain ⟨v, rest⟩ := p
      obtain ⟨v', rest'⟩ := p'
      cases hx.1.symm.trans hx'.1
      cases hx.2.symm.trans hx'.2
      rfl

section

variable [Inhabited V] {look : String → Rule H V} {view : View (List V) V}
  {r : Option (V × List (Token V))} {part : Rule H V} {parts : List (Rule H V)}

def meant (look : String → Rule H V) (rule : Rule H V) : Running H V :=
  fun n => Evaluation.eval Floor.whole (fixed look) n rule

def meantAll (look : String → Rule H V) (parts : List (Rule H V)) (last : V) : Running H V :=
  fun n => Evaluation.inSequence (Evaluation.eval Floor.whole (fixed look) n) parts last

def meantAny (look : String → Rule H V) (parts : List (Rule H V)) : Running H V :=
  fun n => Evaluation.inAlternative (Evaluation.eval Floor.whole (fixed look) n) parts

theorem Adds.ref {name : String} {rule : Rule H V} (hl : look name = rule)
    (h : Adds (meant look rule) view r) : Adds (meant look (.ref name)) view r := by
  subst hl
  intro host calls
  obtain ⟨x, hs, hx⟩ := h host calls
  exact ⟨x, Settles.succ hs, hx⟩

theorem Adds.terminal {name : String} {token : Token V} (hn : token.name = name)
    (below frame : List V) (rest : List (Token V)) :
    Adds (meant look (.terminal name)) ⟨below, frame, token :: rest⟩
      (some (token.value, rest)) := by
  intro host calls
  refine ⟨(.value token.value, ⟨⟨below, frame ++ [token.value], rest⟩, (), host, calls⟩),
    .of_succ fun n => ?_, rfl, rfl⟩
  rw [meant, Evaluation.eval, Evaluation.dispatch]
  simp only [Evaluation.matchTerminal, hn, ↓reduceIte]
  rfl

theorem Adds.terminal_miss {name : String}
    (hn : ∀ token ∈ view.rest.head?, token.name ≠ name) :
    Adds (meant look (.terminal name)) view none := by
  intro host calls
  refine ⟨(.noMatch, ⟨view, (), host, calls⟩), .of_succ fun n => ?_, rfl⟩
  rw [meant, Evaluation.eval, Evaluation.dispatch]
  simp only [Evaluation.matchTerminal]
  cases hr : view.rest with
  | nil => rfl
  | cons token rest =>
    rw [hr] at hn
    simp only [hn token rfl, ↓reduceIte]

theorem Adds.scope {body : Rule H V}
    (h : Ends (meant look body) ⟨view.below ++ view.frame, [], view.rest⟩ r) :
    Adds (meant look (.scope body)) view r := by
  intro host calls
  obtain ⟨⟨o, t⟩, hs, hx⟩ := h host calls
  refine ⟨Evaluation.closed view (o, t), Settles.succ (hs.map (Evaluation.closed view)), ?_⟩
  cases r with
  | none =>
    obtain rfl : o = .noMatch := hx
    rfl
  | some p =>
    obtain ⟨v, rest⟩ := p
    obtain ⟨rfl, rfl⟩ := hx
    exact ⟨rfl, rfl⟩

theorem Adds.action {a : Action H V} {v : V}
    (h : ∀ host, a.run (Floor.whole.window view.below view.frame) host = (.value v, host)) :
    Adds (meant look (.action a)) view (some (v, view.rest)) := by
  intro host calls
  refine ⟨(Evaluation.act Floor.whole ⟨view, (), host, calls⟩ a), .of_succ fun n => rfl, ?_⟩
  rw [Evaluation.act, h host]
  exact ⟨rfl, rfl⟩

theorem Adds.action_reject {a : Action H V}
    (h : ∀ host, a.run (Floor.whole.window view.below view.frame) host = (.reject, host)) :
    Adds (meant look (.action a)) view none := by
  intro host calls
  refine ⟨(Evaluation.act Floor.whole ⟨view, (), host, calls⟩ a), .of_succ fun n => rfl, ?_⟩
  rw [Evaluation.act, h host]
  rfl

theorem Ends.sequence (h : Ends (meantAll look parts default) view r) :
    Ends (meant look (.sequence parts)) view r := by
  intro host calls
  obtain ⟨x, hs, hx⟩ := h host calls
  exact ⟨x, Settles.succ hs, hx⟩

theorem Ends.nil (last : V) : Ends (meantAll look [] last) view (some (last, view.rest)) :=
  fun _ _ => ⟨_, .const _, rfl, rfl⟩

theorem Ends.cons {v : V} {rest : List (Token V)} (last : V)
    (h : Adds (meant look part) view (some (v, rest)))
    (h' : Ends (meantAll look parts v) ⟨view.below, view.frame ++ [v], rest⟩ r) :
    Ends (meantAll look (part :: parts) last) view r := by
  intro host calls
  obtain ⟨⟨o, t⟩, hs, rfl, hview⟩ := h host calls
  obtain ⟨x, hs', hx⟩ := h' t.host t.calls
  refine ⟨x, ?_, hx⟩
  have ht : t = ⟨⟨view.below, view.frame ++ [v], rest⟩, (), t.host, t.calls⟩ := by
    rw [← hview]
  rw [← ht] at hs'
  exact @Settles.bind _ _ _ _
    (fun y k => Evaluation.onMatch (fun v t => meantAll look parts v k t) y) _ hs hs'

theorem Ends.cons_fail (last : V) (h : Ends (meant look part) view none) :
    Ends (meantAll look (part :: parts) last) view none := by
  intro host calls
  obtain ⟨⟨o, t⟩, hs, rfl⟩ := h host calls
  exact ⟨(.noMatch, t), @Settles.bind _ _ _ _
    (fun y k => Evaluation.onMatch (fun v t => meantAll look parts v k t) y) _ hs (.const _), rfl⟩

theorem Ends.alternative (h : Ends (meantAny look parts) view r) :
    Ends (meant look (.alternative parts)) view r := by
  intro host calls
  obtain ⟨x, hs, hx⟩ := h host calls
  exact ⟨x, Settles.succ hs, hx⟩

theorem Ends.exhausted : Ends (meantAny look []) view none :=
  fun _ _ => ⟨_, .const _, rfl⟩

theorem Ends.first {v : V} {rest : List (Token V)}
    (h : Ends (meant look part) view (some (v, rest))) :
    Ends (meantAny look (part :: parts)) view (some (v, rest)) := by
  intro host calls
  obtain ⟨⟨o, t⟩, hs, rfl, hrest⟩ := h host calls
  exact ⟨(.value v, t), @Settles.bind _ _ _ _
    (fun y k => Evaluation.onFailure (fun t => meantAny look parts k { t with view }) y) _ hs
    (.const _), rfl, hrest⟩

theorem Ends.next (h : Ends (meant look part) view none) (h' : Ends (meantAny look parts) view r) :
    Ends (meantAny look (part :: parts)) view r := by
  intro host calls
  obtain ⟨⟨o, t⟩, hs, rfl⟩ := h host calls
  obtain ⟨x, hs', hx⟩ := h' t.host t.calls
  exact ⟨x, @Settles.bind _ _ _ _
    (fun y k => Evaluation.onFailure (fun t => meantAny look parts k { t with view }) y) _ hs hs',
    hx⟩

theorem Ends.terminated {body : Rule H V} (h : Ends (meant look body) view r) :
    Ends (meant look (.terminated body)) view (r.filter fun p => p.2.isEmpty) := by
  intro host calls
  obtain ⟨⟨o, t⟩, hs, hx⟩ := h host calls
  refine ⟨Evaluation.atEnd (o, t), Settles.succ (hs.map Evaluation.atEnd), ?_⟩
  cases r with
  | none =>
    obtain rfl : o = .noMatch := hx
    rfl
  | some p =>
    obtain ⟨v, rest⟩ := p
    obtain ⟨rfl, rfl⟩ := hx
    simp only [Evaluation.atEnd, Option.filter]
    cases t.view.rest.isEmpty with
    | false => rfl
    | true => exact ⟨rfl, rfl⟩

end

end OrderedChoice
