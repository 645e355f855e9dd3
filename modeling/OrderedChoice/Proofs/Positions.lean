import OrderedChoice.Proofs.Aliases
import OrderedChoice.Proofs.Attempts
import OrderedChoice.Proofs.Termination

set_option autoImplicit false

namespace OrderedChoice

variable {H V : Type}

namespace Rule

def single : Rule H V → Bool
  | ref _ => true
  | terminal _ => true
  | action _ => true
  | scope _ => true
  | _ => false

def isRow : Rule H V → Bool
  | sequence parts => parts.all single
  | _ => false

def isTabular : Rule H V → Bool
  | alternative alts => alts.all isRow
  | r => r.isRow

def rows : Rule H V → List (List (Rule H V))
  | sequence parts => [parts]
  | alternative alts => alts.filterMap fun
    | sequence parts => some parts
    | _ => none
  | _ => []

def Gives (r : Rule H V) : Prop :=
  r.single = true ∨ r = .alternative []

theorem gives_enclosed (r : Rule H V) : r.enclosed.Gives := by
  cases r <;> exact .inl rfl

end Rule

theorem exists_of_mem_forall₂ {α β : Type} {R : α → β → Prop} {xs : List α} {ys : List β}
    (h : List.Forall₂ R xs ys) {y : β} (hy : y ∈ ys) : ∃ x ∈ xs, R x y := by
  induction h with
  | nil => cases hy
  | @cons x y' xs ys hx _ ih =>
    rcases List.mem_cons.mp hy with rfl | hy
    · exact ⟨x, List.mem_cons_self, hx⟩
    · obtain ⟨x', hmem, hx'⟩ := ih hy
      exact ⟨x', List.mem_cons_of_mem x hmem, hx'⟩

namespace Bodies

variable {b : Bodies H V} {rule form : Rule H V}

theorem Unfolds.gives (h : b.Unfolds rule form) (hr : rule.single = true) : form.Gives := by
  cases h with
  | unknownName => exact .inr rfl
  | @inlined _ _ body => exact body.gives_enclosed
  | terminalName | kept | terminal | scope | action => exact .inl rfl
  | sequence | alternative | terminated => cases hr

theorem Unfolds.framed (h : b.Unfolds rule form) (hr : rule.isTabular = true) :
    form.framed = true := by
  cases h with
  | sequence | alternative | terminated => rfl
  | _ => cases hr

theorem gives_of_row {parts forms : List (Rule H V)} (h : List.Forall₂ b.Unfolds parts forms)
    (hp : (Rule.sequence parts).isRow = true) : ∀ form ∈ forms, form.Gives := by
  intro form hf
  obtain ⟨part, hmem, hu⟩ := exists_of_mem_forall₂ h hf
  exact hu.gives (List.all_eq_true.mp hp part hmem)

end Bodies

section

variable {b : Bodies H V} {name : String} {source body : Rule H V}

theorem Bodies.Unfolds.of_inlined (hs : b.source? name = some source)
    (hframed : ∀ body, b.Unfolds source body → body.framed = true)
    (h : b.Unfolds (.ref name) (.scope body)) : b.Unfolds source body := by
  generalize hform : Rule.scope body = form at h
  cases h with
  | inlined _ hs' hu =>
    rw [hs] at hs'
    cases hs'
    rw [Rule.enclosed_of_framed (hframed _ hu)] at hform
    cases hform
    exact hu
  | _ => cases hform

theorem Grammar.Unfolded.found_framed {g : Grammar H V} (h : g.Unfolded b)
    (ht : b.isTerminal name = false) (hs : b.source? name = some source)
    (hframed : ∀ body, b.Unfolds source body → body.framed = true) :
    ∃ body, b.Unfolds source body ∧ (g.resolve name).1 = .scope body := by
  rcases h.found name with ⟨ht', -⟩ | ⟨hn, -⟩ | ⟨source', body, -, hs', hu, hf⟩
  · rw [ht] at ht'
    cases ht'
  · rw [hs] at hn
    cases hn
  · rw [hs] at hs'
    cases hs'
    exact ⟨body, hu, hf.trans (Rule.enclosed_of_framed (hframed body hu))⟩

end

def Outcome.gain : Outcome V → List V
  | .value v => [v]
  | _ => []

namespace Machine

variable {m m' u w : Machine H V} {lower frame results : List V}

theorem InOrder.live_push (hm : m.InOrder) (v : V) :
    (m.push v).stack.live = m.stack.live ++ [v] := by
  obtain ⟨lower, frame, hholds⟩ : ∃ lower frame, m.stack.Holds lower frame :=
    ⟨_, _, ValueStack.holds_of_le hm.base hm.fits⟩
  rw [show (m.push v).stack = m.stack.push v from rfl, (hholds.push v).live, hholds.live,
    List.append_assoc]

/-- If the run that began on `m` has returned, it has left its result above what was live. -/
def Contributes (m : Machine H V) (r : Outcome V × Machine H V) : Prop :=
  r.1.returned → r.2.stack.live = m.stack.live ++ r.1.gain

theorem Contributes.of_live {r : Outcome V × Machine H V} (hlive : r.2.stack.live = m.stack.live)
    (hr : ∀ v, r.1 ≠ .value v) : Contributes m r := by
  obtain ⟨o, u⟩ := r
  intro _
  cases o with
  | value v => exact absurd rfl (hr v)
  | _ => exact hlive.trans (List.append_nil _).symm

theorem Contributes.leave {r : Outcome V × Machine H V} (h : Contributes m.entered r) :
    Contributes m (leave r) := by
  obtain ⟨o, u⟩ := r
  cases o <;> exact h

theorem matchTerminal_contributes (hm : m.InOrder) (name : String) :
    Contributes m (m.matchTerminal name) := by
  rcases m.matchTerminal_cases name with ⟨token, source, hnext, he⟩ | ⟨e, he⟩ <;> rw [he]
  · exact fun _ => hm.live_push token.value
  · exact .of_live rfl nofun

theorem act_contributes (hm : m.InOrder) (a : Action H V) : Contributes m (m.act a) := by
  rcases m.act_cases a with ⟨v, e, host, he⟩ | ⟨e, host, he⟩ | ⟨f, e, host, -, he⟩ <;> rw [he]
  · exact fun _ => hm.live_push v
  · exact .of_live rfl nofun
  · exact .of_live rfl nofun

theorem inScope_contributes (hm : m.InOrder) {r : Outcome V × Machine H V}
    (h : r.1.returned → Keeps { m with stack := m.stack.openFrame } r.2) :
    Contributes m (inScope (fun _ => r) m) := by
  obtain ⟨o, u⟩ := r
  intro hr
  have hclosed (h : Keeps { m with stack := m.stack.openFrame } u) :
      (u.stack.closeFrame m.stack.saved).live = m.stack.live :=
    h.closeFrame.live rfl
  cases o with
  | value v =>
    have hkept := (h trivial).closeFrame
    refine ((hkept.inOrder hm).live_push v).trans ?_
    exact congrArg (· ++ [v]) (hclosed (h trivial))
  | noMatch => exact (hclosed (h trivial)).trans (List.append_nil _).symm
  | limitExceeded n => exact (hclosed (h trivial)).trans (List.append_nil _).symm
  | fault f => exact hr.elim
  | unfinished => exact hr.elim

/-- What an action reads where the frame holds `results` and `lower` is live below it. As long as
the live values can be numbered by machine words, the results are numbered from one, and zero is the
number of the last value below. -/
structure Numbers (lower results : List V) (u : Machine H V) : Prop where
  values : u.stack.window.values = results
  below : u.stack.window.below? = lower.getLast?
  get (hw : u.stack.pointer < wordBound) {i : Nat} (hi : i < results.length) :
    u.stack.window.get (i + 1) = .ok results[i]
  get_zero (hw : u.stack.pointer < wordBound) {v : V} (hv : lower.getLast? = some v) :
    u.stack.window.get 0 = .ok v

theorem numbers_of_holds (h : u.stack.Holds lower results) : Numbers lower results u := by
  have hpointer := h.pointer
  refine ⟨?_, ?_, fun hw i hi => ?_, fun hw v hv => ?_⟩ <;> rw [h.window]
  · exact Window.values_mk lower results
  · exact Window.below?_mk lower results
  · refine Window.get_mk_of_slot lower results ?_ (by omega)
    rw [Window.slot?_mk]
    exact List.getElem?_eq_getElem hi
  · refine Window.get_mk_of_slot lower results ?_ (by omega)
    rw [Window.slot?_mk]
    exact hv

section

variable [Inhabited V] {b : Bodies H V} {rule : Rule H V}

theorem Ready.execute (hm : m.Ready b) {budget : Nat} (hr : (execute budget rule m).1.returned) :
    (Machine.execute budget rule m).2.Ready b where
  toInOrder := (keeps_executes.execute budget rule m hm.toInOrder hr).inOrder hm.toInOrder
  unfolded := ((progresses_executes b).execute budget rule m hm.unfolded).unfolded

theorem execute_contributes_of_selfScoping (hm : m.InOrder)
    (hr : rule.selfScoping = true ∨ rule = .alternative []) (budget : Nat) :
    Contributes m (execute budget rule m) := by
  cases budget with
  | zero => exact False.elim
  | succ budget =>
    have hentered : m.entered.InOrder := { hm with }
    rw [execute_succ]
    cases m.entered.guard.exceeded with
    | some limit => exact .of_live rfl nofun
    | none =>
      refine .leave ?_
      rcases hr with hr | rfl
      · cases rule with
        | terminal name => exact matchTerminal_contributes hentered name
        | action a => exact act_contributes hentered a
        | scope body =>
          have hopen : InOrder { m.entered with stack := m.entered.stack.openFrame } :=
            ⟨Nat.le_refl _, hm.fits, hm.bounded⟩
          exact inScope_contributes hentered (keeps_executes.execute budget body _ hopen)
        | _ => cases hr
      · exact .of_live rfl nofun

theorem execute_contributes (hm : m.Ready b) (hr : rule.Gives) (budget : Nat) :
    Contributes m (execute budget rule m) := by
  cases rule with
  | ref name =>
    cases budget with
    | zero => exact False.elim
    | succ budget =>
      rw [execute_succ]
      cases m.entered.guard.exceeded with
      | some limit => exact .of_live rfl nofun
      | none =>
        refine .leave ?_
        -- What is found for a name needs no frame, has one of its own, or fails.
        have hfound : (m.entered.resolve name).1.selfScoping = true ∨
            (m.entered.resolve name).1 = .alternative [] := by
          rcases hm.unfolded.found name with ⟨-, hf⟩ | ⟨-, hf⟩ | ⟨source, body, -, -, -, hf⟩
          · exact .inl (congrArg Rule.selfScoping hf)
          · exact .inr hf
          · exact .inl ((congrArg Rule.selfScoping hf).trans body.selfScoping_enclosed)
        have hresolved : (m.entered.resolve name).2.InOrder := { hm.toInOrder with }
        exact execute_contributes_of_selfScoping hresolved hfound budget
  | terminal name => exact execute_contributes_of_selfScoping hm.toInOrder (.inl rfl) budget
  | action a => exact execute_contributes_of_selfScoping hm.toInOrder (.inl rfl) budget
  | scope body => exact execute_contributes_of_selfScoping hm.toInOrder (.inl rfl) budget
  | _ =>
    refine execute_contributes_of_selfScoping hm.toInOrder (.inr ?_) budget
    exact hr.resolve_left Bool.false_ne_true

/-- Parts run one after the other, the first on `m`, match with these results and leave `u`. -/
inductive Performs (budget : Nat) :
    List (Rule H V) → Machine H V → List V → Machine H V → Prop where
  | nil (m : Machine H V) : Performs budget [] m [] m
  | cons {part : Rule H V} {parts : List (Rule H V)} {m m' u : Machine H V} {v : V}
    {results : List V} (h : execute budget part m = (.value v, m'))
    (h' : Performs budget parts m' results u) : Performs budget (part :: parts) m (v :: results) u

theorem inSequence_performs {budget : Nat} {parts : List (Rule H V)} {last v : V}
    (h : inSequence (execute budget) parts last m = (.value v, u)) :
    ∃ results, Performs budget parts m results u := by
  induction parts generalizing last m with
  | nil =>
    cases h
    exact ⟨[], .nil _⟩
  | cons part parts ih =>
    cases hr : execute budget part m with
    | mk o m' =>
      simp only [inSequence, hr] at h
      cases o with
      | value w =>
        obtain ⟨results, hp⟩ := ih h
        exact ⟨w :: results, .cons hr hp⟩
      | _ => cases h

theorem Performs.length {budget : Nat} {parts : List (Rule H V)}
    (h : Performs budget parts m results u) : results.length = parts.length := by
  induction h with
  | nil => rfl
  | cons _ _ ih => rw [List.length_cons, List.length_cons, ih]

theorem Performs.holds {budget : Nat} {parts : List (Rule H V)}
    (h : Performs budget parts m results u) (hp : ∀ part ∈ parts, part.Gives) (hm : m.Ready b)
    (hs : m.stack.Holds lower frame) : u.stack.Holds lower (frame ++ results) := by
  induction h generalizing frame with
  | nil => rwa [List.append_nil]
  | @cons part parts m m' u v results h _ ih =>
    obtain ⟨hpart, hparts⟩ := List.forall_mem_cons.mp hp
    have hready := hm.execute (show (execute budget part m).1.returned by rw [h]; trivial)
    have hlive := execute_contributes hm hpart budget
    have hkept := keeps_executes.execute budget part m hm.toInOrder
    rw [h] at hready hlive hkept
    have hnext : m'.stack.Holds lower (frame ++ [v]) := by
      refine ⟨(hlive trivial).trans ?_, (hkept trivial).base.trans hs.base, hready.fits⟩
      rw [hs.live, List.append_assoc]
      rfl
    rw [List.append_cons]
    exact ih hparts hready hnext

theorem Calls.performs {parts : List (Rule H V)} {part : Rule H V}
    (h : Calls (.sequence parts) m part u) :
    ∃ budget k results, parts[k]? = some part ∧ results.length = k ∧
      Performs budget (parts.take k) m results u := by
  cases h with
  | @sequence before after _ _ _ v budget h =>
    obtain ⟨results, hp⟩ := inSequence_performs h
    exact ⟨budget, before.length, results, by simp, hp.length, by simpa using hp⟩

theorem Calls.holds {alts : List (Rule H V)} {part : Rule H V}
    (h : Calls (.alternative alts) m part u) (hm : m.InOrder) (hs : m.stack.Holds lower frame) :
    part ∈ alts ∧ u.stack.Holds lower frame := by
  have horder := h.inOrder hm
  cases h with
  | @alternative before after _ _ _ budget h =>
    have hfailed (rule : Rule H V) (u u' : Machine H V) (hu : u.InOrder)
        (h : execute budget rule u = (.noMatch, u')) : u.Keeps u' ∧ u'.guard = u.guard :=
      execute_failed hu h
    obtain ⟨attempts, ht⟩ :=
      inAlternative_tries hfailed (before ++ part :: after).length 1 before hm
    rw [h] at ht
    obtain ⟨-, -, hlevel, -⟩ := ht.exhausted (ht.noMatch_iff.mp rfl)
    exact ⟨by simp, hlevel.live.trans hs.live, hlevel.base.trans hs.base, horder.fits⟩

/-- Running a reference to a name on `m`, or the form that has been put in its place, comes to run
`body` on `w`, in a frame of its own. -/
inductive Enters (b : Bodies H V) (name : String) (m : Machine H V) (body : Rule H V)
    (w : Machine H V) : Prop where
  | found (h : Reaches 2 (.ref name) m body w)
  | inlined (hu : b.Unfolds (.ref name) (.scope body)) (h : Reaches 1 (.scope body) m body w)

/-- Running a body on a machine comes to run the sequence of these parts: the body itself, or one of
the alternatives that it consists of. -/
inductive RunsRow : Rule H V → Machine H V → List (Rule H V) → Machine H V → Prop where
  | whole (parts : List (Rule H V)) (m : Machine H V) : RunsRow (.sequence parts) m parts m
  | among {alts parts : List (Rule H V)} {m w : Machine H V}
    (h : Calls (.alternative alts) m.entered (.sequence parts) w) :
    RunsRow (.alternative alts) m parts w

theorem Enters.opens {name : String} {source : Rule H V} (hm : m.Ready b)
    (ht : b.isTerminal name = false) (hs : b.source? name = some source)
    (hframed : ∀ body, b.Unfolds source body → body.framed = true)
    (h : Enters b name m rule w) :
    b.Unfolds source rule ∧ w.Ready b ∧ w.stack.Holds m.stack.live [] := by
  have hholds := ValueStack.holds_of_le hm.base hm.fits
  have hopened := hholds.openFrame
  rw [← hholds.live] at hopened
  cases h with
  | found h =>
    obtain ⟨body, hu, hf⟩ := hm.unfolded.found_framed ht hs hframed
    have hf : (m.entered.resolve name).1 = .scope body := hf
    cases h with
    | inside _ hc h =>
      have hready := (hc.ready hm.entered).1
      cases hc
      cases h with
      | inside _ hc h =>
        have hready' := (hc.ready hready.entered).1
        cases h
        rw [hf] at hc
        cases hc
        exact ⟨hu, hready', hopened⟩
  | inlined hu h =>
    cases h with
    | inside _ hc h =>
      have hready := (hc.ready hm.entered).1
      cases h
      cases hc
      exact ⟨hu.of_inlined hs hframed, hready, hopened⟩

theorem RunsRow.row {source body : Rule H V} {forms : List (Rule H V)}
    (h : RunsRow body m forms w) (hu : b.Unfolds source body) (hsource : source.isTabular = true)
    (hm : m.Ready b) (hs : m.stack.Holds lower frame) :
    (∃ parts ∈ source.rows, List.Forall₂ b.Unfolds parts forms) ∧ (∀ form ∈ forms, form.Gives) ∧
      w.Ready b ∧ w.stack.Holds lower frame := by
  cases source with
  | sequence parts =>
    cases hu with
    | sequence hp =>
      cases h
      exact ⟨⟨parts, List.mem_singleton.mpr rfl, hp⟩, Bodies.gives_of_row hp hsource, hm, hs⟩
  | alternative alts =>
    cases hu with
    | alternative hp =>
      cases h with
      | among hc =>
        obtain ⟨hmem, hstarted⟩ := hc.holds { hm.toInOrder with } hs
        obtain ⟨alt, halt, hu⟩ := exists_of_mem_forall₂ hp hmem
        have hrow : alt.isRow = true := List.all_eq_true.mp hsource alt halt
        cases alt with
        | sequence parts =>
          cases hu with
          | sequence hp =>
            exact ⟨⟨parts, List.mem_filterMap.mpr ⟨_, halt, rfl⟩, hp⟩,
              Bodies.gives_of_row hp hrow, (hc.ready hm.entered).1, hstarted⟩
        | _ => cases hrow
  | _ => cases hsource

/-- In every grammar that can be reached and on every machine in order: a reference, a terminal, an
action or a scope leaves above the live values its result if it matches, and nothing if it fails or
exceeds the depth limit. Where a part of a sequence of such rules is started, the frame holds what
it held when the sequence began and then the results of the parts before, in order. If the body of a
name is such a sequence, or an alternative of them, and one of these is run for the name, looked up
or inlined, then an action that is started as a part of it reads the results of the parts before by
the numbers of their positions; zero is the number of the last value that was live when the name was
entered. -/
theorem results_stand_in_order (hg : m.grammar.Reachable) (hm : m.InOrder) :
    (∀ rule : Rule H V, rule.single = true → ∀ budget u,
      (∀ v, execute budget rule m = (.value v, u) → u.stack.live = m.stack.live ++ [v]) ∧
      (execute budget rule m = (.noMatch, u) → u.stack.live = m.stack.live) ∧
      ∀ limit, execute budget rule m = (.limitExceeded limit, u) →
        u.stack.live = m.stack.live) ∧
    (∀ parts : List (Rule H V), (Rule.sequence parts).isRow = true → ∀ part u,
      Calls (.sequence parts) m.entered part u →
      ∃ budget k results, parts[k]? = some part ∧ results.length = k ∧
        Performs budget (parts.take k) m.entered results u ∧
        u.stack.window.values = m.stack.window.values ++ results) ∧
    ∀ name source, m.grammar.isTerminal name = false → m.grammar.source? name = some source →
      source.isTabular = true →
      ∀ body v forms w, Enters m.grammar.bodies name m body v → RunsRow body v forms w →
      (∃ parts ∈ source.rows, List.Forall₂ m.grammar.bodies.Unfolds parts forms) ∧
      ∀ form u, Calls (.sequence forms) w.entered form u →
        ∃ budget k results, forms[k]? = some form ∧ results.length = k ∧
          Performs budget (forms.take k) w.entered results u ∧
          Numbers m.stack.live results u := by
  have hready : m.Ready m.grammar.bodies := ⟨hm, rfl, hg.coherent⟩
  refine ⟨fun rule hr budget u => ?_, fun parts hp part u hc => ?_,
    fun name source ht hs hsource body v forms w h hrow => ?_⟩
  · have hlive := execute_contributes hready (.inl hr) budget
    refine ⟨fun v h => ?_, fun h => ?_, fun limit h => ?_⟩ <;> rw [h] at hlive
    · exact hlive trivial
    · exact (hlive trivial).trans (List.append_nil _)
    · exact (hlive trivial).trans (List.append_nil _)
  · obtain ⟨budget, k, results, hpart, hk, hperformed⟩ := hc.performs
    have hgives : ∀ part ∈ parts.take k, part.Gives := fun part hmem =>
      .inl (List.all_eq_true.mp hp part (List.mem_of_mem_take hmem))
    have hholds := ValueStack.holds_of_le hm.base hm.fits
    have hadded := hperformed.holds hgives hready.entered hholds
    refine ⟨budget, k, results, hpart, hk, hperformed, ?_⟩
    rw [hadded.window, hholds.window, Window.values_mk, Window.values_mk]
  · rw [← Grammar.bodies_isTerminal] at ht
    rw [← Grammar.bodies_source?] at hs
    obtain ⟨hu, hv, hopened⟩ := h.opens hready ht hs fun _ hu => hu.framed hsource
    obtain ⟨hparts, hgives, hw, hempty⟩ := hrow.row hu hsource hv hopened
    refine ⟨hparts, fun form u hc => ?_⟩
    obtain ⟨budget, k, results, hform, hk, hperformed⟩ := hc.performs
    have hadded := hperformed.holds (fun form hmem => hgives form (List.mem_of_mem_take hmem))
      hw.entered hempty
    exact ⟨budget, k, results, hform, hk, hperformed, numbers_of_holds hadded⟩

end

def sumOfTwo : Action Unit Nat :=
  ⟨some "sum", fun w h => (.ofRead (do return (← w.get 1) + (← w.get 2)), h)⟩

def pairForm : Rule Unit Nat :=
  .alternative [.sequence [.terminal "x", .alternative []],
    .sequence [.terminal "x", .terminal "x", .action sumOfTwo]]

def counting : Machine Unit Nat where
  grammar := (Grammar.ofTerminals ["x"]).define "pair" (.alternative
    [.sequence [.ref "x", .ref "y"], .sequence [.ref "x", .ref "x", .action sumOfTwo]])
  source := ⟨#[⟨"y", 0⟩, ⟨"x", 4⟩, ⟨"x", 5⟩], 1⟩
  stack := ⟨#[1, 2, 3], 2, 1⟩
  guard := ⟨0, none⟩
  host := ()
  trace := []

def countingBody : Machine Unit Nat :=
  { (counting.entered.resolve "pair").2.entered with
    stack := (counting.entered.resolve "pair").2.entered.stack.openFrame }

def countingRow : Machine Unit Nat :=
  (inAlternative (execute 9) countingBody.entered.stack.pointer
    countingBody.entered.source.position 2 1 [.sequence [.terminal "x", .alternative []]]
    countingBody.entered).2

theorem counting_stands_in_order : counting.grammar.Reachable ∧ counting.InOrder ∧
    (execute 9 (.ref "pair") counting).2.stack.live = [1, 2, 9] ∧
    Enters counting.grammar.bodies "pair" counting pairForm countingBody ∧
    RunsRow pairForm countingBody [.terminal "x", .terminal "x", .action sumOfTwo] countingRow ∧
    ∃ u, Calls (.sequence [.terminal "x", .terminal "x", .action sumOfTwo]) countingRow.entered
        (.action sumOfTwo) u ∧ Numbers [1, 2] [4, 5] u := by
  have hg : counting.grammar.Reachable := .define (.start _) _ _
  have hm : counting.InOrder := ⟨by decide, by decide, by decide⟩
  obtain ⟨hsingle, -, hnamed⟩ := results_stand_in_order hg hm
  have hvalue : (execute 9 (.ref "pair") counting).1 = .value 9 := by cbv
  have hlive : (execute 9 (.ref "pair") counting).2.stack.live = counting.stack.live ++ [9] := by
    generalize hr : execute 9 (.ref "pair") counting = r at hvalue
    obtain ⟨o, u⟩ := r
    cases hvalue
    exact (hsingle (.ref "pair") rfl 9 u).1 9 hr
  have hform : (counting.entered.resolve "pair").1 = .scope pairForm := by cbv
  have henters : Enters counting.grammar.bodies "pair" counting pairForm countingBody := by
    refine .found (.inside rfl (.ref "pair" _) (.inside rfl ?_ (.here _ _)))
    rw [hform]
    exact .scope pairForm _
  have hfailed : (inAlternative (execute 9) countingBody.entered.stack.pointer
      countingBody.entered.source.position 2 1 [.sequence [.terminal "x", .alternative []]]
      countingBody.entered).1 = .noMatch := by cbv
  have hrow : RunsRow pairForm countingBody [.terminal "x", .terminal "x", .action sumOfTwo]
      countingRow :=
    .among (@Calls.alternative _ _ _ [.sequence [.terminal "x", .alternative []]] [] _ _ _ 9
      (Prod.ext hfailed rfl))
  have hread : (inSequence (execute 9) [.terminal "x", .terminal "x"] default
      countingRow.entered).1 = .value 5 := by cbv
  have hcall : Calls (.sequence [.terminal "x", .terminal "x", .action sumOfTwo])
      countingRow.entered (.action sumOfTwo) (inSequence (execute 9) [.terminal "x", .terminal "x"]
        default countingRow.entered).2 :=
    @Calls.sequence _ _ _ [.terminal "x", .terminal "x"] [] _ _ _ 5 9 (Prod.ext hread rfl)
  obtain ⟨-, hparts⟩ := hnamed "pair" _ rfl rfl rfl _ _ _ _ henters hrow
  obtain ⟨-, -, results, -, -, -, hnumbers⟩ := hparts _ _ hcall
  have hresults : (inSequence (execute 9) [.terminal "x", .terminal "x"] default
      countingRow.entered).2.stack.window.values = [4, 5] := by cbv
  obtain rfl : results = [4, 5] := hnumbers.values.symm.trans hresults
  exact ⟨hg, hm, hlive, henters, hrow, _, hcall, hnumbers⟩

end Machine

end OrderedChoice
