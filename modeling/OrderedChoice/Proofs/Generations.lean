import OrderedChoice.Proofs.Linking

set_option autoImplicit false

/-!
# Each body is compiled once

From one definition to the next a name gets a compiled form at most once, and then keeps it,
whatever is compiled, looked up or run in between and whichever names have been noted as entered.
What is to be reported of its body is reported while the body is compiled and at no other time, even
if the diagnostics have been taken by then.

A body is open while it is compiled, and an open body is never entered again: so nothing inside its
compilation concerns its name but its own reports. `Logged` says this of a walk over references, and
`Logs` of everything that can be done with a grammar between two definitions.
-/

namespace OrderedChoice

variable {H V : Type}

def Diagnostic.referrer? (d : Diagnostic) : Option String :=
  match d.cause with
  | .undefinedSymbol _ referrer => referrer
  | _ => none

namespace Event

def report? : Event H V → Option Diagnostic
  | reported d => some d
  | _ => none

/-- Whether the event is that a name gets a compiled form, or that its body has something wrong. -/
def concerns (name : String) : Event H V → Bool
  | compiled other _ => other == name
  | reported d => d.referrer? == some name
  | _ => false

def Quiet (e : Event H V) : Prop :=
  e.report? = none ∧ ∀ name, e.concerns name = false

end Event

namespace Trace

def reports (t : Trace H V) : List Diagnostic :=
  (t.filterMap Event.report?).reverse

def about (t : Trace H V) (name : String) : Trace H V :=
  t.filter (Event.concerns name)

theorem reports_append (t t' : Trace H V) : reports (t ++ t') = t'.reports ++ t.reports := by
  rw [reports, List.filterMap_append, List.reverse_append]
  rfl

theorem about_append (t t' : Trace H V) (name : String) :
    about (t ++ t') name = t.about name ++ t'.about name :=
  List.filter_append ..

theorem reports_about (t : Trace H V) (name : String) :
    (t.about name).reports = t.reports.filter (·.referrer? == some name) := by
  rw [reports, reports, about, List.filter_reverse, List.filterMap_filter, List.filter_filterMap]
  congr 2
  funext e
  cases e with
  | reported d =>
    by_cases hd : d.referrer? = some name <;>
      simp [Event.concerns, Event.report?, Option.filter, hd]
  | _ => simp [Event.report?]

theorem reports_map_reported (ds : List Diagnostic) :
    reports (ds.map (Event.reported (H := H) (V := V))).reverse = ds := by
  simp [reports, Event.report?, Function.comp_def]

end Trace

namespace Grammar

/-- The body of a name was compiled to `form`, with the events `during`, while it was open and had
no form yet. -/
def BodyCompiled (b : Bodies H V) (name : String) (form : Rule H V) (during : Trace H V) : Prop :=
  ∃ (c : Compiling H V) (source : Rule H V) (budget : Nat), c.grammar.bodies = b ∧
    Fresh c name source ∧ (c.visit name).unentered ≤ budget ∧
    (source.compileWith (resolveWithin budget (some name)) (c.visit name)).1.enclosed = form ∧
    (source.compileWith (resolveWithin budget (some name)) (c.visit name)).2.trace =
      during ++ c.trace

/-- What may happen to a name on the way from `g` to `g'`, with the events `t`: nothing, or it gets
the form that its body is compiled to. In that compilation each reference to a name that means
nothing is reported; no other event concerns the name. -/
inductive Once (g g' : Grammar H V) (name : String) (t : Trace H V) : Prop where
  | unchanged (hform : g'.compiled? name = g.compiled? name) (ht : t.about name = [])
  | compiled (form : Rule H V) (after during before : Trace H V)
    (hnone : g.compiled? name = none) (hform : g'.compiled? name = some form)
    (ht : t = after ++ .compiled name form :: (during ++ before))
    (hbody : BodyCompiled g.bodies name form during)
    (hafter : after.about name = [])
    (hduring : during.about name =
      ((g.bodies.reports (some name) (g.bodies.refsOf name)).map .reported).reverse)
    (hbefore : before.about name = [])

section

variable {g g' g'' : Grammar H V} {name : String} {t t' : Trace H V}

theorem Once.trans (hb : g'.bodies = g.bodies) (h : g.Once g' name t) (h' : g'.Once g'' name t') :
    g.Once g'' name (t' ++ t) := by
  cases h with
  | unchanged hform ht =>
    cases h' with
    | unchanged hform' ht' =>
      exact .unchanged (hform'.trans hform) (by rw [Trace.about_append, ht, ht']; rfl)
    | compiled form after during before hnone hform' ht' hbody hafter hduring hbefore =>
      rw [hb] at hbody hduring
      refine .compiled form after during (before ++ t) (hform.symm.trans hnone) hform' ?_ hbody
        hafter hduring (by rw [Trace.about_append, hbefore, ht]; rfl)
      rw [ht', List.append_assoc, List.cons_append, List.append_assoc]
  | compiled form after during before hnone hform ht hbody hafter hduring hbefore =>
    cases h' with
    | unchanged hform' ht' =>
      refine .compiled form (t' ++ after) during before hnone (hform'.trans hform) ?_ hbody
        (by rw [Trace.about_append, ht', hafter]; rfl) hduring hbefore
      rw [ht, List.append_assoc]
    | compiled _ _ _ _ hnone' =>
      rw [hform] at hnone'
      cases hnone'

theorem Once.about_eq_nil (h : g.Once g' name t) (hform : g'.compiled? name = g.compiled? name) :
    t.about name = [] := by
  cases h with
  | unchanged _ ht => exact ht
  | compiled _ _ _ _ hnone hform' =>
    rw [hform, hnone] at hform'
    cases hform'

theorem Once.reports (h : g.Once g' name t) :
    t.reports.filter (·.referrer? == some name) =
      if g'.isCompiled name = g.isCompiled name then []
      else g.bodies.reports (some name) (g.bodies.refsOf name) := by
  rw [← Trace.reports_about]
  cases h with
  | unchanged hform ht =>
    rw [ht, isCompiled, isCompiled, hform, if_pos rfl]
    rfl
  | compiled form after during before hnone hform ht hbody hafter hduring hbefore =>
    have habout : t.about name = .compiled name form :: during.about name := by
      have hconcerns : (Event.compiled name form).concerns name = true := beq_self_eq_true name
      rw [ht, Trace.about_append, hafter, Trace.about, List.nil_append,
        List.filter_cons_of_pos hconcerns, ← Trace.about, Trace.about_append, hbefore,
        List.append_nil]
    rw [habout, hduring, isCompiled, isCompiled, hform, hnone, if_neg (by simp)]
    exact Trace.reports_map_reported _

end

/-- What a walk over `names`, referred to in the body of `owner`, has done from `c` to `c'`, if the
events `t` are new. -/
structure Logged (owner : Option String) (names : List String) (c c' : Compiling H V)
    (t : Trace H V) : Prop where
  grows : c.Extends c'
  trace : c'.trace = t ++ c.trace
  recorded : c'.grammar.diagnostics = c.grammar.diagnostics ++ t.reports
  kept {name : String} (hv : name ∈ c.visited) :
    c'.grammar.compiled? name = c.grammar.compiled? name
  own {name : String} (ho : owner = some name) (hv : name ∈ c.visited) :
    t.about name = ((c.grammar.bodies.reports owner names).map .reported).reverse
  other {name : String} (ho : owner ≠ some name) : c.grammar.Once c'.grammar name t

section

variable {owner : Option String} {names names' : List String} {c c' c'' : Compiling H V}
  {name : String} {source : Rule H V} {t t' : Trace H V}

theorem Logged.unchanged (hr : c.grammar.bodies.reports owner names = []) :
    Logged owner names c c [] where
  grows := .refl c
  trace := rfl
  recorded := (List.append_nil _).symm
  kept _ := rfl
  own _ _ := by rw [hr]; rfl
  other _ := .unchanged rfl rfl

theorem Logged.append (h : Logged owner names c c' t) (h' : Logged owner names' c' c'' t') :
    Logged owner (names ++ names') c c'' (t' ++ t) where
  grows := h.grows.trans h'.grows
  trace := by rw [h'.trace, h.trace, List.append_assoc]
  recorded := by rw [h'.recorded, h.recorded, Trace.reports_append, List.append_assoc]
  kept hv := (h'.kept (h.grows.2 hv)).trans (h.kept hv)
  own ho hv := by
    rw [Trace.about_append, h.own ho hv, h'.own ho (h.grows.2 hv), h.grows.1,
      Bodies.reports_append, List.map_append, List.reverse_append]
  other ho := (h.other ho).trans h.grows.1 (h'.other ho)

theorem Settled.logged {r : Option (Rule H V) × Compiling H V} (h : Settled owner name c r) :
    ∃ t, Logged owner [name] c r.2 t := by
  have hknown (hk : c.grammar.bodies.unknown name = false) :
      c.grammar.bodies.reports owner [name] = [] := by simp [Bodies.reports, hk]
  cases h with
  | terminal ht => exact ⟨[], .unchanged (hknown (by simp [Bodies.unknown, ht]))⟩
  | known ht he =>
    exact ⟨[], .unchanged (hknown (by simp [Bodies.unknown, source?_of_get? he]))⟩
  | entered ht he hv =>
    exact ⟨[], .unchanged (hknown (by simp [Bodies.unknown, source?_of_get? he]))⟩
  | missing ht hn =>
    have hunknown : c.grammar.bodies.unknown name = true := by
      simp [Bodies.unknown, ht, source?, hn]
    exact
      ⟨[.reported (.report .compile (.undefinedSymbol name owner))],
        { grows := c.reportUndefined_extends name owner
          trace := rfl
          recorded := rfl
          kept := fun _ => rfl
          own := fun {owner'} ho _ => by
            subst ho
            have hconcerns : (Event.reported (.report .compile
                (.undefinedSymbol name (some owner'))) : Event H V).concerns owner' = true :=
              beq_self_eq_true _
            rw [Trace.about, List.filter_cons_of_pos hconcerns, Bodies.reports,
              List.filter_cons_of_pos hunknown]
            rfl
          other := fun {other} ho => by
            refine .unchanged rfl (List.filter_cons_of_neg ?_)
            exact fun hc => ho (eq_of_beq hc) }⟩

theorem Logged.memoize {budget : Nat} (hf : Fresh c name source)
    (hbudget : (c.visit name).unentered ≤ budget)
    (h : Logged (some name) source.refs (c.visit name)
      (source.compileWith (resolveWithin budget (some name)) (c.visit name)).2 t) :
    ∃ t', Logged owner [name] c (resolveWithin (budget + 1) owner name c).2 t' := by
  rw [resolveWithin_succ hf]
  generalize hbody : source.compileWith (resolveWithin budget (some name)) (c.visit name) = r at h ⊢
  obtain ⟨body, c'⟩ := r
  have hnone : c.grammar.compiled? name = none := by rw [compiled?, hf.2.1]; rfl
  have hsource : c'.grammar.source? name = some source := by
    rw [← bodies_source?, h.grows.1]
    exact hf.bodies_source?
  -- For every other name, the form that is kept changes nothing.
  have hstep : ∀ {other}, other ≠ name →
      c'.grammar.Once (c'.memoize name body.enclosed).grammar other
        [.compiled name body.enclosed] :=
    fun hn => .unchanged (by rw [compiled?_memoize, if_neg hn])
      (List.filter_cons_of_neg fun hc => hn (eq_of_beq hc).symm)
  have hvisited : ∀ {other}, other ∈ c.visited → other ≠ name := fun hv hn => hf.2.2 (hn ▸ hv)
  have hsame : ∀ {other}, other ∈ c.visited →
      (c'.memoize name body.enclosed).grammar.compiled? other = c.grammar.compiled? other := by
    intro other hv
    rw [compiled?_memoize, if_neg (hvisited hv)]
    exact h.kept (List.mem_cons_of_mem name hv)
  have hother : ∀ {other}, other ≠ name →
      c.grammar.Once (c'.memoize name body.enclosed).grammar other
        (.compiled name body.enclosed :: t) :=
    fun hn => (h.other fun he => hn (Option.some.inj he).symm).trans h.grows.1 (hstep hn)
  exact
    ⟨.compiled name body.enclosed :: t,
      { grows :=
          ((c.visit_extends name).trans h.grows).trans (c'.memoize_extends name body.enclosed)
        trace := congrArg (Event.compiled name body.enclosed :: ·) h.trace
        recorded := h.recorded
        kept := hsame
        own := fun {other} _ hv => by
          -- The walk is over the body of another name; that one is open, so it gets no form here.
          rw [(hother (hvisited hv)).about_eq_nil (hsame hv)]
          simp [Bodies.reports, Bodies.unknown, hf.bodies_source?]
        other := fun {other} _ => by
          by_cases hn : other = name
          · subst hn
            refine .compiled body.enclosed [] t [] hnone ?_ ?_ ?_ rfl ?_ rfl
            · rw [compiled?_memoize, if_pos rfl, hsource]
              rfl
            · rw [List.append_nil, List.nil_append]
            · exact ⟨c, source, budget, rfl, hf, hbudget, by rw [hbody],
                by rw [hbody, h.trace]; rfl⟩
            · rw [hf.refsOf]
              exact h.own rfl List.mem_cons_self
          · exact hother hn }⟩

theorem logged_walks :
    Walks (fun owner names (c c' : Compiling H V) => ∃ t, Logged owner names c c' t) where
  nil _ _ := ⟨[], .unchanged rfl⟩
  append := by
    rintro owner names names' c c' c'' ⟨t, h⟩ ⟨t', h'⟩
    exact ⟨t' ++ t, h.append h'⟩
  settled h := h.logged
  enter hf hb h := by
    obtain ⟨t, h⟩ := h
    exact h.memoize hf hb

end

/-- What has been done on the way from `g` to `g'`, with the events `t`, if nothing was defined. -/
structure Logs (g g' : Grammar H V) (t : Trace H V) : Prop where
  bodies : g'.bodies = g.bodies
  recorded : g'.diagnostics = g.diagnostics ++ t.reports
  once (name : String) : g.Once g' name t

section

variable {g g' g'' : Grammar H V} {t t' : Trace H V}

theorem Logs.nil (g : Grammar H V) : g.Logs g [] :=
  ⟨rfl, (List.append_nil _).symm, fun _ => .unchanged rfl rfl⟩

theorem Logs.trans (h : g.Logs g' t) (h' : g'.Logs g'' t') : g.Logs g'' (t' ++ t) where
  bodies := h'.bodies.trans h.bodies
  recorded := by rw [h'.recorded, h.recorded, Trace.reports_append, List.append_assoc]
  once name := (h.once name).trans h.bodies (h'.once name)

theorem Logs.quiet {e : Event H V} (he : e.Quiet) : g.Logs g [e] := by
  obtain ⟨hreport, hconcerns⟩ := he
  refine ⟨rfl, ?_, fun name => .unchanged rfl (List.filter_cons_of_neg ?_)⟩
  · rw [Trace.reports, List.filterMap_cons_none hreport]
    exact (List.append_nil _).symm
  · rw [hconcerns name]
    exact Bool.false_ne_true

theorem Logged.logs {names visited : List String} {c : Compiling H V}
    (h : Logged none names ⟨g, visited, []⟩ c t) : g.Logs c.grammar c.trace := by
  rw [h.trace, List.append_nil]
  exact ⟨h.grows.1, h.recorded, fun _ => h.other nofun⟩

theorem compileVisiting_logs (g : Grammar H V) (rule : Rule H V) (visited : List String) :
    g.Logs (g.compileVisiting rule visited).2.grammar (g.compileVisiting rule visited).2.trace := by
  obtain ⟨t, h⟩ := logged_walks.compileVisiting g rule visited
  exact h.logs

theorem resolve_logs (g : Grammar H V) (name : String) :
    g.Logs (g.resolve name).2.grammar (g.resolve name).2.trace := by
  obtain ⟨t, h⟩ := logged_walks.resolve g name
  exact h.logs

end

end Grammar

namespace Machine

def Logs (m m' : Machine H V) : Prop :=
  ∃ t, m'.trace = t ++ m.trace ∧ m.grammar.Logs m'.grammar t

section

variable {m m' m'' : Machine H V}

theorem Logs.of_eq (hg : m'.grammar = m.grammar) (ht : m'.trace = m.trace) : m.Logs m' :=
  ⟨[], ht, hg ▸ .nil m.grammar⟩

theorem Logs.trans (h : m.Logs m') (h' : m'.Logs m'') : m.Logs m'' := by
  obtain ⟨t, ht, hlogs⟩ := h
  obtain ⟨t', ht', hlogs'⟩ := h'
  exact ⟨t' ++ t, by rw [ht', ht, List.append_assoc], hlogs.trans hlogs'⟩

theorem Logs.of_quiet {e : Event H V} (he : e.Quiet) (hg : m'.grammar = m.grammar)
    (ht : m'.trace = e :: m.trace) : m.Logs m' :=
  ⟨[e], ht, hg ▸ .quiet he⟩

theorem Logs.undo {e : Event H V} (he : e.Quiet) {mark position : Nat} {u : Machine H V}
    (hu : (m.note e).undo mark position = .ok u ∨
      ∃ f, (m.note e).undo mark position = .error (f, u)) : m.Logs u := by
  unfold Machine.undo at hu
  cases hs : (m.note e).stack.rollback mark with
  | error f =>
    simp only [hs, reduceCtorEq, false_or] at hu
    obtain ⟨_, hu⟩ := hu
    cases hu
    exact .of_quiet he rfl rfl
  | ok stack =>
    cases hp : (m.note e).source.seek position with
    | error f =>
      simp only [hs, hp, reduceCtorEq, false_or] at hu
      obtain ⟨_, hu⟩ := hu
      cases hu
      exact .of_quiet he rfl rfl
    | ok source =>
      simp only [hs, hp, reduceCtorEq, exists_false, or_false] at hu
      cases hu
      exact .of_quiet he rfl rfl

theorem matchTerminal_logs (m : Machine H V) (name : String) : m.Logs (m.matchTerminal name).2 := by
  unfold matchTerminal
  split
  · split
    · exact .of_eq rfl rfl
    · split <;> exact .of_quiet ⟨rfl, fun _ => rfl⟩ rfl rfl
  · exact .of_quiet ⟨rfl, fun _ => rfl⟩ rfl rfl

theorem act_logs (m : Machine H V) (a : Action H V) : m.Logs (m.act a).2 := by
  simp only [act]
  split <;> exact .of_quiet ⟨rfl, fun _ => rfl⟩ rfl rfl

theorem atEnd_logs {r : Outcome V × Machine H V} (h : m.Logs r.2) : m.Logs (atEnd r).2 := by
  obtain ⟨o, m'⟩ := r
  cases o with
  | value v =>
    simp only [atEnd]
    split
    · exact h
    · exact h.trans (.of_quiet ⟨rfl, fun _ => rfl⟩ rfl rfl)
  | _ => exact h

theorem leave_logs {r : Outcome V × Machine H V} (h : m.Logs r.2) : m.Logs (leave r).2 := by
  obtain ⟨o, m'⟩ := r
  cases o <;> exact h

theorem logs_executes : Executes (fun (_ : Rule H V) (m : Machine H V) r => m.Logs r.2) where
  unfinished _ _ := .of_eq rfl rfl
  exceeded _ _ _ := .of_eq rfl rfl
  leave {_ m r} h := by
    have henter : m.Logs m.entered := .of_eq rfl rfl
    exact leave_logs (henter.trans h)
  ref {name m r} h := by
    have hfound : m.Logs (m.resolve name).2 :=
      ⟨(m.grammar.resolve name).2.trace, rfl, m.grammar.resolve_logs name⟩
    exact hfound.trans h
  terminal name m := m.matchTerminal_logs name
  scope {_ m r} h := by
    obtain ⟨o, m'⟩ := r
    cases o <;> exact h
  nil _ _ := .of_eq rfl rfl
  cons h h' := h.trans h'
  stop _ _ h := h
  exhausted _ := .of_eq rfl rfl
  first _ _ h := h
  next h hu h' := (h.trans (.undo ⟨rfl, fun _ => rfl⟩ (.inl hu))).trans h'
  stuck _ h hu := h.trans (.undo ⟨rfl, fun _ => rfl⟩ (.inr ⟨_, hu⟩))
  action a m := m.act_logs a
  terminated h := atEnd_logs h

end

end Machine

namespace Grammar

/-- What can be done with the grammar `g` without a definition. It is `g'` then; `t` tells of
everything done since, and `taken` are the diagnostics that were taken out of it. The names noted as
entered when a rule is compiled may be any. -/
inductive Generation [Inhabited V] (g : Grammar H V) :
    Grammar H V → Trace H V → List Diagnostic → Prop where
  | start : Generation g g [] []
  | compileVisiting {g' : Grammar H V} {t : Trace H V} {taken : List Diagnostic}
    (h : Generation g g' t taken) (rule : Rule H V) (visited : List String) :
    Generation g (g'.compileVisiting rule visited).2.grammar
      ((g'.compileVisiting rule visited).2.trace ++ t) taken
  | resolve {g' : Grammar H V} {t : Trace H V} {taken : List Diagnostic}
    (h : Generation g g' t taken) (name : String) :
    Generation g (g'.resolve name).2.grammar ((g'.resolve name).2.trace ++ t) taken
  | execute {m : Machine H V} {t new : Trace H V} {taken : List Diagnostic}
    (h : Generation g m.grammar t taken) (budget : Nat) (rule : Rule H V)
    (hnew : (m.execute budget rule).2.trace = new ++ m.trace) :
    Generation g (m.execute budget rule).2.grammar (new ++ t) taken
  | clearDiagnostics {g' : Grammar H V} {t : Trace H V} {taken : List Diagnostic}
    (h : Generation g g' t taken) :
    Generation g g'.clearDiagnostics t (taken ++ g'.diagnostics)

theorem Generation.logs [Inhabited V] {g g' : Grammar H V} {t : Trace H V} {taken : List Diagnostic}
    (h : g.Generation g' t taken) :
    g'.bodies = g.bodies ∧ taken ++ g'.diagnostics = g.diagnostics ++ t.reports ∧
      ∀ name, g.Once g' name t := by
  have hstep : ∀ {g' g'' : Grammar H V} {t t' : Trace H V} {taken : List Diagnostic},
      (g'.bodies = g.bodies ∧ taken ++ g'.diagnostics = g.diagnostics ++ t.reports ∧
        ∀ name, g.Once g' name t) → g'.Logs g'' t' →
      g''.bodies = g.bodies ∧
        taken ++ g''.diagnostics = g.diagnostics ++ Trace.reports (t' ++ t) ∧
        ∀ name, g.Once g'' name (t' ++ t) := by
    rintro g' g'' t t' taken ⟨hb, hr, honce⟩ h
    refine ⟨h.bodies.trans hb, ?_, fun name => (honce name).trans hb (h.once name)⟩
    rw [h.recorded, ← List.append_assoc, hr, Trace.reports_append, List.append_assoc]
  induction h with
  | start => exact ⟨rfl, (List.append_nil _).symm, fun _ => .unchanged rfl rfl⟩
  | @compileVisiting g' t taken _ rule visited ih =>
    exact hstep ih (g'.compileVisiting_logs rule visited)
  | @resolve g' t taken _ name ih => exact hstep ih (g'.resolve_logs name)
  | @execute m t new taken _ budget rule hnew ih =>
    obtain ⟨t', ht', hlogs⟩ := Machine.logs_executes.execute budget rule m
    rw [List.append_cancel_right (hnew.symm.trans ht')]
    exact hstep ih hlogs
  | @clearDiagnostics g' t taken _ ih =>
    obtain ⟨hb, hr, honce⟩ := ih
    have hclear : ∀ name, g'.Once g'.clearDiagnostics name [] := fun _ => .unchanged rfl rfl
    exact ⟨hb, (List.append_nil _).trans hr, fun name => (honce name).trans hb (hclear name)⟩

/-- Between two definitions, whatever is compiled, looked up, run or taken, bodies stay as they are.
A name with a compiled form keeps it. A name without one gets one once at most, from its own body,
and keeps it; while that body is compiled each reference in it to a name that means nothing is
recorded, and no other diagnostic of the body is, then or later. What is recorded at all, taken
since or not, is what the events tell. -/
theorem Generation.compiles_once [Inhabited V] {g g' : Grammar H V} {t : Trace H V}
    {taken : List Diagnostic} (h : g.Generation g' t taken) :
    (∀ name, g'.source? name = g.source? name) ∧
    taken ++ g'.diagnostics = g.diagnostics ++ t.reports ∧
    ∀ name, g.Once g' name t ∧
      t.reports.filter (·.referrer? == some name) =
        if g'.isCompiled name = g.isCompiled name then []
        else g.bodies.reports (some name) (g.bodies.refsOf name) := by
  obtain ⟨hb, hr, honce⟩ := h.logs
  refine ⟨fun name => ?_, hr, fun name => ⟨honce name, (honce name).reports⟩⟩
  rw [← bodies_source?, hb, bodies_source?]

def entwined : Grammar Unit Nat :=
  ((ofTerminals ["x"]).define "a" (.sequence [.ref "b", .ref "u", .ref "u"])).define "b"
    (.alternative [.ref "a", .ref "x", .ref "w"])

def resumed : Machine Unit Nat where
  grammar := ((entwined.compileVisiting (.ref "b") ["a"]).2.grammar.clearDiagnostics.resolve
    "a").2.grammar
  source := .ofList [⟨"x", 7⟩]
  stack := .empty
  guard := ⟨0, none⟩
  host := ()
  trace := []

theorem entwined_compiles_once : ∃ t,
    entwined.Generation (resumed.execute 9 (.ref "a")).2.grammar t
      [.report .compile (.undefinedSymbol "w" (some "b"))] ∧
    entwined.Once (resumed.execute 9 (.ref "a")).2.grammar "a" t ∧
    t.reports.filter (·.referrer? == some "a") =
      [.report .compile (.undefinedSymbol "u" (some "a")),
        .report .compile (.undefinedSymbol "u" (some "a"))] := by
  have hrun : entwined.Generation (resumed.execute 9 (.ref "a")).2.grammar _
      [.report .compile (.undefinedSymbol "w" (some "b"))] :=
    .execute (m := resumed) (.resolve (.clearDiagnostics (.compileVisiting .start (.ref "b") ["a"]))
      "a") 9 (.ref "a") (List.append_nil _).symm
  obtain ⟨-, -, honce⟩ := hrun.compiles_once
  obtain ⟨hform, hreports⟩ := honce "a"
  have hnone : entwined.isCompiled "a" = false := rfl
  have hsome : (resumed.execute 9 (.ref "a")).2.grammar.isCompiled "a" = true := by cbv
  rw [hsome, hnone, if_neg (by decide)] at hreports
  exact ⟨_, hrun, hform, hreports⟩

end Grammar

end OrderedChoice
