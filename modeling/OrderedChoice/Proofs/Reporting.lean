import OrderedChoice.Proofs.Compilation
import OrderedChoice.Proofs.Execution

set_option autoImplicit false

/-!
# What compilation reaches and reports

Compiling a rule compiles the names that can be reached from its references, and no others, and
reports each reference to a name that means nothing: those in the rule itself and those in the
bodies compiled on the way, each body once. Names that are found compiled cut the walk short;
nothing is missed, because what they refer to has then been compiled with them. `Walks` collects
what has to be checked of a relation for it to hold from the beginning to the end of every such
walk.
-/

namespace OrderedChoice

variable {H V : Type}

namespace Rule

variable (resolve : String → Compiling H V → Option (Rule H V) × Compiling H V)

mutual
/-- Compilation looks up the references one after the other; the forms found for them play no part
in what happens to the grammar. -/
theorem compileWith_snd : (rule : Rule H V) → (c : Compiling H V) →
    (compileWith resolve rule c).2 = rule.refs.foldl (fun c name => (resolve name c).2) c
  | ref name, c => by
    rw [compileWith, refs, List.foldl_cons, List.foldl_nil]
    generalize resolve name c = r
    obtain ⟨form, c'⟩ := r
    cases form <;> rfl
  | terminal _, _ => rfl
  | scope _, _ => rfl
  | sequence parts, c => compilePartsWith_snd parts c
  | alternative parts, c => compilePartsWith_snd parts c
  | action _, _ => rfl
  | terminated body, c => compileWith_snd body c

theorem compilePartsWith_snd : (parts : List (Rule H V)) → (c : Compiling H V) →
    (compilePartsWith resolve parts c).2 =
      (partRefs parts).foldl (fun c name => (resolve name c).2) c
  | [], _ => rfl
  | part :: parts, c => by
    rw [partRefs, List.foldl_append, ← compileWith_snd part c]
    exact compilePartsWith_snd parts (compileWith resolve part c).2
end

end Rule

namespace Bodies

variable (b : Bodies H V)

def refsOf (name : String) : List String :=
  match b.source? name with
  | some source => source.refs
  | none => []

def unknown (name : String) : Bool :=
  !b.isTerminal name && (b.source? name).isNone

/-- What is to be reported of references that stand in the body of `owner`. -/
def reports (owner : Option String) (names : List String) : List Diagnostic :=
  (names.filter b.unknown).map fun name => .report .compile (.undefinedSymbol name owner)

def bodyReports (names : List String) : List Diagnostic :=
  names.flatMap fun name => b.reports (some name) (b.refsOf name)

/-- The names that are among `top` or in the body of such a name, and so on. -/
inductive Reach (top : List String) : String → Prop where
  | top {name : String} (h : name ∈ top) : Reach top name
  | body {owner name : String} (ho : Reach top owner) (hd : b.Defines owner)
    (hn : name ∈ b.refsOf owner) : Reach top name

variable {b}

theorem Reach.mono {top top' : List String} {name : String} (h : b.Reach top name)
    (hsub : top ⊆ top') : b.Reach top' name := by
  induction h with
  | top h => exact .top (hsub h)
  | body _ hd hn ih => exact .body ih hd hn

theorem Reach.of_body {top : List String} {owner name : String} (ho : owner ∈ top)
    (hd : b.Defines owner) (h : b.Reach (b.refsOf owner) name) : b.Reach top name := by
  induction h with
  | top h => exact .body (.top ho) hd h
  | body _ hd' hn ih => exact .body ih hd' hn

theorem reports_append (owner : Option String) (names names' : List String) :
    b.reports owner (names ++ names') = b.reports owner names ++ b.reports owner names' := by
  rw [reports, List.filter_append, List.map_append]
  rfl

theorem reports_eq_nil {owner : Option String} {names : List String} :
    b.reports owner names = [] ↔ ∀ name ∈ names, b.unknown name = false := by
  simp [reports]

theorem bodyReports_append (names names' : List String) :
    b.bodyReports (names ++ names') = b.bodyReports names ++ b.bodyReports names' :=
  List.flatMap_append

theorem bodyReports_cons (name : String) (names : List String) :
    b.bodyReports (name :: names) = b.reports (some name) (b.refsOf name) ++ b.bodyReports names :=
  rfl

theorem bodyReports_eq_nil {names : List String} :
    b.bodyReports names = [] ↔
      ∀ owner ∈ names, ∀ name ∈ b.refsOf owner, b.unknown name = false := by
  rw [bodyReports, List.flatMap_eq_nil_iff]
  exact forall₂_congr fun _ _ => reports_eq_nil

end Bodies

namespace Grammar

def walk (budget : Nat) (owner : Option String) (names : List String) (c : Compiling H V) :
    Compiling H V :=
  names.foldl (fun c name => (resolveWithin budget owner name c).2) c

/-- What has to be checked of a relation between the states before and after the references of one
body are looked up, for it to hold of every walk: `L owner names` is about references to `names` in
the body of `owner`, or in none. -/
structure Walks (L : Option String → List String → Compiling H V → Compiling H V → Prop) :
    Prop where
  nil (owner : Option String) (c : Compiling H V) : L owner [] c c
  append {owner : Option String} {names names' : List String} {c c' c'' : Compiling H V}
    (h : L owner names c c') (h' : L owner names' c' c'') : L owner (names ++ names') c c''
  settled {owner : Option String} {name : String} {c : Compiling H V}
    {r : Option (Rule H V) × Compiling H V} (h : Settled owner name c r) : L owner [name] c r.2
  enter {owner : Option String} {name : String} {c : Compiling H V} {source : Rule H V}
    {budget : Nat} (hf : Fresh c name source) (hb : (c.visit name).unentered ≤ budget)
    (h : L (some name) source.refs (c.visit name)
      (source.compileWith (resolveWithin budget (some name)) (c.visit name)).2) :
    L owner [name] c (resolveWithin (budget + 1) owner name c).2

section

variable {L : Option String → List String → Compiling H V → Compiling H V → Prop}

theorem Walks.walk (hL : Walks L) {budget : Nat} {owner : Option String}
    (h : ∀ name (c : Compiling H V), c.unentered ≤ budget →
      L owner [name] c (resolveWithin budget owner name c).2)
    (names : List String) (c : Compiling H V) (hc : c.unentered ≤ budget) :
    L owner names c (walk budget owner names c) := by
  induction names generalizing c with
  | nil => exact hL.nil owner c
  | cons name names ih =>
    have hext := resolveWithin_extends budget owner name c
    exact hL.append (h name c hc) (ih _ (Nat.le_trans (Compiling.unentered_le hext) hc))

theorem Walks.resolveWithin (hL : Walks L) (budget : Nat) (owner : Option String) (name : String)
    (c : Compiling H V) (hc : c.unentered ≤ budget) :
    L owner [name] c (resolveWithin budget owner name c).2 := by
  refine resolveWithin_induction (fun h => hL.settled h) ?_ budget owner name c hc
  intro budget owner name c source hf hb ih
  refine hL.enter hf hb ?_
  rw [Rule.compileWith_snd]
  exact hL.walk ih source.refs (c.visit name) hb

theorem Walks.compileVisiting (hL : Walks L) (g : Grammar H V) (rule : Rule H V)
    (visited : List String) :
    L none rule.refs ⟨g, visited, []⟩ (g.compileVisiting rule visited).2 := by
  rw [Grammar.compileVisiting, Rule.compileWith_snd]
  exact hL.walk (hL.resolveWithin g.bodyCount none) rule.refs _
    (unentered_le_bodyCount g visited [])

theorem Walks.resolve (hL : Walks L) (g : Grammar H V) (name : String) :
    L none [name] ⟨g, [], []⟩ (g.resolve name).2 := by
  have h := hL.resolveWithin g.bodyCount none name _ (unentered_le_bodyCount g [] [])
  rw [Grammar.resolve]
  generalize Grammar.resolveWithin g.bodyCount none name ⟨g, [], []⟩ = r at h
  obtain ⟨form, c⟩ := r
  cases form <;> exact h

end

structure Ahead (names : List String) (c : Compiling H V) (name : String) : Prop where
  unvisited : name ∉ c.visited
  uncompiled : c.grammar.isCompiled name = false
  defined : c.grammar.bodies.Defines name
  reached : c.grammar.bodies.Reach names name

/-- A name that is not left out on the way from `c` to `c'`: its body, if it has one, is compiled in
the end or had been entered before. -/
def Covered (c c' : Compiling H V) (name : String) : Prop :=
  c.grammar.bodies.Defines name → c'.grammar.isCompiled name = true ∨ name ∈ c.visited

/-- What a walk over `names` from `c` to `c'` has done, if it has compiled the bodies of `fresh`. -/
structure Walked (owner : Option String) (names : List String) (c c' : Compiling H V)
    (fresh : List String) : Prop where
  bodies : c'.grammar.bodies = c.grammar.bodies
  visited (name : String) : name ∈ c'.visited ↔ name ∈ c.visited ∨ name ∈ fresh
  compiled (name : String) : c'.grammar.isCompiled name = true ↔
    c.grammar.isCompiled name = true ∨ name ∈ fresh
  reported : ∃ added, c'.grammar.diagnostics = c.grammar.diagnostics ++ added ∧
    added.Perm (c.grammar.bodies.reports owner names ++ c.grammar.bodies.bodyReports fresh)
  nodup : fresh.Nodup
  ahead {name : String} (h : name ∈ fresh) : Ahead names c name
  covered {name : String} (h : name ∈ names) : Covered c c' name
  closed {owner name : String} (ho : owner ∈ fresh) (hn : name ∈ c.grammar.bodies.refsOf owner) :
    Covered c c' name

section

variable {owner : Option String} {names names' fresh fresh' : List String}
  {c c' c'' : Compiling H V} {name : String} {source : Rule H V}

theorem Walked.nil (owner : Option String) (c : Compiling H V) : Walked owner [] c c [] where
  bodies := rfl
  visited := by simp
  compiled := by simp
  reported := ⟨[], by simp, .refl _⟩
  nodup := .nil
  ahead := nofun
  covered := nofun
  closed := nofun

theorem Walked.ahead_of_later (h : Walked owner names c c' fresh) (ha : Ahead names' c' name) :
    Ahead (names ++ names') c name ∧ name ∉ fresh := by
  obtain ⟨hv, hc, hd, hr⟩ := ha
  rw [h.visited, not_or] at hv
  rw [← Bool.not_eq_true, h.compiled, not_or, Bool.not_eq_true] at hc
  rw [h.bodies] at hd hr
  exact ⟨⟨hv.1, hc.1, hd, hr.mono (List.subset_append_right names names')⟩, hv.2⟩

theorem Walked.covered_of_earlier (h' : Walked owner names' c' c'' fresh')
    (hc : Covered c c' name) : Covered c c'' name :=
  fun hd => (hc hd).imp_left fun hc => (h'.compiled name).mpr (.inl hc)

theorem Walked.covered_of_later (h : Walked owner names c c' fresh)
    (h' : Walked owner names' c' c'' fresh') (hc : Covered c' c'' name) : Covered c c'' name := by
  intro hd
  rcases hc (by rw [h.bodies]; exact hd) with hc | hv
  · exact .inl hc
  · rcases (h.visited name).mp hv with hv | hf
    · exact .inr hv
    · exact .inl ((h'.compiled name).mpr (.inl ((h.compiled name).mpr (.inr hf))))

theorem Walked.append (h : Walked owner names c c' fresh) (h' : Walked owner names' c' c'' fresh') :
    Walked owner (names ++ names') c c'' (fresh ++ fresh') where
  bodies := h'.bodies.trans h.bodies
  visited name := by rw [h'.visited, h.visited, List.mem_append, or_assoc]
  compiled name := by rw [h'.compiled, h.compiled, List.mem_append, or_assoc]
  reported := by
    obtain ⟨added, hadded, hperm⟩ := h.reported
    obtain ⟨added', hadded', hperm'⟩ := h'.reported
    refine ⟨added ++ added', by rw [hadded', hadded, List.append_assoc], ?_⟩
    rw [h.bodies] at hperm'
    rw [Bodies.reports_append, Bodies.bodyReports_append]
    refine (hperm.append hperm').trans (List.perm_iff_count.mpr fun d => ?_)
    simp only [List.count_append]
    omega
  nodup := by
    refine List.nodup_append.mpr ⟨h.nodup, h'.nodup, fun name hf name' hf' heq => ?_⟩
    exact (h.ahead_of_later (h'.ahead hf')).2 (heq ▸ hf)
  ahead hf := by
    rcases List.mem_append.mp hf with hf | hf
    · have ha := h.ahead hf
      exact { ha with reached := ha.reached.mono (List.subset_append_left names names') }
    · exact (h.ahead_of_later (h'.ahead hf)).1
  covered hn := by
    rcases List.mem_append.mp hn with hn | hn
    · exact h'.covered_of_earlier (h.covered hn)
    · exact h.covered_of_later h' (h'.covered hn)
  closed ho hn := by
    rcases List.mem_append.mp ho with ho | ho
    · exact h'.covered_of_earlier (h.closed ho hn)
    · exact h.covered_of_later h' (h'.closed ho (by rw [h.bodies]; exact hn))

theorem Walked.found (hk : c.grammar.bodies.unknown name = false) (hc : Covered c c name) :
    Walked owner [name] c c [] :=
  { Walked.nil owner c with
    reported := ⟨[], by simp, by simp [Bodies.reports, Bodies.bodyReports, hk]⟩
    ahead := nofun
    covered := fun hn => List.mem_singleton.mp hn ▸ hc }

theorem Settled.walked {r : Option (Rule H V) × Compiling H V} (h : Settled owner name c r) :
    Walked owner [name] c r.2 [] := by
  cases h with
  | terminal ht =>
    refine .found (by simp [Bodies.unknown, ht]) fun hd => ?_
    rw [Bodies.Defines, bodies_isTerminal, ht] at hd
    cases hd.1
  | missing ht hn =>
    have hsource : c.grammar.bodies.source? name = none := by
      rw [bodies_source?, source?, hn]
      rfl
    have hunknown : c.grammar.bodies.unknown name = true := by
      simp only [Bodies.unknown, bodies_isTerminal, ht, hsource]
      rfl
    exact
      { Walked.nil owner c with
        reported := ⟨_, rfl, by simp [Bodies.reports, Bodies.bodyReports, hunknown]⟩
        ahead := fun hm => absurd hm List.not_mem_nil
        covered := fun hm hd => by
          rw [List.mem_singleton.mp hm, Bodies.Defines, hsource] at hd
          cases hd.2 }
  | known ht he =>
    refine .found (by simp [Bodies.unknown, source?_of_get? he]) fun _ => .inl ?_
    rw [isCompiled, compiled?, he]
    rfl
  | entered ht he hv =>
    exact .found (by simp [Bodies.unknown, source?_of_get? he]) fun _ => .inr hv

theorem Fresh.bodies_source? (hf : Fresh c name source) :
    c.grammar.bodies.source? name = some source := by
  rw [Grammar.bodies_source?]
  exact source?_of_get? hf.2.1

theorem Fresh.refsOf (hf : Fresh c name source) :
    c.grammar.bodies.refsOf name = source.refs := by
  rw [Bodies.refsOf, hf.bodies_source?]

theorem Fresh.ahead (hf : Fresh c name source) : Ahead [name] c name where
  unvisited := hf.2.2
  uncompiled := by rw [isCompiled, compiled?, hf.2.1]; rfl
  defined := ⟨hf.1, by rw [hf.bodies_source?]; rfl⟩
  reached := .top List.mem_cons_self

theorem isCompiled_memoize (hd : c.grammar.bodies.Defines name) (form : Rule H V)
    (other : String) : (c.memoize name form).grammar.isCompiled other = true ↔
      c.grammar.isCompiled other = true ∨ other = name := by
  simp only [isCompiled, compiled?, Compiling.memoize, Table.get?_memoize]
  by_cases hn : other = name
  · obtain ⟨source, hs⟩ := Option.isSome_iff_exists.mp hd.2
    rw [Grammar.bodies_source?] at hs
    obtain ⟨e, he, -⟩ := Option.map_eq_some_iff.mp hs
    simp [hn, he]
  · simp [hn]

theorem Walked.memoize (hf : Fresh c name source)
    (h : Walked (some name) source.refs (c.visit name) c' fresh) (form : Rule H V) :
    Walked owner [name] c (c'.memoize name form) (name :: fresh) := by
  have hcompiled : ∀ other, (c'.memoize name form).grammar.isCompiled other = true ↔
      c'.grammar.isCompiled other = true ∨ other = name :=
    isCompiled_memoize (h.bodies.symm ▸ hf.ahead.defined) form
  -- What the walk over the body leaves open is the name itself, or had been entered before it.
  have hcovered : ∀ other, Covered (c.visit name) c' other →
      Covered c (c'.memoize name form) other := by
    intro other hc hd
    rcases hc hd with hc | hv
    · exact .inl ((hcompiled other).mpr (.inl hc))
    · exact (List.mem_cons.mp hv).imp_left fun hn => (hcompiled other).mpr (.inr hn)
  exact
    { bodies := (c'.memoize_extends name form).1.trans h.bodies
      visited := fun other => by
        refine (h.visited other).trans ?_
        rw [Compiling.visit, List.mem_cons, List.mem_cons]
        exact or_right_comm.trans or_comm
      compiled := fun other => by
        rw [hcompiled, h.compiled, List.mem_cons]
        exact or_assoc.trans (or_congr_right or_comm)
      reported := by
        obtain ⟨added, hadded, hperm⟩ := h.reported
        have hnone : c.grammar.bodies.reports owner [name] = [] := by
          simp [Bodies.reports, Bodies.unknown, hf.bodies_source?]
        refine ⟨added, hadded, ?_⟩
        rw [hnone, Bodies.bodyReports_cons, hf.refsOf]
        exact hperm
      nodup := List.nodup_cons.mpr
        ⟨fun hm => (h.ahead hm).unvisited List.mem_cons_self, h.nodup⟩
      ahead := fun {other} hm => by
        rcases List.mem_cons.mp hm with rfl | hm
        · exact hf.ahead
        · have ha := h.ahead hm
          exact
            { ha with
              unvisited := fun hv => ha.unvisited (List.mem_cons_of_mem name hv)
              reached := .of_body List.mem_cons_self hf.ahead.defined (hf.refsOf ▸ ha.reached) }
      covered := fun hn _ => .inl ((hcompiled _).mpr (.inr (List.mem_singleton.mp hn)))
      closed := fun ho hn => by
        rcases List.mem_cons.mp ho with rfl | ho
        · exact hcovered _ (h.covered (hf.refsOf ▸ hn))
        · exact hcovered _ (h.closed ho hn) }

theorem walked_walks :
    Walks (fun owner names (c c' : Compiling H V) => ∃ fresh, Walked owner names c c' fresh) where
  nil owner c := ⟨[], .nil owner c⟩
  append := by
    rintro owner names names' c c' c'' ⟨fresh, h⟩ ⟨fresh', h'⟩
    exact ⟨fresh ++ fresh', h.append h'⟩
  settled h := ⟨[], h.walked⟩
  enter {_ name _ _ _} hf _ h := by
    obtain ⟨fresh, h⟩ := h
    rw [resolveWithin_succ hf]
    exact ⟨name :: fresh, h.memoize hf _⟩

theorem compile_walked (g : Grammar H V) (rule : Rule H V) :
    ∃ fresh, Walked none rule.refs ⟨g, [], []⟩ (g.compile rule).2 fresh :=
  walked_walks.compileVisiting g rule []

theorem resolve_walked (g : Grammar H V) (name : String) :
    ∃ fresh, Walked none [name] ⟨g, [], []⟩ (g.resolve name).2 fresh :=
  walked_walks.resolve g name

end

def Closed (g : Grammar H V) : Prop :=
  ∀ owner name, g.isCompiled owner = true → name ∈ g.bodies.refsOf owner → g.bodies.Defines name →
    g.isCompiled name = true

section

variable {g : Grammar H V} {owner : Option String} {names fresh : List String} {c : Compiling H V}

theorem Walked.keeps_closed (h : Walked owner names ⟨g, [], []⟩ c fresh) (hg : g.Closed) :
    c.grammar.Closed := by
  intro owner name ho hn hd
  rw [h.bodies] at hn hd
  rcases (h.compiled owner).mp ho with ho | ho
  · exact (h.compiled name).mpr (.inl (hg owner name ho hn hd))
  · exact (h.closed ho hn hd).resolve_right nofun

theorem Walked.compiled_of_reach (h : Walked owner names ⟨g, [], []⟩ c fresh) (hg : g.Closed)
    {name : String} (hr : g.bodies.Reach names name) (hd : g.bodies.Defines name) :
    c.grammar.isCompiled name = true := by
  induction hr with
  | top hn => exact (h.covered hn hd).resolve_right nofun
  | @body owner name _ ho hn ih =>
    have hclosed := h.keeps_closed hg
    rw [Closed, h.bodies] at hclosed
    exact hclosed owner name (ih ho) hn hd

theorem Walked.isCompiled_iff (h : Walked owner names ⟨g, [], []⟩ c fresh) (hg : g.Closed)
    (name : String) : c.grammar.isCompiled name = true ↔
      g.isCompiled name = true ∨ g.bodies.Defines name ∧ g.bodies.Reach names name := by
  constructor
  · intro hc
    exact ((h.compiled name).mp hc).imp_right fun hf => ⟨(h.ahead hf).defined, (h.ahead hf).reached⟩
  · rintro (hc | ⟨hd, hr⟩)
    · exact (h.compiled name).mpr (.inl hc)
    · exact h.compiled_of_reach hg hr hd

end

/-- The states of a grammar whose compilations all begin with no name noted as entered. -/
inductive Grown [Inhabited V] : Grammar H V → Prop where
  | start (terminals : List String) : Grown (.ofTerminals terminals)
  | define {g : Grammar H V} (h : Grown g) (name : String) (body : Rule H V) :
    Grown (g.define name body)
  | compile {g : Grammar H V} (h : Grown g) (rule : Rule H V) : Grown (g.compile rule).2.grammar
  | resolve {g : Grammar H V} (h : Grown g) (name : String) : Grown (g.resolve name).2.grammar
  | execute {m : Machine H V} (h : Grown m.grammar) (budget : Nat) (rule : Rule H V) :
    Grown (m.execute budget rule).2.grammar
  | clearDiagnostics {g : Grammar H V} (h : Grown g) : Grown g.clearDiagnostics

theorem Closed.resolve {g : Grammar H V} (h : g.Closed) (name : String) :
    (g.resolve name).2.grammar.Closed := by
  obtain ⟨fresh, hw⟩ := g.resolve_walked name
  exact hw.keeps_closed h

theorem Grown.closed [Inhabited V] {g : Grammar H V} (hg : g.Grown) : g.Closed := by
  induction hg with
  | start terminals => exact fun owner name ho => nomatch ho
  | @define g _ name body _ =>
    intro owner other ho
    rw [isCompiled, compiled?_define] at ho
    cases ho
  | @compile g _ rule ih =>
    obtain ⟨fresh, hw⟩ := g.compile_walked rule
    exact hw.keeps_closed ih
  | resolve _ name ih => exact ih.resolve name
  | execute _ budget rule ih =>
    exact Machine.execute_grammar_of_resolve (fun _ name h => h.resolve name) budget rule ih
  | clearDiagnostics _ ih => exact ih

/-- Compiling a rule, in every state of a grammar, compiles the names that can be reached from its
references and have a body. It reports each reference to a name that means nothing, those in the
rule without an owner and those in a body with its name, for the bodies of the names that it has
compiled and that were not compiled before. So it reports nothing exactly if all these references
mean something. -/
theorem compile_reaches_and_reports [Inhabited V] {g : Grammar H V} (hg : g.Grown)
    (rule : Rule H V) :
    (∀ name, (g.compile rule).2.grammar.isCompiled name = true ↔
      g.isCompiled name = true ∨ g.bodies.Defines name ∧ g.bodies.Reach rule.refs name) ∧
    ∃ (fresh : List String) (added : List Diagnostic), fresh.Nodup ∧
      (∀ name, name ∈ fresh ↔
        (g.compile rule).2.grammar.isCompiled name = true ∧ g.isCompiled name = false) ∧
      (g.compile rule).2.grammar.diagnostics = g.diagnostics ++ added ∧
      added.Perm (g.bodies.reports none rule.refs ++ g.bodies.bodyReports fresh) ∧
      (added = [] ↔ ∀ name, (name ∈ rule.refs ∨ ∃ owner ∈ fresh, name ∈ g.bodies.refsOf owner) →
        g.bodies.unknown name = false) := by
  obtain ⟨fresh, h⟩ := g.compile_walked rule
  obtain ⟨added, hadded, hperm⟩ := h.reported
  refine ⟨h.isCompiled_iff hg.closed, fresh, added, h.nodup, fun name => ?_, hadded, hperm, ?_⟩
  · constructor
    · exact fun hf => ⟨(h.compiled name).mpr (.inr hf), (h.ahead hf).uncompiled⟩
    · rintro ⟨hc, hn⟩
      refine ((h.compiled name).mp hc).resolve_left ?_
      rw [show Compiling.grammar ⟨g, [], []⟩ = g from rfl, hn]
      exact Bool.false_ne_true
  · have hempty : added = [] ↔
        g.bodies.reports none rule.refs = [] ∧ g.bodies.bodyReports fresh = [] := by
      rw [← List.append_eq_nil_iff]
      exact ⟨fun he => (he ▸ hperm).nil_eq.symm, fun he => (he ▸ hperm).eq_nil⟩
    rw [hempty, Bodies.reports_eq_nil, Bodies.bodyReports_eq_nil]
    constructor
    · rintro ⟨htop, hbody⟩ name (hn | ⟨owner, ho, hn⟩)
      · exact htop name hn
      · exact hbody owner ho name hn
    · intro hall
      exact ⟨fun name hn => hall name (.inl hn),
        fun owner ho name hn => hall name (.inr ⟨owner, ho, hn⟩)⟩

def tangled : Grammar Unit Nat :=
  (((((ofTerminals ["x"]).define "a" (.sequence [.ref "b", .ref "u", .ref "u"])).define "b"
    (.alternative [.ref "a", .ref "x", .ref "w"])).define "d" (.ref "v")).resolve
      "d").2.grammar.clearDiagnostics

theorem tangled_reports : tangled.Grown ∧ tangled.isCompiled "d" = true ∧
    (tangled.compile (.sequence [.ref "a", .ref "d", .ref "z"])).2.grammar.isCompiled "b" = true ∧
    ∃ (fresh : List String) (added : List Diagnostic), added ≠ [] ∧
      (tangled.compile (.sequence [.ref "a", .ref "d", .ref "z"])).2.grammar.diagnostics =
        tangled.diagnostics ++ added ∧
      added.Perm
        (tangled.bodies.reports none ["a", "d", "z"] ++ tangled.bodies.bodyReports fresh) := by
  have hgrown : tangled.Grown :=
    .clearDiagnostics (.resolve (.define (.define (.define (.start _) _ _) _ _) _ _) _)
  have ha : tangled.bodies.Defines "a" := ⟨rfl, rfl⟩
  have hb : tangled.bodies.Defines "b" := ⟨rfl, rfl⟩
  have hreach : tangled.bodies.Reach ["a", "d", "z"] "b" := .body (.top (by simp)) ha (by decide)
  obtain ⟨hcompiled, fresh, added, -, -, hadded, hperm, hempty⟩ :=
    compile_reaches_and_reports hgrown (.sequence [.ref "a", .ref "d", .ref "z"])
  refine ⟨hgrown, rfl, (hcompiled "b").mpr (.inr ⟨hb, hreach⟩), fresh, added, fun hnil => ?_,
    hadded, hperm⟩
  have hz : tangled.bodies.unknown "z" = false := hempty.mp hnil "z" (.inl (by decide))
  cases hz

end Grammar

end OrderedChoice
