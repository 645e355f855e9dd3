import OrderedChoice.Proofs.Aliases
import OrderedChoice.Proofs.Linking

set_option autoImplicit false

/-!
# The references that compilation leaves

Which references compilation leaves in place depends on where it began. But each of them is to a
name that comes back to itself, and unless aliases lead from it in a circle, the name is compiled in
the end to a frame around a body: whoever looks it up is not sent on to another name. While bodies
are being compiled inside each other, this is known of an open one as soon as a body that gets a
frame has been entered inside it.
-/

namespace OrderedChoice

variable {H V : Type}

namespace Grammar

def Grows (g g' : Grammar H V) : Prop :=
  ∀ name form, g.compiled? name = some form → g'.compiled? name = some form

/-- A name that leads to a body and is compiled to a frame with no mere reference in it. -/
def Direct (b : Bodies H V) (g : Grammar H V) (name : String) : Prop :=
  ∃ body inner, b.Arrives name body ∧ g.compiled? name = some (.scope inner) ∧ inner.framed = true

/-- A name that will be direct once it is compiled. -/
def Solid (b : Bodies H V) (g : Grammar H V) (name : String) : Prop :=
  (∃ source, b.isTerminal name = false ∧ b.source? name = some source ∧ source.framed = true) ∨
    ∃ other, b.Alias name other ∧ g.Direct b other

/-- A name of `path` that is solid or has a solid one before it. -/
def Sure (b : Bodies H V) (g : Grammar H V) (path : List String) (name : String) : Prop :=
  ∃ first rest, first :: rest <:+ path ∧ g.Solid b first ∧ name ∈ first :: rest

/-- The names to which references may be left while the bodies of `path` are being compiled. -/
def Held (b : Bodies H V) (g : Grammar H V) (path : List String) (name : String) : Prop :=
  b.Recursive name ∧ (b.Circles name ∨ g.Direct b name ∨ g.Sure b path name)

variable {b : Bodies H V} {g g' g'' : Grammar H V} {path : List String} {first name : String}

theorem Grows.refl (g : Grammar H V) : g.Grows g :=
  fun _ _ h => h

theorem Grows.trans (h : g.Grows g') (h' : g'.Grows g'') : g.Grows g'' :=
  fun name form hf => h' name form (h name form hf)

theorem Direct.mono (hg : g.Grows g') (h : g.Direct b name) : g'.Direct b name := by
  obtain ⟨body, inner, hl, hf, hinner⟩ := h
  exact ⟨body, inner, hl, hg name _ hf, hinner⟩

theorem Solid.mono (hg : g.Grows g') (h : g.Solid b name) : g'.Solid b name :=
  h.imp_right fun ⟨other, ha, hd⟩ => ⟨other, ha, hd.mono hg⟩

theorem Sure.mono (hg : g.Grows g') (h : g.Sure b path name) : g'.Sure b path name := by
  obtain ⟨first, rest, hsuffix, hsolid, hn⟩ := h
  exact ⟨first, rest, hsuffix, hsolid.mono hg, hn⟩

theorem Sure.mem (h : g.Sure b path name) : name ∈ path := by
  obtain ⟨first, rest, hsuffix, -, hn⟩ := h
  exact hsuffix.subset hn

theorem Held.mono (hg : g.Grows g') (h : g.Held b path name) : g'.Held b path name :=
  ⟨h.1, h.2.imp_right (Or.imp (·.mono hg) (·.mono hg))⟩

theorem Held.cons (h : g.Held b path name) (first : String) : g.Held b (first :: path) name := by
  refine ⟨h.1, h.2.imp_right (Or.imp_right ?_)⟩
  rintro ⟨start, rest, hsuffix, hsolid, hn⟩
  exact ⟨start, rest, hsuffix.trans (List.suffix_cons first path), hsolid, hn⟩

theorem held_nil_iff :
    g.Held b [] name ↔ b.Recursive name ∧ (b.Circles name ∨ g.Direct b name) := by
  refine and_congr_right fun _ => or_congr_right (or_iff_left ?_)
  exact fun h => absurd h.mem List.not_mem_nil

theorem Held.finish (hg : g.Grows g') (hd : g.Solid b first → g'.Direct b first)
    (hl : (first :: path).IsChain fun inner outer => b.Refers outer inner)
    (h : g.Held b (first :: path) name) : g'.Held b path name := by
  refine ⟨h.1, ?_⟩
  rcases h.2 with hc | hdirect | ⟨start, rest, hsuffix, hsolid, hn⟩
  · exact .inl hc
  · exact .inr (.inl (hdirect.mono hg))
  · right
    rcases List.suffix_cons_iff.mp hsuffix with heq | hsuffix
    · cases heq
      rcases List.mem_cons.mp hn with rfl | hn
      · exact .inl (hd hsolid)
      · right
        cases path with
        | nil => cases hn
        | cons outer path =>
          have hrefers := (List.isChain_cons_cons.mp hl).1
          refine ⟨outer, path, List.suffix_refl _, ?_, hn⟩
          exact hrefers.cases.imp_right fun ha => ⟨first, ha, hd hsolid⟩
    · exact .inr ⟨start, rest, hsuffix, hsolid.mono hg, hn⟩

structure Anchored (b : Bodies H V) (path : List String) (g : Grammar H V) : Prop where
  terminal (name : String) : g.isTerminal name = b.isTerminal name
  source (name : String) : g.source? name = b.source? name
  forms {name : String} {form : Rule H V} (hf : g.compiled? name = some form) :
    ∃ source body, b.source? name = some source ∧ b.Unrolls (g.Held b path) source body ∧
      form = body.enclosed

structure Pending (b : Bodies H V) (path : List String) (c : Compiling H V) : Prop
    extends Anchored b path c.grammar where
  finished {name : String} (hv : name ∈ c.visited) :
    name ∈ path ∨ c.grammar.isCompiled name = true
  opened {name : String} (hp : name ∈ path) :
    name ∈ c.visited ∧ c.grammar.compiled? name = none
  nodup : path.Nodup
  linked : path.IsChain fun inner outer => b.Refers outer inner

section

variable {c : Compiling H V} {source body : Rule H V}

theorem transGen_of_isChain (hl : (first :: path).IsChain fun inner outer => b.Refers outer inner)
    (hn : name ∈ path) : Relation.TransGen b.Refers name first := by
  induction path generalizing first with
  | nil => cases hn
  | cons outer path ih =>
    obtain ⟨hrefers, htail⟩ := List.isChain_cons_cons.mp hl
    rcases List.mem_cons.mp hn with rfl | hn
    · exact .single hrefers
    · exact .tail (ih htail hn) hrefers

theorem aliases_of_isChain (hl : (first :: path).IsChain fun inner outer => b.Refers outer inner)
    (hn : name ∈ path) (hsure : ¬g.Sure b path name) :
    ∃ segment : List String, name ∈ segment ∧
      ∀ n ∈ segment, ∃ k, (k = first ∨ k ∈ segment) ∧ b.Alias n k := by
  induction path generalizing first with
  | nil => cases hn
  | cons outer path ih =>
    obtain ⟨hrefers, htail⟩ := List.isChain_cons_cons.mp hl
    -- Where the body of `outer` gets a frame, the names from `outer` on are sure.
    have halias : b.Alias outer first := by
      refine hrefers.cases.resolve_left fun hframed => hsure ?_
      exact ⟨outer, path, List.suffix_refl _, .inl hframed, hn⟩
    rcases List.mem_cons.mp hn with rfl | hn
    · refine ⟨[name], List.mem_singleton_self name, fun n hs => ?_⟩
      cases List.mem_singleton.mp hs
      exact ⟨first, .inl rfl, halias⟩
    · have hrest : ¬g.Sure b path name := by
        rintro ⟨start, rest, hsuffix, hsolid, hm⟩
        exact hsure ⟨start, rest, hsuffix.trans (List.suffix_cons outer path), hsolid, hm⟩
      obtain ⟨segment, hin, hsegment⟩ := ih htail hn hrest
      refine ⟨outer :: segment, List.mem_cons_of_mem outer hin, fun n hs => ?_⟩
      rcases List.mem_cons.mp hs with rfl | hs
      · exact ⟨first, .inl rfl, halias⟩
      · obtain ⟨k, hk, ha⟩ := hsegment n hs
        exact ⟨k, .inr (hk.elim (· ▸ List.mem_cons_self) (List.mem_cons_of_mem outer)), ha⟩

theorem held_of_mem (hl : (name :: path).IsChain fun inner outer => b.Refers outer inner)
    (hn : name ∈ path) : g.Held b path name := by
  refine ⟨transGen_of_isChain hl hn, ?_⟩
  by_cases hsure : g.Sure b path name
  · exact .inr (.inr hsure)
  · obtain ⟨segment, hin, hsegment⟩ := aliases_of_isChain hl hn hsure
    refine .inl (Bodies.circles_of_aliases (S := (· ∈ segment)) (fun n hs => ?_) hin)
    obtain ⟨k, rfl | hk, ha⟩ := hsegment n hs
    · exact ⟨k, hin, ha⟩
    · exact ⟨k, hk, ha⟩

def Inquired (b : Bodies H V) (path : List String) (name : String) : Prop :=
  ∀ owner ∈ path.head?, b.Refers owner name

theorem Pending.isChain (h : Pending b path c) (ha : Inquired b path name) :
    (name :: path).IsChain fun inner outer => b.Refers outer inner := by
  cases path with
  | nil => exact .singleton name
  | cons owner path => exact .cons_cons (ha owner rfl) h.linked

theorem Pending.enter (h : Pending b path c) (ha : Inquired b path name)
    (hf : Fresh c name source) : Pending b (name :: path) (c.visit name) where
  terminal := h.terminal
  source := h.source
  forms hform := by
    obtain ⟨source, body, hs, hb, rfl⟩ := h.forms hform
    exact ⟨source, body, hs, hb.mono fun n hn => hn.cons name, rfl⟩
  finished hv := by
    rcases List.mem_cons.mp hv with rfl | hv
    · exact .inl List.mem_cons_self
    · exact (h.finished hv).imp_left (List.mem_cons_of_mem name)
  opened hp := by
    rcases List.mem_cons.mp hp with rfl | hp
    · refine ⟨List.mem_cons_self, ?_⟩
      rw [Compiling.visit, compiled?, hf.2.1, Option.bind_some]
    · obtain ⟨hv, hnone⟩ := h.opened hp
      exact ⟨List.mem_cons_of_mem name hv, hnone⟩
  nodup := List.nodup_cons.mpr ⟨fun hp => hf.2.2 (h.opened hp).1, h.nodup⟩
  linked := h.isChain ha

theorem Pending.grows_memoize (h : Pending b (name :: path) c) (form : Rule H V) :
    c.grammar.Grows (c.memoize name form).grammar := by
  intro other form' hf
  have hn : other ≠ name := by
    rintro rfl
    rw [(h.opened List.mem_cons_self).2] at hf
    cases hf
  rw [compiled?_memoize, if_neg hn, hf]

theorem Pending.finish (h : Pending b (name :: path) c) (hs : b.source? name = some source)
    (hb : b.Unrolls (c.grammar.Held b (name :: path)) source body)
    (hd : c.grammar.Solid b name → (c.memoize name body.enclosed).grammar.Direct b name) :
    Pending b path (c.memoize name body.enclosed) := by
  have hgrows := h.grows_memoize body.enclosed
  have hheld : ∀ n, c.grammar.Held b (name :: path) n →
      (c.memoize name body.enclosed).grammar.Held b path n :=
    fun n hn => hn.finish hgrows hd h.linked
  refine { terminal := h.terminal, source := ?_, forms := ?_, finished := ?_, opened := ?_,
           nodup := (List.nodup_cons.mp h.nodup).2, linked := h.linked.tail }
  · intro other
    rw [← h.source other, ← bodies_source?, (c.memoize_extends name body.enclosed).1,
      bodies_source?]
  · intro other form hf
    rw [compiled?_memoize] at hf
    split at hf
    · rename_i hn
      subst hn
      obtain ⟨-, -, rfl⟩ := Option.map_eq_some_iff.mp hf
      exact ⟨source, body, hs, hb.mono hheld, rfl⟩
    · obtain ⟨source', body', hs', hb', rfl⟩ := h.forms hf
      exact ⟨source', body', hs', hb'.mono hheld, rfl⟩
  · intro other hv
    rcases h.finished hv with hp | hc
    · rcases List.mem_cons.mp hp with rfl | hp
      · right
        rw [isCompiled, compiled?_memoize, if_pos rfl, h.source, hs]
        rfl
      · exact .inl hp
    · obtain ⟨form, hf⟩ := Option.isSome_iff_exists.mp hc
      right
      rw [isCompiled, hgrows other form hf]
      rfl
  · intro other hp
    have hn : other ≠ name := fun heq => (List.nodup_cons.mp h.nodup).1 (heq ▸ hp)
    obtain ⟨hv, hnone⟩ := h.opened (List.mem_cons_of_mem name hp)
    refine ⟨hv, ?_⟩
    rw [compiled?_memoize, if_neg hn, hnone]

structure Located (b : Bodies H V) (path : List String) (name : String) (c : Compiling H V)
    (r : Option (Rule H V) × Compiling H V) : Prop where
  pending : Pending b path r.2
  grows : c.grammar.Grows r.2.grammar
  form : b.Unrolls (r.2.grammar.Held b path) (.ref name) (r.1.getD (.ref name))
  compiled (hd : b.Defines name) : r.2.grammar.compiled? name = r.1

theorem Settled.located {owner : Option String} {r : Option (Rule H V) × Compiling H V}
    (hs : Settled owner name c r) (h : Pending b path c) (ha : Inquired b path name) :
    Located b path name c r := by
  cases hs with
  | terminal ht =>
    rw [h.terminal] at ht
    refine ⟨h, .refl _, .terminalName ht, fun hd => ?_⟩
    rw [hd.1] at ht
    cases ht
  | missing ht hn =>
    have hnone : b.source? name = none := by rw [← h.source, source?, hn]; rfl
    refine ⟨{ h with }, .refl _, .unknownName (by rw [← h.terminal]; exact ht) hnone, fun hd => ?_⟩
    rw [Bodies.Defines, hnone] at hd
    cases hd.2
  | @known _ form ht he =>
    have hform : c.grammar.compiled? name = some form := by rw [compiled?, he, Option.bind_some]
    obtain ⟨source, body, hs, hb, rfl⟩ := h.forms hform
    exact ⟨h, .refl _, .inlined (by rw [← h.terminal]; exact ht) hs hb, fun _ => hform⟩
  | entered ht he hv =>
    have hnone : c.grammar.compiled? name = none := by rw [compiled?, he, Option.bind_some]
    refine ⟨h, .refl _, .kept (held_of_mem (h.isChain ha) ?_), fun _ => hnone⟩
    refine (h.finished hv).resolve_right fun hc => ?_
    rw [isCompiled, hnone] at hc
    cases hc

theorem held_accrues (b : Bodies H V) (path : List String) :
    Rule.Accrues (fun c c' : Compiling H V => c.grammar.Grows c'.grammar)
      (fun c rule form => b.Unrolls (c.grammar.Held b path) rule form) where
  refl c := .refl c.grammar
  trans := .trans
  mono h hq := hq.mono fun _ hn => hn.mono h
  congruence _ := Bodies.unrolls_congruence

theorem Solid.direct (h : c.grammar.Solid b name) (hp : Pending b (name :: path) c)
    (hs : b.source? name = some source)
    (hb : b.Unrolls (c.grammar.Held b (name :: path)) source body)
    (halias : ∀ other, source = .ref other → b.Defines other →
      body = (c.grammar.compiled? other).getD (.ref other)) :
    (c.memoize name body.enclosed).grammar.Direct b name := by
  have hcompiled : (c.memoize name body.enclosed).grammar.compiled? name = some body.enclosed := by
    rw [compiled?_memoize, if_pos rfl, hp.source, hs, Option.map_some]
  -- The body gets a frame itself, or the name takes over the form of a direct one.
  rcases h with ⟨source', ht, hs', hf⟩ | ⟨other, ha, body', inner, hl, hc, hinner⟩
  · cases hs.symm.trans hs'
    refine ⟨source, body, .body ht hs hf, ?_, hb.framed hf⟩
    rw [hcompiled, Rule.enclosed_of_framed (hb.framed hf)]
  · cases hs.symm.trans ha.2
    have hbody := halias other rfl hl.defines
    rw [hc, Option.getD_some] at hbody
    refine ⟨body', inner, .step ha hl, ?_, hinner⟩
    rw [hcompiled, hbody]
    rfl

theorem Fresh.defines (hf : Fresh c name source) (h : Pending b path c) :
    b.source? name = some source ∧ b.Defines name := by
  have hs : b.source? name = some source := by
    rw [← h.source]
    exact source?_of_get? hf.2.1
  exact ⟨hs, by rw [← h.terminal]; exact hf.1, by rw [hs]; rfl⟩

theorem Fresh.located {resolve : String → Compiling H V → Option (Rule H V) × Compiling H V}
    (hf : Fresh c name source) (h : Pending b path c) (ha : Inquired b path name)
    (hext : ∀ other c', Compiling.Extends c' (resolve other c').2)
    (hresolve : ∀ other ∈ source.refs, ∀ c', (c.visit name).Extends c' →
      Pending b (name :: path) c' → Located b (name :: path) other c' (resolve other c')) :
    Located b path name c (some (source.compileWith resolve (c.visit name)).1.enclosed,
      (source.compileWith resolve (c.visit name)).2.memoize name
        (source.compileWith resolve (c.visit name)).1.enclosed) := by
  obtain ⟨hsource, hdefines⟩ := hf.defines h
  have hyields : ∀ other ∈ source.refs, Rule.Yields resolve
      (fun c' => (c.visit name).Extends c' ∧ Pending b (name :: path) c')
      (fun c c' => c.grammar.Grows c'.grammar)
      (fun c rule form => b.Unrolls (c.grammar.Held b (name :: path)) rule form) other := by
    intro other ho c' hc'
    have hl := hresolve other ho c' hc'.1 hc'.2
    exact ⟨⟨hc'.1.trans (hext other c'), hl.pending⟩, hl.grows, hl.form⟩
  obtain ⟨⟨-, hpending⟩, hgrows, hbody⟩ := Rule.compileWith_accrues
    (held_accrues b (name :: path)) source (c.visit name) hyields ⟨.refl _, h.enter ha hf⟩
  -- An alias is compiled by one look-up, and takes over what is in the table after it.
  have halias : ∀ other, source = .ref other → b.Defines other →
      (source.compileWith resolve (c.visit name)).1 =
        ((source.compileWith resolve (c.visit name)).2.grammar.compiled? other).getD
          (.ref other) := by
    rintro other rfl hd
    have hl := (hresolve other (List.mem_singleton_self other) _ (.refl _)
      (h.enter ha hf)).compiled hd
    rw [Rule.compileWith]
    generalize resolve other (c.visit name) = r at hl
    obtain ⟨form, c'⟩ := r
    cases form with
    | none => exact hl ▸ rfl
    | some form => exact hl ▸ rfl
  generalize source.compileWith resolve (c.visit name) = r at hpending hgrows hbody halias
  obtain ⟨body, c'⟩ := r
  have hdirect := fun hsolid => Solid.direct hsolid hpending hsource hbody halias
  have hmemo := hpending.grows_memoize body.enclosed
  have hheld : ∀ n, c'.grammar.Held b (name :: path) n →
      (c'.memoize name body.enclosed).grammar.Held b path n :=
    fun n hn => hn.finish hmemo hdirect hpending.linked
  refine ⟨hpending.finish hsource hbody hdirect, Grows.trans hgrows hmemo,
    .inlined hdefines.1 hsource (hbody.mono hheld), fun _ => ?_⟩
  rw [compiled?_memoize, if_pos rfl, hpending.source, hsource]
  rfl

theorem resolveWithin_located (budget : Nat) (path : List String) (name : String)
    (c : Compiling H V) (hb : c.unentered ≤ budget) (ha : Inquired b path name)
    (h : Pending b path c) :
    Located b path name c (resolveWithin budget path.head? name c) := by
  refine resolveWithin_induction (P := fun budget owner name c => ∀ path : List String,
    path.head? = owner → Inquired b path name → Pending b path c →
      Located b path name c (resolveWithin budget owner name c))
    ?_ ?_ budget path.head? name c hb path rfl ha h
  · rintro budget _ name c hs path rfl ha h
    exact hs.located h ha
  · rintro budget _ name c source hf hvisit ih path rfl ha h
    rw [resolveWithin_succ hf]
    refine hf.located h ha (resolveWithin_extends budget (some name)) ?_
    intro other ho c' hext hp
    have hle := Nat.le_trans (Compiling.unentered_le hext) hvisit
    refine ih other c' hle (name :: path) rfl (fun owner howner => ?_) hp
    obtain ⟨hsource, hdefines⟩ := hf.defines h
    cases howner
    exact ⟨hdefines, by rw [Bodies.refsOf, hsource]; exact ho⟩

end

theorem Anchored.pending (h : g.Anchored b []) : Pending b [] ⟨g, [], []⟩ where
  toAnchored := h
  finished := nofun
  opened := nofun
  nodup := .nil
  linked := .nil

/-- Compiling a rule leaves only references to names that come back to themselves and are direct
then, or from which aliases lead in a circle. -/
theorem Anchored.compile (h : g.Anchored b []) (rule : Rule H V) :
    (g.compile rule).2.grammar.Anchored b [] ∧ g.Grows (g.compile rule).2.grammar ∧
      b.Unrolls ((g.compile rule).2.grammar.Held b []) rule (g.compile rule).1 := by
  have hstep : ∀ other ∈ rule.refs, Rule.Yields (resolveWithin g.bodyCount none)
      (fun c => Compiling.Extends ⟨g, [], []⟩ c ∧ Pending b [] c)
      (fun c c' => c.grammar.Grows c'.grammar)
      (fun c rule form => b.Unrolls (c.grammar.Held b []) rule form) other := by
    intro other _ c hc
    have hle := Compiling.unentered_le hc.1
    have hcount := unentered_le_bodyCount g [] []
    have hl := resolveWithin_located g.bodyCount [] other c (by omega) nofun hc.2
    exact ⟨⟨hc.1.trans (resolveWithin_extends _ _ _ _), hl.pending⟩, hl.grows, hl.form⟩
  obtain ⟨⟨-, hp⟩, hgrows, hform⟩ := Rule.compileWith_accrues (held_accrues b []) rule ⟨g, [], []⟩
    hstep ⟨.refl _, h.pending⟩
  exact ⟨hp.toAnchored, hgrows, hform⟩

theorem Anchored.resolve (h : g.Anchored b []) (name : String) :
    (g.resolve name).2.grammar.Anchored b [] ∧ g.Grows (g.resolve name).2.grammar ∧
      b.Unrolls ((g.resolve name).2.grammar.Held b []) (.ref name) (g.resolve name).1 := by
  have hl := resolveWithin_located g.bodyCount [] name ⟨g, [], []⟩ (unentered_le_bodyCount g [] [])
    nofun h.pending
  rw [Grammar.resolve]
  rw [List.head?_nil] at hl
  generalize resolveWithin g.bodyCount none name ⟨g, [], []⟩ = r at hl
  obtain ⟨form, c⟩ := r
  cases form <;> exact ⟨hl.pending.toAnchored, hl.grows, hl.form⟩

theorem anchored_of_uncompiled (ht : ∀ name, g.isTerminal name = b.isTerminal name)
    (hs : ∀ name, g.source? name = b.source? name) (h : ∀ name, g.compiled? name = none) :
    g.Anchored b [] where
  terminal := ht
  source := hs
  forms {name form} hf := by
    rw [h] at hf
    cases hf

end Grammar

theorem Parser.Reached.anchored [Inhabited V] {p : Parser H V} (hp : p.Reached) {b : Bodies H V}
    (ht : ∀ name, p.grammar.isTerminal name = b.isTerminal name)
    (hs : ∀ name, p.grammar.source? name = b.source? name) : p.grammar.Anchored b [] := by
  have hsame {g g' : Grammar H V} (h : g'.bodies = g.bodies)
      (ht : ∀ name, g'.isTerminal name = b.isTerminal name)
      (hs : ∀ name, g'.source? name = b.source? name) :
      (∀ name, g.isTerminal name = b.isTerminal name) ∧
        ∀ name, g.source? name = b.source? name := by
    simp only [← Grammar.bodies_isTerminal, ← Grammar.bodies_source?, h] at ht hs
    simp only [← Grammar.bodies_isTerminal, ← Grammar.bodies_source?]
    exact ⟨ht, hs⟩
  induction hp with
  | start terminals => exact Grammar.anchored_of_uncompiled ht hs fun _ => rfl
  | @rule p _ name body _ =>
    exact Grammar.anchored_of_uncompiled ht hs fun other =>
      p.grammar.compiled?_define name other body
  | @compileRule p _ name ih =>
    obtain ⟨ht', hs'⟩ := hsame (p.grammar.resolve_bodies name) ht hs
    exact ((ih ht' hs').resolve name).1
  | @parse p _ budget entry source host ih =>
    rw [parse_grammar, execution] at ht hs ⊢
    have hbodies := (Machine.execute_bodies (p.machine entry source host) budget
      (p.grammar.compile entry).1).trans (p.grammar.compile_bodies entry)
    obtain ⟨ht', hs'⟩ := hsame hbodies ht hs
    exact Machine.execute_grammar_of_resolve (fun _ name h => (h.resolve name).1) budget _
      ((ih ht' hs').compile entry).1
  | setOptions _ _ ih => exact ih ht hs
  | clearDiagnostics _ ih => exact { ih ht hs with }

end OrderedChoice
