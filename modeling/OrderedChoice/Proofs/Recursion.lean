import OrderedChoice.Proofs.Residue

set_option autoImplicit false

namespace OrderedChoice

variable {H V : Type}

namespace Rule

theorem refs_enclosed (r : Rule H V) : r.enclosed.refs = [] := by
  cases r <;> rfl

theorem mem_partRefs {parts : List (Rule H V)} {name : String} :
    name ∈ partRefs parts ↔ ∃ part ∈ parts, name ∈ part.refs := by
  induction parts with
  | nil => simp [partRefs]
  | cons part parts ih => simp [partRefs, ih]

theorem partRefs_eq_nil {parts : List (Rule H V)} (h : ∀ part ∈ parts, part.refs = []) :
    partRefs parts = [] := by
  rw [List.eq_nil_iff_forall_not_mem]
  intro name hn
  obtain ⟨part, hp, hn⟩ := mem_partRefs.mp hn
  rw [h part hp] at hn
  cases hn

theorem partRefs_eq_nil_of_forall₂ {parts forms : List (Rule H V)}
    (h : List.Forall₂ (fun _ form => form.refs = []) parts forms) : partRefs forms = [] := by
  refine partRefs_eq_nil fun form hf => ?_
  induction h with
  | nil => cases hf
  | cons hform _ ih =>
    rcases List.mem_cons.mp hf with rfl | hf
    · exact hform
    · exact ih hf

theorem refs_congruence : Congruence (fun _ form : Rule H V => form.refs = []) :=
  ⟨fun _ => rfl, fun _ => rfl, fun _ => rfl, partRefs_eq_nil_of_forall₂,
    partRefs_eq_nil_of_forall₂, fun h => h⟩

mutual
theorem compileWith_of_refs_eq_nil
    (resolve : String → Compiling H V → Option (Rule H V) × Compiling H V) :
    (rule : Rule H V) → rule.refs = [] → (c : Compiling H V) →
    compileWith resolve rule c = (rule, c)
  | ref _, h, _ => by cases h
  | terminal _, _, _ => rfl
  | scope _, _, _ => rfl
  | sequence parts, h, c => by
    rw [compileWith, compilePartsWith_of_refs_eq_nil resolve parts h c]
  | alternative parts, h, c => by
    rw [compileWith, compilePartsWith_of_refs_eq_nil resolve parts h c]
  | action _, _, _ => rfl
  | terminated body, h, c => by
    rw [compileWith, compileWith_of_refs_eq_nil resolve body h c]

theorem compilePartsWith_of_refs_eq_nil
    (resolve : String → Compiling H V → Option (Rule H V) × Compiling H V) :
    (parts : List (Rule H V)) → partRefs parts = [] → (c : Compiling H V) →
    compilePartsWith resolve parts c = (parts, c)
  | [], _, _ => rfl
  | part :: parts, h, c => by
    obtain ⟨hpart, hparts⟩ := List.append_eq_nil_iff.mp h
    rw [compilePartsWith, compileWith_of_refs_eq_nil resolve part hpart c]
    simp only [compilePartsWith_of_refs_eq_nil resolve parts hparts c]
end

mutual
theorem resolved_iff_madeOf : (r : Rule H V) →
    (r.resolved = true ↔ r.MadeOf (fun _ => False) fun _ => True)
  | ref _ => by simp [resolved, MadeOf]
  | terminal _ => by simp [resolved, MadeOf]
  | scope body => resolved_iff_madeOf body
  | sequence parts => allResolved_iff_partsMadeOf parts
  | alternative parts => allResolved_iff_partsMadeOf parts
  | action _ => by simp [resolved, MadeOf]
  | terminated body => resolved_iff_madeOf body

theorem allResolved_iff_partsMadeOf : (parts : List (Rule H V)) →
    (allResolved parts = true ↔ PartsMadeOf (fun _ => False) (fun _ => True) parts)
  | [] => by simp [allResolved, PartsMadeOf]
  | part :: parts => by
    rw [allResolved, Bool.and_eq_true, PartsMadeOf, resolved_iff_madeOf part,
      allResolved_iff_partsMadeOf parts]
end

end Rule

namespace Bodies

variable {b : Bodies H V} {F : String → Prop} {name : String} {rule form : Rule H V}

theorem Reach.part {parts : List (Rule H V)} (h : b.Reach (Rule.partRefs parts) name) :
    ∃ part ∈ parts, b.Reach part.refs name := by
  induction h with
  | top hn =>
    obtain ⟨part, hp, hn⟩ := Rule.mem_partRefs.mp hn
    exact ⟨part, hp, .top hn⟩
  | body _ hd hn ih =>
    obtain ⟨part, hp, hr⟩ := ih
    exact ⟨part, hp, .body hr hd hn⟩

theorem not_reach_nil : ¬b.Reach [] name := by
  intro h
  induction h with
  | top hn => cases hn
  | body _ _ _ ih => exact ih

theorem Reach.self_or_inside {owner : String} (h : b.Reach [owner] name) :
    name = owner ∨ b.Defines owner ∧ b.Reach (b.refsOf owner) name := by
  induction h with
  | top hn => exact .inl (List.mem_singleton.mp hn)
  | body _ hd hn ih =>
    rcases ih with rfl | ⟨ho, hr⟩
    · exact .inr ⟨hd, .top hn⟩
    · exact .inr ⟨ho, .body hr hd hn⟩

theorem Recursive.next (h : b.Recursive name) :
    b.Defines name ∧ ∃ other ∈ b.refsOf name, b.Recursive other := by
  obtain ⟨other, hrefers, hback⟩ := Relation.TransGen.head'_iff.mp h
  exact ⟨hrefers.1, other, hrefers.2, .tail' hback hrefers⟩

theorem Unrolls.madeOf (hb : ∀ name source, b.source? name = some source → source.ScopeFree)
    (h : b.Unrolls F rule form) (hr : rule.ScopeFree) :
    form.MadeOf (fun n => F n ∧ b.Reach rule.refs n) fun _ => True := by
  have hparts {parts forms : List (Rule H V)} (hl : parts.length = forms.length)
      (ih : ∀ p ∈ parts.zip forms, p.1.ScopeFree →
        p.2.MadeOf (fun n => F n ∧ b.Reach p.1.refs n) fun _ => True)
      (hr : Rule.PartsScopeFree parts) :
      Rule.PartsMadeOf (fun n => F n ∧ b.Reach (Rule.partRefs parts) n) (fun _ => True) forms := by
    refine Rule.partsMadeOf_of_scopeFree (List.forall₂_iff_zip.mpr ⟨hl, ?_⟩) hr
    intro part form hm hpart
    refine Rule.MadeOf.mono (fun n hn => ⟨hn.1, hn.2.mono fun other ho => ?_⟩) form
      (ih _ hm hpart)
    exact Rule.mem_partRefs.mpr ⟨part, (List.of_mem_zip hm).1, ho⟩
  induction h with
  | terminalName => trivial
  | unknownName => trivial
  | @inlined name source body ht hs _ ih =>
    have hd : b.Defines name := ⟨ht, by rw [hs]; rfl⟩
    have hrefs : b.refsOf name = source.refs := by rw [refsOf, hs]
    refine Rule.madeOf_enclosed.mpr (Rule.MadeOf.mono (fun n hn => ⟨hn.1, ?_⟩) body
      (ih (hb name source hs)))
    exact .of_body (List.mem_singleton_self name) hd (hrefs ▸ hn.2)
  | @kept name hn => exact ⟨hn, .top (List.mem_singleton_self name)⟩
  | terminal => trivial
  | scope => exact hr.elim
  | action => trivial
  | sequence hl _ ih => exact hparts hl ih hr
  | alternative hl _ ih => exact hparts hl ih hr
  | terminated _ ih => exact ih hr

/-- If no reference is left, then every name that can be reached has been replaced by its body, and
none of them comes back to itself: that would have to be replaced inside its own body. -/
theorem Unrolls.not_recursive (h : b.Unrolls F rule form)
    (hf : form.MadeOf (fun _ => False) fun _ => True) (hn : b.Reach rule.refs name) :
    ¬b.Recursive name := by
  have hparts {parts forms : List (Rule H V)} {name : String} (hl : parts.length = forms.length)
      (ih : ∀ p ∈ parts.zip forms, ∀ {n}, p.2.MadeOf (fun _ => False) (fun _ => True) →
        b.Reach p.1.refs n → ¬b.Recursive n)
      (hf : Rule.PartsMadeOf (fun _ => False) (fun _ => True) forms)
      (hn : b.Reach (Rule.partRefs parts) name) : ¬b.Recursive name := by
    obtain ⟨part, hp, hn⟩ := hn.part
    obtain ⟨i, hi, rfl⟩ := List.getElem_of_mem hp
    have hm : (parts[i], forms[i]) ∈ parts.zip forms := by
      rw [← List.getElem_zip (h := by simp; omega)]
      exact List.getElem_mem _
    exact ih _ hm (hf.mem (List.of_mem_zip hm).2) hn
  -- A name that has no body neither comes back to itself nor leads anywhere.
  have hundefined {owner name : String} (ho : ¬b.Defines owner) (hn : b.Reach [owner] name) :
      ¬b.Recursive name := by
    rcases hn.self_or_inside with rfl | ⟨hd, -⟩
    · exact fun hrec => ho hrec.next.1
    · exact absurd hd ho
  induction h generalizing name with
  | terminalName ht =>
    refine hundefined (fun hd => ?_) hn
    rw [hd.1] at ht
    cases ht
  | unknownName _ hs =>
    refine hundefined (fun hd => ?_) hn
    rw [Defines, hs] at hd
    cases hd.2
  | @inlined owner source body _ hs _ ih =>
    have hrefs : b.refsOf owner = source.refs := by rw [refsOf, hs]
    have hinside {n : String} (hr : b.Reach (b.refsOf owner) n) : ¬b.Recursive n :=
      ih (Rule.madeOf_enclosed.mp hf) (hrefs ▸ hr)
    rcases hn.self_or_inside with rfl | ⟨-, hr⟩
    · intro hrec
      obtain ⟨-, other, ho, hother⟩ := hrec.next
      exact hinside (.top ho) hother
    · exact hinside hr
  | kept => exact hf.elim
  | terminal => exact absurd hn not_reach_nil
  | scope => exact absurd hn not_reach_nil
  | action => exact absurd hn not_reach_nil
  | sequence hl _ ih => exact hparts hl ih hf hn
  | alternative hl _ ih => exact hparts hl ih hf hn
  | terminated _ ih => exact ih hf hn

end Bodies

namespace Grammar

variable {b : Bodies H V} {g : Grammar H V} {c : Compiling H V}

theorem Pending.found_refs (h : Pending b [] c) {budget : Nat} (hc : c.unentered ≤ budget)
    (name : String) : ((resolveWithin budget none name c).1.getD (.ref name)).refs = [] := by
  obtain hs | ⟨source, hf⟩ := resolveWithin_settled_or_fresh budget none name c
  · generalize resolveWithin budget none name c = r at hs
    cases hs with
    | terminal => rfl
    | missing => rfl
    | known _ he =>
      obtain ⟨source, body, -, -, rfl⟩ := h.forms (by rw [compiled?, he, Option.bind_some])
      exact body.refs_enclosed
    | entered _ he hv =>
      have hcompiled := (h.finished hv).resolve_left List.not_mem_nil
      rw [isCompiled, compiled?, he] at hcompiled
      cases hcompiled
  · obtain ⟨left, rfl, -⟩ := hf.left hc
    rw [resolveWithin_succ hf]
    exact Rule.refs_enclosed _

theorem Anchored.compile_refs (h : g.Anchored b []) (rule : Rule H V) :
    (g.compile rule).1.refs = [] := by
  have hstep : ∀ other ∈ rule.refs, Rule.Resolves (resolveWithin g.bodyCount none)
      (fun c => Compiling.Extends ⟨g, [], []⟩ c ∧ Pending b [] c)
      (fun _ form => form.refs = []) other := by
    intro other _ c hc
    have hle := Compiling.unentered_le hc.1
    have hcount := unentered_le_bodyCount g [] []
    have hl := resolveWithin_located g.bodyCount [] other c (by omega) nofun hc.2
    exact ⟨⟨hc.1.trans (resolveWithin_extends _ _ _ _), hl.pending⟩,
      hc.2.found_refs (by omega) other⟩
  exact (Rule.compileWith_keeps Rule.refs_congruence rule ⟨g, [], []⟩ hstep
    ⟨.refl _, h.pending⟩).2

end Grammar

namespace Parser

variable [Inhabited V] {p : Parser H V} {rule : Rule H V}

/-- Whatever has been done with a parser whose bodies have no scope written into them, compiling a
rule of this kind leaves no reference outside frames, so that compiling the result again does
nothing. Each reference left inside is to a name with a body that comes back to itself, and none is
left exactly if no such name can be reached from the rule. -/
theorem Reached.references_left_are_recursive (hp : p.Reached)
    (hb : ∀ name source, p.grammar.source? name = some source → source.ScopeFree)
    (hr : rule.ScopeFree) :
    (p.grammar.compile rule).1.refs = [] ∧
    (p.grammar.compile rule).2.grammar.compile (p.grammar.compile rule).1 =
      ((p.grammar.compile rule).1, ⟨(p.grammar.compile rule).2.grammar, [], []⟩) ∧
    (p.grammar.compile rule).1.MadeOf
      (fun name => p.grammar.bodies.Defines name ∧ p.grammar.bodies.Recursive name)
      (fun _ => True) ∧
    ((p.grammar.compile rule).1.resolved = true ↔
      ∀ name, p.grammar.bodies.Reach rule.refs name → ¬p.grammar.bodies.Recursive name) := by
  have hanchored : p.grammar.Anchored p.grammar.bodies [] :=
    hp.anchored (fun _ => rfl) fun name => (p.grammar.bodies_source? name).symm
  have hrefs := hanchored.compile_refs rule
  obtain ⟨-, -, hform⟩ := hanchored.compile rule
  have hmade := hform.madeOf
    (fun name source hs => hb name source ((p.grammar.bodies_source? name).symm.trans hs)) hr
  refine ⟨hrefs, Rule.compileWith_of_refs_eq_nil _ _ hrefs _, ?_, ?_⟩
  · exact hmade.mono (fun name hn => ⟨hn.1.1.next.1, hn.1.1⟩) _
  · rw [Rule.resolved_iff_madeOf]
    constructor
    · exact fun hf name hn => hform.not_recursive hf hn
    · intro hnone
      exact hmade.mono (fun name hn => hnone name hn.2 hn.1.1) _

def woven : Parser Unit Nat :=
  ((((((ofTerminals ["x"]).rule "list" (.alternative
    [.sequence [.ref "x", .ref "list"], .ref "x"])).rule "pair" (.ref "list")).rule "both"
      (.sequence [.ref "pair", .ref "list"])).compileRule "both").2.1.rule "pair"
        (.sequence [.ref "x", .ref "x"])).compileRule "list" |>.2.1

theorem woven_references_left : woven.Reached ∧
    (∀ name source, woven.grammar.source? name = some source → source.ScopeFree) ∧
    (woven.grammar.compile (.ref "pair")).1.resolved = true ∧
    (∀ name, woven.grammar.bodies.Reach ["pair"] name → ¬woven.grammar.bodies.Recursive name) ∧
    (woven.grammar.compile (.ref "both")).1.resolved = false ∧
    (woven.grammar.compile (.ref "both")).1.MadeOf
      (fun name => woven.grammar.bodies.Defines name ∧ woven.grammar.bodies.Recursive name)
      (fun _ => True) := by
  have hreached : woven.Reached :=
    .compileRule (.rule (.compileRule (.rule (.rule (.rule (.start _) _ _) _ _) _ _) _) _ _) _
  have hsources (name : String) (source : Rule Unit Nat)
      (hs : woven.grammar.source? name = some source) : source.ScopeFree := by
    have hplain : woven.Plain := by
      refine .compileRule (.rule (.compileRule (.rule (.rule (.rule (.start _) _ ?_) _ ?_) _ ?_) _)
        _ ?_) _
      · exact ⟨⟨trivial, trivial, trivial⟩, trivial, trivial⟩
      · trivial
      · exact ⟨trivial, trivial, trivial⟩
      · exact ⟨trivial, trivial, trivial⟩
    exact hplain.linked.sources hs
  have hfree (name : String) : (.ref name : Rule Unit Nat).ScopeFree := trivial
  obtain ⟨-, -, -, hpair⟩ := hreached.references_left_are_recursive hsources (hfree "pair")
  obtain ⟨-, -, hmade, hboth⟩ := hreached.references_left_are_recursive hsources (hfree "both")
  have hresolved : (woven.grammar.compile (.ref "pair")).1.resolved = true := rfl
  refine ⟨hreached, hsources, hresolved, hpair.mp hresolved, ?_, hmade⟩
  have hlist : woven.grammar.bodies.refsOf "list" = ["x", "list", "x"] := rfl
  have hrefs : woven.grammar.bodies.refsOf "both" = ["pair", "list"] := rfl
  have hcycle : woven.grammar.bodies.Recursive "list" :=
    .single ⟨⟨rfl, rfl⟩, by rw [hlist]; simp⟩
  have hdefined : woven.grammar.bodies.Defines "both" := ⟨rfl, rfl⟩
  have hreach : woven.grammar.bodies.Reach ["both"] "list" :=
    .body (.top (List.mem_singleton_self "both")) hdefined (by rw [hrefs]; simp)
  exact Bool.eq_false_iff.mpr fun hr => hboth.mp hr "list" hreach hcycle

end Parser

end OrderedChoice
