import OrderedChoice.Proofs.Coherence

set_option autoImplicit false

namespace OrderedChoice

variable {H V : Type}

namespace Bodies

/-- A rule that may match without taking a token. -/
inductive Nullable (b : Bodies H V) : Rule H V → Prop where
  | action (act : Action H V) : Nullable b (.action act)
  | sequence {parts : List (Rule H V)} (h : ∀ part ∈ parts, Nullable b part) :
    Nullable b (.sequence parts)
  | alternative {parts : List (Rule H V)} {part : Rule H V} (hp : part ∈ parts)
    (h : Nullable b part) : Nullable b (.alternative parts)
  | terminated {body : Rule H V} (h : Nullable b body) : Nullable b (.terminated body)
  | scope {body : Rule H V} (h : Nullable b body) : Nullable b (.scope body)
  | named {name : String} {source : Rule H V} (ht : b.isTerminal name = false)
    (hs : b.source? name = some source) (h : Nullable b source) : Nullable b (.ref name)

/-- `b.Leads rule name`: a reference to `name` stands in `rule` where only parts that may match
without a token come before it. -/
inductive Leads (b : Bodies H V) : Rule H V → String → Prop where
  | ref (name : String) : Leads b (.ref name) name
  | scope {body : Rule H V} {name : String} (h : Leads b body name) : Leads b (.scope body) name
  | sequence {before after : List (Rule H V)} {part : Rule H V} {name : String}
    (hb : ∀ r ∈ before, b.Nullable r) (h : Leads b part name) :
    Leads b (.sequence (before ++ part :: after)) name
  | alternative {parts : List (Rule H V)} {part : Rule H V} {name : String} (hp : part ∈ parts)
    (h : Leads b part name) : Leads b (.alternative parts) name
  | terminated {body : Rule H V} {name : String} (h : Leads b body name) :
    Leads b (.terminated body) name

def LeftCalls (b : Bodies H V) (caller callee : String) : Prop :=
  b.Defines caller ∧ b.Defines callee ∧
    ∃ source, b.source? caller = some source ∧ b.Leads source callee

def Acyclic (b : Bodies H V) : Prop :=
  ∀ name, ¬Relation.TransGen b.LeftCalls name name

variable {b : Bodies H V}

@[simp] theorem nullable_scope {body : Rule H V} :
    b.Nullable (.scope body) ↔ b.Nullable body := by
  constructor
  · rintro ⟨⟩
    assumption
  · exact .scope

@[simp] theorem nullable_sequence {parts : List (Rule H V)} :
    b.Nullable (.sequence parts) ↔ ∀ part ∈ parts, b.Nullable part := by
  constructor
  · rintro ⟨⟩
    assumption
  · exact .sequence

@[simp] theorem nullable_alternative {parts : List (Rule H V)} :
    b.Nullable (.alternative parts) ↔ ∃ part ∈ parts, b.Nullable part := by
  constructor
  · rintro ⟨⟩
    exact ⟨_, ‹_›, ‹_›⟩
  · rintro ⟨part, hp, h⟩
    exact .alternative hp h

@[simp] theorem leads_ref {name other : String} : b.Leads (.ref name) other ↔ other = name := by
  constructor
  · rintro ⟨⟩
    rfl
  · rintro rfl
    exact .ref other

@[simp] theorem leads_sequence_nil {name : String} : ¬b.Leads (.sequence []) name := by
  intro h
  generalize hr : Rule.sequence [] = rule at h
  cases h <;> simp at hr

@[simp] theorem leads_sequence_cons {part : Rule H V} {parts : List (Rule H V)} {name : String} :
    b.Leads (.sequence (part :: parts)) name ↔
      b.Leads part name ∨ b.Nullable part ∧ b.Leads (.sequence parts) name := by
  constructor
  · intro h
    generalize hr : Rule.sequence (part :: parts) = rule at h
    cases h with
    | @sequence before after part' _ hb h =>
      obtain hparts : part :: parts = before ++ part' :: after := by simpa using hr
      rcases List.cons_eq_append_iff.mp hparts with ⟨rfl, heq⟩ | ⟨before', rfl, rfl⟩
      · cases heq
        exact .inl h
      · rw [List.forall_mem_cons] at hb
        exact .inr ⟨hb.1, .sequence hb.2 h⟩
    | _ => cases hr
  · rintro (h | ⟨hn, h⟩)
    · have hfirst : b.Leads (.sequence ([] ++ part :: parts)) name := .sequence nofun h
      exact hfirst
    · generalize hr : Rule.sequence parts = rule at h
      cases h with
      | @sequence before after part' _ hb h =>
        cases hr
        have hlater : b.Leads (.sequence ((part :: before) ++ part' :: after)) name :=
          .sequence (List.forall_mem_cons.mpr ⟨hn, hb⟩) h
        exact hlater
      | _ => cases hr

@[simp] theorem leads_alternative {parts : List (Rule H V)} {name : String} :
    b.Leads (.alternative parts) name ↔ ∃ part ∈ parts, b.Leads part name := by
  constructor
  · rintro ⟨⟩
    exact ⟨_, ‹_›, ‹_›⟩
  · rintro ⟨part, hp, h⟩
    exact .alternative hp h

theorem not_nullable_terminalName {name : String} (ht : b.isTerminal name = true) :
    ¬b.Nullable (.ref name) := by
  intro h
  cases h with
  | named hf =>
    rw [ht] at hf
    cases hf

theorem not_nullable_nothing : ¬b.Nullable (.alternative []) := by
  simp

theorem not_leads_nothing {name : String} : ¬b.Leads (.alternative []) name := by
  simp

theorem nullable_enclosed_iff {body : Rule H V} : b.Nullable body.enclosed ↔ b.Nullable body := by
  cases body with
  | terminal | scope | action => exact Iff.rfl
  | ref | sequence | alternative | terminated => exact nullable_scope

theorem leads_enclosed {body : Rule H V} {name : String} (h : b.Leads body.enclosed name) :
    b.Leads body name := by
  cases body with
  | terminal | scope | action => exact h
  | ref | sequence | alternative | terminated =>
    cases h with
    | scope h => exact h

/-- A relation that the constructs keep and that relates each name to what it stands for relates
every rule to what it unfolds to. -/
theorem Unfolds.relates {Q : Rule H V → Rule H V → Prop} (hQ : Rule.Congruence Q)
    (hterminal : ∀ name, b.isTerminal name = true → Q (.ref name) (.terminal name))
    (hunknown : ∀ name, b.isTerminal name = false → b.source? name = none →
      Q (.ref name) (.alternative []))
    (hinlined : ∀ name source body, b.isTerminal name = false → b.source? name = some source →
      Q source body → Q (.ref name) body.enclosed)
    (hkept : ∀ name, Q (.ref name) (.ref name)) {rule form : Rule H V} (h : b.Unfolds rule form) :
    Q rule form :=
  @Unfolds.rec H V b (fun rule form _ => Q rule form)
    (fun rules forms _ => List.Forall₂ Q rules forms)
    (hterminal _) (hunknown _) (fun ht hs _ hq => hinlined _ _ _ ht hs hq) (fun _ _ => hkept _)
    hQ.terminal hQ.scope hQ.action (fun _ hp => hQ.sequence hp) (fun _ hp => hQ.alternative hp)
    (fun _ hq => hQ.terminated hq) .nil (fun _ _ hq hqs => .cons hq hqs) rule form h

/-- `form` matches without a token only if `rule` does, and what it leads to is called by what
`rule` leads to. -/
structure Traces (b : Bodies H V) (rule form : Rule H V) : Prop where
  nullable (h : b.Nullable form) : b.Nullable rule
  leads {name : String} (hd : b.Defines name) (h : b.Leads form name) :
    ∃ first, b.Leads rule first ∧ Relation.ReflTransGen b.LeftCalls first name

theorem Traces.refl (rule : Rule H V) : b.Traces rule rule :=
  ⟨id, fun _ h => ⟨_, h, .refl⟩⟩

theorem traces_sequence {parts forms : List (Rule H V)} (h : List.Forall₂ b.Traces parts forms) :
    b.Traces (.sequence parts) (.sequence forms) := by
  induction h with
  | nil => exact .refl _
  | @cons part form parts forms hpart _ ih =>
    refine ⟨fun hn => ?_, fun hd hl => ?_⟩
    · rw [nullable_sequence, List.forall_mem_cons, ← nullable_sequence] at hn ⊢
      exact ⟨hpart.nullable hn.1, ih.nullable hn.2⟩
    · rcases leads_sequence_cons.mp hl with hl | ⟨hn, hl⟩
      · obtain ⟨first, hfirst, hcalls⟩ := hpart.leads hd hl
        exact ⟨first, leads_sequence_cons.mpr (.inl hfirst), hcalls⟩
      · obtain ⟨first, hfirst, hcalls⟩ := ih.leads hd hl
        exact ⟨first, leads_sequence_cons.mpr (.inr ⟨hpart.nullable hn, hfirst⟩), hcalls⟩

theorem traces_alternative {parts forms : List (Rule H V)}
    (h : List.Forall₂ b.Traces parts forms) :
    b.Traces (.alternative parts) (.alternative forms) := by
  induction h with
  | nil => exact .refl _
  | @cons part form parts forms hpart _ ih =>
    refine ⟨fun hn => ?_, fun hd hl => ?_⟩
    · rw [nullable_alternative, List.exists_mem_cons_iff, ← nullable_alternative] at hn ⊢
      exact hn.imp hpart.nullable ih.nullable
    · rw [leads_alternative, List.exists_mem_cons_iff, ← leads_alternative] at hl
      rcases hl with hl | hl
      · obtain ⟨first, hfirst, hcalls⟩ := hpart.leads hd hl
        exact ⟨first, .alternative List.mem_cons_self hfirst, hcalls⟩
      · obtain ⟨first, hfirst, hcalls⟩ := ih.leads hd hl
        obtain ⟨part', hp, hfirst⟩ := leads_alternative.mp hfirst
        exact ⟨first, .alternative (List.mem_cons_of_mem part hp) hfirst, hcalls⟩

theorem traces_terminated {body form : Rule H V} (h : b.Traces body form) :
    b.Traces (.terminated body) (.terminated form) where
  nullable hn := by
    cases hn with
    | terminated hn => exact .terminated (h.nullable hn)
  leads hd hl := by
    cases hl with
    | terminated hl =>
      obtain ⟨first, hfirst, hcalls⟩ := h.leads hd hl
      exact ⟨first, .terminated hfirst, hcalls⟩

theorem traces_congruence : Rule.Congruence (b.Traces) where
  terminal _ := .refl _
  scope _ := .refl _
  action _ := .refl _
  sequence := traces_sequence
  alternative := traces_alternative
  terminated := traces_terminated

theorem defines_of_calls {first name : String} (hd : b.Defines name)
    (h : Relation.ReflTransGen b.LeftCalls first name) : b.Defines first := by
  rcases h.cases_head with rfl | ⟨_, hcall, -⟩
  · exact hd
  · exact hcall.1

theorem leftCalls_of_leads {name first : String} {source : Rule H V}
    (ht : b.isTerminal name = false) (hs : b.source? name = some source)
    (hd : b.Defines first) (h : b.Leads source first) : b.LeftCalls name first :=
  ⟨⟨ht, by rw [hs]; rfl⟩, hd, source, hs, h⟩

theorem Unfolds.traces {rule form : Rule H V} (h : b.Unfolds rule form) : b.Traces rule form := by
  refine h.relates traces_congruence ?_ ?_ ?_ ?_
  · exact fun name _ => ⟨nofun, nofun⟩
  · exact fun name _ _ => ⟨fun hn => absurd hn not_nullable_nothing,
      fun _ hl => absurd hl not_leads_nothing⟩
  · intro name source body ht hs hbody
    refine ⟨fun hn => ?_, fun hd hl => ?_⟩
    · exact .named ht hs (hbody.nullable (nullable_enclosed_iff.mp hn))
    · -- The name stands where the body was put, so it is the name that leads on.
      obtain ⟨first, hfirst, hcalls⟩ := hbody.leads hd (leads_enclosed hl)
      have hcall := leftCalls_of_leads ht hs (defines_of_calls hd hcalls) hfirst
      exact ⟨name, .ref name, .head hcall hcalls⟩
  · exact fun name => .refl _

theorem finite_defines (b : Bodies H V) : {name | b.Defines name}.Finite := by
  refine (b.sources.map Prod.fst).finite_toSet.subset fun name h => ?_
  obtain ⟨source, hs⟩ := Option.isSome_iff_exists.mp h.2
  obtain ⟨before, after, heq, -⟩ := List.lookup_eq_some_iff.mp hs
  simp [heq]

theorem Acyclic.wellFounded (h : b.Acyclic) :
    WellFounded fun callee caller => Relation.TransGen b.LeftCalls caller callee := by
  have hirrefl : Std.Irrefl fun callee caller => Relation.TransGen b.LeftCalls caller callee := ⟨h⟩
  have htrans : IsTrans String fun callee caller => Relation.TransGen b.LeftCalls caller callee :=
    ⟨fun _ _ _ hab hbc => hbc.trans hab⟩
  have hstrict : IsStrictOrder String fun callee caller =>
      Relation.TransGen b.LeftCalls caller callee := {}
  have hdefined : {name | b.Defines name}.WellFoundedOn fun callee caller =>
      Relation.TransGen b.LeftCalls caller callee := b.finite_defines.wellFoundedOn
  refine Subrelation.wf ?_ (Set.wellFoundedOn_iff.mp hdefined)
  intro callee caller hcalls
  refine ⟨hcalls, ?_, ?_⟩
  · obtain ⟨_, -, hlast⟩ := Relation.TransGen.tail'_iff.mp hcalls
    exact hlast.2.1
  · obtain ⟨_, hfirst, -⟩ := Relation.TransGen.head'_iff.mp hcalls
    exact hfirst.1

end Bodies

end OrderedChoice
