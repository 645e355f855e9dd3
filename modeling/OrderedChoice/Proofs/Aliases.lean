import OrderedChoice.Proofs.Realization
import OrderedChoice.Proofs.Reporting

set_option autoImplicit false

namespace OrderedChoice

variable {H V : Type}

namespace Rule

/-- The kinds of body that get a frame for what they are, and not for what a name in it means. -/
def framed : Rule H V → Bool
  | sequence _ => true
  | alternative _ => true
  | terminated _ => true
  | _ => false

theorem enclosed_of_framed {r : Rule H V} (h : r.framed = true) : r.enclosed = .scope r := by
  cases r <;> first | rfl | cases h

theorem selfScoping_eq_false {r : Rule H V} (h : r.framed = true) : r.selfScoping = false := by
  cases r <;> first | rfl | cases h

theorem framed_or_ref_of_mem_refs {r : Rule H V} {name : String} (h : name ∈ r.refs) :
    r.framed = true ∨ r = .ref name := by
  cases r with
  | ref other => exact .inr (by rw [List.mem_singleton.mp h])
  | terminal _ => cases h
  | scope _ => cases h
  | action _ => cases h
  | sequence _ => exact .inl rfl
  | alternative _ => exact .inl rfl
  | terminated _ => exact .inl rfl

theorem framed_or_ref_or_selfScoping (r : Rule H V) :
    r.framed = true ∨ (∃ name, r = .ref name) ∨ r.selfScoping = true := by
  cases r <;> simp [framed, selfScoping]

end Rule

theorem forall₂_common {α β γ : Type} {P : α → β → Prop} {P' : α → γ → Prop} {Q : β → γ → Prop}
    (h : ∀ a b c, P a b → P' a c → Q b c) {as : List α} {bs : List β} {cs : List γ}
    (hb : List.Forall₂ P as bs) (hc : List.Forall₂ P' as cs) : List.Forall₂ Q bs cs := by
  induction hb generalizing cs with
  | nil =>
    cases hc
    exact .nil
  | cons hp _ ih =>
    cases hc with
    | cons hp' hc => exact .cons (h _ _ _ hp hp') (ih hc)

namespace Bodies

variable (b : Bodies H V)

def Refers (owner name : String) : Prop :=
  b.Defines owner ∧ name ∈ b.refsOf owner

def Recursive (name : String) : Prop :=
  Relation.TransGen b.Refers name name

def Alias (name other : String) : Prop :=
  b.isTerminal name = false ∧ b.source? name = some (.ref other)

/-- Aliases lead from a name to a body that gets a frame. -/
inductive Arrives : String → Rule H V → Prop where
  | body {name : String} {source : Rule H V} (ht : b.isTerminal name = false)
    (hs : b.source? name = some source) (hf : source.framed = true) : Arrives name source
  | step {name other : String} {body : Rule H V} (ha : b.Alias name other)
    (h : Arrives other body) : Arrives name body

/-- Aliases lead from a name to something that has one form only. -/
inductive Denotes : String → Rule H V → Prop where
  | terminal {name : String} (ht : b.isTerminal name = true) : Denotes name (.terminal name)
  | missing {name : String} (ht : b.isTerminal name = false) (hn : b.source? name = none) :
    Denotes name (.alternative [])
  | body {name : String} {source : Rule H V} (ht : b.isTerminal name = false)
    (hs : b.source? name = some source) (hself : source.selfScoping = true) : Denotes name source
  | step {name other : String} {form : Rule H V} (ha : b.Alias name other)
    (h : Denotes other form) : Denotes name form.enclosed

def Circles (name : String) : Prop :=
  (∀ form, ¬b.Denotes name form) ∧ ∀ body, ¬b.Arrives name body

/-- `b.Unrolls F rule form`: `form` is `rule` with each reference outside scopes replaced by what
the bodies say of its name, except that references to names in `F` may also stay. -/
inductive Unrolls (F : String → Prop) : Rule H V → Rule H V → Prop where
  | terminalName {name : String} (ht : b.isTerminal name = true) :
    Unrolls F (.ref name) (.terminal name)
  | unknownName {name : String} (ht : b.isTerminal name = false) (hn : b.source? name = none) :
    Unrolls F (.ref name) (.alternative [])
  | inlined {name : String} {source body : Rule H V} (ht : b.isTerminal name = false)
    (hs : b.source? name = some source) (hb : Unrolls F source body) :
    Unrolls F (.ref name) body.enclosed
  | kept {name : String} (hF : F name) : Unrolls F (.ref name) (.ref name)
  | terminal (name : String) : Unrolls F (.terminal name) (.terminal name)
  | scope (body : Rule H V) : Unrolls F (.scope body) (.scope body)
  | action (act : Action H V) : Unrolls F (.action act) (.action act)
  | sequence {parts forms : List (Rule H V)} (hl : parts.length = forms.length)
    (hp : ∀ p ∈ parts.zip forms, Unrolls F p.1 p.2) :
    Unrolls F (.sequence parts) (.sequence forms)
  | alternative {parts forms : List (Rule H V)} (hl : parts.length = forms.length)
    (hp : ∀ p ∈ parts.zip forms, Unrolls F p.1 p.2) :
    Unrolls F (.alternative parts) (.alternative forms)
  | terminated {body form : Rule H V} (hb : Unrolls F body form) :
    Unrolls F (.terminated body) (.terminated form)

variable {b} {F F' : String → Prop} {name other : String} {source body form : Rule H V}

theorem Refers.cases (h : b.Refers other name) :
    (∃ source, b.isTerminal other = false ∧ b.source? other = some source ∧
      source.framed = true) ∨ b.Alias other name := by
  obtain ⟨⟨ht, hsome⟩, hn⟩ := h
  obtain ⟨source, hs⟩ := Option.isSome_iff_exists.mp hsome
  rw [refsOf, hs] at hn
  rcases Rule.framed_or_ref_of_mem_refs hn with hf | rfl
  · exact .inl ⟨source, ht, hs, hf⟩
  · exact .inr ⟨ht, hs⟩

theorem Arrives.defines (h : b.Arrives name body) : b.Defines name := by
  cases h with
  | body ht hs => exact ⟨ht, by rw [hs]; rfl⟩
  | step ha => exact ⟨ha.1, by rw [ha.2]; rfl⟩

theorem Arrives.framed (h : b.Arrives name body) : body.framed = true := by
  induction h with
  | body _ _ hf => exact hf
  | step _ _ ih => exact ih

theorem Arrives.not_denotes (h : b.Arrives name body) : ¬b.Denotes name form := by
  intro hd
  induction h generalizing form with
  | body ht hs hf =>
    cases hd with
    | terminal ht' => rw [ht] at ht'; cases ht'
    | missing _ hn => rw [hs] at hn; cases hn
    | body _ hs' hself =>
      cases hs.symm.trans hs'
      rw [Rule.selfScoping_eq_false hf] at hself
      cases hself
    | step ha =>
      cases hs.symm.trans ha.2
      cases hf
  | step ha _ ih =>
    cases hd with
    | terminal ht' => rw [ha.1] at ht'; cases ht'
    | missing _ hn => rw [ha.2] at hn; cases hn
    | body _ hs' hself =>
      cases ha.2.symm.trans hs'
      cases hself
    | step ha' hd =>
      cases ha.2.symm.trans ha'.2
      exact ih hd

theorem circles_of_aliases {S : String → Prop} (hS : ∀ n, S n → ∃ k, S k ∧ b.Alias n k)
    (hn : S name) : b.Circles name := by
  constructor
  · intro form h
    induction h with
    | terminal ht =>
      obtain ⟨k, -, hk⟩ := hS _ hn
      rw [hk.1] at ht
      cases ht
    | missing _ hs =>
      obtain ⟨k, -, hk⟩ := hS _ hn
      rw [hk.2] at hs
      cases hs
    | body _ hs hself =>
      obtain ⟨k, -, hk⟩ := hS _ hn
      cases hk.2.symm.trans hs
      cases hself
    | step ha _ ih =>
      obtain ⟨k, hSk, hk⟩ := hS _ hn
      cases hk.2.symm.trans ha.2
      exact ih hSk
  · intro body h
    induction h with
    | body _ hs hf =>
      obtain ⟨k, -, hk⟩ := hS _ hn
      cases hk.2.symm.trans hs
      cases hf
    | step ha _ ih =>
      obtain ⟨k, hSk, hk⟩ := hS _ hn
      cases hk.2.symm.trans ha.2
      exact ih hSk

theorem Circles.step (h : b.Circles name) : ∃ other, b.Alias name other ∧ b.Circles other := by
  obtain ⟨hd, hl⟩ := h
  have ht : b.isTerminal name = false := by
    by_contra ht
    exact hd _ (.terminal (by simpa using ht))
  cases hs : b.source? name with
  | none => exact absurd (.missing ht hs) (hd _)
  | some source =>
    rcases source.framed_or_ref_or_selfScoping with hf | ⟨other, rfl⟩ | hself
    · exact absurd (.body ht hs hf) (hl _)
    · exact ⟨other, ⟨ht, hs⟩, fun form h => hd _ (.step ⟨ht, hs⟩ h),
        fun body h => hl _ (.step ⟨ht, hs⟩ h)⟩
    · exact absurd (.body ht hs hself) (hd _)

variable (b) in
theorem denotes_or_arrives_or_circles (name : String) :
    (∃ form, b.Denotes name form) ∨ (∃ body, b.Arrives name body) ∨ b.Circles name := by
  by_cases hd : ∃ form, b.Denotes name form
  · exact .inl hd
  · by_cases ha : ∃ body, b.Arrives name body
    · exact .inr (.inl ha)
    · exact .inr (.inr ⟨not_exists.mp hd, not_exists.mp ha⟩)

theorem Unrolls.mono (hF : ∀ name, F name → F' name) {rule : Rule H V} (h : b.Unrolls F rule form) :
    b.Unrolls F' rule form := by
  induction h with
  | terminalName ht => exact .terminalName ht
  | unknownName ht hn => exact .unknownName ht hn
  | inlined ht hs _ ih => exact .inlined ht hs ih
  | kept hn => exact .kept (hF _ hn)
  | terminal name => exact .terminal name
  | scope body => exact .scope body
  | action act => exact .action act
  | sequence hl _ ih => exact .sequence hl ih
  | alternative hl _ ih => exact .alternative hl ih
  | terminated _ ih => exact .terminated ih

theorem unrolls_congruence : Rule.Congruence (b.Unrolls F) where
  terminal := .terminal
  scope := .scope
  action := .action
  sequence h := by
    obtain ⟨hl, hp⟩ := List.forall₂_iff_zip.mp h
    exact .sequence hl fun _ hm => hp hm
  alternative h := by
    obtain ⟨hl, hp⟩ := List.forall₂_iff_zip.mp h
    exact .alternative hl fun _ hm => hp hm
  terminated := .terminated

theorem Unrolls.framed (h : b.Unrolls F source body) (hf : source.framed = true) :
    body.framed = true := by
  cases h <;> first | rfl | cases hf

theorem Unrolls.eq_of_selfScoping (h : b.Unrolls F source body)
    (hself : source.selfScoping = true) : body = source := by
  cases h <;> first | rfl | cases hself

theorem Unrolls.of_source (ht : b.isTerminal name = false) (hs : b.source? name = some source)
    (h : b.Unrolls F (.ref name) form) :
    (F name ∧ form = .ref name) ∨ ∃ body, b.Unrolls F source body ∧ form = body.enclosed := by
  cases h with
  | terminalName ht' => rw [ht] at ht'; cases ht'
  | unknownName _ hs' => rw [hs] at hs'; cases hs'
  | inlined _ hs' hb =>
    cases hs.symm.trans hs'
    exact .inr ⟨_, hb, rfl⟩
  | kept hn => exact .inl ⟨hn, rfl⟩

theorem Unrolls.unique (hF : ∀ n, ¬F n) (hF' : ∀ n, ¬F' n) {rule form' : Rule H V}
    (h : b.Unrolls F rule form) (h' : b.Unrolls F' rule form') : form = form' := by
  have hparts {parts forms forms' : List (Rule H V)} (hl : parts.length = forms.length)
      (hp : ∀ p ∈ parts.zip forms, ∀ {f'}, b.Unrolls F' p.1 f' → p.2 = f')
      (hl' : parts.length = forms'.length) (hp' : ∀ p ∈ parts.zip forms', b.Unrolls F' p.1 p.2) :
      forms = forms' := by
    have hforms : List.Forall₂ (fun r f => ∀ f', b.Unrolls F' r f' → f = f') parts forms :=
      List.forall₂_iff_zip.mpr ⟨hl, fun hm _ h => hp _ hm h⟩
    have hforms' : List.Forall₂ (b.Unrolls F') parts forms' :=
      List.forall₂_iff_zip.mpr ⟨hl', fun hm => hp' _ hm⟩
    have heq : List.Forall₂ Eq forms forms' :=
      forall₂_common (fun _ _ f' h h' => h f' h') hforms hforms'
    rwa [List.forall₂_eq_eq_eq] at heq
  induction h generalizing form' with
  | terminalName ht =>
    cases h' with
    | terminalName => rfl
    | unknownName ht' => rw [ht] at ht'; cases ht'
    | inlined ht' => rw [ht] at ht'; cases ht'
    | kept hn => exact absurd hn (hF' _)
  | unknownName ht hs =>
    cases h' with
    | terminalName ht' => rw [ht] at ht'; cases ht'
    | unknownName => rfl
    | inlined _ hs' => rw [hs] at hs'; cases hs'
    | kept hn => exact absurd hn (hF' _)
  | inlined ht hs _ ih =>
    rcases h'.of_source ht hs with ⟨hn, -⟩ | ⟨body', hb', rfl⟩
    · exact absurd hn (hF' _)
    · rw [ih hb']
  | kept hn => exact absurd hn (hF _)
  | terminal _ => cases h'; rfl
  | scope _ => cases h'; rfl
  | action _ => cases h'; rfl
  | sequence hl _ ih =>
    cases h' with
    | sequence hl' hp' => rw [hparts hl ih hl' hp']
  | alternative hl _ ih =>
    cases h' with
    | alternative hl' hp' => rw [hparts hl ih hl' hp']
  | terminated _ ih =>
    cases h' with
    | terminated hb' => rw [ih hb']

theorem Denotes.unrolls_eq (hd : b.Denotes name form) (hF : ∀ n, F n → ∀ f, ¬b.Denotes n f)
    {form' : Rule H V} (h : b.Unrolls F (.ref name) form') : form' = form := by
  induction hd generalizing form' with
  | terminal ht =>
    cases h with
    | terminalName => rfl
    | unknownName ht' => rw [ht] at ht'; cases ht'
    | inlined ht' => rw [ht] at ht'; cases ht'
    | kept hn => exact absurd (.terminal ht) (hF _ hn _)
  | missing ht hs =>
    cases h with
    | terminalName ht' => rw [ht] at ht'; cases ht'
    | unknownName => rfl
    | inlined _ hs' => rw [hs] at hs'; cases hs'
    | kept hn => exact absurd (.missing ht hs) (hF _ hn _)
  | body ht hs hself =>
    rcases h.of_source ht hs with ⟨hn, -⟩ | ⟨body, hb, rfl⟩
    · exact absurd (.body ht hs hself) (hF _ hn _)
    · rw [hb.eq_of_selfScoping hself, Rule.enclosed_of_selfScoping hself]
  | step ha hd ih =>
    rcases h.of_source ha.1 ha.2 with ⟨hn, -⟩ | ⟨body, hb, rfl⟩
    · exact absurd (.step ha hd) (hF _ hn _)
    · rw [ih hb]

theorem Arrives.unrolls_cases (hl : b.Arrives name body) (h : b.Unrolls F (.ref name) form) :
    (∃ inner, form = .scope inner ∧ b.Unrolls F body inner) ∨
    ∃ n, F n ∧ b.Arrives n body ∧ (form = .ref n ∨ form = .scope (.ref n)) := by
  induction hl generalizing form with
  | body ht hs hf =>
    rcases h.of_source ht hs with ⟨hn, rfl⟩ | ⟨inner, hb, rfl⟩
    · exact .inr ⟨_, hn, .body ht hs hf, .inl rfl⟩
    · exact .inl ⟨inner, Rule.enclosed_of_framed (hb.framed hf), hb⟩
  | step ha hl ih =>
    rcases h.of_source ha.1 ha.2 with ⟨hn, rfl⟩ | ⟨form', hb, rfl⟩
    · exact .inr ⟨_, hn, .step ha hl, .inl rfl⟩
    -- the name that the alias leads to is framed once, however many aliases are on the way
    · rcases ih hb with ⟨inner, rfl, hinner⟩ | ⟨n, hn, hln, rfl | rfl⟩
      · exact .inl ⟨inner, rfl, hinner⟩
      · exact .inr ⟨n, hn, hln, .inr rfl⟩
      · exact .inr ⟨n, hn, hln, .inr rfl⟩

theorem Circles.unrolls_cases (hc : b.Circles name) (h : b.Unrolls F (.ref name) form) :
    ∃ n, F n ∧ b.Circles n ∧ (form = .ref n ∨ form = .scope (.ref n)) := by
  generalize hr : Rule.ref name = rule at h
  induction h generalizing name with
  | terminalName ht =>
    cases hr
    exact absurd (.terminal ht) (hc.1 _)
  | unknownName ht hn =>
    cases hr
    exact absurd (.missing ht hn) (hc.1 _)
  | inlined ht hs _ ih =>
    cases hr
    obtain ⟨other, ha, hother⟩ := hc.step
    cases ha.2.symm.trans hs
    obtain ⟨n, hn, hcn, rfl | rfl⟩ := ih hother rfl
    · exact ⟨n, hn, hcn, .inr rfl⟩
    · exact ⟨n, hn, hcn, .inr rfl⟩
  | @kept n hn =>
    cases hr
    exact ⟨n, hn, hc, .inl rfl⟩
  | _ => cases hr

end Bodies

end OrderedChoice
