import OrderedChoice.Proofs.LeftCalls
import OrderedChoice.Proofs.Discipline
import OrderedChoice.Proofs.Guarding
import OrderedChoice.Proofs.Realization

set_option autoImplicit false

/-!
# Grammars without left recursion come to an end

A rule that matches without taking a token is one that may. So a run that stays at one place in the
tokens follows the left calls of the bodies, and where these do not come back, it leaves that place
or ends. Going back to an earlier place does no harm: what is tried there next is a part of the same
rule.
-/

namespace OrderedChoice

variable {H V : Type} {b : Bodies H V}

structure Grammar.Unfolded (b : Bodies H V) (g : Grammar H V) : Prop where
  bodies : g.bodies = b
  coherent : g.Coherent

namespace Grammar

variable {g : Grammar H V}

theorem Unfolded.resolve (h : g.Unfolded b) (name : String) :
    (g.resolve name).2.grammar.Unfolded b :=
  ⟨(g.resolve_bodies name).trans h.bodies, h.coherent.resolve name⟩

theorem Unfolded.found (h : g.Unfolded b) (name : String) :
    (b.isTerminal name = true ∧ (g.resolve name).1 = .terminal name) ∨
    (b.source? name = none ∧ (g.resolve name).1 = .alternative []) ∨
    ∃ source body, b.isTerminal name = false ∧ b.source? name = some source ∧
      b.Unfolds source body ∧ (g.resolve name).1 = body.enclosed := by
  have hresolved := h.resolve name
  obtain rfl := h.bodies
  rcases g.resolve_cases name with ⟨ht, hf⟩ | ⟨-, hn, hf⟩ | ⟨ht, source, he⟩
  · exact .inl ⟨ht, hf⟩
  · exact .inr (.inl ⟨by rw [bodies_source?, source?, hn]; rfl, hf⟩)
  · obtain ⟨source', body, hs, hu, hform⟩ := hresolved.coherent name (g.resolve name).1
      (by rw [compiled?, he]; rfl)
    rw [hresolved.bodies] at hu
    rw [← bodies_source?, hresolved.bodies] at hs
    exact .inr (.inr ⟨source', body, ht, hs, hu, hform⟩)

theorem Unfolded.nullable (h : g.Unfolded b) {name : String} (hn : b.Nullable (g.resolve name).1) :
    b.Nullable (.ref name) := by
  rcases h.found name with ⟨-, hf⟩ | ⟨-, hf⟩ | ⟨source, body, ht, hs, hu, hf⟩ <;> rw [hf] at hn
  · cases hn
  · exact absurd hn Bodies.not_nullable_nothing
  · exact .named ht hs (hu.traces.nullable (Bodies.nullable_enclosed_iff.mp hn))

theorem Unfolded.leads (h : g.Unfolded b) {name other : String}
    (hl : b.Leads (g.resolve name).1 other) :
    b.Defines name ∧ (b.Defines other → Relation.TransGen b.LeftCalls name other) := by
  rcases h.found name with ⟨-, hf⟩ | ⟨-, hf⟩ | ⟨source, body, ht, hs, hu, hf⟩ <;> rw [hf] at hl
  · cases hl
  · exact absurd hl Bodies.not_leads_nothing
  · refine ⟨⟨ht, by rw [hs]; rfl⟩, fun hd => ?_⟩
    obtain ⟨first, hfirst, hcalls⟩ := hu.traces.leads hd (Bodies.leads_enclosed hl)
    have hcall := Bodies.leftCalls_of_leads ht hs (Bodies.defines_of_calls hd hcalls) hfirst
    exact .head' hcall hcalls

end Grammar

namespace Machine

/-- How a run of `rule` that began on `m` goes forward: if it matches where it began, the rule is
one that may match without a token. -/
structure Progresses (b : Bodies H V) (rule : Rule H V) (m : Machine H V)
    (r : Outcome V × Machine H V) : Prop where
  unfolded : r.2.grammar.Unfolded b
  forward (hr : r.1.returned) : m.source.position ≤ r.2.source.position
  idle {v : V} (hv : r.1 = .value v) (hp : r.2.source.position = m.source.position) :
    b.Nullable rule

theorem Progresses.unmatched {rule : Rule H V} {m : Machine H V} {r : Outcome V × Machine H V}
    (hg : r.2.grammar.Unfolded b) (hf : r.1.returned → m.source.position ≤ r.2.source.position)
    (hr : ∀ v, r.1 ≠ .value v) : Progresses b rule m r :=
  ⟨hg, hf, fun hv _ => absurd hv (hr _)⟩

theorem progresses_executes (b : Bodies H V) : Executes (fun rule (m : Machine H V) r =>
    m.grammar.Unfolded b → Progresses b rule m r) where
  unfinished _ _ hm := .unmatched hm False.elim (by simp)
  exceeded _ _ _ hm := .unmatched hm (fun _ => Nat.le_refl _) (by simp)
  leave {_ m r} h hm := by
    obtain ⟨o, m'⟩ := r
    cases o <;> exact { h hm with }
  ref {name m r} h hm := by
    have hform := h (hm.resolve name)
    exact ⟨hform.unfolded, hform.forward, fun hv hp => hm.nullable (hform.idle hv hp)⟩
  terminal name m hm := by
    rcases m.matchTerminal_cases name with ⟨token, source, hnext, he⟩ | ⟨e, he⟩ <;> rw [he]
    · obtain ⟨-, rfl⟩ := Source.next?_eq_some hnext
      exact ⟨hm, fun _ => Nat.le_succ _, fun _ hp => absurd hp (Nat.succ_ne_self _)⟩
    · exact .unmatched hm (fun _ => Nat.le_refl _) (by simp)
  scope {_ m r} h hm := by
    obtain ⟨o, m'⟩ := r
    have hbody := h hm
    cases o with
    | value v =>
      exact ⟨hbody.unfolded, fun _ => hbody.forward trivial, fun _ hp => .scope (hbody.idle rfl hp)⟩
    | _ => exact .unmatched hbody.unfolded hbody.forward (by simp [inScope])
  nil _ _ hm := ⟨hm, fun _ => Nat.le_refl _, fun _ _ => .sequence (by simp)⟩
  cons {part parts m m' v r} h h' hm := by
    have hpart := h hm
    have hparts := h' hpart.unfolded
    have hle : m.source.position ≤ m'.source.position := hpart.forward trivial
    refine ⟨hparts.unfolded, fun hr => Nat.le_trans hle (hparts.forward hr), fun hv hp => ?_⟩
    -- No part has taken a token if all of them together have not.
    have hle' := hparts.forward (by rw [hv]; trivial)
    have hrest := Bodies.nullable_sequence.mp (hparts.idle hv (by omega))
    have hfirst : b.Nullable part := hpart.idle rfl (show m'.source.position = _ by omega)
    exact .sequence (List.forall_mem_cons.mpr ⟨hfirst, hrest⟩)
  stop _ hr h hm := by
    have hpart := h hm
    exact .unmatched hpart.unfolded hpart.forward hr
  exhausted _ hm := .unmatched hm (fun _ => Nat.le_refl _) (by simp)
  first _ _ h hm := by
    have hpart := h hm
    exact ⟨hpart.unfolded, hpart.forward,
      fun hv hp => .alternative List.mem_cons_self (hpart.idle hv hp)⟩
  next {_ parts m m' u _ _ r} h hu h' hm := by
    have hback : u.source.position = m.source.position := by
      obtain ⟨-, -, rfl⟩ := undo_eq_ok hu
      rfl
    have hparts := h' (by rw [undo_grammar hu]; exact (h hm).unfolded)
    refine ⟨hparts.unfolded, fun hr => hback ▸ hparts.forward hr, fun hv hp => ?_⟩
    obtain ⟨part, hmem, hn⟩ :=
      Bodies.nullable_alternative.mp (hparts.idle hv (hp.trans hback.symm))
    exact .alternative (List.mem_cons_of_mem _ hmem) hn
  stuck _ h hu hm := by
    refine .unmatched ?_ False.elim (by simp)
    rw [undo_error_grammar hu]
    exact (h hm).unfolded
  action a m hm := by
    have hgrammar : (m.act a).2.grammar.Unfolded b := by
      rw [act_grammar]
      exact hm
    refine ⟨hgrammar, fun _ => ?_, fun _ _ => .action a⟩
    rcases m.act_cases a with ⟨v, e, host, he⟩ | ⟨e, host, he⟩ | ⟨f, e, host, -, he⟩ <;> rw [he] <;>
      exact Nat.le_refl _
  terminated {_ m r} h hm := by
    obtain ⟨o, m'⟩ := r
    have hbody := h hm
    cases o with
    | value v =>
      simp only [atEnd]
      split
      · exact ⟨hbody.unfolded, hbody.forward, fun hv hp => .terminated (hbody.idle hv hp)⟩
      · exact .unmatched hbody.unfolded (fun _ => hbody.forward trivial) (by simp)
    | _ => exact .unmatched hbody.unfolded hbody.forward (by simp [atEnd])

theorem inAlternative_failed {exec : Rule H V → Machine H V → Outcome V × Machine H V}
    {mark position count index : Nat} {parts : List (Rule H V)} {m m' : Machine H V}
    (h : inAlternative exec mark position count index parts m = (.noMatch, m'))
    (hm : m.source.position = position) : m'.source.position = position := by
  induction parts generalizing index m with
  | nil =>
    cases h
    exact hm
  | cons part parts ih =>
    simp only [inAlternative] at h
    generalize exec part m = r at h
    obtain ⟨o, u⟩ := r
    cases o with
    | noMatch =>
      simp only at h
      split at h
      · rename_i w hu
        obtain ⟨-, -, rfl⟩ := undo_eq_ok hu
        exact ih h rfl
      · cases h
    | _ => cases h

def left (m : Machine H V) : Nat :=
  m.source.tokens.size - m.source.position

/-- A machine in order, whose grammar has these bodies and compiled forms that unfold them. -/
structure Ready (b : Bodies H V) (m : Machine H V) : Prop extends InOrder m where
  unfolded : m.grammar.Unfolded b

theorem Ready.entered {m : Machine H V} (hm : m.Ready b) : m.entered.Ready b :=
  ⟨{ hm.toInOrder with }, hm.unfolded⟩

section

variable [Inhabited V] {rule part : Rule H V} {m m' : Machine H V}

theorem Calls.sizeOf_lt (h : Calls rule m part m') (hr : ∀ name, rule ≠ .ref name) :
    sizeOf part < sizeOf rule := by
  cases h with
  | ref name => exact absurd rfl (hr name)
  | scope body => simp
  | @sequence before after =>
    have hmem := List.sizeOf_lt_of_mem (show part ∈ before ++ part :: after by simp)
    rw [Rule.sequence.sizeOf_spec]
    omega
  | @alternative before after =>
    have hmem := List.sizeOf_lt_of_mem (show part ∈ before ++ part :: after by simp)
    rw [Rule.alternative.sizeOf_spec]
    omega
  | terminated body => simp

/-- What a rule calls is called with fewer tokens left, or the rule leads to what that leads to. -/
theorem Calls.ready (h : Calls rule m part m') (hm : m.Ready b) :
    m'.Ready b ∧ m'.left ≤ m.left ∧ ((∀ name, rule ≠ .ref name) →
      m'.left < m.left ∨ ∀ name, b.Leads part name → b.Leads rule name) := by
  have horder := h.inOrder hm.toInOrder
  cases h with
  | ref name =>
    exact ⟨⟨horder, hm.unfolded.resolve name⟩, Nat.le_refl _, fun hr => absurd rfl (hr name)⟩
  | scope body => exact ⟨⟨horder, hm.unfolded⟩, Nat.le_refl _, fun _ => .inr fun _ => .scope⟩
  | @sequence before after _ _ _ v k h =>
    have hprogress := (progresses_executes b).inSequence ((progresses_executes b).execute k) before
      default m hm.unfolded
    have hkept := keeps_executes.inSequence (keeps_executes.execute k) before default m hm.toInOrder
    rw [h] at hprogress hkept
    have htokens : m'.source.tokens = m.source.tokens := (hkept trivial).tokens
    have hle : m.source.position ≤ m'.source.position := hprogress.forward trivial
    have hbounded := horder.bounded
    refine ⟨⟨horder, hprogress.unfolded⟩, ?_, fun _ => ?_⟩
    · simp only [left, htokens]
      omega
    · by_cases hp : m'.source.position = m.source.position
      · have hbefore := Bodies.nullable_sequence.mp (hprogress.idle rfl hp)
        exact .inr fun name => .sequence hbefore
      · refine .inl ?_
        rw [htokens] at hbounded
        simp only [left, htokens]
        omega
  | @alternative before after _ _ _ k h =>
    have hprogress := (progresses_executes b).inAlternative ((progresses_executes b).execute k)
      (before ++ part :: after).length 1 before m hm.unfolded
    have hkept := keeps_executes.inAlternative (keeps_executes.execute k)
      (before ++ part :: after).length 1 before m hm.toInOrder
    have hback := inAlternative_failed h rfl
    rw [h] at hprogress hkept
    have htokens : m'.source.tokens = m.source.tokens := (hkept trivial).tokens
    refine ⟨⟨horder, hprogress.unfolded⟩, ?_, fun _ => .inr fun name => .alternative (by simp)⟩
    simp only [left, htokens, hback]
    exact Nat.le_refl _
  | terminated body => exact ⟨hm, Nat.le_refl _, fun _ => .inr fun _ => .terminated⟩

theorem halts_of_leads {k : Nat}
    (hfewer : ∀ (rule : Rule H V) (m : Machine H V), m.Ready b → m.left < k → Halts rule m)
    (rule : Rule H V)
    (hleads : ∀ name, b.Leads rule name → ∀ m : Machine H V, m.Ready b → m.left ≤ k →
      Halts (.ref name) m)
    (m : Machine H V) (hm : m.Ready b) (hk : m.left ≤ k) : Halts rule m := by
  by_cases href : ∃ name, rule = .ref name
  · obtain ⟨name, rfl⟩ := href
    exact hleads name (.ref name) m hm hk
  · refine halts_of_calls fun part m' hc => ?_
    obtain ⟨hm', hle, hleft⟩ := hc.ready hm.entered
    have hle : m'.left ≤ m.left := hle
    rcases hleft (fun name hr => href ⟨name, hr⟩) with hlt | hpart
    · exact hfewer part m' hm' (Nat.lt_of_lt_of_le hlt hk)
    · have hsize : sizeOf part < sizeOf rule := hc.sizeOf_lt fun name hr => href ⟨name, hr⟩
      exact halts_of_leads hfewer part (fun name hl => hleads name (hpart name hl)) m' hm'
        (Nat.le_trans hle hk)
termination_by sizeOf rule

theorem halts_ref {k : Nat}
    (hfewer : ∀ (rule : Rule H V) (m : Machine H V), m.Ready b → m.left < k → Halts rule m)
    {name : String} (hm : m.Ready b) (hk : m.left ≤ k)
    (hleads : ∀ other, b.Leads (m.grammar.resolve name).1 other →
      ∀ m : Machine H V, m.Ready b → m.left ≤ k → Halts (.ref other) m) : Halts (.ref name) m := by
  refine halts_of_calls fun form m' hc => ?_
  obtain ⟨hm', hle, -⟩ := hc.ready hm.entered
  generalize hu : m.entered = u at hc hle
  cases hc with
  | ref =>
    subst hu
    exact halts_of_leads hfewer _ hleads _ hm' (Nat.le_trans hle hk)

/-- Where left calls do not come back, a name comes to an end if everything does where fewer tokens
are left: by induction on the names that it calls. -/
theorem halts_name (hb : b.Acyclic) {k : Nat}
    (hfewer : ∀ (rule : Rule H V) (m : Machine H V), m.Ready b → m.left < k → Halts rule m)
    (name : String) (m : Machine H V) (hm : m.Ready b) (hk : m.left ≤ k) : Halts (.ref name) m := by
  induction name using hb.wellFounded.induction generalizing m with
  | h name ih =>
    refine halts_ref hfewer hm hk fun other hl u hu hk' => ?_
    by_cases hd : b.Defines other
    · exact ih other ((hm.unfolded.leads hl).2 hd) u hu hk'
    · exact halts_ref hfewer hu hk' fun _ hl' => absurd (hu.unfolded.leads hl').1 hd

theorem Ready.halts (hb : b.Acyclic) (hm : m.Ready b) (rule : Rule H V) : Halts rule m := by
  induction hk : m.left using Nat.strong_induction_on generalizing rule m with
  | h k ih =>
    have hfewer : ∀ (rule : Rule H V) (m : Machine H V), m.Ready b → m.left < k → Halts rule m :=
      fun rule m hm hlt => ih m.left hlt hm rule rfl
    exact halts_of_leads hfewer rule (fun name _ => halts_name hb hfewer name) m hm hk.le

end

end Machine

namespace Parser

theorem ready_machine {p : Parser H V} (hp : p.grammar.Coherent) (entry : Rule H V)
    {source : Source V} (hs : source.position ≤ source.tokens.size) (host : H) :
    (p.machine entry source host).Ready p.grammar.bodies where
  base := Nat.le_refl _
  fits := Nat.zero_le _
  bounded := hs
  unfolded := ⟨p.grammar.compile_bodies entry, hp.compileVisiting entry []⟩

/-- Where left calls do not come back, a parse without a depth limit comes to one result, which it
also has under a limit that is large enough. It ends with a fault only if an action answers one. -/
theorem parse_settles_of_acyclic [Inhabited V] {p : Parser H V} (hp : p.grammar.Reachable)
    (hb : p.grammar.bodies.Acyclic) (entry : Rule H V) (source : Source V)
    (hs : source.position ≤ source.tokens.size) (host : H) :
    ∃ (limit : Nat) (r : Parsed H V),
      (∀ n, limit ≤ n → (p.limited none).parse n entry source host = r) ∧
      (∀ n, limit < n → (p.limited (some limit)).parse n entry source host =
        { r with parser := r.parser.limited (some limit) }) ∧
      r.outcome ≠ .unfinished ∧ (∀ l, r.outcome ≠ .limitExceeded l) ∧
      ∀ f, r.outcome = .fault f → ∃ a u, Machine.Invokes (p.grammar.compile entry).1
        ((p.limited none).machine entry source host) a u ∧
          (a.run u.stack.window u.host).1 = .fault f := by
  have hready := ready_machine (p := p.limited none) hp.coherent entry hs host
  obtain ⟨limit, hlimit⟩ := hready.halts hb (p.grammar.compile entry).1
  have hnests : ¬p.Nests entry source host limit :=
    fun h => hlimit ((nests_iff_unfinished p entry source host limit).mp h)
  refine ⟨limit, (p.limited none).parse limit entry source host, ?_, ?_, hlimit, ?_, ?_⟩
  · exact fun n hn => parse_unlimited hnests hn
  · exact fun n hn => parse_within hnests hn
  · exact Machine.execute_within_limit rfl limit _
  · exact fun f hf => Machine.fault_invoked hready.toInOrder hf

def repeated : Parser Unit Nat where
  grammar := ((((Grammar.ofTerminals ["x", "y"]).define "ys"
    (.alternative [.sequence [.ref "y", .ref "ys"], .succeed])).define "xs"
      (.alternative [.sequence [.ref "ys", .ref "x", .ref "xs"], .succeed])).resolve "xs").2.grammar
  options := {}

theorem repeated_settles :
    repeated.grammar.compiled? "xs" = some (.scope (.alternative [.sequence
      [.scope (.alternative [.sequence [.terminal "y", .ref "ys"], .succeed]), .terminal "x",
        .ref "xs"], .succeed])) ∧
    repeated.grammar.Reachable ∧ repeated.grammar.bodies.Acyclic ∧
    ∃ (limit : Nat) (r : Parsed Unit Nat), r.outcome ≠ .unfinished ∧
      ∀ n, limit ≤ n →
        (repeated.limited none).parse n (.ref "xs") ⟨#[⟨"y", 1⟩, ⟨"x", 2⟩], 0⟩ () = r := by
  have hreached : repeated.grammar.Reachable :=
    .resolve (.define (.define (.start _) _ _) _ _) _
  have hbodies : repeated.grammar.bodies = ⟨["x", "y"],
      [("ys", .alternative [.sequence [.ref "y", .ref "ys"], .succeed]),
        ("xs", .alternative [.sequence [.ref "ys", .ref "x", .ref "xs"], .succeed])]⟩ := rfl
  -- Only `xs` left-calls, and what it calls is `ys`: the terminals take a token.
  have hcalls : ∀ caller callee, repeated.grammar.bodies.LeftCalls caller callee →
      caller = "xs" ∧ callee = "ys" := by
    rintro caller callee ⟨-, ⟨ht, -⟩, source, hs, hl⟩
    have hx : ¬repeated.grammar.bodies.Nullable (.ref "x") := Bodies.not_nullable_terminalName rfl
    have hy : ¬repeated.grammar.bodies.Nullable (.ref "y") := Bodies.not_nullable_terminalName rfl
    obtain ⟨before, after, heq, -⟩ := List.lookup_eq_some_iff.mp hs
    have hmem : (caller, source) ∈ repeated.grammar.bodies.sources := by simp [heq]
    simp only [hbodies, List.mem_cons, Prod.mk.injEq, List.not_mem_nil, or_false] at hmem
    rcases hmem with ⟨rfl, rfl⟩ | ⟨rfl, rfl⟩
    · obtain rfl : callee = "y" := by simpa [Rule.succeed, hy] using hl
      cases ht
    · have hcallee : callee = "ys" ∨
          repeated.grammar.bodies.Nullable (.ref "ys") ∧ callee = "x" := by
        simpa [Rule.succeed, hx] using hl
      rcases hcallee with rfl | ⟨-, rfl⟩
      · exact ⟨rfl, rfl⟩
      · cases ht
  have hacyclic : repeated.grammar.bodies.Acyclic := by
    intro name h
    obtain ⟨_, hfirst, -⟩ := Relation.TransGen.head'_iff.mp h
    obtain ⟨_, -, hlast⟩ := Relation.TransGen.tail'_iff.mp h
    have hsame := (hcalls _ _ hfirst).1.symm.trans (hcalls _ _ hlast).2
    exact absurd hsame (by decide)
  obtain ⟨limit, r, hr, -, hends, -⟩ := parse_settles_of_acyclic hreached hacyclic (.ref "xs")
    ⟨#[⟨"y", 1⟩, ⟨"x", 2⟩], 0⟩ (by decide) ()
  exact ⟨rfl, hreached, hacyclic, limit, r, hends, hr⟩

end Parser

end OrderedChoice
