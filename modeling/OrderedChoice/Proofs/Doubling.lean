import OrderedChoice.Proofs.Guarding
import OrderedChoice.Proofs.Residue

set_option autoImplicit false

/-!
# Depth limits and the order of compilation

How deep a parse nests depends on the references that compilation has left in place, and so on what
was compiled first. The difference is bounded: where one form of a rule has a frame around a body,
another may come to the same frame by a reference, or by a reference in a frame, which is two levels
deeper at most; and the body takes a level itself. So a parse that stays within a limit stays within
twice that limit in any other history with the same bodies, and does the same. If no body comes back
to itself no reference is left, and limits are the same in all histories.
-/

namespace OrderedChoice

variable {G G' B H V : Type}

/-- Rules of one kind, not references, whose parts are related by `P`. -/
inductive Rule.Parallel (P : Rule H V → Rule H V → Prop) : Rule H V → Rule H V → Prop where
  | terminal (name : String) : Parallel P (.terminal name) (.terminal name)
  | scope {body form : Rule H V} (h : P body form) : Parallel P (.scope body) (.scope form)
  | sequence {parts forms : List (Rule H V)} (h : List.Forall₂ P parts forms) :
    Parallel P (.sequence parts) (.sequence forms)
  | alternative {parts forms : List (Rule H V)} (h : List.Forall₂ P parts forms) :
    Parallel P (.alternative parts) (.alternative forms)
  | action (act : Action H V) : Parallel P (.action act) (.action act)
  | terminated {body form : Rule H V} (h : P body form) :
    Parallel P (.terminated body) (.terminated form)

theorem Rule.Parallel.refl {P : Rule H V → Rule H V → Prop} (hP : ∀ r, P r r) {rule : Rule H V}
    (hr : ∀ name, rule ≠ .ref name) : rule.Parallel P rule := by
  cases rule with
  | ref name => exact absurd rfl (hr name)
  | terminal name => exact .terminal name
  | scope body => exact .scope (hP body)
  | sequence parts => exact .sequence (List.forall₂_same.mpr fun r _ => hP r)
  | alternative parts => exact .alternative (List.forall₂_same.mpr fun r _ => hP r)
  | action act => exact .action act
  | terminated body => exact .terminated (hP body)

theorem SameEnd.mono {L L' : G → G' → Prop} (hL : ∀ g g', L g g' → L' g g')
    {x : Outcome V × Evaluation G B H V} {y : Outcome V × Evaluation G' B H V}
    (h : SameEnd L x y) : SameEnd L' x y :=
  ⟨h.1, { h.2 with names := hL _ _ h.2.names }⟩

theorem Follows.mono {L L' : G → G' → Prop} (hL : ∀ g g', L g g' → L' g g')
    {x : Outcome V × Evaluation G B H V} {run : Nat → Outcome V × Evaluation G' B H V}
    (h : Follows L x run) : Follows L' x run := by
  intro hx
  obtain ⟨y, hy, hs⟩ := h hx
  exact ⟨y, hy.mono hL, hs⟩

namespace Evaluation

theorem closed_unfinished (outer : View B V) {r : Outcome V × Evaluation G B H V}
    (h : r.1 = .unfinished) : (closed outer r).1 = .unfinished := by
  obtain ⟨o, t⟩ := r
  obtain rfl : o = .unfinished := h
  rfl

variable [Inhabited V] {floor : Floor B V}

theorem eval_parallel {L : G → G' → Prop} {find : G → String → Rule H V × G}
    {find' : G' → String → Rule H V × G'} {n k : Nat} {P : Rule H V → Rule H V → Prop}
    (hP : ∀ rule form, P rule form →
      Tracks L (eval floor find n rule) (fun _ => eval floor find' k form))
    {rule form : Rule H V} (h : rule.Parallel P form) :
    Tracks L (eval floor find (n + 1) rule) (fun _ => eval floor find' (k + 1) form) := by
  cases h with
  | terminal name => exact fun s t hst => SameEnd.follows (hst.matchTerminal name)
  | action a => exact fun s t hst => SameEnd.follows (hst.act floor a)
  | scope h => exact inScope_tracks floor (hP _ _ h)
  | sequence h => exact inSequence_tracks (h.imp hP) default
  | alternative h => exact inAlternative_tracks (h.imp hP)
  | terminated h => exact atEnd_tracks (hP _ _ h)

end Evaluation

namespace Grammar

variable {b : Bodies H V} {g g' : Grammar H V} {name : String} {form form' body : Rule H V}

/-- The later of two states of a grammar that has these bodies. -/
def Later (b : Bodies H V) (g g' : Grammar H V) : Prop :=
  g'.Anchored b [] ∧ g.Grows g'

theorem Anchored.later (h : g.Anchored b []) : g.Later b g :=
  ⟨h, .refl g⟩

theorem found_of_compiled (ht : g.isTerminal name = false) (hf : g.compiled? name = some form) :
    g.found name = (form, g) := by
  have hready : g.Ready name := ⟨ht, by rw [isCompiled, hf]; rfl⟩
  obtain ⟨hsame, hform⟩ := hready.resolve
  rw [hf] at hform
  cases hform
  rw [found, hsame]

theorem Held.not_denotes (h : g.Held b [] name) : ¬b.Denotes name form := by
  rcases (held_nil_iff.mp h).2 with hc | ⟨body, inner, ha, -, -⟩
  · exact hc.1 form
  · exact ha.not_denotes

/-- Forms for one rule in two grammars. The number is the levels that the second has in advance. -/
inductive Paired (b : Bodies H V) (g g' : Grammar H V) : Nat → Rule H V → Rule H V → Prop where
  | same (rule : Rule H V) : Paired b g g' 1 rule rule
  | unrolled {rule form form' : Rule H V} (hr : ∀ name, rule ≠ .ref name)
    (h : b.Unrolls (g.Held b []) rule form) (h' : b.Unrolls (g'.Held b []) rule form') :
    Paired b g g' 1 form form'
  | named {name : String} {form form' : Rule H V} (h : b.Unrolls (g.Held b []) (.ref name) form)
    (h' : b.Unrolls (g'.Held b []) (.ref name) form') : Paired b g g' 0 form form'

theorem paired_of_unrolls {rule : Rule H V} (h : b.Unrolls (g.Held b []) rule form)
    (h' : b.Unrolls (g'.Held b []) rule form') : ∃ slack, Paired b g g' slack form form' := by
  by_cases hr : ∃ name, rule = .ref name
  · obtain ⟨name, rfl⟩ := hr
    exact ⟨0, .named h h'⟩
  · exact ⟨1, .unrolled (fun name heq => hr ⟨name, heq⟩) h h'⟩

theorem parallel_of_unrolls {rule : Rule H V} (hr : ∀ name, rule ≠ .ref name)
    (h : b.Unrolls (g.Held b []) rule form) (h' : b.Unrolls (g'.Held b []) rule form') :
    form.Parallel (fun f f' => ∃ slack, Paired b g g' slack f f') form' := by
  have hparts {parts forms forms' : List (Rule H V)} (hl : parts.length = forms.length)
      (hp : ∀ p ∈ parts.zip forms, b.Unrolls (g.Held b []) p.1 p.2)
      (hl' : parts.length = forms'.length)
      (hp' : ∀ p ∈ parts.zip forms', b.Unrolls (g'.Held b []) p.1 p.2) :
      List.Forall₂ (fun f f' => ∃ slack, Paired b g g' slack f f') forms forms' :=
    forall₂_common (fun _ _ _ => paired_of_unrolls)
      (List.forall₂_iff_zip.mpr ⟨hl, fun hm => hp _ hm⟩)
      (List.forall₂_iff_zip.mpr ⟨hl', fun hm => hp' _ hm⟩)
  cases h with
  | terminalName => exact absurd rfl (hr _)
  | unknownName => exact absurd rfl (hr _)
  | inlined => exact absurd rfl (hr _)
  | kept => exact absurd rfl (hr _)
  | terminal name =>
    cases h'
    exact .terminal name
  | scope body =>
    cases h'
    exact .scope ⟨1, .same body⟩
  | action act =>
    cases h'
    exact .action act
  | sequence hl hp =>
    cases h' with
    | sequence hl' hp' => exact .sequence (hparts hl hp hl' hp')
  | alternative hl hp =>
    cases h' with
    | alternative hl' hp' => exact .alternative (hparts hl hp hl' hp')
  | terminated hb =>
    cases h' with
    | terminated hb' => exact .terminated (paired_of_unrolls hb hb')

variable [Inhabited V] {floor : Floor B V}

open Evaluation

theorem Held.eval_ref (floor : Floor B V) (hg : g.Anchored b []) (hn : g.Held b [] name)
    (ha : b.Arrives name body) :
    ∃ inner, b.Unrolls (g.Held b []) body inner ∧
      ∀ (s : Evaluation (Grammar H V) B H V), g.Later b s.names → ∀ n,
        eval floor found (n + 2) (.ref name) s = inScope floor (eval floor found n inner) s := by
  rcases (held_nil_iff.mp hn).2 with hc | ⟨_, inner, -, hf, hinner⟩
  · exact absurd ha (hc.2 body)
  · have hform : b.Unrolls (g.Held b []) (.ref name) (.scope inner) := by
      obtain ⟨source, body', hs, hb, heq⟩ := hg.forms hf
      rw [heq]
      exact .inlined ha.defines.1 hs hb
    refine ⟨inner, ?_, fun s hs n => ?_⟩
    · rcases ha.unrolls_cases hform with ⟨inner', heq, hbody⟩ | ⟨k, -, -, heq | heq⟩
      · cases heq
        exact hbody
      · cases heq
      · cases heq
        cases hinner
    · have hfound : s.names.found name = (.scope inner, s.names) :=
        found_of_compiled (by rw [hs.1.terminal]; exact ha.defines.1) (hs.2 name _ hf)
      simp only [eval, dispatch, hfound]

theorem Anchored.eval_opens (hfloor : floor.Level) (hg : g.Anchored b [])
    (ha : b.Arrives name body) (h : b.Unrolls (g.Held b []) (.ref name) form) :
    ∃ depth inner, 1 ≤ depth ∧ depth ≤ 3 ∧ b.Unrolls (g.Held b []) body inner ∧
      ∀ (s : Evaluation (Grammar H V) B H V), g.Later b s.names →
        (∀ n, n < depth → (eval floor found n form s).1 = .unfinished) ∧
        ∀ n, eval floor found (n + depth) form s = inScope floor (eval floor found n inner) s := by
  rcases ha.unrolls_cases h with ⟨inner, rfl, hinner⟩ | ⟨k, hk, hak, rfl | rfl⟩
  · refine ⟨1, inner, by omega, by omega, hinner, fun s _ => ⟨fun n hn => ?_, fun n => rfl⟩⟩
    obtain rfl : n = 0 := by omega
    rfl
  · obtain ⟨inner, hinner, heval⟩ := hk.eval_ref floor hg hak
    refine ⟨2, inner, by omega, by omega, hinner, fun s hs => ⟨fun n hn => ?_, heval s hs⟩⟩
    obtain rfl | rfl : n = 0 ∨ n = 1 := by omega
    · rfl
    · rfl
  · obtain ⟨inner, hinner, heval⟩ := hk.eval_ref floor hg hak
    refine ⟨3, inner, by omega, by omega, hinner, fun s hs => ⟨fun n hn => ?_, fun n => ?_⟩⟩
    · obtain rfl | rfl | rfl : n = 0 ∨ n = 1 ∨ n = 2 := by omega
      · rfl
      · rfl
      · rfl
    · rw [← inScope_inScope hfloor]
      exact congrArg (closed s.view) (heval
        { s with view := ⟨floor.opened s.view.below s.view.frame, [], s.view.rest⟩ } hs n)

theorem Anchored.eval_circles (hc : b.Circles name) (hg : g.Anchored b [])
    (h : b.Unrolls (g.Held b []) (.ref name) form) (n : Nat)
    {s : Evaluation (Grammar H V) B H V} (hs : g.Later b s.names) :
    (eval floor found n form s).1 = .unfinished := by
  induction n generalizing g name form s with
  | zero => rfl
  | succ n ih =>
    obtain ⟨k, hk, hck, rfl | rfl⟩ := hc.unrolls_cases h
    · obtain ⟨hanchored, -, hform⟩ := hs.1.resolve k
      exact ih hck hanchored hform (s := { s with names := (s.names.resolve k).2.grammar })
        hanchored.later
    · exact closed_unfinished s.view (ih hck hg (.kept hk) (s := { s with view := _ }) hs)

def Beside (b : Bodies H V) (g g' h h' : Grammar H V) : Prop :=
  g.Later b h ∧ g'.Later b h'

theorem Anchored.tracks_of_arrives (hfloor : floor.Level) (hg : g.Anchored b [])
    (hg' : g'.Anchored b []) (ha : b.Arrives name body)
    (h : b.Unrolls (g.Held b []) (.ref name) form)
    (h' : b.Unrolls (g'.Held b []) (.ref name) form') {n k : Nat} (hk : 2 * n ≤ k)
    (hbody : ∀ m j inner inner', m < n → b.Unrolls (g.Held b []) body inner →
      b.Unrolls (g'.Held b []) body inner' → 2 * m ≤ j + 1 →
      Tracks (Beside b g g') (eval floor found m inner) (fun _ => eval floor found j inner')) :
    Tracks (Beside b g g') (eval floor found n form) (fun _ => eval floor found k form') := by
  intro s t hst hx
  obtain ⟨depth, inner, hpos, -, hinner, hopen⟩ := hg.eval_opens hfloor ha h
  obtain ⟨depth', inner', -, hle', hinner', hopen'⟩ := hg'.eval_opens hfloor ha h'
  obtain ⟨hshort, hlong⟩ := hopen s hst.names.1
  have hdepth : depth ≤ n := by
    by_contra hlt
    exact hx (hshort n (by omega))
  obtain ⟨m, rfl⟩ := Nat.exists_eq_add_of_le' hdepth
  rw [hlong] at hx ⊢
  have hm : m ≠ 0 := by
    rintro rfl
    exact hx rfl
  -- The first form has come at least one level in when it comes to the body, the other at most
  -- three, and there is at least one level left for the body on the first side.
  obtain ⟨j, rfl⟩ := Nat.exists_eq_add_of_le' (show depth' ≤ k by omega)
  obtain ⟨y, hy, hsettles⟩ := inScope_tracks floor
    (hbody m j inner inner' (by omega) hinner hinner' (by omega)) s t hst hx
  refine ⟨y, hy, ?_⟩
  simp only [(hopen' t hst.names.2).2]
  exact hsettles

theorem Paired.tracks (hfloor : floor.Level) (hg : g.Anchored b []) (hg' : g'.Anchored b [])
    {slack n k : Nat} (hp : Paired b g g' slack form form') (hk : 2 * n ≤ k + slack) :
    Tracks (Beside b g g') (eval floor found n form) (fun _ => eval floor found k form') := by
  induction n using Nat.strong_induction_on generalizing g g' slack k form form' with
  | h n ih =>
    cases n with
    | zero => exact fun s t _ hx => absurd rfl hx
    | succ n =>
      have hslack : slack ≤ 1 := by cases hp <;> omega
      obtain ⟨k, rfl⟩ := Nat.exists_eq_add_one_of_ne_zero (show k ≠ 0 by omega)
      have hparts (f f' : Rule H V) (h : ∃ slack, Paired b g g' slack f f') :
          Tracks (Beside b g g') (eval floor found n f) (fun _ => eval floor found k f') := by
        obtain ⟨_, h⟩ := h
        exact ih n (by omega) hg hg' h (by omega)
      have hsame (rule : Rule H V) : Tracks (Beside b g g') (eval floor found (n + 1) rule)
          (fun _ => eval floor found (k + 1) rule) := by
        by_cases hr : ∃ name, rule = .ref name
        · obtain ⟨name, rfl⟩ := hr
          intro s t hst
          obtain ⟨hanchored, hgrows, hform⟩ := hst.names.1.1.resolve name
          obtain ⟨hanchored', hgrows', hform'⟩ := hst.names.2.1.resolve name
          have hrec := ih n (by omega) hanchored hanchored' (.named hform hform')
            (show 2 * n ≤ k + 0 by omega) { s with names := (s.names.resolve name).2.grammar }
            { t with names := (t.names.resolve name).2.grammar }
            { hst with names := ⟨hanchored.later, hanchored'.later⟩ }
          refine Follows.mono (fun h h' hb => ⟨⟨hb.1.1, ?_⟩, hb.2.1, ?_⟩) hrec
          · exact (hst.names.1.2.trans hgrows).trans hb.1.2
          · exact (hst.names.2.2.trans hgrows').trans hb.2.2
        · exact eval_parallel hparts
            (.refl (fun r => ⟨1, .same r⟩) fun name heq => hr ⟨name, heq⟩)
      cases hp with
      | same => exact hsame form
      | unrolled hr h h' => exact eval_parallel hparts (parallel_of_unrolls hr h h')
      | @named name _ _ h h' =>
        rcases b.denotes_or_arrives_or_circles name with ⟨f, hd⟩ | ⟨body, ha⟩ | hc
        · rw [hd.unrolls_eq (fun _ hn _ => hn.not_denotes) h,
            hd.unrolls_eq (fun _ hn _ => hn.not_denotes) h']
          exact hsame f
        · have hr (other : String) : body ≠ .ref other := by
            rintro rfl
            cases ha.framed
          exact hg.tracks_of_arrives hfloor hg' ha h h' hk fun m j inner inner' hm hi hi' hj =>
            ih m hm hg hg' (.unrolled hr hi hi') hj
        · intro s t hst hx
          exact absurd (hg.eval_circles hc h (n + 1) hst.names.1) hx

theorem eval_tracks_of_not_recursive (floor : Floor B V) (hb : ∀ name, ¬b.Recursive name)
    (n : Nat) (rule : Rule H V) :
    Tracks (fun g g' : Grammar H V => g.Anchored b [] ∧ g'.Anchored b [])
      (eval floor found n rule) (fun _ => eval floor found n rule) := by
  induction n generalizing rule with
  | zero => exact fun s t _ hx => absurd rfl hx
  | succ n ih =>
    by_cases hr : ∃ name, rule = .ref name
    · obtain ⟨name, rfl⟩ := hr
      intro s t hst
      obtain ⟨hanchored, -, hform⟩ := hst.names.1.resolve name
      obtain ⟨hanchored', -, hform'⟩ := hst.names.2.resolve name
      have hsame : (s.names.resolve name).1 = (t.names.resolve name).1 :=
        hform.unique (fun _ hn => hb _ hn.1) (fun _ hn => hb _ hn.1) hform'
      have hrec := ih (s.names.resolve name).1
        { s with names := (s.names.resolve name).2.grammar }
        { t with names := (t.names.resolve name).2.grammar }
        { hst with names := ⟨hanchored, hanchored'⟩ }
      change Follows _ (eval floor found n (s.names.resolve name).1 _)
        (fun _ => eval floor found n (t.names.resolve name).1 _)
      rw [← hsame]
      exact hrec
    · exact eval_parallel (P := Eq) (fun r _ h => h ▸ ih r)
        (.refl (fun _ => rfl) fun name heq => hr ⟨name, heq⟩)

end Grammar

def Parsed.result (r : Parsed H V) : Outcome V × Effects H V :=
  (r.outcome, r.effects)

namespace Parser

/-- Parsers with the same terminals and bodies, whatever has been compiled and parsed with them. -/
structure SameBodies (p q : Parser H V) : Prop where
  terminal (name : String) : q.grammar.isTerminal name = p.grammar.isTerminal name
  source (name : String) : q.grammar.source? name = p.grammar.source? name

section

variable [Inhabited V] {p q : Parser H V} {entry : Rule H V} {source : Source V} {host : H}

theorem returns_of_not_nests {limit : Nat} (h : ¬p.Nests entry source host limit) :
    Returns (fun n => ((p.limited (some limit)).parse n entry source host).result)
      ((p.limited none).parse limit entry source host).result.1
      ((p.limited none).parse limit entry source host).result.2 := by
  refine ⟨fun hu => h ((nests_iff_unfinished p entry source host limit).mpr hu), limit + 1, ?_⟩
  intro n hn
  simp only [parse_within h hn]
  rfl

theorem unlimited_parse (p : Parser H V) (entry : Rule H V) {source : Source V}
    (hs : source.position ≤ source.tokens.size) (host : H) (n : Nat) :
    ((p.limited none).parse n entry source host).result =
      ((Evaluation.eval Floor.whole Grammar.found n (p.grammar.compile entry).1
          (.start (p.grammar.compile entry).2.grammar source host)).1,
        (Evaluation.eval Floor.whole Grammar.found n (p.grammar.compile entry).1
          (.start (p.grammar.compile entry).2.grammar source host)).2.effects source.tokens) := by
  have hagrees := execution_agrees (p := p.limited none) rfl entry hs host n
  rw [Parsed.result, parse_outcome, parse_effects, ← hagrees.outcome, hagrees.effects]
  rfl

theorem nests_iff_result (p : Parser H V) (entry : Rule H V) (source : Source V) (host : H)
    (n : Nat) : p.Nests entry source host n ↔
      ((p.limited none).parse n entry source host).result.1 = .unfinished :=
  nests_iff_unfinished p entry source host n

theorem not_nests_of_result_eq {n k : Nat} (hn : ¬p.Nests entry source host n)
    (h : ((q.limited none).parse k entry source host).result =
      ((p.limited none).parse n entry source host).result) : ¬q.Nests entry source host k := by
  rw [nests_iff_result] at hn ⊢
  rwa [h]

theorem parse_of_tracks {L : Grammar H V → Grammar H V → Prop} {n k : Nat}
    (ht : Tracks L (Evaluation.eval Floor.whole Grammar.found n (p.grammar.compile entry).1)
      (fun _ => Evaluation.eval Floor.whole Grammar.found k (q.grammar.compile entry).1))
    (hL : L (p.grammar.compile entry).2.grammar (q.grammar.compile entry).2.grammar)
    (hs : source.position ≤ source.tokens.size) (hn : ¬p.Nests entry source host n) :
    ((q.limited none).parse k entry source host).result =
      ((p.limited none).parse n entry source host).result := by
  rw [nests_iff_result, unlimited_parse p entry hs] at hn
  rw [unlimited_parse q entry hs, unlimited_parse p entry hs]
  have hstart : Same L (.start (p.grammar.compile entry).2.grammar source host)
      (.start (q.grammar.compile entry).2.grammar source host) := ⟨rfl, hL, rfl, rfl⟩
  obtain ⟨-, m, hm⟩ := ht.returns hstart (fun x y hxy => hxy.2.effects source.tokens) hn
  exact hm m (Nat.le_refl m)

theorem SameBodies.anchored (h : p.SameBodies q) (hp : p.Reached) (hq : q.Reached) :
    p.grammar.Anchored p.grammar.bodies [] ∧ q.grammar.Anchored p.grammar.bodies [] := by
  constructor
  · exact hp.anchored (fun _ => rfl) fun name => (p.grammar.bodies_source? name).symm
  · exact hq.anchored h.terminal fun name =>
      (h.source name).trans (p.grammar.bodies_source? name).symm

variable {b : Bodies H V} (hp : p.grammar.Anchored b []) (hq : q.grammar.Anchored b [])

include hp hq

/-- What a parse has ended with at some depth, it has ended with at twice that depth in any other
history. -/
theorem parse_twice (hs : source.position ≤ source.tokens.size) {n k : Nat} (hk : 2 * n ≤ k)
    (hn : ¬p.Nests entry source host n) :
    ((q.limited none).parse k entry source host).result =
      ((p.limited none).parse n entry source host).result := by
  obtain ⟨hg, -, hform⟩ := hp.compile entry
  obtain ⟨hg', -, hform'⟩ := hq.compile entry
  obtain ⟨slack, hpaired⟩ := Grammar.paired_of_unrolls hform hform'
  exact parse_of_tracks (hpaired.tracks Floor.whole_level hg hg' (by omega))
    ⟨hg.later, hg'.later⟩ hs hn

theorem parse_once (hs : source.position ≤ source.tokens.size) (hb : ∀ name, ¬b.Recursive name)
    {n : Nat} (hn : ¬p.Nests entry source host n) :
    ((q.limited none).parse n entry source host).result =
      ((p.limited none).parse n entry source host).result := by
  obtain ⟨hg, -, hform⟩ := hp.compile entry
  obtain ⟨hg', -, hform'⟩ := hq.compile entry
  have htracks := Grammar.eval_tracks_of_not_recursive Floor.whole hb n (p.grammar.compile entry).1
  have hsame := hform.unique (fun _ hn => hb _ hn.1) (fun _ hn => hb _ hn.1) hform'
  refine parse_of_tracks (L := fun g g' => g.Anchored b [] ∧ g'.Anchored b []) ?_ ⟨hg, hg'⟩ hs hn
  rw [← hsame]
  exact htracks

end

/-- Let two parsers have the same terminals and bodies, and let them have come to their states in
any way. If a parse with the one does not give up for a limit, the same parse with the other does
not give up for twice that limit or more; whenever neither gives up, both return the same. If no
body comes back to itself, the one gives up exactly for the limits for which the other does. -/
theorem Reached.limits_within_twice [Inhabited V] {p q : Parser H V} (hp : p.Reached)
    (hq : q.Reached) (h : p.SameBodies q) (entry : Rule H V) {source : Source V}
    (hs : source.position ≤ source.tokens.size) (host : H) :
    (∀ limit, ¬p.Exceeds entry source host limit → ∀ larger, 2 * limit ≤ larger →
      ¬q.Exceeds entry source host larger) ∧
    (∀ limit limit', ¬p.Exceeds entry source host limit → ¬q.Exceeds entry source host limit' →
      ∃ o e, (∀ l, o ≠ .limitExceeded l) ∧
        Returns (fun n => ((p.limited (some limit)).parse n entry source host).result) o e ∧
        Returns (fun n => ((q.limited (some limit')).parse n entry source host).result) o e) ∧
    ((∀ name, ¬p.grammar.bodies.Recursive name) → ∀ limit,
      p.Exceeds entry source host limit ↔ q.Exceeds entry source host limit) := by
  simp only [exceeds_iff_nests]
  obtain ⟨hanchored, hanchored'⟩ := h.anchored hp hq
  refine ⟨fun limit hn larger hk => ?_, fun limit limit' hn hn' => ?_, fun hb limit => ?_⟩
  · exact not_nests_of_result_eq hn (parse_twice hanchored hanchored' hs hk hn)
  · have hend := parse_twice hanchored hanchored' hs (Nat.le_max_left (2 * limit) limit') hn
    rw [parse_unlimited hn' (Nat.le_max_right (2 * limit) limit')] at hend
    have hreturns := returns_of_not_nests hn'
    rw [hend] at hreturns
    exact ⟨_, _, Machine.execute_within_limit rfl limit _, returns_of_not_nests hn, hreturns⟩
  · rw [← not_iff_not]
    exact ⟨fun hn => not_nests_of_result_eq hn (parse_once hanchored hanchored' hs hb hn),
      fun hn => not_nests_of_result_eq hn (parse_once hanchored' hanchored hs hb hn)⟩

def coupled : Parser Unit Nat :=
  ((ofTerminals ["x", "y"]).rule "a"
    (.alternative [.sequence [.ref "x", .ref "b"], .ref "y"])).rule "b"
      (.alternative [.sequence [.ref "x", .ref "a"], .ref "y"])

/-- The same with `b` compiled first, so that `a` comes to it by a reference. -/
def primed : Parser Unit Nat :=
  (coupled.compileRule "b").2.1

theorem coupled_reached : coupled.Reached :=
  .rule (.rule (.start _) _ _) _ _

theorem primed_reached : primed.Reached :=
  .compileRule coupled_reached _

theorem coupled_sameBodies_primed : coupled.SameBodies primed := by
  have hbodies : primed.grammar.bodies = coupled.grammar.bodies :=
    coupled.grammar.resolve_bodies "b"
  exact ⟨fun name => congrArg (·.isTerminal name) hbodies, fun name => by
    rw [← Grammar.bodies_source?, hbodies, Grammar.bodies_source?]⟩

theorem coupled_not_exceeds :
    ¬coupled.Exceeds (.ref "a") (.ofList [⟨"x", 1⟩, ⟨"y", 2⟩]) () 7 := by
  rw [exceeds_iff_nests, nests_iff_result]
  have hend : ((coupled.limited none).parse 7 (.ref "a") (.ofList [⟨"x", 1⟩, ⟨"y", 2⟩])
      ()).result.1 = .value 2 := by cbv
  rw [hend]
  intro h
  cases h

theorem primed_within_twice :
    coupled.Reached ∧ primed.Reached ∧ coupled.SameBodies primed ∧
    ¬primed.Exceeds (.ref "a") (.ofList [⟨"x", 1⟩, ⟨"y", 2⟩]) () 14 :=
  ⟨coupled_reached, primed_reached, coupled_sameBodies_primed,
    (coupled_reached.limits_within_twice primed_reached coupled_sameBodies_primed (.ref "a")
      (Nat.zero_le _) ()).1 7 coupled_not_exceeds 14 (Nat.le_refl 14)⟩

/-- Limits can be different in different histories. -/
theorem primed_exceeds :
    coupled.Reached ∧ primed.Reached ∧ coupled.SameBodies primed ∧
    coupled.options = primed.options ∧
    ¬coupled.Exceeds (.ref "a") (.ofList [⟨"x", 1⟩, ⟨"y", 2⟩]) () 7 ∧
    primed.Exceeds (.ref "a") (.ofList [⟨"x", 1⟩, ⟨"y", 2⟩]) () 7 := by
  refine ⟨coupled_reached, primed_reached, coupled_sameBodies_primed, rfl, coupled_not_exceeds, ?_⟩
  rw [exceeds_iff_nests, nests_iff_result]
  cbv

end Parser

end OrderedChoice
