import OrderedChoice.Proofs.Following

set_option autoImplicit false

namespace OrderedChoice

variable {G B H V : Type}

/-- Names of which each means a rule with a frame of its own, or another of these names. -/
def Steady (look : String → Rule H V) (name : String) : Prop :=
  ∃ S : String → Prop, S name ∧
    ∀ n, S n → (∃ body, look n = .scope body) ∨ ∃ k, S k ∧ look n = .ref k

/-- `StandsFor look rule form`: `form` is `rule` with some references replaced by what they mean,
and again in what has replaced them. A reference may also have got a frame where this makes no
difference. -/
inductive StandsFor (look : String → Rule H V) : Rule H V → Rule H V → Prop where
  | ref (name : String) : StandsFor look (.ref name) (.ref name)
  | look {name : String} {form : Rule H V} (h : StandsFor look (look name) form) :
    StandsFor look (.ref name) form
  | framed {name : String} (h : Steady look name) :
    StandsFor look (.ref name) (.scope (.ref name))
  | framedFail {name : String} (h : look name = .alternative []) :
    StandsFor look (.ref name) (.scope (.alternative []))
  | terminal (name : String) : StandsFor look (.terminal name) (.terminal name)
  | action (act : Action H V) : StandsFor look (.action act) (.action act)
  | scope {body form : Rule H V} (h : StandsFor look body form) :
    StandsFor look (.scope body) (.scope form)
  | sequence {parts forms : List (Rule H V)} (hl : parts.length = forms.length)
    (hp : ∀ p ∈ parts.zip forms, StandsFor look p.1 p.2) :
    StandsFor look (.sequence parts) (.sequence forms)
  | alternative {parts forms : List (Rule H V)} (hl : parts.length = forms.length)
    (hp : ∀ p ∈ parts.zip forms, StandsFor look p.1 p.2) :
    StandsFor look (.alternative parts) (.alternative forms)
  | terminated {body form : Rule H V} (h : StandsFor look body form) :
    StandsFor look (.terminated body) (.terminated form)

variable {look : String → Rule H V}

theorem forall_zip_self {P : Rule H V → Rule H V → Prop} {parts : List (Rule H V)}
    (h : ∀ part ∈ parts, P part part) : ∀ p ∈ parts.zip parts, P p.1 p.2 := by
  induction parts with
  | nil => simp
  | cons part parts ih =>
    obtain ⟨hpart, hparts⟩ := List.forall_mem_cons.mp h
    exact List.forall_mem_cons.mpr ⟨hpart, ih hparts⟩

mutual
theorem StandsFor.refl : (rule : Rule H V) → StandsFor look rule rule
  | .ref name => .ref name
  | .terminal name => .terminal name
  | .scope body => .scope (StandsFor.refl body)
  | .sequence parts => .sequence rfl (forall_zip_self (StandsFor.parts_refl parts))
  | .alternative parts => .alternative rfl (forall_zip_self (StandsFor.parts_refl parts))
  | .action act => .action act
  | .terminated body => .terminated (StandsFor.refl body)

theorem StandsFor.parts_refl : (parts : List (Rule H V)) →
    ∀ part ∈ parts, StandsFor look part part
  | [] => by simp
  | part :: parts => List.forall_mem_cons.mpr ⟨StandsFor.refl part, StandsFor.parts_refl parts⟩
end

def Floor.Level (floor : Floor B V) : Prop :=
  ∀ below frame, floor.opened (floor.opened below frame) [] = floor.opened below frame

theorem Floor.whole_level : (Floor.whole : Floor (List V) V).Level := by
  intro below frame
  exact List.append_nil _

theorem Floor.nearest_level : (Floor.nearest : Floor (Option V) V).Level := by
  intro below frame
  rfl

namespace Evaluation

theorem closed_closed (outer : View B V) (below : B) (rest : List (Token V))
    (r : Outcome V × Evaluation G B H V) :
    closed outer (closed ⟨below, [], rest⟩ r) = closed outer r := by
  obtain ⟨o, t⟩ := r
  cases o <;> rfl

theorem inScope_inScope {floor : Floor B V} (hfloor : floor.Level)
    (run : Evaluation G B H V → Outcome V × Evaluation G B H V) (s : Evaluation G B H V) :
    inScope floor (inScope floor run) s = inScope floor run s := by
  simp only [inScope, closed_closed, hfloor s.view.below s.view.frame]

variable [Inhabited V]

@[simp] theorem eval_fixed_ref (floor : Floor B V) (budget : Nat) (name : String)
    (s : Evaluation Unit B H V) :
    eval floor (fixed look) (budget + 1) (.ref name) s =
      eval floor (fixed look) budget (look name) s := rfl

theorem inScope_eval_steady {floor : Floor B V} (hfloor : floor.Level) {name : String}
    (h : Steady look name) (budget : Nat) (s : Evaluation Unit B H V) :
    inScope floor (eval floor (fixed look) budget (.ref name)) s =
        eval floor (fixed look) budget (.ref name) s ∨
      (inScope floor (eval floor (fixed look) budget (.ref name)) s).1 = .unfinished ∧
        (eval floor (fixed look) budget (.ref name) s).1 = .unfinished := by
  obtain ⟨S, hname, hS⟩ := h
  induction budget generalizing name with
  | zero => exact .inr ⟨rfl, rfl⟩
  | succ budget ih =>
    have hstep : eval floor (fixed look) (budget + 1) (.ref name) =
        eval floor (fixed look) budget (look name) := rfl
    rw [hstep]
    rcases hS name hname with ⟨body, hbody⟩ | ⟨k, hk, hlook⟩
    · rw [hbody]
      cases budget with
      | zero => exact .inr ⟨rfl, rfl⟩
      | succ budget => exact .inl (inScope_inScope hfloor _ s)
    · rw [hlook]
      exact ih hk

end Evaluation

/-- Names are found so that what is found stands for what they mean. -/
def Finds (look : String → Rule H V) (find : G → String → Rule H V × G) (J : G → Prop) : Prop :=
  ∀ g name, J g → J (find g name).2 ∧ StandsFor look (look name) (find g name).1

theorem forall₂_of_zip {P Q : Rule H V → Rule H V → Prop} {parts forms : List (Rule H V)}
    (hl : parts.length = forms.length) (hp : ∀ p ∈ parts.zip forms, P p.1 p.2)
    (h : ∀ part form, P part form → Q part form) : List.Forall₂ Q parts forms :=
  List.forall₂_iff_zip.mpr ⟨hl, fun hm => h _ _ (hp _ hm)⟩

section

variable [Inhabited V] {floor : Floor B V} {find : G → String → Rule H V × G} {J : G → Prop}

open Evaluation

theorem eval_form_tracks (hfloor : floor.Level) (hfind : Finds look find J) (budget : Nat)
    {rule form : Rule H V} (h : StandsFor look rule form) :
    Tracks (fun g (_ : Unit) => J g) (eval floor find budget form)
      (fun k => eval floor (fixed look) k rule) := by
  induction budget generalizing rule form with
  | zero =>
    intro s t _ hx
    exact absurd rfl hx
  | succ budget ih =>
    induction h with
    | ref name =>
      intro s t hst
      obtain ⟨hJ, hform⟩ := hfind s.names name hst.names
      have hnext := ih hform { s with names := (find s.names name).2 } t { hst with names := hJ }
      exact Follows.succ hnext
    | look _ ih' =>
      intro s t hst
      exact Follows.succ (ih' s t hst)
    | @framed name hsteady =>
      intro s t hst hx
      obtain ⟨y, hy, n, hn⟩ := inScope_tracks floor (ih (.ref name)) s t hst hx
      refine ⟨y, hy, n, fun k hk => ?_⟩
      rcases inScope_eval_steady hfloor hsteady k t with heq | ⟨hu, -⟩
      · exact heq.symm.trans (hn k hk)
      · have hend : (inScope floor (eval floor (fixed look) k (.ref name)) t).1 = _ :=
          (congrArg Prod.fst (hn k hk)).trans hy.1
        rw [hu] at hend
        exact absurd hend.symm hx
    | @framedFail name hfail =>
      intro s t hst hx
      cases budget with
      | zero => exact absurd rfl hx
      | succ budget =>
        have hend : Follows (fun g (_ : Unit) => J g)
            (eval floor find (budget + 2) (.scope (.alternative [])) s)
            (fun k => eval floor (fixed look) (k + 1 + 1) (.ref name) t) := by
          simp only [eval_fixed_ref, hfail]
          exact SameEnd.follows ⟨rfl, hst⟩
        exact hend.succ.succ hx
    | terminal name =>
      intro s t hst
      exact Follows.succ (SameEnd.follows (hst.matchTerminal name))
    | action a =>
      intro s t hst
      exact Follows.succ (SameEnd.follows (hst.act floor a))
    | scope h _ =>
      intro s t hst
      exact Follows.succ (inScope_tracks floor (ih h) s t hst)
    | sequence hl hp _ =>
      intro s t hst
      have hparts := List.Forall₂.flip (forall₂_of_zip hl hp fun _ _ h => ih h)
      exact Follows.succ (inSequence_tracks hparts default s t hst)
    | alternative hl hp _ =>
      intro s t hst
      have hparts := List.Forall₂.flip (forall₂_of_zip hl hp fun _ _ h => ih h)
      exact Follows.succ (inAlternative_tracks hparts s t hst)
    | terminated h _ =>
      intro s t hst
      exact Follows.succ (atEnd_tracks (ih h) s t hst)

theorem eval_rule_tracks (hfloor : floor.Level) (hfind : Finds look find J) (budget : Nat)
    {rule form : Rule H V} (h : StandsFor look rule form) :
    Tracks (fun (_ : Unit) g => J g) (eval floor (fixed look) budget rule)
      (fun k => eval floor find k form) := by
  induction budget generalizing rule form with
  | zero =>
    intro s t _ hx
    exact absurd rfl hx
  | succ budget ih =>
    have href (name : String) : Tracks (fun (_ : Unit) g => J g)
        (eval floor (fixed look) (budget + 1) (.ref name))
        (fun k => eval floor find k (.ref name)) := by
      intro s t hst
      obtain ⟨hJ, hform⟩ := hfind t.names name hst.names
      have hnext := ih hform s { t with names := (find t.names name).2 } { hst with names := hJ }
      exact Follows.succ hnext
    cases h with
    | ref name => exact href name
    | look h => exact ih h
    | @framed name hsteady =>
      intro s t hst hx
      have hrec := inScope_tracks floor (href name) s t hst
      rcases inScope_eval_steady hfloor hsteady (budget + 1) s with heq | ⟨-, hu⟩
      · rw [heq] at hrec
        exact Follows.succ hrec hx
      · exact absurd hu hx
    | @framedFail name hfail =>
      intro s t hst hx
      simp only [eval_fixed_ref, hfail] at hx ⊢
      cases budget with
      | zero => exact absurd rfl hx
      | succ budget =>
        have hend : Follows (fun (_ : Unit) g => J g)
            (eval floor (fixed look) (budget + 1) (.alternative []) s)
            (fun k => eval floor find (k + 1 + 1) (.scope (.alternative [])) t) :=
          SameEnd.follows ⟨rfl, hst⟩
        exact hend.succ.succ hx
    | terminal name =>
      intro s t hst
      exact Follows.succ (SameEnd.follows (hst.matchTerminal name))
    | action a =>
      intro s t hst
      exact Follows.succ (SameEnd.follows (hst.act floor a))
    | scope h =>
      intro s t hst
      exact Follows.succ (inScope_tracks floor (ih h) s t hst)
    | sequence hl hp =>
      intro s t hst
      have hparts := forall₂_of_zip hl hp fun _ _ h => ih h
      exact Follows.succ (inSequence_tracks hparts default s t hst)
    | alternative hl hp =>
      intro s t hst
      have hparts := forall₂_of_zip hl hp fun _ _ h => ih h
      exact Follows.succ (inAlternative_tracks hparts s t hst)
    | terminated h =>
      intro s t hst
      exact Follows.succ (atEnd_tracks (ih h) s t hst)

/-- Evaluating a form returns what evaluating the rule returns that it stands for, as far as can be
seen without regard to where names are looked up; if it ends with some budget, it returns. -/
theorem eval_returns_iff (hfloor : floor.Level) (hfind : Finds look find J)
    {rule form : Rule H V} (h : StandsFor look rule form) {γ : Type}
    {see : Outcome V × Evaluation G B H V → γ} {see' : Outcome V × Evaluation Unit B H V → γ}
    (hsee : ∀ x y, SameEnd (fun _ _ => True) x y → see' y = see x) {s : Evaluation G B H V}
    {t : Evaluation Unit B H V} (hst : Same (fun g _ => J g) s t) :
    (∀ o c, Returns (fun n =>
        ((eval floor find n form s).1, see (eval floor find n form s))) o c ↔
      Returns (fun n =>
        ((eval floor (fixed look) n rule t).1, see' (eval floor (fixed look) n rule t))) o c) ∧
    ∀ n, (eval floor find n form s).1 ≠ .unfinished →
      Returns (fun n => ((eval floor find n form s).1, see (eval floor find n form s)))
        (eval floor find n form s).1 (see (eval floor find n form s)) := by
  refine returns_iff_of_ends ?_ ?_
  · intro n hn
    exact (eval_form_tracks hfloor hfind n h).returns hst (fun x y hxy => hsee x y hxy.forget) hn
  · intro n hn
    have hts : Same (fun (_ : Unit) g => J g) t s :=
      ⟨hst.view.symm, hst.names, hst.host.symm, hst.calls.symm⟩
    exact (eval_rule_tracks hfloor hfind n h).returns hts
      (fun x y hxy => (hsee y x hxy.symm.forget).symm) hn

end

end OrderedChoice
