import OrderedChoice.Proofs.Reading

set_option autoImplicit false

namespace OrderedChoice

variable {V : Type}

structure Layers (V : Type) where
  top : List V
  around : List (List V)

namespace ValueStack

inductive Operation (V : Type) where
  | push (v : V)
  | rollback (mark : Nat)
  | openFrame
  | closeFrame

/-- A value stack, and what it returns to when its open frames are closed, the innermost first. -/
structure Framing (V : Type) where
  stack : ValueStack V
  saved : List Frame

end ValueStack

open ValueStack

namespace Layers

def start : Layers V :=
  ⟨[], []⟩

def lower (l : Layers V) : List V :=
  l.around.reverse.flatten

def step (l : Layers V) : Operation V → Option (Layers V)
  | .push v => some { l with top := l.top ++ [v] }
  | .rollback mark =>
    if l.lower.length ≤ mark ∧ mark ≤ l.lower.length + l.top.length then
      some { l with top := l.top.take (mark - l.lower.length) }
    else none
  | .openFrame => some ⟨[], l.top :: l.around⟩
  | .closeFrame =>
    match l.around with
    | [] => none
    | top :: around => some ⟨top, around⟩

def run (l : Layers V) (ops : List (Operation V)) : Option (Layers V) :=
  ops.foldlM step l

theorem run_append (l : Layers V) (ops more : List (Operation V)) :
    l.run (ops ++ more) = l.run ops >>= fun l' => l'.run more :=
  List.foldlM_append

theorem lower_cons (top top' : List V) (around : List (List V)) :
    (⟨top', top :: around⟩ : Layers V).lower = (⟨top, around⟩ : Layers V).lower ++ top := by
  simp [lower]

def savedOf : List (List V) → List Frame
  | [] => []
  | top :: around =>
    ⟨(lower ⟨top, around⟩).length + top.length, (lower ⟨top, around⟩).length⟩ :: savedOf around

end Layers

namespace ValueStack.Framing

def start (capacity : Nat) : Framing V :=
  ⟨⟨Array.emptyWithCapacity capacity, 0, 0⟩, []⟩

/-- One operation, if it is in order: the mark lies in the current frame, and the frame to be closed
is the last one that has been opened. -/
def step (s : Framing V) : Operation V → Option (Framing V)
  | .push v => some { s with stack := s.stack.push v }
  | .rollback mark =>
    if mark < s.stack.base then none
    else
      match s.stack.rollback mark with
      | .ok stack => some { s with stack }
      | .error _ => none
  | .openFrame => some ⟨s.stack.openFrame, s.stack.saved :: s.saved⟩
  | .closeFrame =>
    match s.saved with
    | [] => none
    | f :: saved => some ⟨s.stack.closeFrame f, saved⟩

def run (s : Framing V) (ops : List (Operation V)) : Option (Framing V) :=
  ops.foldlM step s

structure Shows (s : Framing V) (l : Layers V) : Prop where
  holds : s.stack.Holds l.lower l.top
  saved : s.saved = Layers.savedOf l.around

theorem shows_start (capacity : Nat) : (start capacity : Framing V).Shows .start :=
  ⟨holds_empty, rfl⟩

section

variable {s t : Framing V} {l : Layers V}

theorem Shows.rollback (h : s.Shows l) (mark : Nat) :
    Option.Rel Shows (s.step (.rollback mark)) (l.step (.rollback mark)) := by
  have hbase := h.holds.base
  have hpointer := h.holds.pointer
  simp only [step, Layers.step]
  by_cases hlow : mark < s.stack.base
  · rw [if_pos hlow, if_neg (by omega)]
    exact .none
  · rw [if_neg hlow]
    by_cases hhigh : mark ≤ s.stack.pointer
    · -- The mark is the pointer of a stack that holds nothing but what is left.
      have hleft := holds_mk l.lower (l.top.take (mark - l.lower.length))
      have hmark : (l.lower ++ l.top.take (mark - l.lower.length)).length = mark := by
        rw [List.length_append, List.length_take]
        omega
      have hparts : s.stack.Holds l.lower
          (l.top.take (mark - l.lower.length) ++ l.top.drop (mark - l.lower.length)) := by
        rw [List.take_append_drop]
        exact h.holds
      obtain ⟨u, hu, hheld⟩ := hleft.rollback hparts
      simp only [hmark] at hu
      rw [hu, if_pos (by omega)]
      exact .some ⟨hheld, h.saved⟩
    · rw [ValueStack.rollback, if_neg hhigh, if_neg (by omega)]
      exact .none

theorem Shows.closeFrame (h : s.Shows l) :
    Option.Rel Shows (s.step .closeFrame) (l.step .closeFrame) := by
  obtain ⟨top', around⟩ := l
  obtain ⟨hholds, hsaved⟩ := h
  cases around with
  | nil =>
    simp only [step, Layers.step, hsaved]
    exact .none
  | cons top around =>
    simp only [step, Layers.step, hsaved]
    rw [Layers.lower_cons] at hholds
    have hclosed := (holds_mk (Layers.lower ⟨top, around⟩) top).closeFrame hholds
    simp only [ValueStack.saved, List.length_append] at hclosed
    exact .some ⟨hclosed, rfl⟩

theorem Shows.step (h : s.Shows l) (op : Operation V) :
    Option.Rel Shows (s.step op) (l.step op) := by
  cases op with
  | push v => exact .some ⟨h.holds.push v, h.saved⟩
  | rollback mark => exact h.rollback mark
  | openFrame =>
    have hopen := h.holds.openFrame
    rw [← Layers.lower_cons l.top []] at hopen
    refine .some ⟨hopen, ?_⟩
    rw [Layers.savedOf, ← h.saved, ValueStack.saved, h.holds.pointer, h.holds.base]
  | closeFrame => exact h.closeFrame

theorem Shows.run (h : s.Shows l) (ops : List (Operation V)) :
    Option.Rel Shows (s.run ops) (l.run ops) := by
  induction ops generalizing s l with
  | nil => exact .some h
  | cons op ops ih =>
    have hstep := h.step op
    simp only [Framing.run, Layers.run, List.foldlM_cons]
    generalize s.step op = x at hstep
    generalize l.step op = y at hstep
    cases hstep with
    | none => exact .none
    | some h' => exact ih h'

theorem Shows.of_run (h : s.Shows l) {ops : List (Operation V)} (ht : s.run ops = some t) :
    ∃ l', l.run ops = some l' ∧ t.Shows l' := by
  have hrun := h.run ops
  rw [ht] at hrun
  generalize l.run ops = x at hrun
  cases hrun with
  | some h' => exact ⟨_, rfl, h'⟩

structure Alike (s t : Framing V) : Prop where
  live : t.stack.live = s.stack.live
  pointer : t.stack.pointer = s.stack.pointer
  base : t.stack.base = s.stack.base
  saved : t.saved = s.saved

theorem Shows.of_alike (h : s.Shows l) (ht : s.Alike t) : t.Shows l := by
  have hlength : t.stack.live.length = t.stack.pointer := by
    rw [ht.live, ht.pointer, length_live h.holds.fits]
  have hfits : t.stack.pointer ≤ t.stack.slots.size := by
    rw [ValueStack.live, List.length_take, Array.length_toList] at hlength
    omega
  exact ⟨⟨ht.live.trans h.holds.live, ht.base.trans h.holds.base, hfits⟩, ht.saved.trans h.saved⟩

theorem Shows.alike (h : s.Shows l) (ht : t.Shows l) : s.Alike t :=
  ⟨ht.holds.live.trans h.holds.live.symm, ht.holds.pointer.trans h.holds.pointer.symm,
    ht.holds.base.trans h.holds.base.symm, ht.saved.trans h.saved.symm⟩

theorem Shows.window_eq (h : s.Shows l) (ht : t.Shows l) : t.stack.window = s.stack.window :=
  ht.holds.window.trans h.holds.window.symm

theorem Shows.run_alike (h : s.Shows l) (ht : s.Alike t) (ops : List (Operation V)) :
    Option.Rel (fun s t => s.Alike t ∧ t.stack.window = s.stack.window) (s.run ops)
      (t.run ops) := by
  have hs := h.run ops
  have ht := (h.of_alike ht).run ops
  generalize l.run ops = x, s.run ops = y, t.run ops = z at hs ht
  cases hs with
  | none =>
    cases ht
    exact .none
  | some hs =>
    cases ht with
    | some ht => exact .some ⟨hs.alike ht, hs.window_eq ht⟩

end

end ValueStack.Framing

namespace ValueStack

/-- Operations that close the frames they open, and no others. -/
inductive Balanced : List (Operation V) → Prop where
  | nil : Balanced []
  | push {ops : List (Operation V)} (v : V) (h : Balanced ops) : Balanced (.push v :: ops)
  | rollback {ops : List (Operation V)} (mark : Nat) (h : Balanced ops) :
    Balanced (.rollback mark :: ops)
  | frame {inner ops : List (Operation V)} (hi : Balanced inner) (h : Balanced ops) :
    Balanced (.openFrame :: (inner ++ .closeFrame :: ops))

theorem Balanced.around {ops : List (Operation V)} (h : Balanced ops) {l l' : Layers V}
    (hl : l.run ops = some l') : l'.around = l.around := by
  induction h generalizing l l' with
  | nil =>
    cases hl
    rfl
  | push v _ ih => exact ih (l := { l with top := l.top ++ [v] }) hl
  | @rollback ops mark _ ih =>
    change (l.step (.rollback mark) >>= fun m => m.run ops) = some l' at hl
    simp only [Layers.step] at hl
    split at hl
    · exact ih (l := { l with top := l.top.take (mark - l.lower.length) }) hl
    · cases hl
  | @frame inner ops _ _ ihi ih =>
    change (⟨[], l.top :: l.around⟩ : Layers V).run (inner ++ .closeFrame :: ops) = some l' at hl
    rw [Layers.run_append] at hl
    obtain ⟨m, hm, hl⟩ := Option.bind_eq_some_iff.mp hl
    obtain ⟨top, around⟩ := m
    -- The operations inside leave the lists around them, so closing finds what opening put away.
    cases ihi hm
    exact ih (l := ⟨l.top, l.around⟩) hl

/-- All that can be observed of a stack is told by the lists. Reading numbers values by words, of
which there are more than slots in any memory. -/
structure Presents (s : ValueStack V) (l : Layers V) : Prop where
  live : s.live = (l.top :: l.around).reverse.flatten
  frame : s.window.frame = .ok l.top
  last : s.base < wordBound → ∀ v, l.lower.getLast? = some v →
    s.window.get 0 = .ok v ∧ s.window.tryGet 0 = .ok (.ok v)
  bottom : l.lower = [] → s.Refuses 0
  pointer : s.pointer = (l.top :: l.around).reverse.flatten.length
  base : s.base = l.around.reverse.flatten.length

namespace Framing

variable {s t : Framing V} {l : Layers V}

theorem Shows.presents (h : s.Shows l) : s.stack.Presents l := by
  have hbase := h.holds.base
  have hpointer := h.holds.pointer
  have hslot : s.stack.window.slot? 0 = l.lower.getLast? := by
    rw [h.holds.window, Window.slot?_mk]
  have hflatten : (l.top :: l.around).reverse.flatten = l.lower ++ l.top := by
    simp [Layers.lower]
  refine ⟨?_, ?_, fun hfits v hv => ?_, fun hnil => ?_, ?_, hbase⟩
  · rw [hflatten]
    exact h.holds.live
  · rw [h.holds.window, Window.frame_mk]
  · rw [← hslot] at hv
    exact ⟨Window.get_of_slot hv hfits, Window.tryGet_of_slot hv hfits⟩
  · rw [hnil, List.length_nil] at hbase
    refine refuses_of_not_reads (by omega) h.holds.fits ?_ fun v hv => ?_
    · rw [hbase]
      decide
    · have hread := (reads_iff_slot? (by omega) h.holds.fits 0 v).mp hv
      rw [hslot, hnil] at hread
      cases hread
  · rw [hflatten, List.length_append]
    exact hpointer

theorem Shows.reopened (h : s.Shows l) {inner : List (Operation V)} (hi : Balanced inner)
    (ht : s.run (.openFrame :: inner) = some t) : ∃ u, t.step .closeFrame = some u ∧ s.Alike u := by
  obtain ⟨⟨top, around⟩, hl, hshows⟩ := h.of_run ht
  cases hi.around (l := ⟨[], l.top :: l.around⟩) hl
  have hclosed := hshows.closeFrame
  generalize t.step .closeFrame = x at hclosed
  cases hclosed with
  | some hu => exact ⟨_, rfl, h.alike hu⟩

/-- Whatever is done to a fresh value stack is in order for it exactly if it is for the lists, which
afterwards tell all that can be observed of it. Then unused slots never make a difference again, and
closing a frame brings back what could be observed before it was opened. -/
theorem runs_as_layers (capacity : Nat) (ops : List (Operation V)) :
    Option.Rel (fun s l => s.stack.Presents l) ((start capacity).run ops) (Layers.start.run ops) ∧
    ∀ s, (start capacity).run ops = some s →
      (∀ t, s.Alike t → ∀ more, Option.Rel
        (fun s t => s.Alike t ∧ t.stack.window = s.stack.window) (s.run more) (t.run more)) ∧
      ∀ inner, Balanced inner → ∀ t, s.run (.openFrame :: inner) = some t →
        ∃ u, t.step .closeFrame = some u ∧ s.Alike u := by
  have hrun := (shows_start (V := V) capacity).run ops
  constructor
  · generalize (start capacity).run ops = x at hrun
    generalize Layers.start.run ops = y at hrun
    cases hrun with
    | none => exact .none
    | some h => exact .some h.presents
  · intro s hs
    obtain ⟨l, -, h⟩ := (shows_start capacity).of_run hs
    exact ⟨fun t ht more => h.run_alike ht more, fun inner hi t ht => h.reopened hi ht⟩

def takenBack : Framing Nat :=
  ⟨⟨#[1, 2, 3], 2, 1⟩, [⟨1, 0⟩]⟩

theorem takenBack_presents :
    (start 8).run [.push 1, .openFrame, .push 2, .push 3, .rollback 2] = some takenBack ∧
    takenBack.stack.Presents ⟨[2], [[1]]⟩ ∧
    Option.Rel (fun s t => s.Alike t ∧ t.stack.window = s.stack.window)
      (takenBack.run [.push 4]) (Framing.run ⟨⟨#[1, 2], 2, 1⟩, [⟨1, 0⟩]⟩ [.push 4]) ∧
    ∃ u, Framing.step ⟨⟨#[1, 2, 4], 3, 2⟩, [⟨2, 1⟩, ⟨1, 0⟩]⟩ .closeFrame = some u ∧
      takenBack.Alike u := by
  have hrun : (start 8).run [.push 1, .openFrame, .push 2, .push 3, .rollback 2] =
    some takenBack := rfl
  obtain ⟨hrel, hlater⟩ := runs_as_layers 8 [.push 1, .openFrame, .push 2, .push 3, .rollback 2]
  obtain ⟨hunused, hclosed⟩ := hlater takenBack hrun
  rw [hrun] at hrel
  have hpresents : takenBack.stack.Presents ⟨[2], [[1]]⟩ := by
    cases hrel with
    | some h => exact h
  refine ⟨hrun, hpresents, hunused _ ⟨rfl, rfl, rfl, rfl⟩ _, ?_⟩
  exact hclosed [.push 4] (.push 4 .nil) _ rfl

end Framing

end ValueStack

end OrderedChoice
