import OrderedChoice.ValueStack
import Mathlib

set_option autoImplicit false

namespace OrderedChoice

variable {V : Type}

namespace Window

variable (lower frame : List V)

theorem values_mk : (⟨(lower ++ frame).toArray, lower.length⟩ : Window V).values = frame := by
  simp [values]

theorem below?_mk :
    (⟨(lower ++ frame).toArray, lower.length⟩ : Window V).below? = lower.getLast? := by
  cases lower with
  | nil => rfl
  | cons v lower =>
    change ((v :: lower) ++ frame).toArray[lower.length]? = _
    rw [List.getElem?_toArray, List.getElem?_append_left (by simp), List.getLast?_eq_getElem?]
    rfl

theorem slot?_mk (index : Nat) :
    (⟨(lower ++ frame).toArray, lower.length⟩ : Window V).slot? index =
      match index with
      | 0 => lower.getLast?
      | i + 1 => frame[i]? := by
  cases index with
  | zero => exact below?_mk lower frame
  | succ i =>
    change (lower ++ frame).toArray[lower.length + (i + 1) - 1]? = frame[i]?
    rw [List.getElem?_toArray, List.getElem?_append_right (by omega)]
    congr 1
    omega

theorem size_mk :
    (⟨(lower ++ frame).toArray, lower.length⟩ : Window V).size = .ok frame.length := by
  simp [size]

theorem frame_mk :
    (⟨(lower ++ frame).toArray, lower.length⟩ : Window V).frame = .ok frame := by
  simp [Window.frame, values]

section

variable {w : Window V} {index : Nat}

theorem tryGet_of_slot {v : V} (h : w.slot? index = some v) (hfits : w.base + index < wordBound) :
    w.tryGet index = .ok (.ok v) := by
  unfold tryGet
  rw [if_neg (by omega), h]

theorem tryGet_of_no_slot {n : Nat} (h : w.slot? index = none)
    (hfits : w.base + index < wordBound) (hsize : w.size = .ok n) :
    w.tryGet index = .ok (.error (.report .execute (.actionContract index n))) := by
  unfold tryGet
  rw [if_neg (by omega), h, hsize]

theorem tryGet_of_overflow (h : wordBound ≤ w.base + index) :
    w.tryGet index = .error .sumOverflow :=
  if_pos h

theorem get_of_slot {v : V} (h : w.slot? index = some v) (hfits : w.base + index < wordBound) :
    w.get index = .ok v := by
  rw [get, tryGet_of_slot h hfits]

theorem get_of_no_slot {n : Nat} (h : w.slot? index = none) (hfits : w.base + index < wordBound)
    (hsize : w.size = .ok n) : w.get index = .error (.contract index n) := by
  rw [get, tryGet_of_no_slot h hfits hsize, hsize]

theorem get_of_overflow (h : wordBound ≤ w.base + index) : w.get index = .error .sumOverflow := by
  rw [get, tryGet_of_overflow h]

end

theorem get_mk_of_slot {index : Nat} {v : V}
    (h : (⟨(lower ++ frame).toArray, lower.length⟩ : Window V).slot? index = some v)
    (hfits : lower.length + index < wordBound) :
    (⟨(lower ++ frame).toArray, lower.length⟩ : Window V).get index = .ok v :=
  get_of_slot h hfits

end Window

namespace ValueStack

/-- The live values are `lower` and above them, in the current frame, `frame`. -/
structure Holds (s : ValueStack V) (lower frame : List V) : Prop where
  live : s.live = lower ++ frame
  base : s.base = lower.length
  fits : s.pointer ≤ s.slots.size

theorem length_live {s : ValueStack V} (h : s.pointer ≤ s.slots.size) :
    s.live.length = s.pointer := by
  rw [live, List.length_take, Array.length_toList, Nat.min_eq_left h]

theorem holds_of_le {s : ValueStack V} (hb : s.base ≤ s.pointer) (hp : s.pointer ≤ s.slots.size) :
    s.Holds (s.live.take s.base) (s.live.drop s.base) := by
  refine ⟨(List.take_append_drop _ _).symm, ?_, hp⟩
  rw [List.length_take, length_live hp]
  omega

theorem holds_mk (lower frame : List V) :
    (⟨(lower ++ frame).toArray, (lower ++ frame).length, lower.length⟩ : ValueStack V).Holds lower
      frame :=
  ⟨List.take_length, rfl, Nat.le_refl _⟩

theorem holds_empty : (empty : ValueStack V).Holds [] [] :=
  ⟨rfl, rfl, Nat.le_refl _⟩

namespace Holds

variable {s : ValueStack V} {lower frame : List V}

theorem pointer (h : s.Holds lower frame) : s.pointer = lower.length + frame.length := by
  rw [← length_live h.fits, h.live, List.length_append]

theorem window (h : s.Holds lower frame) :
    s.window = ⟨(lower ++ frame).toArray, lower.length⟩ := by
  have hl : s.slots.extract 0 s.pointer = (lower ++ frame).toArray := by
    apply Array.toList_inj.mp
    rw [← h.live, ValueStack.live, Array.toList_extract, List.extract_eq_take_drop]
    simp
  rw [ValueStack.window, hl, h.base]

theorem push (h : s.Holds lower frame) (v : V) : (s.push v).Holds lower (frame ++ [v]) := by
  have hl : (s.push v).live = s.live ++ [v] := by
    simp only [ValueStack.push, ValueStack.live]
    split
    · rename_i hlt
      rw [Array.toList_setIfInBounds, List.take_set, List.take_add_one,
        List.getElem?_eq_getElem (by simpa using hlt), Option.toList_some, List.set_append_right]
      · simp [Nat.min_eq_left (Nat.le_of_lt hlt)]
      · rw [List.length_take, Array.length_toList]
        exact Nat.min_le_left _ _
    · rename_i hge
      have he : s.pointer = s.slots.toList.length := by
        have := h.fits
        simp only [Array.length_toList]
        omega
      rw [Array.toList_push, he, List.take_length, List.take_of_length_le]
      simp
  refine ⟨?_, h.base, ?_⟩
  · rw [hl, h.live, List.append_assoc]
  · have := h.fits
    simp only [ValueStack.push]
    split
    · simpa using by omega
    · simpa using this

theorem openFrame (h : s.Holds lower frame) : s.openFrame.Holds (lower ++ frame) [] :=
  ⟨by rw [List.append_nil]; exact h.live, by rw [List.length_append]; exact h.pointer, h.fits⟩

theorem restore {t : ValueStack V} {lower' frame' more : List V} (h : s.Holds lower frame)
    (ht : t.Holds lower' frame') (hlive : lower' ++ frame' = lower ++ frame ++ more) :
    ({ t with pointer := s.pointer, base := s.base } : ValueStack V).Holds lower frame := by
  have hle : s.pointer ≤ t.pointer := by
    rw [h.pointer, ht.pointer, ← List.length_append, ← List.length_append, hlive]
    simp
  refine ⟨?_, h.base, Nat.le_trans hle ht.fits⟩
  have htake : (t.slots.toList.take t.pointer).take s.pointer = t.slots.toList.take s.pointer := by
    rw [List.take_take, Nat.min_eq_left hle]
  change t.slots.toList.take s.pointer = _
  rw [← htake]
  change t.live.take s.pointer = _
  rw [ht.live, hlive, h.pointer, ← List.length_append, List.take_left']
  rfl

theorem closeFrame {t : ValueStack V} {frame' : List V} (h : s.Holds lower frame)
    (ht : t.Holds (lower ++ frame) frame') : (t.closeFrame s.saved).Holds lower frame :=
  h.restore ht rfl

theorem rollback {t : ValueStack V} {more : List V} (h : s.Holds lower frame)
    (ht : t.Holds lower (frame ++ more)) :
    ∃ u, t.rollback s.pointer = .ok u ∧ u.Holds lower frame := by
  have hle : s.pointer ≤ t.pointer := by
    rw [h.pointer, ht.pointer, List.length_append]
    omega
  refine ⟨{ t with pointer := s.pointer }, if_pos hle, ?_⟩
  have hr := h.restore ht (List.append_assoc lower frame more).symm
  rw [h.base, ← ht.base] at hr
  exact hr

end Holds

section

variable {s : ValueStack V}

theorem window_size (hb : s.base ≤ s.pointer) (hp : s.pointer ≤ s.slots.size) :
    s.window.size = .ok (s.pointer - s.base) := by
  rw [(holds_of_le hb hp).window, Window.size_mk, List.length_drop, length_live hp]

theorem window_frame (hb : s.base ≤ s.pointer) (hp : s.pointer ≤ s.slots.size) :
    s.window.frame = .ok (s.live.drop s.base) := by
  rw [(holds_of_le hb hp).window, Window.frame_mk]

end

end ValueStack

end OrderedChoice
