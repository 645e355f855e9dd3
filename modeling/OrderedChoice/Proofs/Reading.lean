import OrderedChoice.Proofs.Frames

set_option autoImplicit false

namespace OrderedChoice.ValueStack

variable {V : Type}

/-- `s.Reads index v`: in the current frame `index` is the number of `v`. -/
inductive Reads (s : ValueStack V) : Nat → V → Prop where
  | below {v : V} (hb : 1 ≤ s.base) (h : s.live[s.base - 1]? = some v) : Reads s 0 v
  | inside {i : Nat} {v : V} (h : (s.live.drop s.base)[i]? = some v) : Reads s (i + 1) v

/-- A number is refused with a diagnostic that tells it and the size of the frame, and by a fault
with the message of this diagnostic. -/
structure Refuses (s : ValueStack V) (index : Nat) : Prop where
  softly : s.window.tryGet index =
    .ok (.error (.report .execute (.actionContract index (s.pointer - s.base))))
  loudly : ∃ f, s.window.get index = .error f ∧ f.message = "action contract violated: " ++
    (Diagnostic.report .execute (.actionContract index (s.pointer - s.base))).message

section

variable {s : ValueStack V}

theorem slot?_window (hp : s.pointer ≤ s.slots.size) (index : Nat) :
    s.window.slot? index =
      if s.base + index = 0 ∨ s.pointer < s.base + index then none
      else s.slots[s.base + index - 1]? := by
  change (if s.base + index = 0 then none
    else (s.slots.extract 0 s.pointer)[s.base + index - 1]?) = _
  rw [Array.getElem?_extract]
  by_cases hzero : s.base + index = 0
  · rw [if_pos hzero, if_pos (Or.inl hzero)]
  · by_cases hover : s.pointer < s.base + index
    · rw [if_neg hzero, if_neg (by omega), if_pos (Or.inr hover)]
    · rw [if_neg hzero, if_pos (by omega), if_neg (by omega), Nat.zero_add]

theorem reads_iff_slot? (hb : s.base ≤ s.pointer) (hp : s.pointer ≤ s.slots.size) (index : Nat)
    (v : V) : s.Reads index v ↔ s.window.slot? index = some v := by
  have hlive : s.live.length = s.pointer := length_live hp
  have h := holds_of_le hb hp
  have hlength : (s.live.take s.base).length = s.base := h.base.symm
  rw [h.window, Window.slot?_mk]
  cases index with
  | zero =>
    have hlast : (s.live.take s.base).getLast? =
        if s.base = 0 then none else s.live[s.base - 1]? := by
      rw [List.getLast?_eq_getElem?, hlength, List.getElem?_take]
      by_cases hzero : s.base = 0
      · rw [if_pos hzero, if_neg (by omega)]
      · rw [if_neg hzero, if_pos (by omega)]
    simp only [hlast]
    constructor
    · rintro (⟨hb, h⟩ | _)
      rw [if_neg (by omega)]
      exact h
    · intro h
      split at h
      · cases h
      · exact .below (by omega) h
  | succ i =>
    constructor
    · rintro (_ | ⟨h⟩)
      exact h
    · exact .inside

theorem exists_reads_iff (hb : s.base ≤ s.pointer) (hp : s.pointer ≤ s.slots.size) (index : Nat) :
    (∃ v, s.Reads index v) ↔
      1 ≤ index ∧ index ≤ s.pointer - s.base ∨ index = 0 ∧ 1 ≤ s.base := by
  have hslot : (∃ v, s.Reads index v) ↔ ∃ v, s.window.slot? index = some v :=
    exists_congr (reads_iff_slot? hb hp index)
  rw [hslot, slot?_window hp]
  split
  · rename_i h
    simp only [reduceCtorEq, exists_false, false_iff]
    omega
  · rename_i h
    have hlt : s.base + index - 1 < s.slots.size := by omega
    rw [Array.getElem?_eq_getElem hlt]
    simp only [Option.some.injEq, exists_eq', true_iff]
    omega

theorem refuses_of_not_reads (hb : s.base ≤ s.pointer) (hp : s.pointer ≤ s.slots.size)
    {index : Nat} (hfits : s.base + index < wordBound) (h : ∀ v, ¬s.Reads index v) :
    s.Refuses index := by
  have hslot : s.window.slot? index = none := by
    rw [Option.eq_none_iff_forall_ne_some]
    intro v hv
    exact h v ((reads_iff_slot? hb hp index v).mpr hv)
  have hsize := window_size hb hp
  have hloud := Window.get_of_no_slot hslot hfits hsize
  exact ⟨Window.tryGet_of_no_slot hslot hfits hsize, _, hloud, rfl⟩

theorem slot?_window_congr {t : ValueStack V} (hb : s.base ≤ s.pointer)
    (hp : s.pointer ≤ s.slots.size) (hbase : t.base = s.base) (hpointer : t.pointer = s.pointer)
    (hslots : ∀ i, s.base - 1 ≤ i → i < s.pointer → t.slots[i]? = s.slots[i]?) :
    t.pointer ≤ t.slots.size ∧ ∀ index, t.window.slot? index = s.window.slot? index := by
  have hfits : t.pointer ≤ t.slots.size := by
    by_cases hzero : s.pointer = 0
    · omega
    · have hlt : s.pointer - 1 < s.slots.size := by omega
      have hlast := hslots (s.pointer - 1) (by omega) (by omega)
      rw [Array.getElem?_eq_getElem hlt] at hlast
      have htlt := (Array.getElem?_eq_some_iff.mp hlast).1
      omega
  refine ⟨hfits, fun index => ?_⟩
  rw [slot?_window hfits, slot?_window hp, hbase, hpointer]
  split
  · rfl
  · exact hslots _ (by omega) (by omega)

/-- On a stack whose frame begins among its live values, every number whose sum with the base is a
word is read exactly: it gives its value, if it stands for one, and is refused if it does not. Where
the sum is no word, it overflows, although the number itself may be one. Whatever the number, slots
above the pointer and those further below the frame than its neighbour make no difference. -/
theorem numbers_are_read (hb : s.base ≤ s.pointer) (hp : s.pointer ≤ s.slots.size) :
    s.window.size = .ok (s.pointer - s.base) ∧ s.window.frame = .ok (s.live.drop s.base) ∧
    (∀ index, s.base + index < wordBound →
      ((∃ v, s.Reads index v) ↔
        1 ≤ index ∧ index ≤ s.pointer - s.base ∨ index = 0 ∧ 1 ≤ s.base) ∧
      (∀ v, s.Reads index v → s.window.tryGet index = .ok (.ok v) ∧ s.window.get index = .ok v) ∧
      ((∀ v, ¬s.Reads index v) → s.Refuses index)) ∧
    (∀ index, wordBound ≤ s.base + index →
      s.window.tryGet index = .error .sumOverflow ∧ s.window.get index = .error .sumOverflow) ∧
    ∀ t : ValueStack V, t.base = s.base → t.pointer = s.pointer →
      (∀ i, s.base - 1 ≤ i → i < s.pointer → t.slots[i]? = s.slots[i]?) →
      ∀ index, t.window.tryGet index = s.window.tryGet index ∧
        t.window.get index = s.window.get index := by
  refine ⟨window_size hb hp, window_frame hb hp, fun index hfits =>
    ⟨exists_reads_iff hb hp index, fun v hv => ?_, refuses_of_not_reads hb hp hfits⟩,
    fun index hover => ?_, fun t hbase hpointer hslots index => ?_⟩
  · have hslot := (reads_iff_slot? hb hp index v).mp hv
    exact ⟨Window.tryGet_of_slot hslot hfits, Window.get_of_slot hslot hfits⟩
  · exact ⟨Window.tryGet_of_overflow hover, Window.get_of_overflow hover⟩
  · obtain ⟨htfits, hslot⟩ := slot?_window_congr hb hp hbase hpointer hslots
    have htsize : t.window.size = s.window.size := by
      rw [window_size (by omega) htfits, window_size hb hp, hbase, hpointer]
    have htry : t.window.tryGet index = s.window.tryGet index := by
      have htbase : t.window.base = s.window.base := hbase
      simp only [Window.tryGet, htbase, hslot, htsize]
    refine ⟨htry, ?_⟩
    simp only [Window.get, htry, htsize]

end

def alone : ValueStack Nat :=
  ⟨#[7, 8], 1, 1⟩

theorem alone_numbers_read : alone.base ≤ alone.pointer ∧ alone.pointer ≤ alone.slots.size ∧
    alone.window.tryGet 0 = .ok (.ok 7) ∧ alone.Refuses 1 ∧ alone.Refuses (wordBound - 2) := by
  have hb : alone.base ≤ alone.pointer := by decide
  have hp : alone.pointer ≤ alone.slots.size := by decide
  obtain ⟨-, -, hread, -, -⟩ := numbers_are_read hb hp
  have hzero : alone.Reads 0 7 := .below (by decide) rfl
  have hnone : ∀ index, 1 ≤ index → ∀ v, ¬alone.Reads index v := by
    rintro _ h v (_ | ⟨h⟩)
    · cases h
    · cases h
  refine ⟨hb, hp, ((hread 0 (by decide)).2.1 7 hzero).1, ?_, ?_⟩
  · exact (hread 1 (by decide)).2.2 (hnone 1 (by decide))
  · exact (hread (wordBound - 2) (by decide)).2.2 (hnone _ (by decide))

theorem greatest_word_faults : alone.base ≤ alone.pointer ∧ alone.pointer ≤ alone.slots.size ∧
    wordBound - 1 < wordBound ∧ alone.window.tryGet (wordBound - 1) = .error .sumOverflow ∧
    ¬alone.Refuses (wordBound - 1) := by
  have hover : alone.window.tryGet (wordBound - 1) = .error .sumOverflow :=
    Window.tryGet_of_overflow (by decide)
  refine ⟨by decide, by decide, by decide, hover, fun h => ?_⟩
  have hsoft := h.softly
  rw [hover] at hsoft
  cases hsoft

end OrderedChoice.ValueStack
