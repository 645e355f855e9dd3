import OrderedChoice.Window

set_option autoImplicit false

/-!
# The value stack

Values lie in slots; the pointer separates the live ones from slots left behind by attempts that
were undone. Undoing only moves the pointer: a later push writes over the slots above it. A frame is
the part of the live values from `base` on.
-/

namespace OrderedChoice

structure Frame where
  pointer : Nat
  base : Nat
deriving DecidableEq, Repr

structure ValueStack (V : Type) where
  slots : Array V
  pointer : Nat
  base : Nat

namespace ValueStack

variable {V : Type}

def empty : ValueStack V :=
  ⟨#[], 0, 0⟩

def live (s : ValueStack V) : List V :=
  s.slots.toList.take s.pointer

/-- Writes a value at the pointer, into a slot left behind if there is one. -/
def push (s : ValueStack V) (v : V) : ValueStack V :=
  { s with
    slots := if s.pointer < s.slots.size then s.slots.setIfInBounds s.pointer v else s.slots.push v
    pointer := s.pointer + 1 }

def rollback (s : ValueStack V) (mark : Nat) : Except Fault (ValueStack V) :=
  if mark ≤ s.pointer then .ok { s with pointer := mark }
  else .error (.rollback mark s.pointer)

def saved (s : ValueStack V) : Frame :=
  ⟨s.pointer, s.base⟩

def openFrame (s : ValueStack V) : ValueStack V :=
  { s with base := s.pointer }

/-- Returns to a saved frame; the values pushed since stay behind as unused slots. -/
def closeFrame (s : ValueStack V) (f : Frame) : ValueStack V :=
  { s with pointer := f.pointer, base := f.base }

def window (s : ValueStack V) : Window V :=
  ⟨s.slots.extract 0 s.pointer, s.base⟩

end ValueStack

end OrderedChoice
