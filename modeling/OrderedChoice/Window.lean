import OrderedChoice.Fault

set_option autoImplicit false

/-!
# What an action sees

A window shows the live values with the start of the current frame marked. Inside it values are
numbered from one; number zero is the value just below the frame, the last one produced before the
frame was opened. Nothing else can be reached.
-/

namespace OrderedChoice

structure Window (V : Type) where
  live : Array V
  base : Nat

namespace Window

variable {V : Type}

def size (w : Window V) : Except Fault Nat :=
  if w.base ≤ w.live.size then .ok (w.live.size - w.base) else .error .differenceUnderflow

def values (w : Window V) : List V :=
  w.live.toList.drop w.base

/-- The values of the frame in order; a frame that begins above all live values is a fault. -/
def frame (w : Window V) : Except Fault (List V) :=
  if w.base ≤ w.live.size then .ok w.values else .error (.frameStart w.base w.live.size)

def slot? (w : Window V) (index : Nat) : Option V :=
  if w.base + index = 0 then none else w.live[w.base + index - 1]?

def below? (w : Window V) : Option V :=
  w.slot? 0

def tryGet (w : Window V) (index : Nat) : Except Fault (Except Diagnostic V) :=
  if wordBound ≤ w.base + index then .error .sumOverflow
  else
    match w.slot? index with
    | some v => .ok (.ok v)
    | none =>
      match w.size with
      | .ok size => .ok (.error (.report .execute (.actionContract index size)))
      | .error fault => .error fault

def get (w : Window V) (index : Nat) : Except Fault V :=
  match w.tryGet index with
  | .error fault => .error fault
  | .ok (.ok v) => .ok v
  | .ok (.error _) =>
    match w.size with
    | .ok size => .error (.contract index size)
    | .error fault => .error fault

end Window

end OrderedChoice
