set_option autoImplicit false

namespace OrderedChoice.Calculator

structure Arithmetic (N : Type) where
  zero : N
  /-- The number `digits / 10 ^ places`. -/
  ofDecimal : (digits places : Nat) → N
  add : N → N → N
  sub : N → N → N
  mul : N → N → N
  div : N → N → N
  neg : N → N
  isZero : N → Bool

def double : Arithmetic Float where
  zero := 0.0
  ofDecimal digits places := Float.ofScientific digits true places
  add := (· + ·)
  sub := (· - ·)
  mul := (· * ·)
  div := (· / ·)
  neg := (- ·)
  isZero x := x == 0.0

end OrderedChoice.Calculator
