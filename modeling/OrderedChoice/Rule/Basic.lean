import OrderedChoice.Window

set_option autoImplicit false

namespace OrderedChoice

inductive Reply (V : Type) where
  | value (v : V)
  | reject
  | fault (f : Fault)

def Reply.ofRead {V : Type} : Except Fault V → Reply V
  | .ok v => .value v
  | .error f => .fault f

/-- A computation on the values of the current frame. What it keeps from one run to the next is the
host state `H`, which is threaded through everything that runs. -/
structure Action (H V : Type) where
  label : Option String
  run : Window V → H → Reply V × H

inductive Rule (H V : Type) where
  | ref (name : String)
  | terminal (name : String)
  | scope (body : Rule H V)
  | sequence (parts : List (Rule H V))
  | alternative (parts : List (Rule H V))
  | action (act : Action H V)
  /-- The body, and no token after it. -/
  | terminated (body : Rule H V)

namespace Rule

variable {H V : Type}

def succeed : Rule H V :=
  sequence []

/-- Never matches; it stands for names that mean nothing. -/
def fail : Rule H V :=
  alternative []

/-- The kinds of rule that leave exactly one value in the enclosing frame as they are. -/
def selfScoping : Rule H V → Bool
  | terminal _ => true
  | action _ => true
  | scope _ => true
  | _ => false

def asBody (r : Rule H V) : Rule H V :=
  if r.selfScoping then r else scope r

mutual
def resolved : Rule H V → Bool
  | ref _ => false
  | terminal _ => true
  | scope body => body.resolved
  | sequence parts => allResolved parts
  | alternative parts => allResolved parts
  | action _ => true
  | terminated body => body.resolved

def allResolved : List (Rule H V) → Bool
  | [] => true
  | part :: parts => part.resolved && allResolved parts
end

end Rule

end OrderedChoice
