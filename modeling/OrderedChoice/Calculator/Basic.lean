import OrderedChoice.Calculator.Lexeme
import OrderedChoice.Parser
import OrderedChoice.Rule.Build

set_option autoImplicit false

/-!
# The calculator

Arithmetic expressions as a grammar:

    expr      := term expr_tail
    expr_tail := '+' term {add} expr_tail | '-' term {sub} expr_tail | {done}
    term      := factor term_tail
    term_tail := '*' factor {mul} term_tail | '/' factor {div} term_tail | {done}
    factor    := '(' expr ')' {group} | num | '-' factor {neg}

A tail folds from the left: it begins with the value just below its frame, the result so far. A
divisor that is refused makes the division fail, so the rest of the tokens stays unmatched.
-/

namespace OrderedChoice.Calculator

variable {H N : Type}

def terminals : List String :=
  [Lexeme.numberName, "+", "-", "*", "/", "(", ")"]

/-- Replaces the value below the frame and the second value of the frame by their combination. -/
def combine (label : String) (op : N → N → Option N) : Rule H N :=
  .pureAction label fun w =>
    match w.get 0 with
    | .error f => .fault f
    | .ok a =>
      match w.get 2 with
      | .error f => .fault f
      | .ok b =>
        match op a b with
        | some v => .value v
        | none => .reject

def pick (label : String) (index : Nat) (change : N → N) : Rule H N :=
  .pureAction label fun w => .ofRead ((w.get index).map change)

/-- One step of a tail: an operator, an operand, their combination, and the tail again. -/
def tailStep (name operand operator : String) (combination : Rule H N) : Rule H N :=
  .ref operator + .ref operand + combination + .ref name

def tail (name operand : String) (first second : String × Rule H N) : Rule H N :=
  .alt [tailStep name operand first.1 first.2, tailStep name operand second.1 second.2,
    pick "done" 0 id]

def rules (a : Arithmetic N) : List (String × Rule H N) :=
  [("expr", .ref "term" + .ref "expr_tail"),
    ("expr_tail", tail "expr_tail" "term"
      ("+", combine "add" fun x y => some (a.add x y))
      ("-", combine "sub" fun x y => some (a.sub x y))),
    ("term", .ref "factor" + .ref "term_tail"),
    ("term_tail", tail "term_tail" "factor"
      ("*", combine "mul" fun x y => some (a.mul x y))
      ("/", combine "div" fun x y => if a.isZero y then none else some (a.div x y))),
    ("factor", .alt [
      .ref "(" + .ref "expr" + .ref ")" + pick "group" 2 id,
      .ref Lexeme.numberName,
      .ref "-" + .ref "factor" + pick "neg" 2 a.neg])]

def parser (a : Arithmetic N) (options : Options) : Parser H N :=
  ((Parser.ofTerminals terminals).setOptions options).defineAll (rules a)

def parserTrace (a : Arithmetic N) (options : Options) : Trace H N :=
  ((Parser.ofTerminals terminals).setOptions options).defineAllTrace (rules a)

def entry : Rule H N :=
  .terminated (.ref "expr")

def evaluate [Inhabited N] (budget : Nat) (p : Parser H N) (tokens : List (Token N)) (host : H) :
    Parsed H N :=
  p.parse budget entry (.ofList tokens) host

end OrderedChoice.Calculator
