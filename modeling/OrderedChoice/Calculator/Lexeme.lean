import OrderedChoice.Calculator.Arithmetic
import OrderedChoice.Text.Blank
import OrderedChoice.Token

set_option autoImplicit false

namespace OrderedChoice.Calculator

def operators : List Char :=
  ['+', '-', '*', '/', '(', ')']

inductive Lexeme where
  | number (whole fraction : List Char)
  | operator (c : Char)
deriving DecidableEq, Repr

def digitsValue (digits : List Char) : Nat :=
  digits.foldl (fun n c => 10 * n + (c.toNat - '0'.toNat)) 0

namespace Lexeme

def fraction : List Char → List Char × List Char
  | '.' :: rest =>
    match rest.takeWhile Char.isDigit with
    | [] => ([], '.' :: rest)
    | digits => (digits, rest.dropWhile Char.isDigit)
  | rest => ([], rest)

def first? (cs : List Char) : Option (Lexeme × List Char) :=
  match cs with
  | [] => none
  | c :: rest =>
    if c.isDigit then
      match fraction (rest.dropWhile Char.isDigit) with
      | (digits, after) => some (number (c :: rest.takeWhile Char.isDigit) digits, after)
    else if operators.contains c then some (operator c, rest)
    else none

def chars : Lexeme → List Char
  | number whole [] => whole
  | number whole fraction => whole ++ '.' :: fraction
  | operator c => [c]

def numberName : String := "num"

def token {N : Type} (a : Arithmetic N) : Lexeme → Token N
  | number whole fraction =>
    ⟨numberName, a.ofDecimal (digitsValue (whole ++ fraction)) fraction.length⟩
  | operator c => ⟨c.toString, a.zero⟩

end Lexeme

structure LexError where
  offset : Nat
  found : Char
deriving DecidableEq, Repr

def LexError.message (e : LexError) : String :=
  "unexpected character '" ++ e.found.toString ++ "'"

def byteCount (cs : List Char) : Nat :=
  cs.foldr (fun c n => c.utf8Size + n) 0

theorem length_dropWhile_le (p : Char → Bool) (cs : List Char) :
    (cs.dropWhile p).length ≤ cs.length :=
  (List.dropWhile_suffix p).length_le

namespace Lexeme

theorem length_fraction_le (cs : List Char) : (fraction cs).2.length ≤ cs.length := by
  unfold fraction
  split
  · rename_i rest
    split
    · exact Nat.le_refl _
    · exact Nat.le_succ_of_le (length_dropWhile_le _ rest)
  · exact Nat.le_refl _

theorem length_lt_of_first? {cs rest : List Char} {l : Lexeme} (h : first? cs = some (l, rest)) :
    rest.length < cs.length := by
  unfold first? at h
  split at h
  · simp at h
  · rename_i c tail
    split at h
    · simp only [Option.some.injEq, Prod.mk.injEq] at h
      have h1 := length_fraction_le (tail.dropWhile Char.isDigit)
      have h2 := length_dropWhile_le Char.isDigit tail
      rw [h.2] at h1
      simp only [List.length_cons]
      omega
    · split at h
      · simp only [Option.some.injEq, Prod.mk.injEq] at h
        rw [← h.2]
        simp
      · simp at h

end Lexeme

/-- Cuts a text that begins `offset` bytes into the expression. -/
def lexFrom (offset : Nat) (cs : List Char) : Except LexError (List Lexeme) :=
  let start := offset + byteCount (cs.takeWhile Text.isBlank)
  match _h : Lexeme.first? (cs.dropWhile Text.isBlank) with
  | some (l, rest) => (lexFrom (start + byteCount l.chars) rest).map (l :: ·)
  | none =>
    match cs.dropWhile Text.isBlank with
    | [] => .ok []
    | c :: _ => .error ⟨start, c⟩
termination_by cs.length
decreasing_by
  exact Nat.lt_of_lt_of_le (Lexeme.length_lt_of_first? _h) (length_dropWhile_le Text.isBlank cs)

def lex (text : String) : Except LexError (List Lexeme) :=
  lexFrom 0 text.toList

def tokenize {N : Type} (a : Arithmetic N) (text : String) : Except LexError (List (Token N)) :=
  (lex text).map (List.map (Lexeme.token a))

end OrderedChoice.Calculator
