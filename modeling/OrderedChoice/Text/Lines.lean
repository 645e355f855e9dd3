set_option autoImplicit false

namespace OrderedChoice.Text

def neverFirst (c : Char) : Bool :=
  ")]\x7d!?,.:;/".toList.contains c

def opens (c : Char) : Bool :=
  "([\x7b".toList.contains c

def isQuote (c : Char) : Bool :=
  c == '"' || c == '\''

def isSign (c : Char) : Bool :=
  "$+\\%".toList.contains c

def breaksAtBlank (a b : Char) : Bool :=
  !neverFirst b && !opens a && !(isQuote a && opens b)

def breaksAtMark (a b : Char) : Bool :=
  if neverFirst b || isQuote b || b == '|' || b == '-' then false
  else if a == '!' || a == '?' || a == '|' then true
  else if a == '\x7d' then !isSign b
  else if a == '/' then !b.isDigit
  else if ",.:;".toList.contains a then isSign b || opens b
  else if a == ')' || a == ']' then opens b
  else isSign a && isSign b

def isWordChar (c : Char) : Bool :=
  c.isAlphanum || 0x80 ≤ c.toNat

/-- Whether a line may end before a character, after those of its piece in reverse and some blanks.
-/
def breaksBefore (taken : List Char) (blanks : Nat) (c : Char) : Bool :=
  match taken with
  | [] => false
  | a :: before =>
    if blanks != 0 then breaksAtBlank a c
    else if a == '-' then before.head?.any isWordChar && isWordChar c
    else breaksAtMark a c

structure Piece where
  chars : List Char
  blanks : Nat

def piecesAfter (taken : List Char) (blanks : Nat) : List Char → List Piece
  | [] => [⟨taken.reverse, blanks⟩]
  | c :: cs =>
    if c == ' ' then piecesAfter taken (blanks + 1) cs
    else if breaksBefore taken blanks c then ⟨taken.reverse, blanks⟩ :: piecesAfter [c] 0 cs
    else piecesAfter (c :: (List.replicate blanks ' ' ++ taken)) 0 cs

def Piece.cutTo (width : Nat) : Nat → Piece → List Piece
  | 0, p => [p]
  | fuel + 1, p =>
    if p.chars.length ≤ width then [p]
    else ⟨p.chars.take width, 0⟩ :: cutTo width fuel ⟨p.chars.drop width, p.blanks⟩

/-- Lays pieces into lines of a width, with a newline where a line ends; `used` columns of the first
are taken. Every character is one column wide, and a piece that is wider than a line is cut. -/
def fill (width : Nat) : Nat → List Piece → List Char
  | _, [] => []
  | used, p :: ps =>
    let blanks := List.replicate p.blanks ' '
    let taken := p.chars.length + p.blanks
    if used != 0 && width < used + p.chars.length then
      '\n' :: p.chars ++ blanks ++ fill width taken ps
    else p.chars ++ blanks ++ fill width (used + taken) ps

def filled (width : Nat) (s : String) : String :=
  "\n".intercalate ((s.splitToList (· == '\n')).map fun line =>
    String.ofList (fill width 0
      ((piecesAfter [] 0 line.toList).flatMap fun p => p.cutTo width p.chars.length)))

end OrderedChoice.Text
