set_option autoImplicit false

namespace OrderedChoice.Yaml

structure Cursor where
  rest : List Char
  line : Nat
  column : Nat

abbrev Read := StateT Cursor Option

def isAllowed (c : Char) : Bool :=
  let n := c.toNat
  n == 0x9 || n == 0xa || n == 0xd || (0x20 ≤ n && n ≤ 0x7e) || n == 0x85 ||
    (0xa0 ≤ n && n ≤ 0xd7ff) || (0xe000 ≤ n && n ≤ 0xfffd) || 0x10000 ≤ n

def unifyBreaks : List Char → List Char
  | [] => []
  | '\r' :: '\n' :: cs => '\n' :: unifyBreaks cs
  | c :: cs =>
    (if c == '\r' || c == '\x85' || c == '\u2028' || c == '\u2029' then '\n' else c)
      :: unifyBreaks cs

def Cursor.ofString (s : String) : Cursor :=
  ⟨unifyBreaks s.toList, 0, 0⟩

def isBlank (c : Char) : Bool :=
  c == ' ' || c == '\t'

def isGap (c : Char) : Bool :=
  isBlank c || c == '\n'

def endsWord : List Char → Bool
  | [] => true
  | c :: _ => isGap c

def isNameChar (c : Char) : Bool :=
  c.isAlphanum || c == '_' || c == '-'

namespace Read

def advance : Read Unit :=
  modify fun c =>
    match c.rest with
    | [] => c
    | '\n' :: rest => ⟨rest, c.line + 1, 0⟩
    | _ :: rest => { c with rest, column := c.column + 1 }

def skip : Nat → Read Unit
  | 0 => pure ()
  | n + 1 => do
    advance
    skip n

def takeWhile (p : Char → Bool) : Read (List Char) := do
  let taken := (← get).rest.takeWhile p
  skip taken.length
  return taken

def rest : Read (List Char) := do
  return (← get).rest

def peek : Read (Option Char) := do
  return (← get).rest.head?

def column : Read Nat := do
  return (← get).column

def ensure (b : Bool) : Read Unit :=
  if b then pure () else failure

def lineEnd : Read Unit := do
  let _ ← takeWhile isBlank
  if (← peek) == some '#' then
    let _ ← takeWhile (· != '\n')
  ensure ((← peek).all (· == '\n'))
  advance

/-- Passes blanks, comments and line breaks up to the next token, and tells whether a line was
ended. A byte order mark may begin a line. Between brackets tabs count as blanks; elsewhere they do
so only as long as `tabs` says, and not on a new line. -/
def triviaWithin (flow : Bool) : Nat → Bool → Bool → Read Bool
  | 0, _, crossed => return crossed
  | fuel + 1, tabs, crossed => do
    if (← column) == 0 && (← peek) == some '\ufeff' then advance
    let _ ← takeWhile fun c => c == ' ' || (tabs && c == '\t')
    if (← peek) == some '#' then
      let _ ← takeWhile (· != '\n')
    if (← peek) == some '\n' then
      advance
      triviaWithin flow fuel flow true
    else return crossed

def trivia (flow tabs : Bool) : Read Bool := do
  triviaWithin flow ((← rest).length + 1) tabs false

def startMarker : List Char := ['-', '-', '-']

def endMarker : List Char := ['.', '.', '.']

def atMarker (marker : List Char) : Read Bool := do
  let cs ← rest
  return (← column) == 0 && cs.take 3 == marker && endsWord (cs.drop 3)

def atAnyMarker : Read Bool := do
  return (← atMarker startMarker) || (← atMarker endMarker)

def name : Read String := do
  advance
  let cs ← takeWhile isNameChar
  ensure (!cs.isEmpty)
  let after ← rest
  ensure (endsWord after || after.head?.any ("?:,]\x7d%@`".toList.contains ·))
  return String.ofList cs

end Read

end OrderedChoice.Yaml
