import OrderedChoice.Text.Digits
import OrderedChoice.Yaml.Cursor

set_option autoImplicit false

namespace OrderedChoice.Yaml.Read

/-- What blanks and line breaks between two words stand for. -/
def foldedGap (gap : List Char) : List Char :=
  match gap.count '\n' with
  | 0 => gap
  | 1 => [' ']
  | n + 1 => List.replicate n '\n'

/-- Whether no tab stands left of the column `least` in a line that begins in a gap. The column is
known from the first line break on. -/
def indentedBySpaces (least : Nat) : Option Nat → List Char → Bool
  | _, [] => true
  | _, '\n' :: cs => indentedBySpaces least (some 0) cs
  | none, _ :: cs => indentedBySpaces least none cs
  | some n, c :: cs => !(c == '\t' && n < least) && indentedBySpaces least (some (n + 1)) cs

def isFlowMark (c : Char) : Bool :=
  [',', '[', ']', '\x7b', '\x7d'].contains c

def beginsPlain (flow : Bool) : List Char → Bool
  | [] => false
  | c :: cs =>
    if c == '-' then !endsWord cs
    else if c == '?' || c == ':' then !flow && !endsWord cs
    else !(" \t\n,[]\x7b\x7d#&*!|>'\"%@`".toList.contains c)

def plainWord (flow : Bool) : List Char → Option (List Char)
  | [] => some []
  | c :: cs =>
    if isGap c then some []
    else if flow && c == ':' && cs.head?.any (fun d => isFlowMark d || d == '?') then none
    else if (c == ':' && endsWord cs) || (flow && isFlowMark c) then some []
    else (plainWord flow cs).map (c :: ·)

/-- The words of a plain scalar from here on, in reverse, and whether it was followed to a new line.
Lines left of the column `least` do not belong to it. -/
def plainWithin (flow : Bool) (least : Nat) :
    Nat → List Char → List Char → Read (List Char × Bool)
  | 0, taken, gap => return (taken, gap.contains '\n')
  | fuel + 1, taken, gap => do
    if (← atAnyMarker) || (← peek) == some '#' then return (taken, gap.contains '\n')
    match plainWord flow (← rest) with
    | none => failure
    | some [] => return (taken, gap.contains '\n')
    | some word =>
      skip word.length
      let taken := word.reverse ++ ((foldedGap gap).reverse ++ taken)
      let gap ← takeWhile isGap
      ensure (indentedBySpaces least none gap)
      if gap.isEmpty || (!flow && (← column) < least) then return (taken, gap.contains '\n')
      plainWithin flow least fuel taken gap

def plain (flow : Bool) (least : Nat) : Read (String × Bool) := do
  let (taken, crossed) ← plainWithin flow least ((← rest).length + 1) [] []
  return (String.ofList taken.reverse, crossed)

def singleQuotedWithin : Nat → List Char → Read String
  | 0, _ => failure
  | fuel + 1, taken => do
    ensure (!(← atAnyMarker))
    match ← rest with
    | [] => failure
    | '\'' :: '\'' :: _ =>
      skip 2
      singleQuotedWithin fuel ('\'' :: taken)
    | '\'' :: _ =>
      advance
      return String.ofList taken.reverse
    | c :: _ =>
      if isGap c then
        let gap ← takeWhile isGap
        singleQuotedWithin fuel ((foldedGap gap).reverse ++ taken)
      else
        advance
        singleQuotedWithin fuel (c :: taken)

def hexChar (n : Nat) : Read Char := do
  let digits := (← rest).take n
  ensure (digits.length == n)
  skip n
  match Text.word? 16 digits with
  | some value => if value.isValidChar then return Char.ofNat value else failure
  | none => failure

def escaped : Read Char := do
  match ← rest with
  | [] => failure
  | c :: _ =>
    advance
    match c with
    | '0' => return '\x00'
    | 'a' => return '\x07'
    | 'b' => return '\x08'
    | 't' => return '\t'
    | '\t' => return '\t'
    | 'n' => return '\n'
    | 'v' => return '\x0b'
    | 'f' => return '\x0c'
    | 'r' => return '\r'
    | 'e' => return '\x1b'
    | ' ' => return ' '
    | '"' => return '"'
    | '/' => return '/'
    | '\\' => return '\\'
    | 'N' => return '\x85'
    | '_' => return '\xa0'
    | 'L' => return '\u2028'
    | 'P' => return '\u2029'
    | 'x' => hexChar 2
    | 'u' => hexChar 4
    | 'U' => hexChar 8
    | _ => failure

/-- The inside of a scalar in double quotes and the closing one. A line break after a backslash is
left out, and those after it are kept. -/
def doubleQuotedWithin : Nat → List Char → Read String
  | 0, _ => failure
  | fuel + 1, taken => do
    ensure (!(← atAnyMarker))
    match ← rest with
    | [] => failure
    | '"' :: _ =>
      advance
      return String.ofList taken.reverse
    | '\\' :: '\n' :: _ =>
      skip 2
      let gap ← takeWhile isGap
      doubleQuotedWithin fuel (List.replicate (gap.count '\n') '\n' ++ taken)
    | '\\' :: _ =>
      advance
      let c ← escaped
      doubleQuotedWithin fuel (c :: taken)
    | c :: _ =>
      if isGap c then
        let gap ← takeWhile isGap
        doubleQuotedWithin fuel ((foldedGap gap).reverse ++ taken)
      else
        advance
        doubleQuotedWithin fuel (c :: taken)

def quoted : Read String := do
  let fuel := (← rest).length + 1
  let mark ← peek
  advance
  if mark == some '\'' then singleQuotedWithin fuel [] else doubleQuotedWithin fuel []

inductive Chomp where
  | strip
  | clip
  | keep
deriving DecidableEq, Repr

def blockOffset : Read (Option Nat) := do
  match ← peek with
  | some c =>
    if c.isDigit then
      ensure (c != '0')
      advance
      return some (c.toNat - 48)
    else return none
  | none => return none

def blockChomp : Read (Option Chomp) := do
  match ← peek with
  | some '-' =>
    advance
    return some .strip
  | some '+' =>
    advance
    return some .keep
  | _ => return none

def blockHeader : Read (Chomp × Option Nat) := do
  let first ← blockChomp
  let offset ← blockOffset
  let chomp ← if first.isSome || offset.isNone then pure first else blockChomp
  lineEnd
  return (chomp.getD .clip, offset)

/-- Passes empty lines and the indentation of the next line. The first result counts the lines, the
second is the furthest column that blanks led to. A tab may not stand in the indentation. -/
def blockBreaksWithin (indent : Option Nat) : Nat → Nat → Nat → Read (Nat × Nat)
  | 0, breaks, furthest => return (breaks, furthest)
  | fuel + 1, breaks, furthest => do
    let spaces := ((← rest).takeWhile (· == ' ')).length
    let start ← column
    skip (indent.elim spaces fun n => min spaces (n - start))
    let here ← column
    ensure (!((← peek) == some '\t' && indent.all (here < ·)))
    if (← peek) == some '\n' then
      advance
      blockBreaksWithin indent fuel (breaks + 1) (max furthest here)
    else return (breaks, max furthest here)

def blockBreaks (indent : Nat) : Read Nat := do
  return (← blockBreaksWithin (some indent) ((← rest).length + 1) 0 0).1

/-- What has been read of a block scalar: its text in reverse, whether its last line was ended and
began with a blank, and how many empty lines follow. -/
structure Block where
  taken : List Char
  ended : Bool
  blank : Bool
  breaks : Nat

def Block.gap (b : Block) (literal blank : Bool) : List Char :=
  let first :=
    if !b.ended then []
    else if literal || b.blank || blank then ['\n']
    else if b.breaks == 0 then [' ']
    else []
  List.replicate b.breaks '\n' ++ first

def blockLinesWithin (literal : Bool) (indent : Nat) : Nat → Block → Read Block
  | 0, b => return b
  | fuel + 1, b => do
    match ← peek with
    | none => return b
    | some c =>
      if (← column) == indent then
        let line ← takeWhile (· != '\n')
        let ended := (← peek).isSome
        advance
        let breaks ← blockBreaks indent
        blockLinesWithin literal indent fuel
          ⟨line.reverse ++ (b.gap literal (isBlank c) ++ b.taken), ended, isBlank c, breaks⟩
      else return b

def block (literal : Bool) (least : Nat) : Read String := do
  advance
  let (chomp, offset) ← blockHeader
  let fuel := (← rest).length + 1
  let given := offset.map (least - 1 + ·)
  let (breaks, furthest) ← blockBreaksWithin given fuel 0 0
  let indent := given.getD (max furthest (max least 1))
  let b ← blockLinesWithin literal indent fuel ⟨[], false, false, breaks⟩
  let ending := match chomp with
    | .strip => []
    | .clip => if b.ended then ['\n'] else []
    | .keep => List.replicate b.breaks '\n' ++ if b.ended then ['\n'] else []
  return String.ofList (ending ++ b.taken).reverse

end OrderedChoice.Yaml.Read
