import OrderedChoice.Yaml.Lexeme
import OrderedChoice.Yaml.Scalar
import OrderedChoice.Yaml.Tag

set_option autoImplicit false

/-!
# YAML tokens

A text is cut into tokens from left to right. Block collections are opened and closed by columns. A
key on one line is known as such only at its colon, so the place where one may have begun is kept in
mind and its token is put there afterwards.
-/

namespace OrderedChoice.Yaml

inductive Token where
  | directive (d : Directive)
  | documentStart
  | documentEnd
  | blockSequenceStart
  | blockMappingStart
  | blockEnd
  | flowSequenceStart
  | flowSequenceEnd
  | flowMappingStart
  | flowMappingEnd
  | blockEntry
  | flowEntry
  | key
  | value
  | reference (name : String)
  | anchor (name : String)
  | tag (t : Tag)
  | scalar (text : String) (style : Style)
deriving DecidableEq, Repr

/-- A place where a key may have begun, as the number of tokens before it. It is required if nothing
else may stand there. -/
structure Candidate where
  position : Nat
  line : Nat
  column : Nat
  required : Bool
deriving DecidableEq, Repr

structure Scanner where
  cursor : Cursor
  tokens : Array Token
  margins : List Nat
  candidate : Option Candidate
  outer : List (Option Candidate)
  keyAllowed : Bool

def Scanner.ofString (s : String) : Scanner :=
  ⟨.ofString s, #[], [], none, [], true⟩

def Scanner.inFlow (s : Scanner) : Bool :=
  !s.outer.isEmpty

def Scanner.least (s : Scanner) : Nat :=
  s.margins.head?.elim 0 (· + 1)

abbrev Scan := StateT Scanner Option

namespace Scan

def reading {α : Type} (r : Read α) : Scan α := do
  let s ← get
  match r.run s.cursor with
  | some (a, cursor) =>
    set { s with cursor }
    return a
  | none => failure

def ensure (b : Bool) : Scan Unit :=
  if b then pure () else failure

def emit (t : Token) : Scan Unit :=
  modify fun s => { s with tokens := s.tokens.push t }

def allowKey (b : Bool) : Scan Unit :=
  modify fun s => { s with keyAllowed := b }

def closeWhile (p : Nat → Bool) : Scan Unit :=
  modify fun s =>
    if s.inFlow then s
    else
      { s with
        tokens := s.tokens ++ Array.replicate (s.margins.takeWhile p).length .blockEnd
        margins := s.margins.dropWhile p }

def openBlock (column position : Nat) (t : Token) : Scan Unit :=
  modify fun s =>
    if s.inFlow || column < s.least then s
    else
      { s with
        tokens := s.tokens.insertIdxIfInBounds position t
        margins := column :: s.margins }

def dropCandidate : Scan Unit := do
  ensure (!(← get).candidate.any (·.required))
  modify fun s => { s with candidate := none }

def propose : Scan Unit := do
  let s ← get
  if s.keyAllowed then
    dropCandidate
    let c := s.cursor
    let required := !s.inFlow && s.margins.head? == some c.column
    modify fun s => { s with candidate := some ⟨s.tokens.size, c.line, c.column, required⟩ }

def maxKeyLength : Nat :=
  1024

def isFresh (c : Cursor) (k : Candidate) : Bool :=
  k.line == c.line && c.column ≤ k.column + maxKeyLength

def dropStale : Scan Unit := do
  let s ← get
  let stale := fun (k : Candidate) => !isFresh s.cursor k
  ensure (!(s.candidate :: s.outer).any fun k => k.any fun k => stale k && k.required)
  set { s with
    candidate := s.candidate.filter (isFresh s.cursor)
    outer := s.outer.map (Option.filter (isFresh s.cursor)) }

def mark (n : Nat) (t : Token) : Scan Unit := do
  reading (Read.skip n)
  emit t

def between (step : Scan Unit) : Scan Unit := do
  closeWhile fun _ => true
  dropCandidate
  allowKey false
  step

def openBracket (t : Token) : Scan Unit := do
  propose
  modify fun s => { s with candidate := none, outer := s.candidate :: s.outer, keyAllowed := true }
  mark 1 t

def closeBracket (t : Token) : Scan Unit := do
  dropCandidate
  modify fun s =>
    match s.outer with
    | [] => s
    | k :: outer => { s with candidate := k, outer }
  allowKey false
  mark 1 t

/-- An indicator before an entry or a key in a block collection of the kind that `start` opens. -/
def entryMark (start t : Token) (keysInFlow : Bool) : Scan Unit := do
  let s ← get
  ensure (s.inFlow || s.keyAllowed)
  openBlock s.cursor.column s.tokens.size start
  dropCandidate
  allowKey (!s.inFlow || keysInFlow)
  mark 1 t

/-- The colon of a value. A candidate turns out to be its key. -/
def valueMark : Scan Unit := do
  let s ← get
  match s.candidate with
  | some k =>
    modify fun s => { s with
      tokens := s.tokens.insertIdxIfInBounds k.position .key
      candidate := none
      keyAllowed := false }
    openBlock k.column k.position .blockMappingStart
  | none =>
    ensure (s.inFlow || s.keyAllowed)
    openBlock s.cursor.column s.tokens.size .blockMappingStart
    allowKey (!s.inFlow)
  mark 1 .value

def inKey (t : Read Token) : Scan Unit := do
  propose
  allowKey false
  emit (← reading t)

/-- A block scalar. A key may follow it. -/
def blockScalar (literal : Bool) : Scan Unit := do
  dropCandidate
  allowKey true
  let text ← reading (Read.block literal (← get).least)
  emit (.scalar text (if literal then .literal else .other))

def plainScalar : Scan Unit := do
  propose
  let s ← get
  let (text, crossed) ← reading (Read.plain s.inFlow s.least)
  allowKey crossed
  emit (.scalar text .plain)

def token : Scan Unit := do
  let s ← get
  let flow := s.inFlow
  let cs := s.cursor.rest
  let lone := endsWord (cs.drop 1)
  if s.cursor.column == 0 && cs.head? == some '%' then
    between (do emit (.directive (← reading Read.directive)))
  else if ← reading (Read.atMarker Read.startMarker) then between (mark 3 .documentStart)
  else if ← reading (Read.atMarker Read.endMarker) then between (mark 3 .documentEnd)
  else
    match cs with
    | '[' :: _ => openBracket .flowSequenceStart
    | '\x7b' :: _ => openBracket .flowMappingStart
    | ']' :: _ => closeBracket .flowSequenceEnd
    | '\x7d' :: _ => closeBracket .flowMappingEnd
    | ',' :: _ =>
      dropCandidate
      allowKey true
      mark 1 .flowEntry
    | '*' :: _ => inKey (.reference <$> Read.name)
    | '&' :: _ => inKey (.anchor <$> Read.name)
    | '!' :: _ => inKey (.tag <$> Read.tag flow)
    | '\'' :: _ => inKey ((.scalar · .other) <$> Read.quoted)
    | '"' :: _ => inKey ((.scalar · .other) <$> Read.quoted)
    | _ =>
      let c := cs.head?
      if c == some '-' && lone then entryMark .blockSequenceStart .blockEntry true
      else if c == some '?' && (flow || lone) then entryMark .blockMappingStart .key false
      else if c == some ':' && (flow || lone) then valueMark
      else if c == some '|' && !flow then blockScalar true
      else if c == some '>' && !flow then blockScalar false
      else
        ensure (Read.beginsPlain flow cs)
        plainScalar

def tokensWithin : Nat → Scan Unit
  | 0 => failure
  | fuel + 1 => do
    let s ← get
    let crossed ← reading (Read.trivia s.inFlow (s.inFlow || !s.keyAllowed))
    if crossed && !s.inFlow then allowKey true
    dropStale
    let column := (← get).cursor.column
    closeWhile (column < ·)
    if (← get).cursor.rest.isEmpty then
      closeWhile fun _ => true
      dropCandidate
    else
      token
      tokensWithin fuel

end Scan

def tokens? (text : String) : Option (List Token) :=
  if text.toList.all isAllowed then
    ((Scan.tokensWithin (text.length + 1)).run (.ofString text)).map (·.2.tokens.toList)
  else none

end OrderedChoice.Yaml
