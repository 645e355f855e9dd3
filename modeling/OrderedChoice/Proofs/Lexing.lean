import OrderedChoice.Calculator.Lexeme
import Mathlib

set_option autoImplicit false

namespace OrderedChoice.Calculator

namespace Lexeme

def Written : Lexeme → Prop
  | number whole fraction =>
    whole ≠ [] ∧ (∀ c ∈ whole, c.isDigit = true) ∧ ∀ c ∈ fraction, c.isDigit = true
  | operator c => c ∈ ['+', '-', '*', '/', '(', ')']

/-- Where `rest` follows, the lexeme cannot be longer: a number does not go on with a digit or, if
it has no point yet, with a point and a digit. -/
def Maximal : Lexeme → List Char → Prop
  | number _ fraction, rest =>
    (∀ c ∈ rest.head?, c.isDigit = false) ∧
      (fraction = [] → ∀ c, ['.', c] <+: rest → c.isDigit = false)
  | operator _, _ => True

/-- The number that digits write in decimal, the last of them counting once. -/
def placeValue (digits : List Char) : Nat :=
  Nat.ofDigits 10 (digits.reverse.map fun c => c.toNat - '0'.toNat)

def Reads {N : Type} (a : Arithmetic N) : Lexeme → Token N → Prop
  | number whole fraction, t =>
    t.name = "num" ∧ t.value =
      a.ofDecimal (placeValue whole * 10 ^ fraction.length + placeValue fraction) fraction.length
  | operator c, t => t.name = String.singleton c ∧ t.value = a.zero

end Lexeme

/-- `Cut after cs ls`: the text `cs`, which `after` follows, is made of the lexemes `ls` in order,
none of which could be longer, with white space before, between and behind them. -/
inductive Cut (after : List Char) : List Char → List Lexeme → Prop where
  | blank {ws : List Char} (hw : ∀ c ∈ ws, Text.isBlank c = true) : Cut after ws []
  | lexeme {ws rest : List Char} {l : Lexeme} {ls : List Lexeme}
    (hw : ∀ c ∈ ws, Text.isBlank c = true) (hl : l.Written) (hm : l.Maximal (rest ++ after))
    (h : Cut after rest ls) : Cut after (ws ++ (l.chars ++ rest)) (l :: ls)

structure Stray (c : Char) : Prop where
  blank : Text.isBlank c = false
  digit : c.isDigit = false
  operator : c ∉ ['+', '-', '*', '/', '(', ')']

section

variable {p : Char → Bool} {cs rest : List Char}

theorem takeWhile_append_stop (h : ∀ c ∈ cs, p c = true) (hr : ∀ c ∈ rest.head?, p c = false) :
    (cs ++ rest).takeWhile p = cs := by
  rw [List.takeWhile_append_of_pos h]
  cases rest with
  | nil => simp
  | cons c rest => simp [hr c rfl]

theorem dropWhile_append_stop (h : ∀ c ∈ cs, p c = true) (hr : ∀ c ∈ rest.head?, p c = false) :
    (cs ++ rest).dropWhile p = rest := by
  rw [List.dropWhile_append_of_pos h]
  cases rest with
  | nil => rfl
  | cons c rest => simp [hr c rfl]

theorem head?_dropWhile : ∀ c ∈ (cs.dropWhile p).head?, p c = false := by
  intro c hc
  have hstop := List.head?_dropWhile_not p cs
  rw [Option.mem_def.mp hc] at hstop
  exact hstop

end

theorem isDigit_of_mem_operators {c : Char} (h : c ∈ operators) : c.isDigit = false := by
  simp only [operators, List.mem_cons, List.not_mem_nil, or_false] at h
  rcases h with rfl | rfl | rfl | rfl | rfl | rfl <;> rfl

theorem isBlank_of_mem_operators {c : Char} (h : c ∈ operators) : Text.isBlank c = false := by
  simp only [operators, List.mem_cons, List.not_mem_nil, or_false] at h
  rcases h with rfl | rfl | rfl | rfl | rfl | rfl <;> rfl

theorem isBlank_of_isDigit {c : Char} (h : c.isDigit = true) : Text.isBlank c = false := by
  have hrange : 48 ≤ c.toNat ∧ c.toNat ≤ 57 := by
    simpa [Char.isDigit, UInt32.le_iff_toNat_le] using h
  simp only [Text.isBlank, Text.blankRanges, List.any_cons, List.any_nil, Bool.or_false,
    Bool.or_eq_false_iff, Bool.and_eq_false_iff, decide_eq_false_iff_not]
  omega

namespace Lexeme

theorem Written.head_chars {l : Lexeme} (hl : l.Written) :
    ∃ c cs, l.chars = c :: cs ∧ Text.isBlank c = false := by
  cases l with
  | number whole fraction =>
    obtain ⟨hne, hdigits, -⟩ := hl
    cases whole with
    | nil => exact absurd rfl hne
    | cons c whole =>
      have hc := isBlank_of_isDigit (hdigits c List.mem_cons_self)
      cases fraction with
      | nil => exact ⟨c, whole, rfl, hc⟩
      | cons d fraction => exact ⟨c, whole ++ '.' :: d :: fraction, rfl, hc⟩
  | operator c => exact ⟨c, [], rfl, isBlank_of_mem_operators hl⟩

theorem fraction_cases (cs : List Char) :
    (fraction cs = ([], cs) ∧ ∀ c, ['.', c] <+: cs → c.isDigit = false) ∨
    ∃ digits rest, fraction cs = (digits, rest) ∧ digits ≠ [] ∧ cs = '.' :: (digits ++ rest) ∧
      (∀ c ∈ digits, c.isDigit = true) ∧ ∀ c ∈ rest.head?, c.isDigit = false := by
  unfold fraction
  split
  · rename_i rest
    split
    · rename_i hnone
      refine .inl ⟨rfl, fun c hc => ?_⟩
      obtain ⟨tail, rfl⟩ := (List.cons_prefix_cons.mp hc).2
      by_contra hdigit
      simp [hdigit] at hnone
    · rename_i hsome
      refine .inr ⟨_, _, rfl, hsome, ?_, fun c hc => List.mem_takeWhile_imp hc, head?_dropWhile⟩
      rw [List.takeWhile_append_dropWhile]
  · rename_i hpoint
    refine .inl ⟨rfl, fun c hc => ?_⟩
    obtain ⟨tail, rfl⟩ := hc
    exact absurd rfl (hpoint _)

theorem fraction_of_maximal {rest : List Char}
    (h : ∀ c, ['.', c] <+: rest → c.isDigit = false) : fraction rest = ([], rest) := by
  rcases fraction_cases rest with ⟨hf, -⟩ | ⟨digits, after, -, hne, rfl, hdigits, -⟩
  · exact hf
  · cases digits with
    | nil => exact absurd rfl hne
    | cons d digits =>
      have hd := h d ⟨digits ++ after, rfl⟩
      rw [hdigits d List.mem_cons_self] at hd
      cases hd

theorem fraction_append {digits rest : List Char} (hne : digits ≠ [])
    (h : ∀ c ∈ digits, c.isDigit = true) (hr : ∀ c ∈ rest.head?, c.isDigit = false) :
    fraction ('.' :: (digits ++ rest)) = (digits, rest) := by
  simp only [fraction, takeWhile_append_stop h hr, dropWhile_append_stop h hr]

/-- The first lexeme of a text is the one lexeme that stands there and could not be longer. -/
theorem first?_eq_some_iff {cs rest : List Char} {l : Lexeme} :
    first? cs = some (l, rest) ↔ cs = l.chars ++ rest ∧ l.Written ∧ l.Maximal rest := by
  constructor
  · intro h
    unfold first? at h
    split at h
    · cases h
    · rename_i c tail
      split at h
      · rename_i hc
        have hwhole : ∀ d ∈ c :: tail.takeWhile Char.isDigit, d.isDigit = true :=
          List.forall_mem_cons.mpr ⟨hc, fun d hd => List.mem_takeWhile_imp hd⟩
        have hsplit : c :: tail =
            c :: tail.takeWhile Char.isDigit ++ tail.dropWhile Char.isDigit := by
          rw [List.cons_append, List.takeWhile_append_dropWhile]
        rcases fraction_cases (tail.dropWhile Char.isDigit) with
          ⟨hf, hpoint⟩ | ⟨digits, after, hf, hne, htail, hdigits, hafter⟩
        · rw [hf] at h
          cases h
          exact ⟨hsplit, ⟨by simp, hwhole, by simp⟩, head?_dropWhile, fun _ => hpoint⟩
        · rw [hf] at h
          cases h
          refine ⟨?_, ⟨by simp, hwhole, hdigits⟩, hafter, fun he => absurd he hne⟩
          rw [hsplit, htail]
          cases digits with
          | nil => exact absurd rfl hne
          | cons d digits => simp [chars]
      · split at h
        · rename_i hop
          cases h
          exact ⟨rfl, List.contains_iff_mem.mp hop, trivial⟩
        · cases h
  · rintro ⟨rfl, hl, hm⟩
    cases l with
    | number whole fraction =>
      obtain ⟨hne, hwhole, hfraction⟩ := hl
      obtain ⟨hrest, hpoint⟩ := hm
      cases whole with
      | nil => exact absurd rfl hne
      | cons c whole =>
        obtain ⟨hc, hwhole⟩ := List.forall_mem_cons.mp hwhole
        cases fraction with
        | nil =>
          simp only [chars, List.cons_append, first?, hc, ↓reduceIte,
            takeWhile_append_stop hwhole hrest, dropWhile_append_stop hwhole hrest,
            fraction_of_maximal (hpoint rfl)]
        | cons d fraction =>
          have hstop : ∀ x ∈ ('.' :: (d :: fraction ++ rest)).head?, x.isDigit = false := by
            simp
          have hchars : chars (number (c :: whole) (d :: fraction)) ++ rest =
              c :: (whole ++ '.' :: (d :: fraction ++ rest)) := by simp [chars]
          rw [hchars]
          simp only [first?, hc, ↓reduceIte, takeWhile_append_stop hwhole hstop,
            dropWhile_append_stop hwhole hstop, fraction_append (by simp) hfraction hrest]
    | operator c =>
      have hop : operators.contains c = true := List.contains_iff_mem.mpr hl
      simp only [chars, List.cons_append, List.nil_append, first?, isDigit_of_mem_operators hl,
        Bool.false_eq_true, ↓reduceIte, hop]

theorem first?_eq_none_iff {c : Char} {rest : List Char} :
    first? (c :: rest) = none ↔ c.isDigit = false ∧ c ∉ operators := by
  simp only [first?]
  split
  · rename_i hc
    simp [hc]
  · rename_i hc
    split
    · rename_i hop
      simpa using fun _ => hop
    · rename_i hop
      simpa [hc] using hop

end Lexeme

open Lexeme

theorem byteCount_append (cs cs' : List Char) :
    byteCount (cs ++ cs') = byteCount cs + byteCount cs' := by
  induction cs with
  | nil => simp [byteCount]
  | cons c cs ih =>
    simp only [byteCount, List.cons_append, List.foldr_cons] at ih ⊢
    omega

theorem byteCount_eq_utf8ByteSize (cs : List Char) :
    byteCount cs = (String.ofList cs).utf8ByteSize := by
  rw [String.utf8ByteSize_ofList]
  induction cs with
  | nil => rfl
  | cons c cs ih =>
    rw [String.utf8Len_cons, ← ih, Nat.add_comm]
    rfl

section

variable {ws cs rest after : List Char} {l : Lexeme} {c : Char} (offset : Nat)

theorem lexFrom_of_nil (hd : cs.dropWhile Text.isBlank = []) : lexFrom offset cs = .ok [] := by
  rw [lexFrom]
  split
  · rename_i h
    rw [hd] at h
    cases h
  · simp only [hd]

theorem lexFrom_of_some (hd : cs.dropWhile Text.isBlank = rest)
    (hf : first? rest = some (l, after)) :
    lexFrom offset cs = (lexFrom (offset + byteCount (cs.takeWhile Text.isBlank) +
      byteCount l.chars) after).map (l :: ·) := by
  rw [lexFrom]
  split
  · rename_i h
    rw [hd, hf] at h
    cases h
    rfl
  · rename_i h
    rw [hd, hf] at h
    cases h

theorem lexFrom_of_none (hd : cs.dropWhile Text.isBlank = c :: rest)
    (hf : first? (c :: rest) = none) :
    lexFrom offset cs = .error ⟨offset + byteCount (cs.takeWhile Text.isBlank), c⟩ := by
  rw [lexFrom]
  split
  · rename_i h
    rw [hd, hf] at h
    cases h
  · simp only [hd]

theorem lexFrom_blank (hw : ∀ c ∈ ws, Text.isBlank c = true) (cs : List Char) :
    lexFrom offset (ws ++ cs) = lexFrom (offset + byteCount ws) cs := by
  have hdrop : (ws ++ cs).dropWhile Text.isBlank = cs.dropWhile Text.isBlank :=
    List.dropWhile_append_of_pos hw
  have hcount : byteCount ((ws ++ cs).takeWhile Text.isBlank) =
      byteCount ws + byteCount (cs.takeWhile Text.isBlank) := by
    rw [List.takeWhile_append_of_pos hw, byteCount_append]
  cases hd : cs.dropWhile Text.isBlank with
  | nil => rw [lexFrom_of_nil _ (hdrop.trans hd), lexFrom_of_nil _ hd]
  | cons c rest =>
    cases hf : first? (c :: rest) with
    | none =>
      rw [lexFrom_of_none _ (hdrop.trans hd) hf, lexFrom_of_none _ hd hf, hcount, Nat.add_assoc]
    | some found =>
      rw [lexFrom_of_some _ (hdrop.trans hd) hf, lexFrom_of_some _ hd hf, hcount, Nat.add_assoc,
        Nat.add_assoc, Nat.add_assoc, Nat.add_assoc]

theorem lexFrom_lexeme (hl : l.Written) (hm : l.Maximal rest) :
    lexFrom offset (l.chars ++ rest) =
      (lexFrom (offset + byteCount l.chars) rest).map (l :: ·) := by
  obtain ⟨c, cs, hchars, hblank⟩ := hl.head_chars
  have hdrop : (l.chars ++ rest).dropWhile Text.isBlank = l.chars ++ rest := by
    rw [hchars, List.cons_append, List.dropWhile_cons_of_neg (by simp [hblank])]
  have htake : (l.chars ++ rest).takeWhile Text.isBlank = [] := by
    rw [hchars, List.cons_append, List.takeWhile_cons_of_neg (by simp [hblank])]
  rw [lexFrom_of_some _ hdrop (first?_eq_some_iff.mpr ⟨rfl, hl, hm⟩), htake]
  rfl

theorem lexFrom_stray (hc : Stray c) (cs : List Char) :
    lexFrom offset (c :: cs) = .error ⟨offset, c⟩ := by
  have hdrop : (c :: cs).dropWhile Text.isBlank = c :: cs :=
    List.dropWhile_cons_of_neg (by simp [hc.blank])
  rw [lexFrom_of_none _ hdrop (first?_eq_none_iff.mpr ⟨hc.digit, hc.operator⟩),
    List.takeWhile_cons_of_neg (by simp [hc.blank])]
  rfl

end

theorem Cut.lexFrom {after cs : List Char} {ls : List Lexeme} (h : Cut after cs ls) (offset : Nat) :
    lexFrom offset (cs ++ after) =
      (Calculator.lexFrom (offset + byteCount cs) after).map (ls ++ ·) := by
  induction h generalizing offset with
  | blank hw =>
    rw [lexFrom_blank offset hw]
    cases Calculator.lexFrom _ after <;> rfl
  | @lexeme ws rest l ls hw hl hm _ ih =>
    rw [List.append_assoc, List.append_assoc, lexFrom_blank offset hw, lexFrom_lexeme _ hl hm, ih,
      byteCount_append, byteCount_append, Nat.add_assoc, Nat.add_assoc]
    cases Calculator.lexFrom _ after <;> rfl

theorem cut_or_stray (cs : List Char) :
    (∃ ls, Cut [] cs ls) ∨
    ∃ before c after ls, cs = before ++ c :: after ∧ Cut (c :: after) before ls ∧ Stray c := by
  induction hn : cs.length using Nat.strong_induction_on generalizing cs with
  | h n ih =>
    have hw : ∀ c ∈ cs.takeWhile Text.isBlank, Text.isBlank c = true :=
      fun c hc => List.mem_takeWhile_imp hc
    have hsplit : cs.takeWhile Text.isBlank ++ cs.dropWhile Text.isBlank = cs :=
      List.takeWhile_append_dropWhile
    generalize cs.takeWhile Text.isBlank = ws at hw hsplit
    have hstop : ∀ c ∈ (cs.dropWhile Text.isBlank).head?, Text.isBlank c = false := head?_dropWhile
    generalize cs.dropWhile Text.isBlank = rest at hsplit hstop
    subst hsplit
    cases hf : first? rest with
    | none =>
      cases rest with
      | nil => exact .inl ⟨[], by simpa using Cut.blank hw⟩
      | cons c after =>
        obtain ⟨hdigit, hop⟩ := first?_eq_none_iff.mp hf
        exact .inr ⟨ws, c, after, [], rfl, .blank hw, hstop c rfl, hdigit, hop⟩
    | some found =>
      obtain ⟨l, rest'⟩ := found
      have hlt := length_lt_of_first? hf
      obtain ⟨rfl, hl, hm⟩ := first?_eq_some_iff.mp hf
      rw [List.length_append] at hn
      rcases ih rest'.length (by omega) rest' rfl with
        ⟨ls, hcut⟩ | ⟨before, c, after, ls, rfl, hcut, hstray⟩
      · exact .inl ⟨l :: ls, .lexeme hw hl (by simpa using hm) hcut⟩
      · exact .inr ⟨ws ++ (l.chars ++ before), c, after, l :: ls, by simp,
          .lexeme hw hl hm hcut, hstray⟩

theorem Cut.lex_ok {text : String} {ls : List Lexeme} (h : Cut [] text.toList ls) :
    lex text = .ok ls := by
  have hlex := h.lexFrom 0
  rw [List.append_nil, lexFrom_of_nil (0 + byteCount text.toList) List.dropWhile_nil] at hlex
  simpa [lex, Except.map] using hlex

theorem Cut.lex_error {text : String} {before after : List Char} {c : Char} {ls : List Lexeme}
    (h : Cut (c :: after) before ls) (hc : Stray c) (ht : text.toList = before ++ c :: after) :
    lex text = .error ⟨byteCount before, c⟩ := by
  have hlex := h.lexFrom 0
  rw [lexFrom_stray _ hc, Nat.zero_add] at hlex
  rw [lex, ht]
  exact hlex

theorem lex_eq_ok_iff {text : String} {ls : List Lexeme} :
    lex text = .ok ls ↔ Cut [] text.toList ls := by
  refine ⟨fun h => ?_, Cut.lex_ok⟩
  rcases cut_or_stray text.toList with ⟨ls', hcut⟩ | ⟨before, c, after, ls', ht, hcut, hstray⟩
  · rw [hcut.lex_ok] at h
    cases h
    exact hcut
  · rw [hcut.lex_error hstray ht] at h
    cases h

theorem lex_eq_error_iff {text : String} {e : LexError} :
    lex text = .error e ↔ ∃ before after ls, text.toList = before ++ e.found :: after ∧
      e.offset = byteCount before ∧ Cut (e.found :: after) before ls ∧ Stray e.found := by
  constructor
  · intro h
    rcases cut_or_stray text.toList with ⟨ls, hcut⟩ | ⟨before, c, after, ls, ht, hcut, hstray⟩
    · rw [hcut.lex_ok] at h
      cases h
    · rw [hcut.lex_error hstray ht] at h
      cases h
      exact ⟨before, after, ls, ht, rfl, hcut, hstray⟩
  · rintro ⟨before, after, ls, ht, ho, hcut, hstray⟩
    rw [hcut.lex_error hstray ht, ← ho]

theorem digitsValue_eq_placeValue (digits : List Char) :
    digitsValue digits = placeValue digits := by
  rw [digitsValue, placeValue, Nat.ofDigits_eq_foldr, List.foldr_map, List.foldr_reverse]
  simp only [add_comm, Nat.cast_id]

theorem placeValue_append (digits digits' : List Char) :
    placeValue (digits ++ digits') =
      placeValue digits * 10 ^ digits'.length + placeValue digits' := by
  rw [placeValue, List.reverse_append, List.map_append, Nat.ofDigits_append, List.length_map,
    List.length_reverse, add_comm, mul_comm]
  rfl

theorem reads_iff {N : Type} (a : Arithmetic N) (l : Lexeme) (t : Token N) :
    l.Reads a t ↔ l.token a = t := by
  obtain ⟨name, value⟩ := t
  cases l with
  | number whole fraction =>
    simp only [Reads, token, numberName, digitsValue_eq_placeValue, placeValue_append,
      Token.mk.injEq]
    exact and_congr eq_comm eq_comm
  | operator c =>
    simp only [Reads, token, Token.mk.injEq]
    exact and_congr eq_comm eq_comm

/-- A text has tokens exactly if it can be cut into lexemes, and then these are the tokens of the
lexemes in order. It is refused at a character exactly if it can be cut up to there, as the text
goes on, and the character is a stray one; the bytes before it are counted. -/
theorem tokenize_cuts {N : Type} (a : Arithmetic N) (text : String) :
    (∀ tokens, tokenize a text = .ok tokens ↔
      ∃ ls, Cut [] text.toList ls ∧ List.Forall₂ (Reads a) ls tokens) ∧
    ∀ e, tokenize a text = .error e ↔ ∃ before after ls,
      text.toList = before ++ e.found :: after ∧
      e.offset = (String.ofList before).utf8ByteSize ∧
      Cut (e.found :: after) before ls ∧ Stray e.found := by
  have hreads : (Reads a : Lexeme → Token N → Prop) = fun l t => l.token a = t := by
    funext l t
    exact propext (reads_iff a l t)
  simp only [← byteCount_eq_utf8ByteSize, ← lex_eq_ok_iff, ← lex_eq_error_iff, hreads, tokenize]
  refine ⟨fun tokens => ?_, fun e => ?_⟩
  · cases lex text with
    | error e => simp [Except.map]
    | ok ls =>
      have hmap := List.forall₂_map_left_iff (R := Eq) (f := token a) (l := ls) (u := tokens)
      rw [List.forall₂_eq_eq_eq] at hmap
      simpa [Except.map] using hmap
  · cases lex text with
    | error e' => simp [Except.map]
    | ok ls => simp [Except.map]

end OrderedChoice.Calculator
