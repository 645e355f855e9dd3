import Mathlib.Data.Set.List
import OrderedChoice.Rule.Build

set_option autoImplicit false

/-!
# Building is flat, however it is grouped

A join reads both operands as lists of parts and puts the two lists together, and a compound gives
back the parts that it was made of. So joining is appending: the parts of what has been joined are
the parts of the operands in order, and where the brackets were cannot be told from them. What is
spliced in is never of the kind that it is spliced into, as long as the operands are flat.
-/

namespace OrderedChoice

variable {H V : Type}

inductive Connective where
  | sequence
  | alternative

inductive Spelling where
  | word
  | sign

namespace Connective

def compound : Connective → List (Rule H V) → Rule H V
  | .sequence => .sequence
  | .alternative => .alternative

def parts : Connective → Rule H V → List (Rule H V)
  | .sequence => Rule.sequenceParts
  | .alternative => Rule.alternativeParts

def join : Connective → Spelling → Rule H V → Rule H V → Rule H V
  | .sequence, .word => Rule.andThen
  | .sequence, .sign => (· + ·)
  | .alternative, .word => Rule.orElse
  | .alternative, .sign => (· ||| ·)

def joinAll : Connective → List (Rule H V) → Rule H V
  | .sequence => Rule.seq
  | .alternative => Rule.alt

section

variable (c : Connective)

theorem join_eq (s : Spelling) (a b : Rule H V) :
    c.join s a b = c.compound (c.parts a ++ c.parts b) := by
  cases c <;> cases s <;> rfl

theorem parts_compound (parts : List (Rule H V)) : c.parts (c.compound parts) = parts := by
  cases c <;> rfl

theorem parts_of_forall_ne {rule : Rule H V} (h : ∀ inner, rule ≠ c.compound inner) :
    c.parts rule = [rule] := by
  cases c with
  | sequence =>
    cases rule with
    | sequence parts => exact absurd rfl (h parts)
    | _ => rfl
  | alternative =>
    cases rule with
    | alternative parts => exact absurd rfl (h parts)
    | _ => rfl

theorem joinAll_eq_foldl (rules : List (Rule H V)) :
    c.joinAll rules = rules.foldl (c.join .word) (c.compound []) := by
  cases c <;> rfl

theorem foldl_join (rules parts : List (Rule H V)) :
    rules.foldl (c.join .word) (c.compound parts) =
      c.compound (parts ++ rules.flatMap c.parts) := by
  -- Each step splices onto the parts that are there already, so the induction is over any of them.
  induction rules generalizing parts with
  | nil => rw [List.foldl_nil, List.flatMap_nil, List.append_nil]
  | cons rule rules ih =>
    rw [List.foldl_cons, join_eq, parts_compound, ih, List.flatMap_cons, List.append_assoc]

theorem joinAll_eq (rules : List (Rule H V)) :
    c.joinAll rules = c.compound (rules.flatMap c.parts) := by
  rw [joinAll_eq_foldl, foldl_join, List.nil_append]

theorem join_eq_joinAll (s : Spelling) (a b : Rule H V) : c.join s a b = c.joinAll [a, b] := by
  rw [join_eq, joinAll_eq, List.flatMap_cons, List.flatMap_singleton]

theorem joinAll_of_forall_ne {rules : List (Rule H V)}
    (h : ∀ rule ∈ rules, ∀ inner, rule ≠ c.compound inner) :
    c.joinAll rules = c.compound rules := by
  rw [joinAll_eq]
  congr 1
  induction rules with
  | nil => rfl
  | cons rule rules ih =>
    obtain ⟨hr, hrs⟩ := List.forall_mem_cons.mp h
    rw [List.flatMap_cons, c.parts_of_forall_ne hr, ih hrs, List.singleton_append]

end

end Connective

/-- A rule of names and actions in which no part of a sequence is a sequence and no part of an
alternative is an alternative, at any depth. -/
inductive Rule.Flat : Rule H V → Prop where
  | ref (name : String) : Flat (.ref name)
  | action (act : Action H V) : Flat (.action act)
  | sequence {parts : List (Rule H V)} (hp : ∀ part ∈ parts, Flat part)
    (hs : ∀ part ∈ parts, ∀ inner, part ≠ .sequence inner) : Flat (.sequence parts)
  | alternative {parts : List (Rule H V)} (hp : ∀ part ∈ parts, Flat part)
    (ha : ∀ part ∈ parts, ∀ inner, part ≠ .alternative inner) : Flat (.alternative parts)
  | terminated {body : Rule H V} (h : Flat body) : Flat (.terminated body)

namespace Connective

variable (c : Connective)

/-- A flat rule that can stand as it is among the parts of a compound. -/
def Admits (rule : Rule H V) : Prop :=
  rule.Flat ∧ ∀ inner, rule ≠ c.compound inner

theorem flat_compound_iff {parts : List (Rule H V)} :
    (c.compound parts).Flat ↔ ∀ part ∈ parts, c.Admits part := by
  cases c with
  | sequence =>
    constructor
    · intro h
      cases h with
      | sequence hp hs => exact fun part hmem => ⟨hp part hmem, hs part hmem⟩
    · intro h
      exact .sequence (fun part hmem => (h part hmem).1) (fun part hmem => (h part hmem).2)
  | alternative =>
    constructor
    · intro h
      cases h with
      | alternative hp ha => exact fun part hmem => ⟨hp part hmem, ha part hmem⟩
    · intro h
      exact .alternative (fun part hmem => (h part hmem).1) (fun part hmem => (h part hmem).2)

theorem admits_parts {rule : Rule H V} (h : rule.Flat) : ∀ part ∈ c.parts rule, c.Admits part := by
  by_cases hc : ∃ inner, rule = c.compound inner
  · obtain ⟨inner, rfl⟩ := hc
    rw [parts_compound]
    exact c.flat_compound_iff.mp h
  · have hne := not_exists.mp hc
    rw [c.parts_of_forall_ne hne]
    exact List.forall_mem_singleton.mpr ⟨h, hne⟩

theorem flat_joinAll {rules : List (Rule H V)} (h : ∀ rule ∈ rules, rule.Flat) :
    (c.joinAll rules).Flat := by
  rw [joinAll_eq, flat_compound_iff]
  intro part hp
  obtain ⟨rule, hr, hpart⟩ := List.mem_flatMap.mp hp
  exact c.admits_parts (h rule hr) part hpart

end Connective

/-- How a rule is written by the combinators. -/
inductive Construction (H V : Type) where
  | sym (name : String)
  | succeed
  | action (run : Window V → H → Reply V × H)
  | namedAction (label : String) (run : Window V → H → Reply V × H)
  | terminate (body : Construction H V)
  | joined (c : Connective) (s : Spelling) (left right : Construction H V)
  | all (c : Connective) (operands : List (Construction H V))

namespace Construction

mutual
def rule : Construction H V → Rule H V
  | sym name => .ref name
  | succeed => .succeed
  | action run => .action ⟨none, run⟩
  | namedAction label run => .action ⟨some label, run⟩
  | terminate body => .terminated body.rule
  | joined c s left right => c.join s left.rule right.rule
  | all c operands => c.joinAll (rules operands)

def rules : List (Construction H V) → List (Rule H V)
  | [] => []
  | e :: es => e.rule :: rules es
end

theorem rules_eq_map (es : List (Construction H V)) : rules es = es.map rule := by
  induction es with
  | nil => rfl
  | cons e es ih => rw [rules, ih, List.map_cons]

mutual
theorem flat_rule : (e : Construction H V) → e.rule.Flat
  | sym name => .ref name
  | succeed => .sequence (List.forall_mem_nil _) (List.forall_mem_nil _)
  | action _ => .action _
  | namedAction _ _ => .action _
  | terminate body => .terminated body.flat_rule
  | joined c s left right => by
    rw [rule, c.join_eq_joinAll]
    exact c.flat_joinAll (List.forall_mem_cons.mpr
      ⟨left.flat_rule, List.forall_mem_singleton.mpr right.flat_rule⟩)
  | all c operands => c.flat_joinAll (flat_rules operands)

theorem flat_rules : (es : List (Construction H V)) → ∀ rule ∈ rules es, rule.Flat
  | [] => List.forall_mem_nil _
  | e :: es => List.forall_mem_cons.mpr ⟨e.flat_rule, flat_rules es⟩
end

theorem exists_compound (c : Connective) {parts : List (Rule H V)}
    (hc : ∀ part ∈ parts, ∀ inner, part ≠ c.compound inner)
    (h : ∀ part ∈ parts, ∃ e : Construction H V, e.rule = part) :
    ∃ e : Construction H V, e.rule = c.compound parts := by
  have hmap : parts ∈ Set.range (List.map rule) := by
    rw [Set.range_list_map]
    exact h
  obtain ⟨es, hes⟩ := hmap
  refine ⟨all c es, ?_⟩
  rw [rule, rules_eq_map, hes, c.joinAll_of_forall_ne hc]

theorem exists_of_flat {r : Rule H V} (h : r.Flat) : ∃ e : Construction H V, e.rule = r := by
  induction h with
  | ref name => exact ⟨sym name, rfl⟩
  | action act =>
    obtain ⟨label, run⟩ := act
    cases label with
    | none => exact ⟨action run, rfl⟩
    | some label => exact ⟨namedAction label run, rfl⟩
  | sequence _ hs ih => exact exists_compound .sequence hs ih
  | alternative _ ha ih => exact exists_compound .alternative ha ih
  | terminated _ ih =>
    obtain ⟨e, rfl⟩ := ih
    exact ⟨terminate e, rfl⟩

end Construction

inductive Grouping (α : Type) where
  | operand (a : α)
  | group (s : Spelling) (left right : Grouping α)

namespace Grouping

def operands {α : Type} : Grouping α → List α
  | operand a => [a]
  | group _ left right => left.operands ++ right.operands

def joined (c : Connective) : Grouping (Rule H V) → Rule H V
  | operand rule => rule
  | group s left right => c.join s (left.joined c) (right.joined c)

theorem parts_joined (c : Connective) (g : Grouping (Rule H V)) :
    c.parts (g.joined c) = g.operands.flatMap c.parts := by
  induction g with
  | operand rule => rw [joined, operands, List.flatMap_singleton]
  | group s left right ihl ihr =>
    calc c.parts (c.join s (left.joined c) (right.joined c))
        = c.parts (left.joined c) ++ c.parts (right.joined c) := by
          rw [c.join_eq, c.parts_compound]
      _ = left.operands.flatMap c.parts ++ right.operands.flatMap c.parts := by rw [ihl, ihr]
      _ = (left.operands ++ right.operands).flatMap c.parts := List.flatMap_append.symm

theorem joined_eq_joinAll (c : Connective) {g : Grouping (Rule H V)}
    (h : 2 ≤ g.operands.length) : g.joined c = c.joinAll g.operands := by
  cases g with
  | operand rule =>
    -- One rule alone stays as it is, but its list is a compound of one part.
    change 2 ≤ 1 at h
    omega
  | group s left right =>
    have hparts := parts_joined c (group s left right)
    rw [joined, c.join_eq, c.parts_compound] at hparts
    rw [joined, c.join_eq, hparts, c.joinAll_eq]

end Grouping

namespace Rule

/-- A rule can be built if and only if it is flat. Two operands or more, whatever they are, give
the same rule however they are grouped, and whether they are joined by the function or by the
operator: the one that is built from their list, which is made of the parts of each in order. -/
theorem flat_however_grouped :
    (∀ rule : Rule H V, (∃ e : Construction H V, e.rule = rule) ↔ rule.Flat) ∧
    (∀ g : Grouping (Rule H V), 2 ≤ g.operands.length →
      g.joined .sequence = seq g.operands ∧ g.joined .alternative = alt g.operands) ∧
    ∀ rules : List (Rule H V),
      seq rules = sequence (rules.flatMap sequenceParts) ∧
      alt rules = alternative (rules.flatMap alternativeParts) := by
  refine ⟨fun rule => ⟨?_, Construction.exists_of_flat⟩, fun g hg => ?_, fun rules => ?_⟩
  · rintro ⟨e, rfl⟩
    exact e.flat_rule
  · exact ⟨g.joined_eq_joinAll .sequence hg, g.joined_eq_joinAll .alternative hg⟩
  · exact ⟨Connective.joinAll_eq .sequence rules, Connective.joinAll_eq .alternative rules⟩

def bracketed : Grouping (Rule Unit Nat) :=
  .group .word
    (.group .sign (.operand (.ref "a"))
      (.group .word (.operand .succeed) (.operand (.alternative [.ref "x", .ref "y"]))))
    (.operand (.sequence [.ref "b", .ref "c"]))

def bracketedElsewhere : Construction Unit Nat :=
  .joined .sequence .sign (.sym "a") (.joined .sequence .word .succeed
    (.joined .sequence .sign (.all .alternative [.sym "x", .sym "y"])
      (.all .sequence [.sym "b", .sym "c"])))

theorem bracketed_flat : 2 ≤ bracketed.operands.length ∧
    bracketed.joined .sequence = seq bracketed.operands ∧
    bracketed.joined .alternative = alt bracketed.operands ∧
    bracketed.joined .sequence =
      .sequence [.ref "a", .alternative [.ref "x", .ref "y"], .ref "b", .ref "c"] ∧
    bracketed.joined .alternative =
      .alternative [.ref "a", .succeed, .ref "x", .ref "y", .sequence [.ref "b", .ref "c"]] ∧
    (bracketed.joined .sequence).Flat := by
  have htwo : 2 ≤ bracketed.operands.length := by decide
  obtain ⟨hflat, hgrouped, -⟩ := flat_however_grouped (H := Unit) (V := Nat)
  obtain ⟨hseq, halt⟩ := hgrouped bracketed htwo
  exact ⟨htwo, hseq, halt, rfl, rfl, (hflat _).mp ⟨bracketedElsewhere, rfl⟩⟩

end Rule

end OrderedChoice
