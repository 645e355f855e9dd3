import OrderedChoice.Grammar.Basic

set_option autoImplicit false

/-!
# Compiled forms

Compiling a rule replaces each reference outside scopes: a terminal's name by the terminal, the name
of a rule by the compiled form of its body, a name that means nothing by the failing rule, which is
also reported. A compiled form is worked out once and kept in the table. A reference to a name whose
body is being compiled at that moment stays as it is, so recursive rules have finite forms.
-/

namespace OrderedChoice

structure Compiling (H V : Type) where
  grammar : Grammar H V
  visited : List String
  trace : Trace H V

namespace Compiling

variable {H V : Type}

def visit (c : Compiling H V) (name : String) : Compiling H V :=
  { c with visited := name :: c.visited }

def reportUndefined (c : Compiling H V) (name : String) (owner : Option String) :
    Compiling H V :=
  let d := Diagnostic.report .compile (.undefinedSymbol name owner)
  { c with grammar := c.grammar.record d, trace := .reported d :: c.trace }

def memoize (c : Compiling H V) (name : String) (form : Rule H V) : Compiling H V :=
  { c with
    grammar := { c.grammar with rules := c.grammar.rules.memoize name form }
    trace := .compiled name form :: c.trace }

end Compiling

namespace Rule

variable {H V : Type}

mutual
def compileWith (resolve : String → Compiling H V → Option (Rule H V) × Compiling H V) :
    Rule H V → Compiling H V → Rule H V × Compiling H V
  | ref name, c =>
    match resolve name c with
    | (some form, c) => (form, c)
    | (none, c) => (ref name, c)
  | terminal name, c => (terminal name, c)
  | scope body, c => (scope body, c)
  | sequence parts, c =>
    match compilePartsWith resolve parts c with
    | (parts, c) => (sequence parts, c)
  | alternative parts, c =>
    match compilePartsWith resolve parts c with
    | (parts, c) => (alternative parts, c)
  | action act, c => (action act, c)
  | terminated body, c =>
    match compileWith resolve body c with
    | (body, c) => (terminated body, c)

def compilePartsWith (resolve : String → Compiling H V → Option (Rule H V) × Compiling H V) :
    List (Rule H V) → Compiling H V → List (Rule H V) × Compiling H V
  | [], c => ([], c)
  | part :: parts, c =>
    match compileWith resolve part c with
    | (part, c) =>
      match compilePartsWith resolve parts c with
      | (parts, c) => (part :: parts, c)
end

end Rule

namespace Grammar

variable {H V : Type}

/-- What a reference stands for in the body of `owner`; nothing if the body of that name has been
entered and is not finished. At most `budget` bodies are entered inside each other. -/
def resolveWithin (budget : Nat) (owner : Option String) (name : String) (c : Compiling H V) :
    Option (Rule H V) × Compiling H V :=
  if c.grammar.isTerminal name then (some (.terminal name), c)
  else
    match c.grammar.rules.get? name with
    | none => (some .fail, c.reportUndefined name owner)
    | some ⟨_, some form⟩ => (some form, c)
    | some ⟨source, none⟩ =>
      if c.visited.contains name then (none, c)
      else
        match budget with
        | 0 => (none, c)
        | budget + 1 =>
          match source.compileWith (resolveWithin budget (some name)) (c.visit name) with
          | (body, c) => (some body.asBody, c.memoize name body.asBody)

/-- Every body entered belongs to another name of the table, so no more can be open at once. -/
def bodyCount (g : Grammar H V) : Nat :=
  g.rules.entries.length

def compileVisiting (g : Grammar H V) (rule : Rule H V) (visited : List String) :
    Rule H V × Compiling H V :=
  rule.compileWith (resolveWithin g.bodyCount none) ⟨g, visited, []⟩

def compile (g : Grammar H V) (rule : Rule H V) : Rule H V × Compiling H V :=
  g.compileVisiting rule []

def resolve (g : Grammar H V) (name : String) : Rule H V × Compiling H V :=
  match resolveWithin g.bodyCount none name ⟨g, [], []⟩ with
  | (some form, c) => (form, c)
  | (none, c) => (.ref name, c)

end Grammar

end OrderedChoice
