import OrderedChoice.Grammar.Table
import OrderedChoice.Event

set_option autoImplicit false

namespace OrderedChoice

/-- Terminals, rules, and diagnostics in the order in which they were recorded. The name of a
terminal means that terminal even where a rule of the same name is defined. -/
structure Grammar (H V : Type) where
  terminals : List String
  rules : Table H V
  diagnostics : List Diagnostic

namespace Grammar

variable {H V : Type}

def ofTerminals (terminals : List String) : Grammar H V :=
  ⟨terminals, .empty, []⟩

def isTerminal (g : Grammar H V) (name : String) : Bool :=
  g.terminals.contains name

def isDefined (g : Grammar H V) (name : String) : Bool :=
  g.rules.contains name

def source? (g : Grammar H V) (name : String) : Option (Rule H V) :=
  (g.rules.get? name).map Entry.source

def compiled? (g : Grammar H V) (name : String) : Option (Rule H V) :=
  (g.rules.get? name).bind Entry.compiled

def isCompiled (g : Grammar H V) (name : String) : Bool :=
  (g.compiled? name).isSome

def terminalNames (g : Grammar H V) : List String :=
  sortedNames g.terminals

def ruleNames (g : Grammar H V) : List String :=
  g.rules.names

/-- Gives a name a body. A compiled form may hold the old body, or a failing stand-in for a name
that had none, so all of them are thrown away. -/
def define (g : Grammar H V) (name : String) (body : Rule H V) : Grammar H V :=
  let table := g.rules.define name body
  { g with rules := if g.isDefined name || table.anyCompiled then table.invalidate else table }

def defineTrace (g : Grammar H V) (name : String) (body : Rule H V) : Trace H V :=
  let discards := g.isDefined name || (g.rules.define name body).anyCompiled
  (if g.isTerminal name then [.shadowed name] else []) ++ [.defined name discards]

def record (g : Grammar H V) (d : Diagnostic) : Grammar H V :=
  { g with diagnostics := g.diagnostics ++ [d] }

def clearDiagnostics (g : Grammar H V) : Grammar H V :=
  { g with diagnostics := [] }

end Grammar

end OrderedChoice
