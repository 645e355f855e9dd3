import OrderedChoice.Machine
import OrderedChoice.Options.Basic

set_option autoImplicit false

namespace OrderedChoice

structure Parser (H V : Type) where
  grammar : Grammar H V
  options : Options

structure Parsed (H V : Type) where
  outcome : Outcome V
  parser : Parser H V
  source : Source V
  host : H
  trace : Trace H V

namespace Parser

variable {H V : Type}

def ofTerminals (terminals : List String) : Parser H V :=
  ⟨.ofTerminals terminals, {}⟩

def setOptions (p : Parser H V) (options : Options) : Parser H V :=
  { p with options }

def rule (p : Parser H V) (name : String) (body : Rule H V) : Parser H V :=
  { p with grammar := p.grammar.define name body }

def defineAll (p : Parser H V) (rules : List (String × Rule H V)) : Parser H V :=
  rules.foldl (fun p r => p.rule r.1 r.2) p

def defineAllTrace (p : Parser H V) : List (String × Rule H V) → Trace H V
  | [] => []
  | (name, body) :: rules =>
    (p.rule name body).defineAllTrace rules ++ p.grammar.defineTrace name body

def compileRule (p : Parser H V) (name : String) : Rule H V × Parser H V × Trace H V :=
  match p.grammar.resolve name with
  | (form, c) => (form, { p with grammar := c.grammar }, c.trace)

def clearDiagnostics (p : Parser H V) : Parser H V :=
  { p with grammar := p.grammar.clearDiagnostics }

def start (p : Parser H V) (source : Source V) (host : H) : Machine H V :=
  ⟨p.grammar, source, .empty, ⟨0, p.options.maxDepth⟩, host, []⟩

def ending : Outcome V → Trace H V
  | .value _ => [.succeeded]
  | .noMatch => [.failed]
  | .limitExceeded limit => [.aborted (.report .execute (.recursionLimit limit))]
  | .fault _ => []
  | .unfinished => []

def parse [Inhabited V] (budget : Nat) (p : Parser H V) (entry : Rule H V) (source : Source V)
    (host : H) : Parsed H V :=
  match p.grammar.compile entry with
  | (form, c) =>
    let m := { p with grammar := c.grammar }.start source host
    match Machine.execute budget form { m with trace := .started form :: c.trace } with
    | (outcome, m) =>
      ⟨outcome, { p with grammar := m.grammar }, m.source, m.host, ending outcome ++ m.trace⟩

/-- A nesting that no machine at hand can reach. -/
def ampleBudget : Nat := 0x4000000000000000

end Parser

end OrderedChoice
