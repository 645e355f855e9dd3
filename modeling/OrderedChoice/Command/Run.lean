import OrderedChoice.Calculator.Basic
import OrderedChoice.Command.Arguments
import OrderedChoice.Options.File
import OrderedChoice.Text.Lines
import OrderedChoice.Token.Json

set_option autoImplicit false

namespace OrderedChoice.Command

/-- What a command leaves behind: an exit code, its output, its log, and its complaint. -/
structure Report where
  code : Nat
  output : String
  log : List LogLine
  complaint : String

def Report.done (output : String) (log : List LogLine) : Report :=
  ⟨0, output ++ "\n", log, ""⟩

def Report.failed (complaint : String) (log : List LogLine) : Report :=
  ⟨1, "", log, complaint⟩

def reflow (s : String) : String :=
  " ".intercalate ((s.splitToList Text.isBlank).filter (!·.isEmpty))

def messageWidth : Nat :=
  74

/-- A diagnostic in words: its code, its message, and its advice. What the ends of lines part is
parted in the words too. -/
def diagnosticWords (d : Diagnostic) : String :=
  let help := match d.help with
    | some h => " help: " ++ h
    | none => ""
  reflow (d.code ++ " " ++ Text.filled messageWidth d.message ++ help)

def placeAfter : List Char → Nat × Nat → Nat × Nat
  | [], place => place
  | '\r' :: '\n' :: cs, (line, _) => placeAfter cs (line + 1, 1)
  | c :: cs, (line, column) =>
    if c == '\n' || c == '\r' then placeAfter cs (line + 1, 1)
    else placeAfter cs (line, column + c.utf8Size)

def charsWithin : Nat → List Char → List Char
  | _, [] => []
  | bytes, c :: cs => if c.utf8Size ≤ bytes then c :: charsWithin (bytes - c.utf8Size) cs else []

def lexErrorWords (expression : String) (e : Calculator.LexError) : String :=
  let (line, column) := placeAfter (charsWithin e.offset expression.toList) (1, 1)
  reflow (e.message ++ s!" [<expr>:{line}:{column}]")

/-- The level of the log: as asked for by flags, or else by name, or else warnings. -/
def logLevel (verbosity : Nat) (named : Option String) : Level :=
  match verbosity with
  | 0 => (named.bind Level.ofName?).getD .warn
  | 1 => .debug
  | _ => .trace

def calcOptions (read : ReadText) (config : Option String) (maxDepth : Option Nat) :
    Except Diagnostic Options := do
  let options ← match config with
    | some path => Options.ofPath read path
    | none => .ok {}
  return match maxDepth with
    | some limit => options.withMaxDepth limit
    | none => options

def evaluate (read : ReadText) (level : Level) (expression : String) (config : Option String)
    (maxDepth : Option Nat) : Report :=
  match calcOptions read config maxDepth with
  | .error d => .failed (diagnosticWords d) []
  | .ok options =>
    match Calculator.tokenize Calculator.double expression with
    | .error e => .failed (lexErrorWords expression e) []
    | .ok tokens =>
      let parser : Parser Unit Float := Calculator.parser Calculator.double options
      let result := Calculator.evaluate Parser.ampleBudget parser tokens ()
      let trace := result.trace ++ Calculator.parserTrace Calculator.double options
      let log := Trace.lines trace level
      match result.outcome with
      | .value x => .done (Decimal.plain.text x) log
      | .noMatch =>
        .failed ("no parse: '" ++ expression ++ "' is not a complete expression") log
      | .limitExceeded limit =>
        .failed (diagnosticWords (.report .execute (.recursionLimit limit))) log
      | .fault f => ⟨101, "", log, f.message⟩
      | .unfinished => ⟨134, "", log, "nested too deeply"⟩

def showTokens (expression : String) : Report :=
  match Calculator.tokenize Calculator.double expression with
  | .ok tokens => .done (Token.listJson tokens) []
  | .error e => .failed (lexErrorWords expression e) []

def padded (width : Nat) (name : String) : String :=
  name.pushn ' ' (width - name.utf8ByteSize)

def showGrammar (level : Level) : Report :=
  let rules : List (String × Rule Unit Float) := Calculator.rules Calculator.double
  let width := (rules.map fun r => r.1.utf8ByteSize).foldl max 0
  let lines := rules.map fun r => padded width r.1 ++ " := " ++ r.2.text
  let trace : Trace Unit Float := Calculator.parserTrace Calculator.double {}
  .done ("\n".intercalate lines) (trace.lines level)

def version : String := "ruleweave 0.1.0"

def usage : String :=
  "Usage: ruleweave [-v] (calc [--config FILE] [--max-depth N] EXPR | tokens EXPR | grammar)"

def run (read : ReadText) (named : Option String) (args : List String) : Report :=
  match readArguments 0 args with
  | .error .misuse => ⟨2, "", [], usage⟩
  | .error .help => .done usage []
  | .error .version => .done version []
  | .ok ⟨verbosity, task⟩ =>
    let level := logLevel verbosity named
    match task with
    | .evaluate expression config maxDepth => evaluate read level expression config maxDepth
    | .showTokens expression => showTokens expression
    | .showGrammar => showGrammar level

end OrderedChoice.Command
