import OrderedChoice.Text.Digits

set_option autoImplicit false

namespace OrderedChoice.Command

inductive Task where
  | evaluate (expression : String) (config : Option String) (maxDepth : Option Nat)
  | showTokens (expression : String)
  | showGrammar
deriving DecidableEq, Repr

structure Invocation where
  verbosity : Nat
  task : Task
deriving DecidableEq, Repr

inductive Stop where
  | misuse
  | help
  | version
deriving DecidableEq, Repr

def word? (s : String) : Option Nat :=
  Text.word? 10 (Text.withoutPlus s.toList)

inductive Shape where
  | divider
  | long (name : List Char) (value : Option (List Char))
  | cluster (letters : List Char)
  | plain

def Shape.of (arg : String) : Shape :=
  match arg.toList with
  | ['-', '-'] => divider
  | '-' :: '-' :: rest =>
    match rest.span (· != '=') with
    | (name, '=' :: value) => long name (some value)
    | (name, _) => long name none
  | '-' :: c :: letters => cluster (c :: letters)
  | _ => plain

inductive Setting where
  | config
  | maxDepth
deriving DecidableEq, Repr

def Setting.name : Setting → List Char
  | config => "config".toList
  | maxDepth => "max-depth".toList

structure Form where
  expression : Bool
  settings : List Setting

structure Draft where
  expression : Option String := none
  config : Option String := none
  maxDepth : Option Nat := none
  verbosity : Option Nat := none
  pending : Option Setting := none
  divided : Bool := false

namespace Draft

def louder (d : Draft) (n : Nat) : Draft :=
  { d with verbosity := some (d.verbosity.getD 0 + n) }

def set (d : Draft) (s : Setting) (value : String) : Except Stop Draft :=
  let d := { d with pending := none }
  match s with
  | .config =>
    if d.config.isSome || value.isEmpty then .error .misuse
    else .ok { d with config := some value }
  | .maxDepth =>
    match word? value with
    | some n => if d.maxDepth.isSome then .error .misuse else .ok { d with maxDepth := some n }
    | none => .error .misuse

def takeValue (form : Form) (d : Draft) (arg : String) : Except Stop Draft :=
  match d.pending with
  | some s => if d.divided then .error .misuse else d.set s arg
  | none =>
    if form.expression && d.expression.isNone then .ok { d with expression := some arg }
    else .error .misuse

def settled (d : Draft) : Except Stop Draft :=
  if d.pending.isSome then .error .misuse else .ok d

/-- Whether the expression is still to come, so that unknown options may be it. -/
def wantsExpression (form : Form) (d : Draft) : Bool :=
  form.expression && d.expression.isNone

def takeFlags (d : Draft) : List Char → Except Stop Draft
  | [] => .ok d
  | 'v' :: letters => (d.louder 1).takeFlags letters
  | 'h' :: _ => .error .help
  | _ => .error .misuse

def take (form : Form) (d : Draft) (arg : String) : Except Stop Draft :=
  if d.divided then d.takeValue form arg
  else
    match Shape.of arg with
    | .divider => .ok { d with divided := true }
    | .plain => d.takeValue form arg
    | .cluster letters =>
      if d.wantsExpression form && !letters.all (fun c => c == 'v' || c == 'h') then
        d.takeValue form arg
      else d.settled.bind (·.takeFlags letters)
    | .long name value =>
      match form.settings.find? (·.name == name) with
      | some s =>
        d.settled.bind fun d =>
          match value with
          | some value => d.set s (String.ofList value)
          | none => .ok { d with pending := some s }
      | none =>
        if name == "verbose".toList then
          if value.isSome then .error .misuse else d.settled.map (·.louder 1)
        else if name == "help".toList then
          if value.isSome then .error .misuse else d.settled.bind fun _ => .error .help
        else if d.wantsExpression form then d.takeValue form arg
        else .error .misuse

end Draft

def readCommand (form : Form) (args : List String) : Except Stop Draft := do
  let d ← args.foldlM (Draft.take form) {}
  let d ← d.settled
  if d.wantsExpression form then .error .misuse else .ok d

def calcForm : Form :=
  ⟨true, [.config, .maxDepth]⟩

def tokensForm : Form :=
  ⟨true, []⟩

def grammarForm : Form :=
  ⟨false, []⟩

def task? (name : String) (args : List String) : Option (Except Stop (Draft × Task)) :=
  match name with
  | "calc" =>
    some ((readCommand calcForm args).map fun d =>
      (d, .evaluate (d.expression.getD "") d.config d.maxDepth))
  | "tokens" =>
    some ((readCommand tokensForm args).map fun d => (d, .showTokens (d.expression.getD "")))
  | "grammar" => some ((readCommand grammarForm args).map fun d => (d, .showGrammar))
  | _ => none

def leadingFlags (verbosity : Nat) : List Char → Except Stop Nat
  | [] => .ok verbosity
  | 'v' :: letters => leadingFlags (verbosity + 1) letters
  | 'h' :: _ => .error .help
  | 'V' :: _ => .error .version
  | _ => .error .misuse

def commandNames : List String :=
  ["calc", "tokens", "grammar", "help"]

/-- Reads all arguments; a command's own count of detail flags goes before the one in front. -/
def readArguments (verbosity : Nat) : List String → Except Stop Invocation
  | [] => .error .misuse
  | arg :: args =>
    match Shape.of arg with
    | .divider => .error .misuse
    | .cluster letters =>
      match leadingFlags verbosity letters with
      | .ok verbosity => readArguments verbosity args
      | .error stop => .error stop
    | .long name none =>
      if name == "verbose".toList then readArguments (verbosity + 1) args
      else if name == "help".toList then .error .help
      else if name == "version".toList then .error .version
      else .error .misuse
    | .long _ (some _) => .error .misuse
    | .plain =>
      match task? arg args with
      | some result => result.map fun (d, task) => ⟨d.verbosity.getD verbosity, task⟩
      | none =>
        if arg == "help" then
          match args with
          | [] => .error .help
          | [name] => if commandNames.contains name then .error .help else .error .misuse
          | _ => .error .misuse
        else .error .misuse

end OrderedChoice.Command
