import OrderedChoice.Text.Quoted

set_option autoImplicit false

namespace OrderedChoice

inductive Phase where
  | config
  | compile
  | execute
deriving DecidableEq, Repr

def Phase.name : Phase → String
  | .config => "config"
  | .compile => "compile"
  | .execute => "execute"

inductive Cause where
  | undefinedSymbol (symbol : String) (referrer : Option String)
  | recursionLimit (limit : Nat)
  /-- An action asked for a value outside its frame of `size` values. -/
  | actionContract (index size : Nat)
  | invalidOptions (reason : String)
deriving DecidableEq, Repr

inductive Category where
  | grammar
  | runtime
  | contract
  | config
deriving DecidableEq, Repr

namespace Cause

def category : Cause → Category
  | undefinedSymbol .. => .grammar
  | recursionLimit _ => .runtime
  | actionContract .. => .contract
  | invalidOptions _ => .config

def suffix : Cause → String
  | undefinedSymbol .. => "undefined_symbol"
  | recursionLimit _ => "recursion_limit"
  | actionContract .. => "action_contract"
  | invalidOptions _ => "invalid_options"

def message : Cause → String
  | undefinedSymbol symbol none => s!"undefined symbol '{symbol}'"
  | undefinedSymbol symbol (some rule) =>
    s!"undefined symbol '{symbol}' referenced from rule '{rule}'"
  | recursionLimit limit => s!"recursion limit of {limit} exceeded"
  | actionContract index size =>
    s!"getter index {index} is outside the current frame of {size} value(s)"
  | invalidOptions reason => s!"invalid parse options: {reason}"

def advice : Cause → Option String
  | undefinedSymbol .. => some "declare it as a terminal or define a rule with this name"
  | recursionLimit _ =>
    some "left-recursive rules never consume input before recursing; rewrite them right-recursively"
  | actionContract .. => none
  | invalidOptions _ => none

def outlineOption : Option String → String
  | none => "None"
  | some s => "Some(" ++ Text.quoted s ++ ")"

def outline : Cause → String
  | undefinedSymbol symbol referrer =>
    "UndefinedSymbol \x7b symbol: " ++ Text.quoted symbol ++ ", referenced_from: "
      ++ outlineOption referrer ++ " \x7d"
  | recursionLimit limit => "RecursionLimit \x7b limit: " ++ toString limit ++ " \x7d"
  | actionContract index size =>
    "ActionContract \x7b index: " ++ toString index ++ ", frame_len: " ++ toString size ++ " \x7d"
  | invalidOptions reason => "InvalidOptions \x7b message: " ++ Text.quoted reason ++ " \x7d"

end Cause

structure Diagnostic where
  cause : Cause
  phase : Phase
  help : Option String
deriving DecidableEq, Repr

namespace Diagnostic

def report (phase : Phase) (cause : Cause) : Diagnostic :=
  ⟨cause, phase, cause.advice⟩

def withHelp (d : Diagnostic) (help : String) : Diagnostic :=
  { d with help := some help }

def category (d : Diagnostic) : Category :=
  d.cause.category

def message (d : Diagnostic) : String :=
  d.cause.message

def code (d : Diagnostic) : String :=
  "ruleweave::" ++ d.phase.name ++ "::" ++ d.cause.suffix

def outline (d : Diagnostic) : String :=
  "GrammarError \x7b kind: " ++ d.cause.outline ++ ", phase: " ++ Text.quoted d.phase.name
    ++ ", help: " ++ Cause.outlineOption d.help ++ " \x7d"

end Diagnostic

end OrderedChoice
