import OrderedChoice.Rule.Text
import OrderedChoice.Text.Quoted

set_option autoImplicit false

namespace OrderedChoice

def Action.outline {H V : Type} (a : Action H V) : String :=
  match a.label with
  | some label => "Action(" ++ label ++ ")"
  | none => "Action"

namespace Rule

variable {H V : Type}

mutual
def outline : Rule H V → String
  | ref name => "Ref(" ++ Text.quoted name ++ ")"
  | terminal name => "Terminal(" ++ Text.quoted name ++ ")"
  | scope body => "Scope(" ++ body.outline ++ ")"
  | sequence parts => "Sequence([" ++ outlineAll parts ++ "])"
  | alternative parts => "Alternative([" ++ outlineAll parts ++ "])"
  | action act => act.outline
  | terminated body => "Terminated(" ++ body.outline ++ ")"

def outlineAll : List (Rule H V) → String
  | [] => ""
  | [part] => part.outline
  | part :: parts => part.outline ++ ", " ++ outlineAll parts
end

def margin (depth : Nat) : String :=
  "".pushn ' ' (4 * depth)

/-- A text whose later lines begin at a depth of nesting, the empty ones too. -/
def hanging (depth : Nat) (s : String) : String :=
  String.join (s.toList.map fun c => if c == '\n' then "\n" ++ margin depth else c.toString)

def indentedTuple (depth : Nat) (name argument : String) : String :=
  name ++ "(\n" ++ margin (depth + 1) ++ argument ++ ",\n" ++ margin depth ++ ")"

mutual
def indentedOutline (depth : Nat) : Rule H V → String
  | ref name => indentedTuple depth "Ref" (Text.quoted name)
  | terminal name => indentedTuple depth "Terminal" (Text.quoted name)
  | scope body => indentedTuple depth "Scope" (body.indentedOutline (depth + 1))
  | sequence [] => indentedTuple depth "Sequence" "[]"
  | sequence (part :: parts) =>
    indentedTuple depth "Sequence"
      ("[\n" ++ indentedLines (depth + 2) (part :: parts) ++ margin (depth + 1) ++ "]")
  | alternative [] => indentedTuple depth "Alternative" "[]"
  | alternative (part :: parts) =>
    indentedTuple depth "Alternative"
      ("[\n" ++ indentedLines (depth + 2) (part :: parts) ++ margin (depth + 1) ++ "]")
  | action act => hanging depth act.outline
  | terminated body => indentedTuple depth "Terminated" (body.indentedOutline (depth + 1))

def indentedLines (depth : Nat) : List (Rule H V) → String
  | [] => ""
  | part :: parts =>
    margin depth ++ part.indentedOutline depth ++ ",\n" ++ indentedLines depth parts
end

end Rule

end OrderedChoice
