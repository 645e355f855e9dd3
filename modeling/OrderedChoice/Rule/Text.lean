import OrderedChoice.Rule.Basic

set_option autoImplicit false

/-!
# Grammar notation

The text of a rule: terminals in single quotes, references as bare names, scopes in brackets,
alternatives between parentheses, actions by their label in braces, and a dollar sign for the end
of the tokens.
-/

namespace OrderedChoice

def Action.shown {H V : Type} (a : Action H V) : String :=
  a.label.getD "action"

namespace Rule

variable {H V : Type}

mutual
def text : Rule H V → String
  | ref name => name
  | terminal name => "'" ++ name ++ "'"
  | scope body => "[" ++ body.text ++ "]"
  | sequence [] => "()"
  | sequence (part :: parts) => part.text ++ textAfter " " parts
  | alternative [] => "<fail>"
  | alternative (part :: parts) => "( " ++ part.text ++ textAfter " | " parts ++ " )"
  | action act => "\x7b" ++ act.shown ++ "\x7d"
  | terminated body => body.text ++ " $"

def textAfter (divider : String) : List (Rule H V) → String
  | [] => ""
  | part :: parts => divider ++ part.text ++ textAfter divider parts
end

end Rule

end OrderedChoice
