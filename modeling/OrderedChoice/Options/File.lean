import OrderedChoice.Options.Yaml

set_option autoImplicit false

namespace OrderedChoice

inductive FileProblem where
  | missing
  | notDirectory
  | isDirectory
  | nameTooLong
  | notText
  | nulInPath
deriving DecidableEq, Repr

def FileProblem.message : FileProblem → String
  | missing => "No such file or directory (os error 2)"
  | notDirectory => "Not a directory (os error 20)"
  | isDirectory => "Is a directory (os error 21)"
  | nameTooLong => "File name too long (os error 36)"
  | notText => "stream did not contain valid UTF-8"
  | nulInPath => "file name contained an unexpected NUL byte"

abbrev ReadText := String → Except FileProblem String

def pathParts (path : String) : List String :=
  (path.splitToList (· == '/')).filter fun part => part != "" && part != "."

/-- What follows the last point of a file's name, unless nothing stands before that point. -/
def extension? (path : String) : Option String :=
  match (pathParts path).getLast? with
  | none => none
  | some name =>
    if name == ".." then none
    else
      let chars := name.toList.reverse
      match chars.span (· != '.') with
      | (_, []) => none
      | (_, [_]) => none
      | (ending, _) => some (String.ofList ending.reverse)

namespace Options

inductive Format where
  | json
  | yaml
deriving DecidableEq, Repr

def Format.ofExtension? : Option String → Option Format
  | some "json" => some .json
  | some "yaml" => some .yaml
  | some "yml" => some .yaml
  | _ => none

def ofText (format : Format) (text : String) : Except Diagnostic Options :=
  match format with
  | .json => ofJson text
  | .yaml => ofYaml text

/-- Options from the file at a path, which is read before the path tells its format. -/
def ofPath (read : ReadText) (path : String) : Except Diagnostic Options :=
  match read path with
  | .error p => .error (invalid ("cannot read " ++ path ++ ": " ++ p.message))
  | .ok text =>
    match Format.ofExtension? (extension? path) with
    | some format => ofText format text
    | none =>
      .error ((invalid ("unsupported options file " ++ path)).withHelp
        "use a .json, .yaml or .yml file")

end Options

end OrderedChoice
