import OrderedChoice.Options.File

set_option autoImplicit false

namespace OrderedChoice

inductive Item where
  | file (bytes : ByteArray)
  | folder

abbrev Folder := List (String × Item)

namespace Folder

def maxNameBytes : Nat :=
  255

def maxPathBytes : Nat :=
  4095

def absent (name : String) : FileProblem :=
  if maxNameBytes < name.utf8ByteSize then .nameTooLong else .missing

/-- Follows the parts of a path outside this folder: there are folders all the way up, and nothing
else in them. -/
def outside : List String → FileProblem
  | [] => .isDirectory
  | ".." :: parts => outside parts
  | name :: _ => absent name

def descend (folder : Folder) : List String → Except FileProblem ByteArray
  | [] => .error .isDirectory
  | ".." :: parts => .error (outside parts)
  | name :: parts =>
    match folder.lookup name, parts with
    | none, _ => .error (absent name)
    | some (.file bytes), [] => .ok bytes
    | some (.file _), _ => .error .notDirectory
    | some .folder, [] => .error .isDirectory
    | some .folder, ".." :: parts => folder.descend parts
    | some .folder, inner :: _ => .error (absent inner)

def follow (folder : Folder) (path : String) : Except FileProblem ByteArray :=
  if path.startsWith "/" then .error (outside (pathParts path)) else folder.descend (pathParts path)

/-- The text of the file at a path. A path that ends in a slash means a folder. -/
def read (folder : Folder) : ReadText := fun path =>
  if path.toList.contains '\x00' then .error .nulInPath
  else if path.isEmpty then .error .missing
  else if maxPathBytes < path.utf8ByteSize then .error .nameTooLong
  else
    match folder.follow path with
    | .error p => .error p
    | .ok bytes =>
      if path.endsWith "/" || path.endsWith "/." then .error .notDirectory
      else
        match String.fromUTF8? bytes with
        | some text => .ok text
        | none => .error .notText

end Folder

end OrderedChoice
