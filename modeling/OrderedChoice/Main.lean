import OrderedChoice.Command.Run

set_option autoImplicit false

open OrderedChoice

def fileProblem : IO.Error → FileProblem
  | .inappropriateType _ code _ => if code == 21 then .isDirectory else .notDirectory
  | .invalidArgument _ 36 _ => .nameTooLong
  | _ => .missing

def readText (path : String) : IO (Except FileProblem String) := do
  try
    let bytes ← IO.FS.readBinFile path
    match String.fromUTF8? bytes with
    | some text => return .ok text
    | none => return .error .notText
  catch e => return .error (fileProblem e)

def configPath (args : List String) : Option String :=
  match Command.readArguments 0 args with
  | .ok ⟨_, .evaluate _ config _⟩ => config
  | _ => none

def main (args : List String) : IO UInt32 := do
  let content ← match configPath args with
    | some path => readText path
    | none => pure (.error .missing)
  let report := Command.run (fun _ => content) (← IO.getEnv "RUST_LOG") args
  for line in report.log do
    IO.eprintln line.text
  IO.print report.output
  if report.code != 0 then IO.eprintln report.complaint
  return report.code.toUInt32
