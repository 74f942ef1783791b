import ProtoSchema.Command.Run
import ProtoSchema.Log.Console

/-! # The command line

Reads and writes the files that a task asks for, and shows what it has to show.
-/

namespace ProtoSchema.Command

/-- The refusal behind a failed access to a file. -/
def refusalOf : IO.Error → Refusal
  | .noFileOrDirectory _ _ _ => .missing
  | .inappropriateType _ 21 _ => .isDirectory
  | .inappropriateType _ _ _ => .notDirectory
  | .illegalOperation _ _ => .isDirectory
  | .invalidArgument _ _ _ => .nameTooLong
  | _ => .missing

/-- The result of an access to the file that the text `path` names. -/
def accessing (path : String) (action : IO α) : IO (Except AccessError α) := do
  if path.toList.contains '\x00' then
    return .error .nullCharacter
  try
    return .ok (← action)
  catch e =>
    return .error (.refused (refusalOf e))

def readBytes (path : String) : IO (Except AccessError (List UInt8)) :=
  accessing path do
    return (← IO.FS.readBinFile (Path.ofText path).text).toList

def writeBytes (path : String) (bytes : List UInt8) : IO (Except AccessError Unit) :=
  accessing path (IO.FS.writeBinFile (Path.ofText path).text bytes.toByteArray)

def Transcript.display (t : Transcript) : IO UInt32 := do
  (← IO.getStderr).putStr t.stderr
  (← IO.getStdout).putStr t.stdout
  match t.ending with
  | .exit code => return code.toUInt32
  | .mishap _ => return 1

def Task.perform (task : Task) : IO Outcome := do
  let contents ←
    match task.input? with
    | some file => readBytes file
    | none => pure (.ok [])
  match task.plan .usual contents with
  | .finish o => return o
  | .save output document notices =>
    return afterSave output notices (← writeBytes output (Text.Utf8.encode document))

end ProtoSchema.Command

open ProtoSchema.Command in
/-- Runs the program with its arguments. -/
def main (arguments : List String) : IO UInt32 := do
  match Invocation.ofArguments arguments with
  | .error stop => (Transcript.ofStop stop).display
  | .ok ⟨verbose, task⟩ =>
    (Transcript.ofOutcome ProtoSchema.Log.console verbose (← task.perform)).display
