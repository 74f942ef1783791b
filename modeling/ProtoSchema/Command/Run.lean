import ProtoSchema.Command.Arguments
import ProtoSchema.Document
import ProtoSchema.Limits

/-! # Running a task

A task reads at most one file and then writes at most one. What it shows and how it ends depend
on nothing but the contents of the one and the success of the other.
-/

namespace ProtoSchema.Command

/-- A mishap that ends the program without being reported. -/
inductive Mishap where
  /-- The schema is nested too deeply to be written. -/
  | tooDeep
  /-- Copying the schema raises an exception of the named class. -/
  | raised (name : String)
  /-- The text of a path has a null character. -/
  | nullCharacter
  /-- The file to write is not named. -/
  | unnamedOutput
  /-- The reader has a defect. -/
  | defect (e : SchemaError)
deriving DecidableEq

inductive Ending where
  /-- With an exit code. -/
  | exit (code : Nat)
  /-- With a mishap. -/
  | mishap (m : Mishap)
deriving DecidableEq

/-- Something on the standard error. -/
inductive Notice where
  /-- A log entry. -/
  | entry (e : Log.Entry)
  /-- A line for the user. -/
  | line (text : String)
deriving DecidableEq

namespace Notice

/-- The text of a notice, of which entries are up to the logging library. -/
def render (library : Log.Library) (least : Log.Level) : Notice → String
  | .entry e => library.write least e
  | .line text => text ++ "\n"

end Notice

structure Outcome where
  ending : Ending
  stdout : String
  notices : List Notice
deriving DecidableEq

namespace Outcome

def stderr (library : Log.Library) (verbose : Bool) (o : Outcome) : String :=
  String.join (o.notices.map (·.render library (.least verbose)))

def quiet (ending : Ending) (notices : List Notice) : Outcome :=
  ⟨ending, "", notices⟩

end Outcome

inductive Plan where
  /-- Nothing. -/
  | finish (o : Outcome)
  /-- Writing a document to the file `output`. -/
  | save (output document : String) (notices : List Notice)
deriving DecidableEq

/-- What becomes of an error. -/
inductive Failure where
  /-- The user is told, and the exit code is one. -/
  | reported (message : String)
  /-- The program ends there. -/
  | mishap (m : Mishap)
deriving DecidableEq

namespace Failure

def ofDocumentError (file : String) (e : DocumentError) : Failure :=
  match e.report? file, e with
  | some message, _ => .reported message
  | none, .schema e => .mishap (.defect e)
  | none, _ => .mishap .nullCharacter

def ofWriteError (e : WriteError) : Failure :=
  match e.report?, e with
  | some message, _ => .reported message
  | none, .raised name => .mishap (.raised name)
  | none, _ => .mishap .tooDeep

def ofAccessError (file : String) : AccessError → Failure
  | .nullCharacter => .mishap .nullCharacter
  | .refused r => .reported (r.message (Path.ofText file))

/-- The outcome of a failure after some notices, where `told` are the notices of a report. -/
def outcome (notices : List Notice) (told : String → List Notice) : Failure → Outcome
  | .reported message => .quiet (.exit 1) (notices ++ told message)
  | .mishap m => .quiet (.mishap m) notices

end Failure

namespace Task

def parseFailed (file message : String) : Log.Entry :=
  ⟨.debug, "parse_failed", [("path", .text file), ("error", .text message)]⟩

def writeFailed (output message : String) : Log.Entry :=
  ⟨.debug, "write_failed", [("path", .text output), ("error", .text message)]⟩

def written (output : String) : Log.Entry :=
  ⟨.info, "json_written", [("path", .text output)]⟩

def input? : Task → Option String
  | .parse file _ _ => some file
  | .validate file => some file
  | .credits => none

def layout (pretty : Bool) : Json.Layout :=
  if pretty then .indented else .compact

def parseNotices (file message : String) : List Notice :=
  [.entry (parseFailed file message), .line ("Error parsing file: " ++ message)]

def writeNotices (output message : String) : List Notice :=
  [.entry (writeFailed output message), .line ("Error writing to file: " ++ message)]

def validateNotices (message : String) : List Notice :=
  [.line ("Validation failed: " ++ message)]

/-- The plan of turning a file with the given contents into a document. -/
def planParse (limits : Limits) (file : String) (output : Output) (pretty : Bool)
    (contents : Except AccessError (List UInt8)) : Plan :=
  let result := Schema.ofContents limits.nesting contents
  let notices := (Schema.readingLog file result).map Notice.entry
  match result with
  | .error e => .finish ((Failure.ofDocumentError file e).outcome notices (parseNotices file))
  | .ok (schema, _) =>
    match schema.render limits.calls (layout pretty) with
    | .error e => .finish ((Failure.ofWriteError e).outcome notices (parseNotices file))
    | .ok document =>
      match output with
      | .standard => .finish ⟨.exit 0, document ++ "\n", notices⟩
      | .file path => .save path (document ++ "\n") notices
      | .unnamed => .finish (.quiet (.mishap .unnamedOutput) notices)

/-- The outcome of checking a file with the given contents. -/
def validateContents (limits : Limits) (file : String)
    (contents : Except AccessError (List UInt8)) : Outcome :=
  let result := Schema.ofContents limits.nesting contents
  let notices := (Schema.readingLog file result).map Notice.entry
  match result with
  | .ok _ => ⟨.exit 0, "File is valid\n", notices⟩
  | .error e => (Failure.ofDocumentError file e).outcome notices validateNotices

def plan (limits : Limits) (contents : Except AccessError (List UInt8)) : Task → Plan
  | .parse file output pretty => planParse limits file output pretty contents
  | .validate file => .finish (validateContents limits file contents)
  | .credits => .finish ⟨.exit 0, Command.credits ++ "\n", []⟩

def afterSave (output : String) (notices : List Notice) : Except AccessError Unit → Outcome
  | .ok () => .quiet (.exit 0) (notices ++ [.entry (written output)])
  | .error e => (Failure.ofAccessError output e).outcome notices (writeNotices output)

/-- The outcome of a task in a file system, and the file system after it. -/
def run (limits : Limits) (fs : FileSystem) (task : Task) : Outcome × FileSystem :=
  let contents := match task.input? with
    | some file => fs.readText file
    | none => .ok []
  match task.plan limits contents with
  | .finish o => (o, fs)
  | .save output document notices =>
    match fs.writeText output (Text.Utf8.encode document) with
    | .ok fs => (afterSave output notices (.ok ()), fs)
    | .error e => (afterSave output notices (.error e), fs)

end Task

/-- What a run of the program shows: how it ends, the standard output and the standard error. -/
structure Transcript where
  ending : Ending
  stdout : String
  stderr : String
deriving DecidableEq

namespace Transcript

def ofStop (stop : Stop) : Transcript :=
  ⟨.exit stop.code, stop.stdout, stop.stderr⟩

def ofOutcome (library : Log.Library) (verbose : Bool) (o : Outcome) : Transcript :=
  ⟨o.ending, o.stdout, o.stderr library verbose⟩

end Transcript

/-- A run of the program in a file system, and the file system after it. -/
def run (limits : Limits) (library : Log.Library) (fs : FileSystem) (arguments : List String) :
    Transcript × FileSystem :=
  match Invocation.ofArguments arguments with
  | .error stop => (.ofStop stop, fs)
  | .ok ⟨verbose, task⟩ =>
    let (outcome, fs) := task.run limits fs
    (.ofOutcome library verbose outcome, fs)

end ProtoSchema.Command
