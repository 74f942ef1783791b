import ProtoSchema.FileSystem
import ProtoSchema.Grammar
import ProtoSchema.Log
import ProtoSchema.Schema.Build
import ProtoSchema.Schema.Json
import ProtoSchema.Text.LineEnding

/-! # Reading schemas

From a text or a file to a schema, with the warnings on the way.
-/

namespace ProtoSchema

inductive SchemaError where
  /-- The text has no syntax tree. -/
  | tree (e : TreeError)
  /-- The tree has the wrong shape, which no tree of a text has. -/
  | build (e : BuildError)
deriving DecidableEq

namespace SchemaError

/-- What a reader of the text is told: mistakes in the text and nesting beyond the limit are
reported, while a defect of the reader itself is not. -/
def report? : SchemaError → Option String
  | .tree (.scan e) => some e.diagnostic.message
  | .tree (.parse (.mismatch e)) => some e.diagnostic.message
  | .tree (.parse .tooDeep) => some "Definitions are nested too deeply to parse"
  | .tree (.parse .outOfTokens) => none
  | .build _ => none

end SchemaError

namespace Schema

/-- The schema of a text with at most `limit` messages inside each other. -/
def ofText (limit : Nat) (source : List Char) : Except SchemaError (Schema × List Warning) :=
  match Node.ofText limit source with
  | .error e => .error (.tree e)
  | .ok tree => (ofTree tree).mapError .build

end Schema

inductive AccessError where
  /-- The text of the path has a null character, which no path has. -/
  | nullCharacter
  /-- The file system refuses the path. -/
  | refused (r : Refusal)
deriving DecidableEq

/-- What is wrong with a path that has a null character. -/
def AccessError.nullCharacterMessage : String := "embedded null byte"

inductive DocumentError where
  /-- The text of the path has a null character. -/
  | nullCharacter
  /-- The file system refuses to read the file. -/
  | refused (r : Refusal)
  /-- The bytes of the file are not UTF-8. -/
  | undecodable (fault : Text.Utf8.Fault)
  /-- The text of the file has no schema. -/
  | schema (e : SchemaError)
deriving DecidableEq

namespace DocumentError

/-- What a reader of the file `path` is told, if the error is one to report. -/
def report? (path : String) : DocumentError → Option String
  | .nullCharacter => none
  | .refused r => some ("Cannot read " ++ path ++ ": " ++ r.message (Path.ofText path))
  | .undecodable fault => some ("Cannot read " ++ path ++ ": " ++ fault.message)
  | .schema e => e.report?

end DocumentError

namespace FileSystem

def readText (fs : FileSystem) (path : String) : Except AccessError (List UInt8) :=
  if path.toList.contains '\x00' then .error .nullCharacter
  else (fs.read (Path.ofText path)).mapError .refused

def writeText (fs : FileSystem) (path : String) (bytes : List UInt8) :
    Except AccessError FileSystem :=
  if path.toList.contains '\x00' then .error .nullCharacter
  else (fs.write (Path.ofText path) bytes).mapError .refused

end FileSystem

namespace Schema

/-- The schema of a file whose reading gave `contents`. Its text is read in a call of its own, which
leaves room for one message less than the caller has. -/
def ofContents (limit : Nat) (contents : Except AccessError (List UInt8)) :
    Except DocumentError (Schema × List Warning) :=
  match contents with
  | .error .nullCharacter => .error .nullCharacter
  | .error (.refused r) => .error (.refused r)
  | .ok bytes =>
    match Text.Utf8.decode bytes with
    | .error fault => .error (.undecodable fault)
    | .ok source => (ofText (limit - 1) (Text.foldLineEndings source)).mapError .schema

def readingEntry (path : String) : Log.Entry :=
  ⟨.debug, "parsing_proto_file", [("path", .text path)]⟩

/-- What is logged in reading a file: that it is read, and the warnings of its schema. -/
def readingLog (path : String) (result : Except DocumentError (Schema × List Warning)) :
    List Log.Entry :=
  readingEntry path ::
    match result with
    | .ok (_, warnings) => warnings.map (·.entry)
    | .error _ => []

end Schema

end ProtoSchema
