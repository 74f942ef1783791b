import ProtoSchema.Path
import ProtoSchema.Text.Quoted
import ProtoSchema.Text.Utf8

/-! # File systems

A file system holds files and directories by location, a location being the names on the way down
from the root. Reading and writing either succeed or are refused for one reason, found by walking
the path name by name.

These are file systems without links, devices and permissions: a location is named by its names
alone, what is written can be read back, and there are four reasons to refuse a path.
-/

namespace ProtoSchema

inductive Refusal where
  /-- There is nothing at that path. -/
  | missing
  /-- A name before the last one is no directory. -/
  | notDirectory
  /-- There is a directory at that path. -/
  | isDirectory
  /-- A name or the whole path is too long. -/
  | nameTooLong
deriving DecidableEq

namespace Refusal

def number : Refusal → Nat
  | .missing => 2
  | .notDirectory => 20
  | .isDirectory => 21
  | .nameTooLong => 36

def reason : Refusal → String
  | .missing => "No such file or directory"
  | .notDirectory => "Not a directory"
  | .isDirectory => "Is a directory"
  | .nameTooLong => "File name too long"

def message (r : Refusal) (path : Path) : String :=
  "[Errno " ++ r.number.repr ++ "] " ++ r.reason ++ ": " ++ Text.Quoted.encode path.text

end Refusal

/-- The names on the way down from the root. -/
abbrev Location := List String

/-- The locations on the way to a location, itself the last. -/
def Location.way (location : Location) : List Location :=
  (List.range (location.length + 1)).map fun count => List.take count location

/-- What is at a location. -/
inductive FileSystem.Entry where
  /-- A file with its bytes. -/
  | file (bytes : List UInt8)
  /-- A directory. -/
  | directory
deriving DecidableEq

/-- Files and directories by location; of two entries for one location the first counts. Relative
paths start at `home`. -/
structure FileSystem where
  entries : List (Location × FileSystem.Entry)
  home : Location

namespace FileSystem

def nameLimit : Nat := 255

def pathLimit : Nat := 4095

def fresh (home : Location) : FileSystem :=
  ⟨home.way.map (·, .directory), home⟩

/-- What is at a location; the root is always a directory. -/
def entryAt? (fs : FileSystem) (location : Location) : Option Entry :=
  if location = [] then some .directory else fs.entries.lookup location

def put (fs : FileSystem) (location : Location) (entry : Entry) : FileSystem :=
  { fs with entries := (location, entry) :: fs.entries }

def step (fs : FileSystem) (location : Location) (name : String) : Except Refusal Location :=
  match fs.entryAt? location with
  | none => .error .missing
  | some (.file _) => .error .notDirectory
  | some .directory =>
    if name = ".." then .ok location.dropLast
    else if name.utf8ByteSize ≤ nameLimit then .ok (location ++ [name])
    else .error .nameTooLong

def startOf (fs : FileSystem) (path : Path) : Location :=
  match path.root with
  | .here => fs.home
  | .single | .double => []

/-- The location of a path, whose last name need not exist. -/
def locate (fs : FileSystem) (path : Path) : Except Refusal Location :=
  if path.text.utf8ByteSize ≤ pathLimit then path.names.foldlM fs.step (fs.startOf path)
  else .error .nameTooLong

def read (fs : FileSystem) (path : Path) : Except Refusal (List UInt8) :=
  match fs.locate path with
  | .error r => .error r
  | .ok location =>
    match fs.entryAt? location with
    | none => .error .missing
    | some .directory => .error .isDirectory
    | some (.file bytes) => .ok bytes

def write (fs : FileSystem) (path : Path) (bytes : List UInt8) : Except Refusal FileSystem :=
  match fs.locate path with
  | .error r => .error r
  | .ok location =>
    match fs.entryAt? location with
    | some .directory => .error .isDirectory
    | _ => .ok (fs.put location (.file bytes))

/-- The file system with a directory at a location and above it. -/
def makeDirectory (fs : FileSystem) (location : Location) : FileSystem :=
  location.way.foldl
    (fun fs above => if (fs.entryAt? above).isNone then fs.put above .directory else fs) fs

/-- The location that a path stands for when its directories are made as needed. -/
def destination (fs : FileSystem) (path : Path) : Location :=
  path.names.foldl
    (fun location name => if name = ".." then location.dropLast else location ++ [name])
    (fs.startOf path)

/-- The file system with a file at a path, and with the directories that it needs. -/
def install (fs : FileSystem) (path : Path) (bytes : List UInt8) : FileSystem :=
  let location := fs.destination path
  (fs.makeDirectory location.dropLast).put location (.file bytes)

end FileSystem

end ProtoSchema
