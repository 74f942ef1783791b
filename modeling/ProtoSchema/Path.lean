/-! # Paths

A path is a root, which may be missing, and the names of the way. Writing it drops what does not
matter: doubled and trailing slashes, and names that stay where they are. The way up is kept,
since it depends on what is there.
-/

namespace ProtoSchema

inductive Path.Root where
  /-- At the working directory. -/
  | here
  /-- At the root directory. -/
  | single
  /-- At the root directory, written with two slashes. -/
  | double
deriving DecidableEq

structure Path where
  root : Path.Root
  names : List String
deriving DecidableEq

namespace Path

def Root.text : Root → String
  | .here => ""
  | .single => "/"
  | .double => "//"

def pieces : List Char → List (List Char)
  | [] => [[]]
  | c :: cs =>
    if c = '/' then [] :: pieces cs
    else
      match pieces cs with
      | [] => [[c]]
      | p :: ps => (c :: p) :: ps

/-- The root at the front of a text: exactly two slashes stay two, and more count as one. -/
def rootOf (cs : List Char) : Root :=
  match (cs.takeWhile (· == '/')).length with
  | 0 => .here
  | 2 => .double
  | _ => .single

def ofText (text : String) : Path where
  root := rootOf text.toList
  names := ((pieces text.toList).map String.ofList).filter fun name => name != "" && name != "."

def text (p : Path) : String :=
  match p.root, p.names with
  | .here, [] => "."
  | root, names => root.text ++ "/".intercalate names

end Path

end ProtoSchema
