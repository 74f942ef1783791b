/-! # Diagnostics

What a reader of schema text is told about a mistake: a summary, the place, what could have stood
there, and the construct it stands in.
-/

namespace ProtoSchema

/-- A reported mistake in a schema text. -/
structure Diagnostic where
  summary : String
  line : Int
  col : Int
  offset : Int
  expected : List String
  context : Option String
deriving DecidableEq

namespace Diagnostic

/-- The construct, as the end of a sentence; an empty name says nothing. -/
def place (d : Diagnostic) : String :=
  match d.context with
  | none => ""
  | some "" => ""
  | some construct => " in " ++ construct

def message (d : Diagnostic) : String :=
  "Line " ++ d.line.repr ++ ":" ++ d.col.repr ++ ": " ++ d.summary ++ d.place

end Diagnostic

end ProtoSchema
