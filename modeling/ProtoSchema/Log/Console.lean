import ProtoSchema.Log
import ProtoSchema.Text.Quoted

/-! # Log lines

One way to write entries: a line each, with the level in brackets, the event, and the fields in the
order of their keys.
-/

namespace ProtoSchema.Log

/-- The characters that a text is quoted for. -/
def Value.delimiters : List Char :=
  [' ', '\t', '=', '\r', '\n', '"', '\'']

/-- A value in a line: a text is quoted if its ends could be mistaken. -/
def Value.display : Value → String
  | .text s => if s.toList.any delimiters.contains then Text.Quoted.encode s else s
  | .int n => n.repr

namespace Console

def levelWidth : Nat := 9

def eventWidth : Nat := 30

def pad (width : Nat) (s : String) : String :=
  s ++ String.ofList (List.replicate (width - s.length) ' ')

def trimEnd (s : String) : String :=
  String.ofList (s.toList.reverse.dropWhile (· == ' ')).reverse

/-- A field among others that stand in the order of their keys. -/
def place (f : String × Value) : List (String × Value) → List (String × Value)
  | [] => [f]
  | g :: gs => if f.1 ≤ g.1 then f :: g :: gs else g :: place f gs

/-- Fields with their keys, in the order of these. -/
def fields (fs : List (String × Value)) : List String :=
  (fs.foldr place []).map fun (key, value) => key ++ "=" ++ value.display

def head (e : Entry) : List String :=
  ["[" ++ pad levelWidth e.level.name ++ "]", pad eventWidth e.event]

def line (parts : List String) : String :=
  trimEnd (" ".intercalate (parts.filter (· ≠ "")))

def text (e : Entry) : String :=
  line (head e ++ fields e.fields) ++ "\n"

end Console

/-- The library that writes entries as lines. -/
def console : Library where
  write least e := if least ≤ e.level then Console.text e else ""

theorem console_filters : console.Filters Console.text where
  shown h := if_pos h
  hidden h := if_neg h

end ProtoSchema.Log
