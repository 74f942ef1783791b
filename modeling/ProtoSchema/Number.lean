import ProtoSchema.Text.Blank
import ProtoSchema.Text.Digit

/-! # Numbers

A number is spelled with decimal digits of any script, single underscores between them, at most
one sign before them, and blanks around it. Tags and enum numbers have 32 bits.
-/

namespace ProtoSchema.Number

/-- The most digits that are converted between text and integer. -/
def digitLimit : Nat := 4300

def least : Int := -2147483648

def greatest : Int := 2147483647

/-- The values of the digits of a text in which a single underscore may stand between two. -/
def digits? : List Char → Option (List Nat)
  | [] => none
  | [c] => (Text.digitValue? c).map ([·])
  | c :: '_' :: cs => return (← Text.digitValue? c) :: (← digits? cs)
  | c :: cs => return (← Text.digitValue? c) :: (← digits? cs)

def ofDigits (ds : List Nat) : Nat :=
  ds.foldl (fun n d => 10 * n + d) 0

/-- The number that the digits of a text make, unless there are too many. -/
def magnitude? (cs : List Char) : Option Nat := do
  let ds ← digits? cs
  if ds.length ≤ digitLimit then some (ofDigits ds) else none

def signed? : List Char → Option Int
  | '-' :: cs => (magnitude? cs).map fun n => -(n : Int)
  | '+' :: cs => (magnitude? cs).map fun n => (n : Int)
  | cs => (magnitude? cs).map fun n => (n : Int)

def read? (cs : List Char) : Option Int :=
  signed? (Text.trim cs)

/-- The tag or enum number that a text spells, if it spells one. -/
def ofText? (text : String) : Option Int :=
  (read? text.toList).filter fun n => least ≤ n && n ≤ greatest

end ProtoSchema.Number
