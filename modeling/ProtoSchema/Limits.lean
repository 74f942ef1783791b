/-! # Limits

Reading and copying go into a call for each message, list and object inside another, and the stack
has room for so many calls. How many depends on who calls, so what is read or copied takes its limit
as a parameter.
-/

namespace ProtoSchema

/-- The room that the stack leaves to a caller. -/
structure Limits where
  /-- How many messages inside each other are read. -/
  nesting : Nat
  /-- How many calls inside each other copying a schema may take. -/
  calls : Nat

/-- The room that a stack of a thousand calls leaves to the first caller. -/
def Limits.usual : Limits :=
  ⟨990, 996⟩

end ProtoSchema
