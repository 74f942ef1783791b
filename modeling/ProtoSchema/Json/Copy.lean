import ProtoSchema.Json.Value

/-! # Copying values

Before a value is written it is copied part by part, in the order of writing. A value without parts
is copied as a whole, which is where a foreign value can be refused. Copying a part is a call inside
the one for the whole, and the stack has room for so many calls inside each other.
-/

namespace ProtoSchema.Json.Value

/-- The calls inside each other that copying a null, a boolean, an integer or a string takes. -/
def scalarCalls : Nat := 3

def listCalls : Nat := 2

def objectCalls : Nat := 1

mutual
/-- The calls inside each other that copying a value takes. -/
def calls : Value → Nat
  | .null | .bool _ | .int _ | .str _ => scalarCalls
  | .foreign f => f.calls
  | .list items => callsOfItems items + listCalls
  | .object members => callsOfMembers members + objectCalls

def callsOfItems : List Value → Nat
  | [] => 0
  | v :: vs => max v.calls (callsOfItems vs)

def callsOfMembers : List (String × Value) → Nat
  | [] => 0
  | (_, v) :: members => max v.calls (callsOfMembers members)
end

mutual
/-- What is raised first in copying a value with room for `room` calls. -/
def copyError? (room : Nat) : Value → Option CopyError
  | .null | .bool _ | .int _ | .str _ => if scalarCalls ≤ room then none else some .tooDeep
  | .foreign f => if f.calls ≤ room then f.copyError? else some .tooDeep
  | .list items =>
    if listCalls ≤ room then copyErrorInItems? (room - listCalls) items else some .tooDeep
  | .object members =>
    if objectCalls ≤ room then copyErrorInMembers? (room - objectCalls) members else some .tooDeep

def copyErrorInItems? (room : Nat) : List Value → Option CopyError
  | [] => none
  | v :: vs => (v.copyError? room).or (copyErrorInItems? room vs)

def copyErrorInMembers? (room : Nat) : List (String × Value) → Option CopyError
  | [] => none
  | (_, v) :: members => (v.copyError? room).or (copyErrorInMembers? room members)
end

end ProtoSchema.Json.Value
