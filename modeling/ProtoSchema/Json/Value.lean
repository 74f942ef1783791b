/-! # JSON values

Values in the order in which they are written. A schema put together by hand may hold values that
JSON has no form for; what counts of them is the name of their type, and what copying them raises.
-/

namespace ProtoSchema.Json

inductive Cause where
  | typeError
  | valueError
deriving DecidableEq

/-- What is raised in copying a value that cannot be copied. -/
inductive CopyError where
  /-- There is no room for the calls that it takes. -/
  | tooDeep
  /-- An exception that is turned into a report. -/
  | caught (cause : Cause) (message : String)
  /-- An exception of another class. -/
  | uncaught (name : String)
deriving DecidableEq

/-- A value of a type that JSON has no form for. Its copy, if there is one, has the same type. -/
structure Foreign where
  typeName : String
  /-- The calls inside each other that copying it takes. -/
  calls : Nat
  copyError? : Option CopyError
deriving DecidableEq

inductive Value where
  | null
  | bool (b : Bool)
  | int (n : Int)
  | str (s : String)
  | list (items : List Value)
  /-- An object, with its members in order. -/
  | object (members : List (String × Value))
  | foreign (f : Foreign)
deriving Inhabited

inductive Fault where
  /-- A value of the named type has no JSON form. -/
  | foreign (typeName : String)
  /-- An integer has too many digits. -/
  | tooManyDigits
  /-- A value cannot be copied. -/
  | uncopied (cause : Cause) (message : String)
deriving DecidableEq

def digitLimit : Nat := 4300

namespace Fault

def message : Fault → String
  | .foreign typeName => "Object of type " ++ typeName ++ " is not JSON serializable"
  | .tooManyDigits =>
    "Exceeds the limit (" ++ digitLimit.repr ++ " digits) for integer string conversion; " ++
      "use sys.set_int_max_str_digits() to increase the limit"
  | .uncopied _ message => message

def cause : Fault → Cause
  | .foreign _ => .typeError
  | .tooManyDigits => .valueError
  | .uncopied cause _ => cause

end Fault

namespace Value

mutual
/-- The first part of a value, in the order of writing, that cannot be written. -/
def fault? : Value → Option Fault
  | .null | .bool _ | .str _ => none
  | .int n => if n.natAbs < Nat.pow 10 digitLimit then none else some .tooManyDigits
  | .list items => faultInItems? items
  | .object members => faultInMembers? members
  | .foreign f => some (.foreign f.typeName)

def faultInItems? : List Value → Option Fault
  | [] => none
  | v :: vs => v.fault?.or (faultInItems? vs)

def faultInMembers? : List (String × Value) → Option Fault
  | [] => none
  | (_, v) :: members => v.fault?.or (faultInMembers? members)
end

end Value

end ProtoSchema.Json
