import ProtoSchema.Json.Value

/-! # Writing JSON

A value has two written forms that differ in blanks only: on one line, or with every item and
member on a line of its own.
-/

namespace ProtoSchema.Json

inductive Layout where
  /-- On one line. -/
  | compact
  /-- An item or member a line, indented by its depth. -/
  | indented
deriving DecidableEq

namespace Layout

def indent : Nat := 2

def newline (depth : Nat) : List Char :=
  '\n' :: List.replicate (indent * depth) ' '

/-- What stands between a bracket and the first item inside, which has depth `depth`. -/
def opening : Layout → Nat → List Char
  | .compact, _ => []
  | .indented, depth => newline depth

/-- What stands between two items of depth `depth`. -/
def separator : Layout → Nat → List Char
  | .compact, _ => [',', ' ']
  | .indented, depth => ',' :: newline depth

/-- What stands between the last item and the bracket, which has depth `depth`. -/
def closing : Layout → Nat → List Char
  | .compact, _ => []
  | .indented, depth => newline depth

end Layout

/-- A control character in hexadecimal. -/
def escapeCode (n : Nat) : List Char :=
  ['\\', 'u', '0', '0', Nat.digitChar (n / 16), Nat.digitChar (n % 16)]

def escape (c : Char) : List Char :=
  if c = '"' || c = '\\' then ['\\', c]
  else if c = '\n' then ['\\', 'n']
  else if c = '\r' then ['\\', 'r']
  else if c = '\t' then ['\\', 't']
  else if c = '\x0c' then ['\\', 'f']
  else if c = '\x08' then ['\\', 'b']
  else if c.toNat < 0x20 then escapeCode c.toNat
  else [c]

def quote (s : String) : List Char :=
  '"' :: (s.toList.flatMap escape ++ ['"'])

def decimal : Int → List Char
  | .ofNat n => Nat.toDigits 10 n
  | .negSucc n => '-' :: Nat.toDigits 10 (n + 1)

namespace Value

mutual
/-- The written form of a value that stands at the given depth. -/
def write (l : Layout) (depth : Nat) : Value → List Char
  | .null => ['n', 'u', 'l', 'l']
  | .bool true => ['t', 'r', 'u', 'e']
  | .bool false => ['f', 'a', 'l', 's', 'e']
  | .int n => decimal n
  | .str s => quote s
  | .list [] => ['[', ']']
  | .list (v :: vs) =>
    '[' :: (l.opening (depth + 1) ++ (v.write l (depth + 1) ++
      (writeItems l (depth + 1) vs ++ (l.closing depth ++ [']']))))
  | .object [] => ['\x7b', '\x7d']
  | .object ((key, v) :: members) =>
    '\x7b' :: (l.opening (depth + 1) ++ (quote key ++ (':' :: ' ' :: (v.write l (depth + 1) ++
      (writeMembers l (depth + 1) members ++ (l.closing depth ++ ['\x7d']))))))
  | .foreign _ => []

/-- The items of a list after the first, each after a separator. -/
def writeItems (l : Layout) (depth : Nat) : List Value → List Char
  | [] => []
  | v :: vs => l.separator depth ++ (v.write l depth ++ writeItems l depth vs)

/-- The members of an object after the first, each after a separator. -/
def writeMembers (l : Layout) (depth : Nat) : List (String × Value) → List Char
  | [] => []
  | (key, v) :: members =>
    l.separator depth ++
      (quote key ++ (':' :: ' ' :: (v.write l depth ++ writeMembers l depth members)))
end

/-- The document that holds a value, unless some part of it cannot be written. -/
def render (l : Layout) (v : Value) : Except Fault String :=
  match v.fault? with
  | some fault => .error fault
  | none => .ok (String.ofList (v.write l 0))

end Value

end ProtoSchema.Json
