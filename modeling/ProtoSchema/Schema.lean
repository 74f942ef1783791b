/-! # Schemas

What a schema file declares. The types of the leaves are parameters: `τ` for names, `π` for the
package, `ι` for the imports, `ν` for numbers and `β` for marks. A schema that was read from a text
has strings, integers and booleans there; one that was put together by hand may hold anything.
-/

namespace ProtoSchema

structure Field (τ ν β : Type) where
  name : τ
  typeName : τ
  tag : ν
  repeated : β
deriving DecidableEq

structure EnumValue (τ ν : Type) where
  name : τ
  number : ν
deriving DecidableEq

structure EnumDef (τ ν : Type) where
  name : τ
  values : List (EnumValue τ ν)
deriving DecidableEq

/-- A message, with the messages and enums defined inside it. -/
structure Message (τ ν β : Type) where
  name : τ
  fields : List (Field τ ν β)
  messages : List (Message τ ν β)
  enums : List (EnumDef τ ν)
deriving Inhabited

structure Method (τ : Type) where
  name : τ
  inputType : τ
  outputType : τ
deriving DecidableEq

structure Service (τ : Type) where
  name : τ
  methods : List (Method τ)
deriving DecidableEq

/-- All that a file declares. -/
structure SchemaOf (τ π ι ν β : Type) where
  version : τ
  package : π
  imports : ι
  messages : List (Message τ ν β)
  enums : List (EnumDef τ ν)
  services : List (Service τ)

/-- A schema as it is read from a text. -/
abbrev Schema := SchemaOf String (Option String) (List String) Int Bool

namespace Message

variable {τ ν β : Type} [DecidableEq τ] [DecidableEq ν] [DecidableEq β]

mutual
def decEq : (a b : Message τ ν β) → Decidable (a = b)
  | ⟨n, fs, ms, es⟩, ⟨n', fs', ms', es'⟩ =>
    match decEqList ms ms' with
    | isTrue hm =>
      if h : n = n' ∧ fs = fs' ∧ es = es' then
        isTrue (by rw [h.1, h.2.1, h.2.2, hm])
      else
        isFalse fun same => h (by injection same; exact ⟨‹_›, ‹_›, ‹_›⟩)
    | isFalse hm => isFalse fun same => hm (by injection same)

def decEqList : (as bs : List (Message τ ν β)) → Decidable (as = bs)
  | [], [] => isTrue rfl
  | [], _ :: _ => isFalse nofun
  | _ :: _, [] => isFalse nofun
  | a :: as, b :: bs =>
    match decEq a b, decEqList as bs with
    | isTrue ha, isTrue has => isTrue (by rw [ha, has])
    | isFalse ha, _ => isFalse fun same => ha (by injection same)
    | _, isFalse has => isFalse fun same => has (by injection same)
end

instance : DecidableEq (Message τ ν β) := decEq

end Message

deriving instance DecidableEq for SchemaOf

namespace Message

variable {τ ν β : Type}

mutual
def depth : Message τ ν β → Nat
  | ⟨_, _, messages, _⟩ => depthList messages + 1

/-- The greatest depth of a list of messages. -/
def depthList : List (Message τ ν β) → Nat
  | [] => 0
  | m :: ms => max (depth m) (depthList ms)
end

end Message

namespace SchemaOf

def depth (s : SchemaOf τ π ι ν β) : Nat :=
  Message.depthList s.messages

end SchemaOf

end ProtoSchema
