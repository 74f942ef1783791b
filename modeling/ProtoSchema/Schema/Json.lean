import ProtoSchema.Json.Copy
import ProtoSchema.Json.Writer
import ProtoSchema.Schema

/-! # Schemas as JSON

A schema is an object whose members are the parts of the schema in the order of declaration.
-/

namespace ProtoSchema

/-- A type whose values are leaves of a JSON document. -/
class JsonLeaf (α : Type) where
  /-- The JSON value of a leaf. -/
  toJson : α → Json.Value

namespace JsonLeaf

instance : JsonLeaf String := ⟨.str⟩

instance : JsonLeaf Int := ⟨.int⟩

instance : JsonLeaf Bool := ⟨.bool⟩

instance : JsonLeaf Json.Value := ⟨id⟩

instance [JsonLeaf α] : JsonLeaf (Option α) :=
  ⟨fun
    | some a => toJson a
    | none => .null⟩

instance [JsonLeaf α] : JsonLeaf (List α) :=
  ⟨fun leaves => .list (leaves.map toJson)⟩

end JsonLeaf

open JsonLeaf

variable {τ π ι ν β : Type}
variable [JsonLeaf τ] [JsonLeaf π] [JsonLeaf ι] [JsonLeaf ν] [JsonLeaf β]

def Field.toJson (f : Field τ ν β) : Json.Value :=
  .object [("name", JsonLeaf.toJson f.name), ("type_name", JsonLeaf.toJson f.typeName),
    ("tag", JsonLeaf.toJson f.tag), ("repeated", JsonLeaf.toJson f.repeated)]

def EnumValue.toJson (v : EnumValue τ ν) : Json.Value :=
  .object [("name", JsonLeaf.toJson v.name), ("number", JsonLeaf.toJson v.number)]

def EnumDef.toJson (e : EnumDef τ ν) : Json.Value :=
  .object [("name", JsonLeaf.toJson e.name), ("values", .list (e.values.map (·.toJson)))]

namespace Message

mutual
def toJson : Message τ ν β → Json.Value
  | ⟨name, fields, messages, enums⟩ =>
    .object [("name", JsonLeaf.toJson name), ("fields", .list (fields.map (·.toJson))),
      ("nested_messages", .list (toJsonList messages)),
      ("nested_enums", .list (enums.map (·.toJson)))]

def toJsonList : List (Message τ ν β) → List Json.Value
  | [] => []
  | m :: ms => m.toJson :: toJsonList ms
end

end Message

def Method.toJson (m : Method τ) : Json.Value :=
  .object [("name", JsonLeaf.toJson m.name), ("input_type", JsonLeaf.toJson m.inputType),
    ("output_type", JsonLeaf.toJson m.outputType)]

def Service.toJson (s : Service τ) : Json.Value :=
  .object [("name", JsonLeaf.toJson s.name), ("methods", .list (s.methods.map (·.toJson)))]

inductive WriteError where
  /-- It is nested too deeply. -/
  | tooDeep
  /-- Copying a part of it raises an exception, of the named class, that no report is made of. -/
  | raised (name : String)
  /-- A part of it cannot be copied or has no written form. -/
  | fault (f : Json.Fault)
deriving DecidableEq

namespace WriteError

/-- What becomes of an exception that is raised in copying. -/
def ofCopyError : Json.CopyError → WriteError
  | .tooDeep => .tooDeep
  | .caught cause message => .fault (.uncopied cause message)
  | .uncaught name => .raised name

def report? : WriteError → Option String
  | .tooDeep | .raised _ => none
  | .fault f => some ("Cannot serialize proto document: " ++ f.message)

end WriteError

namespace SchemaOf

def toJson (s : SchemaOf τ π ι ν β) : Json.Value :=
  .object [("syntax", JsonLeaf.toJson s.version), ("package", JsonLeaf.toJson s.package),
    ("imports", JsonLeaf.toJson s.imports),
    ("messages", .list (Message.toJsonList s.messages)),
    ("enums", .list (s.enums.map (·.toJson))),
    ("services", .list (s.services.map (·.toJson)))]

/-- A schema as an object whose values are copies, made with room for `room` calls. -/
def toDict? (room : Nat) (s : SchemaOf τ π ι ν β) : Except Json.CopyError Json.Value :=
  match s.toJson.copyError? room with
  | some e => .error e
  | none => .ok s.toJson

/-- The JSON document of a schema. It is copied first, with room for `room` calls. -/
def render (room : Nat) (l : Json.Layout) (s : SchemaOf τ π ι ν β) : Except WriteError String :=
  match s.toDict? room with
  | .error e => .error (.ofCopyError e)
  | .ok v => (v.render l).mapError .fault

end SchemaOf

end ProtoSchema
