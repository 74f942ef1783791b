import ProtoSchema.Token

/-! # Syntax trees

A tree is a rule-labelled view of a text: each node records the rule it matched, the text it
covers, and where that text stands.
-/

namespace ProtoSchema

/-- The rules of the grammar that label nodes. -/
inductive Rule where
  /-- A whole file. -/
  | protoFile
  /-- The statement that names the language version. -/
  | syntaxDecl
  /-- The statement that names the package. -/
  | packageDecl
  /-- An import statement. -/
  | importDecl
  /-- An option statement. -/
  | optionDecl
  /-- A message definition. -/
  | messageDef
  /-- A field of a message. -/
  | field
  /-- The word before a field's type. -/
  | fieldRule
  /-- The type of a field. -/
  | typeName
  /-- A scalar type. -/
  | primitiveType
  /-- A bracketed block of options, kept as a span only. -/
  | fieldOptions
  /-- An enum definition. -/
  | enumDef
  /-- A value of an enum. -/
  | enumValue
  /-- A service definition. -/
  | serviceDef
  /-- A method of a service. -/
  | rpcDef
  /-- The request or response type of a method. -/
  | messageType
  /-- The word that marks a streamed type. -/
  | stream
  /-- One word. -/
  | ident
  /-- Words joined by dots. -/
  | fullIdent
  /-- A number. -/
  | number
  /-- A string literal. -/
  | stringLit
  /-- The value of an option. -/
  | constant
deriving DecidableEq

namespace Rule

def all : List Rule :=
  [.protoFile, .syntaxDecl, .packageDecl, .importDecl, .optionDecl, .messageDef, .field,
    .fieldRule, .typeName, .primitiveType, .fieldOptions, .enumDef, .enumValue, .serviceDef,
    .rpcDef, .messageType, .stream, .ident, .fullIdent, .number, .stringLit, .constant]

/-- The name of a rule in trees and messages. -/
def name : Rule → String
  | .protoFile => "proto_file"
  | .syntaxDecl => "syntax"
  | .packageDecl => "package"
  | .importDecl => "import"
  | .optionDecl => "option"
  | .messageDef => "message_def"
  | .field => "field"
  | .fieldRule => "field_rule"
  | .typeName => "type_name"
  | .primitiveType => "primitive_type"
  | .fieldOptions => "field_options"
  | .enumDef => "enum_def"
  | .enumValue => "enum_value"
  | .serviceDef => "service_def"
  | .rpcDef => "rpc_def"
  | .messageType => "message_type"
  | .stream => "stream"
  | .ident => "ident"
  | .fullIdent => "full_ident"
  | .number => "number"
  | .stringLit => "string_lit"
  | .constant => "constant"

def ofName? (name : String) : Option Rule :=
  all.find? fun rule => rule.name == name

end Rule

/-- A match of a rule: `text` runs from offset `start` up to offset `stop`. Trees may also be
built by hand, so nothing ties the coordinates to a text. -/
structure Node where
  rule : Rule
  text : String
  start : Int
  stop : Int
  line : Int
  col : Int
  children : List Node

namespace Node

def first? (node : Node) (rule : Rule) : Option Node :=
  node.children.find? fun child => child.rule == rule

/-- A node for `rule` around a single child, covering the same text. -/
def wrap (child : Node) (rule : Rule) : Node :=
  { child with rule := rule, children := [child] }

end Node

end ProtoSchema
