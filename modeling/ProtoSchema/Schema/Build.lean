import ProtoSchema.Number
import ProtoSchema.Schema
import ProtoSchema.Tree

/-! # From trees to schemas

Each node is built from its direct children by their rules; children with any other rule are
passed over. A number that no tag or enum number can be counts as zero, with a warning.
-/

namespace ProtoSchema

/-- A number that was replaced by the fallback. -/
structure Warning where
  lexeme : String
  line : Int
  col : Int
deriving DecidableEq

/-- The number in place of one that is out of range. -/
def Warning.fallback : Int := 0

inductive BuildError where
  /-- A statement or an enum value lacks one of its children. -/
  | missingChild
  /-- A field lacks its type, name or tag. -/
  | incompleteField
  /-- A method has only `children` of its three first children. -/
  | incompleteMethod (children : Nat)
deriving DecidableEq

/-- An error in words; a field without one of its parts has none. -/
def BuildError.message? : BuildError → Option String
  | .missingChild => some "list index out of range"
  | .incompleteField => none
  | .incompleteMethod children =>
    some ("not enough values to unpack (expected 3, got " ++ children.repr ++ ")")

/-- The result of building a part of a schema, with the warnings in the order of the numbers. -/
def Build (α : Type) : Type :=
  Except BuildError (α × List Warning)

namespace Build

instance : Monad Build where
  pure a := .ok (a, [])
  bind build next :=
    match build with
    | .error e => .error e
    | .ok (a, warnings) =>
      match next a with
      | .error e => .error e
      | .ok (b, more) => .ok (b, warnings ++ more)

def fail (e : BuildError) : Build α :=
  .error e

def warn (w : Warning) : Build Unit :=
  .ok ((), [w])

end Build

namespace Node

/-- The text of a literal without the quotes at its two ends. -/
def unquote (literal : String) : String :=
  let isQuote := (· == '"')
  String.ofList ((literal.toList.dropWhile isQuote).reverse.dropWhile isQuote).reverse

/-- The dotted name inside a node: the parts of the first dotted name on the way down, or else the
text of the last node on it. -/
def dottedName : Node → String
  | ⟨.fullIdent, _, _, _, _, _, parts⟩ => ".".intercalate (parts.map (·.text))
  | ⟨_, _, _, _, _, _, child :: _⟩ => child.dottedName
  | ⟨_, text, _, _, _, _, []⟩ => text

/-- The name of the type in a method's request or response. -/
def typeOfMethod (node : Node) : String :=
  match node.first? .fullIdent with
  | some path => path.dottedName
  | none => ""

def buildNumber (node : Node) : Build Int :=
  match Number.ofText? node.text with
  | some n => pure n
  | none => do
    Build.warn ⟨node.text, node.line, node.col⟩
    return Warning.fallback

/-- The first child of a statement. -/
def buildOperand (node : Node) : Build Node :=
  match node.children with
  | child :: _ => pure child
  | [] => Build.fail .missingChild

def buildFieldParts (repeated : Bool) : List Node → Build (Field String Int Bool)
  | type :: name :: tag :: _ => do
    return ⟨name.text, type.dottedName, ← tag.buildNumber, repeated⟩
  | _ => Build.fail .incompleteField

def buildField (node : Node) : Build (Field String Int Bool) :=
  match node.children with
  | first :: rest =>
    if first.rule = .fieldRule then buildFieldParts (first.text == "repeated") rest
    else buildFieldParts false (first :: rest)
  | [] => Build.fail .incompleteField

def buildEnumValue (node : Node) : Build (EnumValue String Int) :=
  match node.children with
  | name :: number :: _ => do return ⟨name.text, ← number.buildNumber⟩
  | _ => Build.fail .missingChild

def buildMethod (node : Node) : Build (Method String) :=
  match node.children with
  | name :: request :: response :: _ =>
    pure ⟨name.text, request.typeOfMethod, response.typeOfMethod⟩
  | children => Build.fail (.incompleteMethod children.length)

def lastIdent (node : Node) : String :=
  ((node.children.filter (·.rule == .ident)).map (·.text)).getLastD ""

/-- The children with the given rule, each built by `build`. -/
def buildEach (rule : Rule) (build : Node → Build α) (node : Node) : Build (List α) :=
  (node.children.filter (·.rule == rule)).mapM build

def buildEnum (node : Node) : Build (EnumDef String Int) := do
  return ⟨node.lastIdent, ← node.buildEach .enumValue buildEnumValue⟩

def buildService (node : Node) : Build (Service String) := do
  return ⟨node.lastIdent, ← node.buildEach .rpcDef buildMethod⟩

end Node

/-- What a child adds to a message. -/
inductive Message.Part where
  /-- A field. -/
  | field (f : Field String Int Bool)
  /-- A nested message. -/
  | message (m : Message String Int Bool)
  /-- A nested enum. -/
  | enumDef (e : EnumDef String Int)
  /-- Nothing. -/
  | none

namespace Message.Part

def field? : Part → Option (Field String Int Bool)
  | .field f => some f
  | _ => Option.none

def message? : Part → Option (Message String Int Bool)
  | .message m => some m
  | _ => Option.none

def enumDef? : Part → Option (EnumDef String Int)
  | .enumDef e => some e
  | _ => Option.none

end Message.Part

def Message.ofParts (name : String) (parts : List Message.Part) : Message String Int Bool :=
  ⟨name, parts.filterMap (·.field?), parts.filterMap (·.message?), parts.filterMap (·.enumDef?)⟩

namespace Node

mutual
def buildMessage : Node → Build (Message String Int Bool)
  | ⟨rule, text, start, stop, line, col, children⟩ => do
    let parts ← buildMessageParts children
    return .ofParts (lastIdent ⟨rule, text, start, stop, line, col, children⟩) parts

/-- What the children of a message add to it. -/
def buildMessageParts : List Node → Build (List Message.Part)
  | [] => pure []
  | child :: rest => do
    let part ←
      match child.rule with
      | .field => .field <$> child.buildField
      | .messageDef => .message <$> child.buildMessage
      | .enumDef => .enumDef <$> child.buildEnum
      | _ => pure .none
    return part :: (← buildMessageParts rest)
end

end Node

namespace Schema

/-- The version of a file that does not name one. -/
def defaultVersion : String := "proto3"

def empty : Schema :=
  ⟨defaultVersion, none, [], [], [], []⟩

/-- A schema with what one more statement adds. A later version or package replaces an earlier
one, and everything else is kept in order. -/
def add (s : Schema) (statement : Node) : Build Schema :=
  match statement.rule with
  | .syntaxDecl => do
    return { s with version := Node.unquote (← statement.buildOperand).text }
  | .packageDecl => do
    return { s with package := some (← statement.buildOperand).dottedName }
  | .importDecl => do
    return { s with imports := s.imports ++ [Node.unquote (← statement.buildOperand).text] }
  | .messageDef => do
    return { s with messages := s.messages ++ [← statement.buildMessage] }
  | .enumDef => do
    return { s with enums := s.enums ++ [← statement.buildEnum] }
  | .serviceDef => do
    return { s with services := s.services ++ [← statement.buildService] }
  | _ => pure s

def ofTree (tree : Node) : Build Schema :=
  tree.children.foldlM add empty

end Schema

end ProtoSchema
