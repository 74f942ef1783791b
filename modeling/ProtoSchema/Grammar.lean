import ProtoSchema.Lexer
import ProtoSchema.Parser

/-! # The grammar of schema files

One parser per rule. Words are told apart by their position only, so that every keyword may also
be a name; where two readings compete, at most two tokens beyond the next one decide.
-/

namespace ProtoSchema.Grammar

open ProtoSchema.Parser

/-- The words that may stand before a field's type. -/
def fieldRules : List String :=
  ["optional", "repeated", "required"]

/-- The scalar types; any other type name refers to a message or an enum. -/
def primitives : List String :=
  ["bool", "bytes", "double", "fixed32", "fixed64", "float", "int32", "int64", "sfixed32",
    "sfixed64", "sint32", "sint64", "string", "uint32", "uint64"]

def word (context : String) : Parser Token :=
  expectAs .ident [.rule .ident] context

def ident (context : String) : Parser Node :=
  leaf .ident .ident context

/-- Takes as many dots with a word after them as there are. -/
def dottedTail (context : String) : Parser (List Token) :=
  many (·.kind == .dot) do
    let _ ← advance
    word context

def fullIdent (context : String) : Parser Node := do
  let first ← word context
  let more ← dottedTail context
  node .fullIdent first (more.getLastD first) (← leaves .ident (first :: more))

def syntaxDecl : Parser Node := do
  let first ← keyword "syntax" Rule.syntaxDecl.name
  let _ ← expect .equals Rule.syntaxDecl.name
  let version ← leaf .stringLit .stringLit Rule.syntaxDecl.name
  let last ← expect .semicolon Rule.syntaxDecl.name
  node .syntaxDecl first last [version]

def packageDecl : Parser Node := do
  let first ← keyword "package" Rule.packageDecl.name
  let path ← fullIdent Rule.packageDecl.name
  let last ← expect .semicolon Rule.packageDecl.name
  node .packageDecl first last [path]

/-- An import statement; a visibility word before the path is dropped. -/
def importDecl : Parser Node := do
  let first ← keyword "import" Rule.importDecl.name
  let next ← peek
  if next.isWord "public" || next.isWord "weak" then
    let _ ← advance
  let path ← leaf .stringLit .stringLit Rule.importDecl.name
  let last ← expect .semicolon Rule.importDecl.name
  node .importDecl first last [path]

/-- The name of an option: a word, or a dotted name in parentheses, then dots and words. -/
def optionName : Parser Node := do
  let first ← peek
  if first.kind = .lparen then
    let _ ← advance
    let path ← fullIdent Rule.optionDecl.name
    let close ← expect .rparen Rule.optionDecl.name
    let more ← dottedTail Rule.optionDecl.name
    node .fullIdent first (more.getLastD close) (path :: (← leaves .ident more))
  else
    fullIdent Rule.optionDecl.name

/-- The digits of a constant, with or without a fraction; the result is the last token. -/
def decimal : Parser Token := do
  let whole ← expect .number Rule.constant.name
  if (← peek).kind = .dot then
    let _ ← advance
    expect .number Rule.constant.name
  else
    return whole

/-- The last token of a constant that is neither a string nor a name: a number, or a word after a
minus sign such as an infinity. -/
def signedConstant : Parser Token := do
  if (← peek).kind = .minus then
    let _ ← advance
  if (← peek).kind = .ident then advance else decimal

def constant : Parser Node := do
  let first ← peek
  if first.kind = .stringLit then
    let _ ← advance
    node .constant first first []
  else if first.kind = .ident then
    let first ← word Rule.optionDecl.name
    let more ← dottedTail Rule.optionDecl.name
    node .constant first (more.getLastD first) []
  else
    let last ← signedConstant
    node .constant first last []

def optionDecl : Parser Node := do
  let first ← keyword "option" Rule.optionDecl.name
  let name ← optionName
  let _ ← expect .equals Rule.optionDecl.name
  let value ← constant
  let last ← expect .semicolon Rule.optionDecl.name
  node .optionDecl first last [name, value]

/-- The type of a field. A scalar type's word with a dot after it starts a dotted name. -/
def typeName : Parser Node := do
  let first ← peek
  if first.kind = .ident && primitives.contains first.text && (← peekAt 1).kind != .dot then
    return (← leaf .ident .primitiveType Rule.typeName.name).wrap .typeName
  else
    return (← fullIdent Rule.typeName.name).wrap .typeName

/-- Takes tokens up to the bracket that closes `depth + 1` open ones, and returns that bracket. -/
def closeBrackets (depth : Nat) : Parser Token
  | s, [] =>
    if s.last.kind = .eof then
      .error (.mismatch ⟨[.kind .rbracket], Rule.fieldOptions.name, s.last⟩)
    else
      .error .outOfTokens
  | s, t :: rest =>
    match t.kind, depth with
    | .eof, _ => .error (.mismatch ⟨[.kind .rbracket], Rule.fieldOptions.name, t⟩)
    | .lbracket, depth => closeBrackets (depth + 1) s rest
    | .rbracket, 0 => .ok (t, rest)
    | .rbracket, depth + 1 => closeBrackets depth s rest
    | _, depth => closeBrackets depth s rest

/-- A balanced block in brackets, of which only the span is kept. -/
def fieldOptions : Parser Node := do
  let first ← expect .lbracket Rule.fieldOptions.name
  let last ← closeBrackets 0
  node .fieldOptions first last []

/-- The end of a field or enum value: perhaps a block of options, then a semicolon. -/
def closeWithOptions (context : String) : Parser (List Node × Token) := do
  if (← peek).kind = .lbracket then
    let options ← fieldOptions
    return ([options], ← expect .semicolon context)
  else
    return ([], ← expect .semicolon context)

/-- The word before a field's type. It counts as one only if a type and a name still follow it:
before an equals sign two words on, it is the type itself. -/
def fieldRule : Parser (List Node) := do
  if fieldRules.contains (← peek).text && (← peekAt 1).kind == .ident
      && (← peekAt 2).kind != .equals then
    return [← leaf .ident .fieldRule Rule.field.name]
  else
    return []

def field : Parser Node := do
  let first ← peek
  let rule ← fieldRule
  let type ← typeName
  let name ← ident Rule.field.name
  let _ ← expect .equals Rule.field.name
  let tag ← leaf .number .number Rule.field.name
  let (options, last) ← closeWithOptions Rule.field.name
  node .field first last (rule ++ [type, name, tag] ++ options)

/-- The elements of a body up to its closing brace, and that brace. Semicolons between them are
skipped. -/
def block (element : Parser Node) : Parser (List Node × Token) := do
  let elements ← many (·.kind != .rbrace) do
    if (← peek).kind = .semicolon then
      let _ ← advance
      return []
    else
      return [← element]
  return (elements.flatten, ← advance)

/-- A definition: a keyword, a name, and a body in braces. -/
def definition (word : String) (rule : Rule) (element : Parser Node) : Parser Node := do
  let first ← keyword word rule.name
  let name ← ident rule.name
  let _ ← expect .lbrace rule.name
  let (elements, last) ← block element
  node rule first last (name :: elements)

def enumValue : Parser Node := do
  let first ← peek
  let name ← ident Rule.enumValue.name
  let _ ← expect .equals Rule.enumValue.name
  let number ← leaf .number .number Rule.enumValue.name
  let (options, last) ← closeWithOptions Rule.enumValue.name
  node .enumValue first last ([name, number] ++ options)

def enumElement : Parser Node := do
  let next ← peek
  if next.isWord "option" && (← peekAt 1).kind != .equals then optionDecl
  else if next.kind = .ident then enumValue
  else mismatch [.rule .enumValue, .kind .semicolon, .kind .rbrace] Rule.enumDef.name

def enumDef : Parser Node :=
  definition "enum" .enumDef enumElement

/-- The request or response type of a method. The streaming word counts as one only if another
word follows it. -/
def messageType : Parser Node := do
  let first ← peek
  if first.text == "stream" && (← peekAt 1).kind == .ident then
    let marker ← leaf .ident .stream Rule.messageType.name
    let head ← word Rule.messageType.name
    let more ← dottedTail Rule.messageType.name
    let last := more.getLastD head
    let path ← node .fullIdent head last (← leaves .ident (head :: more))
    node .messageType first last [marker, path]
  else
    return (← fullIdent Rule.messageType.name).wrap .messageType

def rpcElement : Parser Node := do
  if (← peek).isWord "option" then optionDecl
  else mismatch [.word "option", .kind .semicolon, .kind .rbrace] Rule.rpcDef.name

/-- The end of a method: a body in braces or a semicolon. -/
def rpcBody : Parser (List Node × Token) := do
  if (← peek).kind = .lbrace then
    let _ ← advance
    block rpcElement
  else
    return ([], ← expectAs .semicolon [.kind .semicolon, .kind .lbrace] Rule.rpcDef.name)

def rpcDef : Parser Node := do
  let first ← keyword "rpc" Rule.rpcDef.name
  let name ← ident Rule.rpcDef.name
  let _ ← expect .lparen Rule.rpcDef.name
  let request ← messageType
  let _ ← expect .rparen Rule.rpcDef.name
  let _ ← keyword "returns" Rule.rpcDef.name
  let _ ← expect .lparen Rule.rpcDef.name
  let response ← messageType
  let _ ← expect .rparen Rule.rpcDef.name
  let (options, last) ← rpcBody
  node .rpcDef first last ([name, request, response] ++ options)

def serviceElement : Parser Node := do
  let next ← peek
  if next.isWord "rpc" then rpcDef
  else if next.isWord "option" then optionDecl
  else mismatch [.word "rpc", .word "option", .kind .semicolon, .kind .rbrace] Rule.serviceDef.name

def serviceDef : Parser Node :=
  definition "service" .serviceDef serviceElement

/-- Whether the next tokens are the word `word`, a name and an opening brace: a definition rather
than a field whose type is called `word`. -/
def atDefinition (word : String) : Parser Bool := do
  return (← peek).isWord word && (← peekAt 1).kind == .ident && (← peekAt 2).kind == .lbrace

/-- An element of a message's body, where `nested` reads a message. -/
def messageElement (nested : Parser Node) : Parser Node := do
  let next ← peek
  if ← atDefinition "message" then nested
  else if ← atDefinition "enum" then enumDef
  else if next.isWord "option" then optionDecl
  else if next.kind = .ident then field
  else
    mismatch [.rule .field, .word "message", .word "enum", .kind .semicolon, .kind .rbrace]
      Rule.messageDef.name

/-- A message definition with at most `limit` messages inside each other. -/
def messageDef : Nat → Parser Node
  | 0 => tooDeep
  | limit + 1 => definition "message" .messageDef (messageElement (messageDef limit))

/-- A statement after the package: an import or an option. -/
def header : Parser Node := do
  if (← peek).isWord "import" then importDecl else optionDecl

/-- A definition at the top level of a file, or an option. -/
def topLevel (limit : Nat) : Parser Node := do
  let next ← peek
  if next.isWord "message" then messageDef limit
  else if next.isWord "enum" then enumDef
  else if next.isWord "service" then serviceDef
  else if next.isWord "option" then optionDecl
  else
    mismatch [.word "message", .word "enum", .word "service", .word "option", .kind .eof]
      Rule.protoFile.name

def optional (word : String) (statement : Parser Node) : Parser (List Node) := do
  if (← peek).isWord word then return [← statement] else return []

def statements (limit : Nat) : Parser (List Node) := do
  let version ← optional "syntax" syntaxDecl
  let package ← optional "package" packageDecl
  let headers ← many (fun t => t.isWord "import" || t.isWord "option") header
  let definitions ← many (·.kind != .eof) (topLevel limit)
  return version ++ package ++ headers ++ definitions

end ProtoSchema.Grammar

namespace ProtoSchema

inductive TreeError where
  /-- The text has no tokens. -/
  | scan (e : ScanError)
  /-- The tokens do not match the grammar. -/
  | parse (failure : Parser.Failure)
deriving DecidableEq

namespace Node

def root (source : List Char) (children : List Node) : Node :=
  ⟨.protoFile, String.ofList source, 0, source.length, 1, 1, children⟩

/-- The tree of a token list, whose tokens need not fit the source. -/
def ofTokens (limit : Nat) (source : List Char) (tokens : List Token) :
    Except Parser.Failure Node :=
  match (Grammar.statements limit).run source tokens with
  | .ok (children, _) => .ok (root source children)
  | .error failure => .error failure

/-- The tree of a text with at most `limit` messages inside each other. -/
def ofText (limit : Nat) (source : List Char) : Except TreeError Node :=
  match Token.scan source with
  | .error e => .error (.scan e)
  | .ok tokens => (ofTokens limit source tokens).mapError .parse

end Node

end ProtoSchema
