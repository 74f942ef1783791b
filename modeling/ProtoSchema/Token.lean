import ProtoSchema.Position

/-! # Tokens

A token is a kind, the characters it covers, and where they stand. Words are always identifiers:
a keyword means something only in the grammar positions that ask for it.
-/

namespace ProtoSchema

inductive Token.Kind where
  /-- An opening brace. -/
  | lbrace
  /-- A closing brace. -/
  | rbrace
  /-- An opening parenthesis. -/
  | lparen
  /-- A closing parenthesis. -/
  | rparen
  /-- An opening bracket. -/
  | lbracket
  /-- A closing bracket. -/
  | rbracket
  /-- A semicolon. -/
  | semicolon
  /-- An equals sign. -/
  | equals
  /-- A full stop. -/
  | dot
  /-- A comma. -/
  | comma
  /-- A colon. -/
  | colon
  /-- A minus sign. -/
  | minus
  /-- A word: a letter, then letters, digits and underscores. -/
  | ident
  /-- A run of digits. -/
  | number
  /-- A string literal, its quotes included. -/
  | stringLit
  /-- The end of the text, which covers no character. -/
  | eof
deriving DecidableEq

namespace Token.Kind

def all : List Kind :=
  [.lbrace, .rbrace, .lparen, .rparen, .lbracket, .rbracket, .semicolon, .equals, .dot, .comma,
    .colon, .minus, .ident, .number, .stringLit, .eof]

/-- The kind of a one-character token. -/
def ofDelimiter? : Char → Option Kind
  | '\x7b' => some .lbrace
  | '\x7d' => some .rbrace
  | '(' => some .lparen
  | ')' => some .rparen
  | '[' => some .lbracket
  | ']' => some .rbracket
  | ';' => some .semicolon
  | '=' => some .equals
  | '.' => some .dot
  | ',' => some .comma
  | ':' => some .colon
  | '-' => some .minus
  | _ => none

/-- How a message names the kind: a delimiter in double quotes, any other by its name. -/
def describe : Kind → String
  | .lbrace => "\"\x7b\""
  | .rbrace => "\"\x7d\""
  | .lparen => "\"(\""
  | .rparen => "\")\""
  | .lbracket => "\"[\""
  | .rbracket => "\"]\""
  | .semicolon => "\";\""
  | .equals => "\"=\""
  | .dot => "\".\""
  | .comma => "\",\""
  | .colon => "\":\""
  | .minus => "\"-\""
  | .ident => "ident"
  | .number => "number"
  | .stringLit => "string_lit"
  | .eof => "end of input"

end Token.Kind

/-- A token: its first character stands at line `line`, column `col` and offset `start`, and
`stop` is the offset after its last character. A token that was put together by hand may claim
any place, also one before the text. -/
structure Token where
  kind : Token.Kind
  text : String
  line : Int
  col : Int
  start : Int
  stop : Int
deriving DecidableEq

namespace Token

/-- The token of kind `kind` that covers the characters `cs` from the place `p` on. -/
def spanning (kind : Kind) (cs : List Char) (p : Position) : Token :=
  ⟨kind, String.ofList cs, p.line, p.col, p.offset, (p.after cs).offset⟩

def eof (p : Position) : Token :=
  spanning .eof [] p

def isWord (t : Token) (w : String) : Bool :=
  t.kind == .ident && t.text == w

end Token

end ProtoSchema
