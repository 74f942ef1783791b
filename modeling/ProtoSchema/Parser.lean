import ProtoSchema.Diagnostic
import ProtoSchema.Text.Quoted
import ProtoSchema.Tree

/-! # Parsers over tokens

A parser takes tokens from the front of a list and returns what it made of them with the tokens
left. Looking ahead beyond the end of the list shows its last token again; taking a token beyond
the end is a failure of its own.
-/

namespace ProtoSchema

/-- Something that a parser can ask for. -/
inductive Expectation where
  /-- A token of some kind. -/
  | kind (kind : Token.Kind)
  /-- A certain word. -/
  | word (word : String)
  /-- Anything that matches a rule. -/
  | rule (rule : Rule)
deriving DecidableEq

def Expectation.describe : Expectation → String
  | .kind k => k.describe
  | .word w => "\"" ++ w ++ "\""
  | .rule r => r.name

structure ParseError where
  expected : List Expectation
  context : String
  found : Token
deriving DecidableEq

namespace ParseError

/-- What stood there: the end of the text, or the token's own text. -/
def got (e : ParseError) : String :=
  if e.found.kind = .eof then Token.Kind.eof.describe else Text.Quoted.encode e.found.text

def diagnostic (e : ParseError) : Diagnostic where
  summary := "Expected " ++ " or ".intercalate (e.expected.map (·.describe)) ++ ", got " ++ e.got
  line := e.found.line
  col := e.found.col
  offset := e.found.start
  expected := e.expected.map (·.describe)
  context := some e.context

end ParseError

inductive Parser.Failure where
  /-- The next token cannot stand there. -/
  | mismatch (e : ParseError)
  /-- A token was needed beyond the end of the list. -/
  | outOfTokens
  /-- Messages are nested beyond the limit. -/
  | tooDeep
deriving DecidableEq

/-- A failure in words; nesting beyond the limit has none. -/
def Parser.Failure.message? : Parser.Failure → Option String
  | .mismatch e => some e.diagnostic.message
  | .outOfTokens => some "list index out of range"
  | .tooDeep => none

/-- What parsers see besides the tokens left: the text that the tokens came from, and the last
token of the whole list. -/
structure Parser.Scope where
  source : List Char
  last : Token

def Parser (α : Type) : Type :=
  Parser.Scope → List Token → Except Parser.Failure (α × List Token)

namespace Parser

/-- How many characters of the source stand before an offset. A negative offset counts from the
end of the source, and one that falls before its first character stands for that character. -/
def Scope.place (s : Scope) : Int → Nat
  | .ofNat n => n
  | .negSucc n => s.source.length - (n + 1)

/-- The text between two offsets, cut off at the end of the source. -/
def Scope.slice (s : Scope) (start stop : Int) : String :=
  String.ofList ((s.source.drop (s.place start)).take (s.place stop - s.place start))

/-- The node that runs from the token `first` to the token `last`. -/
def Scope.node (s : Scope) (rule : Rule) (first last : Token) (children : List Node) : Node where
  rule := rule
  text := s.slice first.start last.stop
  start := first.start
  stop := last.stop
  line := first.line
  col := first.col
  children := children

def Scope.leaf (s : Scope) (rule : Rule) (t : Token) : Node :=
  s.node rule t t []

instance : Monad Parser where
  pure a := fun _ tokens => .ok (a, tokens)
  bind p f := fun s tokens =>
    match p s tokens with
    | .ok (a, rest) => f a s rest
    | .error failure => .error failure

theorem bind_ok {p : Parser α} {s : Scope} {tokens rest : List Token} {a : α}
    (h : p s tokens = .ok (a, rest)) (f : α → Parser β) : (p >>= f) s tokens = f a s rest := by
  simp only [Bind.bind, h]

theorem bind_error {p : Parser α} {s : Scope} {tokens : List Token} {failure : Failure}
    (h : p s tokens = .error failure) (f : α → Parser β) :
    (p >>= f) s tokens = .error failure := by
  simp only [Bind.bind, h]

def run (p : Parser α) (source : List Char) (tokens : List Token) :
    Except Failure (α × List Token) :=
  match tokens.getLast? with
  | none => .error .outOfTokens
  | some last => p ⟨source, last⟩ tokens

def node (rule : Rule) (first last : Token) (children : List Node) : Parser Node :=
  fun s tokens => .ok (s.node rule first last children, tokens)

def leaves (rule : Rule) (words : List Token) : Parser (List Node) :=
  fun s tokens => .ok (words.map (s.leaf rule), tokens)

/-- The token `ahead` places after the next one, which stays in the list. -/
def peekAt (ahead : Nat) : Parser Token :=
  fun s tokens => .ok (tokens[ahead]?.getD s.last, tokens)

def peek : Parser Token :=
  peekAt 0

def advance : Parser Token
  | _, [] => .error .outOfTokens
  | _, t :: rest => .ok (t, rest)

def mismatch (expected : List Expectation) (context : String) : Parser α := do
  let found ← peek
  fun _ _ => .error (.mismatch ⟨expected, context, found⟩)

def tooDeep : Parser α :=
  fun _ _ => .error .tooDeep

/-- Takes a token of the given kind, which a message calls `names`. -/
def expectAs (kind : Token.Kind) (names : List Expectation) (context : String) : Parser Token := do
  if (← peek).kind = kind then advance else mismatch names context

def expect (kind : Token.Kind) (context : String) : Parser Token :=
  expectAs kind [.kind kind] context

def keyword (word : String) (context : String) : Parser Token := do
  if (← peek).isWord word then advance else mismatch [.word word] context

def leaf (kind : Token.Kind) (rule : Rule) (context : String) : Parser Node := do
  let t ← expectAs kind [.rule rule] context
  node rule t t []

/-- At most `bound` items, as long as the next token passes `more`. -/
def manyUpTo (more : Token → Bool) (item : Parser α) : Nat → Parser (List α)
  | 0 => fun _ _ => .error .outOfTokens
  | bound + 1 => do
    if more (← peek) then
      let x ← item
      let xs ← manyUpTo more item bound
      return x :: xs
    else
      return []

/-- Items as long as the next token passes `more`. Each item takes a token, so there are no more
items than tokens. -/
def many (more : Token → Bool) (item : Parser α) : Parser (List α) :=
  fun s tokens => manyUpTo more item (tokens.length + 1) s tokens

end Parser

end ProtoSchema
