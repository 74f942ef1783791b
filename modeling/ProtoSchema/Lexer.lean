import ProtoSchema.Diagnostic
import ProtoSchema.Token
import ProtoSchema.Text.Quoted

/-! # From text to tokens

A text is cut from left to right into lexemes: gaps (a blank or a comment) and tokens. Each step
takes the longest lexeme that starts at the first character and returns what follows it, so the
lexemes put together again are the text.
-/

namespace ProtoSchema

/-- A piece of text that one step of the lexer takes. -/
inductive Lexeme where
  /-- A blank or a comment, which is dropped. -/
  | gap (chars : List Char)
  /-- The characters of a token. -/
  | token (kind : Token.Kind) (chars : List Char)
deriving DecidableEq

inductive ScanError.Cause where
  /-- A string literal has no closing quote on its line. -/
  | unterminatedString
  /-- A block comment is never closed. -/
  | unterminatedComment
  /-- The character starts no token. -/
  | unexpected (c : Char)
deriving DecidableEq

structure ScanError where
  cause : ScanError.Cause
  position : Position
deriving DecidableEq

namespace ScanError

def Cause.summary : Cause → String
  | .unterminatedString => "Unterminated string literal"
  | .unterminatedComment => "Unterminated block comment"
  | .unexpected c => "Unexpected character " ++ Text.Quoted.encode (String.singleton c)

def Cause.expected : Cause → List String
  | .unterminatedString => ["\""]
  | .unterminatedComment | .unexpected _ => []

def Cause.context : Cause → Option String
  | .unterminatedString => some "string_lit"
  | .unterminatedComment => some "COMMENT"
  | .unexpected _ => none

def diagnostic (e : ScanError) : Diagnostic where
  summary := e.cause.summary
  line := e.position.line
  col := e.position.col
  offset := e.position.offset
  expected := e.cause.expected
  context := e.cause.context

end ScanError

namespace Lexeme

def isBlank (c : Char) : Bool :=
  c = ' ' || c = '\t' || c = '\r' || c = '\n'

def isLetter (c : Char) : Bool :=
  ('a' ≤ c && c ≤ 'z') || ('A' ≤ c && c ≤ 'Z')

def isDigit (c : Char) : Bool :=
  '0' ≤ c && c ≤ '9'

def isWordChar (c : Char) : Bool :=
  isLetter c || isDigit c || c = '_'

/-- Splits a text after its first star followed by a slash. -/
def closeComment : List Char → Option (List Char × List Char)
  | '*' :: '/' :: rest => some (['*', '/'], rest)
  | [] => none
  | c :: cs => (closeComment cs).map fun (body, rest) => (c :: body, rest)

/-- Splits a text after its first double quote that no backslash escapes. There must be one before
the first line feed that no backslash escapes. -/
def closeString : List Char → Option (List Char × List Char)
  | [] => none
  | '"' :: rest => some (['"'], rest)
  | '\n' :: _ => none
  | ['\\'] => none
  | '\\' :: c :: cs => (closeString cs).map fun (body, rest) => ('\\' :: c :: body, rest)
  | c :: cs => (closeString cs).map fun (body, rest) => (c :: body, rest)

def run (p : Char → Bool) (cs : List Char) : List Char × List Char :=
  (cs.takeWhile p, cs.dropWhile p)

/-- A lexeme that opens with `opening` and ends where `close` says. -/
def closed (make : List Char → Lexeme) (cause : ScanError.Cause) (opening : List Char)
    (split : Option (List Char × List Char)) : Except ScanError.Cause (Lexeme × List Char) :=
  match split with
  | some (body, rest) => .ok (make (opening ++ body), rest)
  | none => .error cause

/-- The lexeme that starts with the character `c`, and what follows it. -/
def read (c : Char) (cs : List Char) : Except ScanError.Cause (Lexeme × List Char) :=
  if isBlank c then .ok (.gap [c], cs)
  else if c = '/' then
    match cs with
    | '/' :: rest =>
        let (body, rest) := run (· ≠ '\n') rest
        .ok (.gap ('/' :: '/' :: body), rest)
    | '*' :: rest => closed .gap .unterminatedComment ['/', '*'] (closeComment rest)
    | _ => .error (.unexpected c)
  else if c = '"' then closed (.token .stringLit) .unterminatedString ['"'] (closeString cs)
  else if isDigit c then
    let (body, rest) := run isDigit cs
    .ok (.token .number (c :: body), rest)
  else if isLetter c then
    let (body, rest) := run isWordChar cs
    .ok (.token .ident (c :: body), rest)
  else
    match Token.Kind.ofDelimiter? c with
    | some kind => .ok (.token kind [c], cs)
    | none => .error (.unexpected c)

end Lexeme

namespace Token

/-- The tokens of `cs`, whose first character stands at `p`. The bound is on the number of
lexemes, and a text has no more of them than characters. -/
def scanFrom : Nat → Position → List Char → Except ScanError (List Token)
  | 0, p, _ => .ok [eof p]
  | _ + 1, p, [] => .ok [eof p]
  | bound + 1, p, c :: cs =>
    match Lexeme.read c cs with
    | .error cause => .error ⟨cause, p⟩
    | .ok (.gap skipped, rest) => scanFrom bound (p.after skipped) rest
    | .ok (.token kind chars, rest) =>
      match scanFrom bound (p.after chars) rest with
      | .error e => .error e
      | .ok tokens => .ok (spanning kind chars p :: tokens)

/-- The tokens of a text, an end-of-text token last. -/
def scan (cs : List Char) : Except ScanError (List Token) :=
  scanFrom cs.length .start cs

end Token

end ProtoSchema
