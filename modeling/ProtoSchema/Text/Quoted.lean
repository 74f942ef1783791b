import ProtoSchema.Text.Printable

/-! # Quoted text

A text between quotes on one line: the quote, the backslash and every character that does not
print are written as escapes.
-/

namespace ProtoSchema.Text.Quoted

def hexDigit (n : Nat) : Char :=
  Nat.digitChar (n % 16)

def hex (width n : Nat) : List Char :=
  match width with
  | 0 => []
  | width + 1 => hex width (n / 16) ++ [hexDigit n]

/-- The quote around a text: single, unless the text has a single quote and no double one. -/
def quoteFor (cs : List Char) : Char :=
  if cs.contains '\'' && !cs.contains '"' then '"' else '\''

/-- A character that does not print, in the shortest of the three hexadecimal forms. -/
def escapeCode (n : Nat) : List Char :=
  if n < 0x100 then '\\' :: 'x' :: hex 2 n
  else if n < 0x10000 then '\\' :: 'u' :: hex 4 n
  else '\\' :: 'U' :: hex 8 n

/-- One character inside the quotes `quote`. -/
def escape (quote c : Char) : List Char :=
  if c = quote || c = '\\' then ['\\', c]
  else if c = '\t' then ['\\', 't']
  else if c = '\n' then ['\\', 'n']
  else if c = '\r' then ['\\', 'r']
  else if isPrintable c then [c]
  else escapeCode c.toNat

def encodeChars (cs : List Char) : List Char :=
  quoteFor cs :: (cs.flatMap (escape (quoteFor cs)) ++ [quoteFor cs])

def encode (text : String) : String :=
  String.ofList (encodeChars text.toList)

end ProtoSchema.Text.Quoted
