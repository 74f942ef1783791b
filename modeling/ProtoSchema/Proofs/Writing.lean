import Mathlib.Data.List.Forall2
import ProtoSchema.Proofs.Lexing
import ProtoSchema.Proofs.Numeral
import ProtoSchema.Schema

/-! # Writing schemas

The rows of words that write a schema. There are many of them: definitions of different kinds may
be interleaved in any way that keeps the order within each kind, numbers may have leading zeros,
and some words may be left out. Words may be used as names whatever they mean elsewhere.
-/

namespace ProtoSchema

/-- The kind and the text of a token. -/
abbrev Word := Token.Kind × String

namespace Word

def ident (s : String) : Word := (.ident, s)

def lbrace : Word := (.lbrace, "\x7b")

def rbrace : Word := (.rbrace, "\x7d")

def lparen : Word := (.lparen, "(")

def rparen : Word := (.rparen, ")")

def semicolon : Word := (.semicolon, ";")

def equals : Word := (.equals, "=")

def dot : Word := (.dot, ".")

/-- A string literal with the characters of `s` between its quotes. -/
def literal (s : String) : Word := (.stringLit, String.ofList ('"' :: (s.toList ++ ['"'])))

/-- A number in decimal with zeros before it. -/
def decimal (zeros n : Nat) : Word := (.number, Number.numeral zeros n)

/-- Words joined by dots. -/
def path (first : String) (more : List String) : List Word :=
  ident first :: more.flatMap fun s => [dot, ident s]

/-- A definition by the word `w` with the given body. -/
def definition (w s : String) (body : List Word) : List Word :=
  ident w :: ident s :: lbrace :: (body ++ [rbrace])

/-- The words of a dotted name. -/
def DottedName (s : String) (ws : List Word) : Prop :=
  ∃ first more, s = ".".intercalate (first :: more) ∧ ws = path first more

/-- A tag or enum number that is written with at most 4300 digits. -/
def Counts (n : Int) (w : Word) : Prop :=
  ∃ zeros m : Nat, n = m ∧ m ≤ 2147483647 ∧ zeros + (Nat.toDigits 10 m).length ≤ 4300 ∧
    w = decimal zeros m

/-- A text that is written between quotes as it is. -/
def Literal (s : String) (w : Word) : Prop :=
  (∀ c ∈ s.toList, c ∉ ['"', '\\', '\n']) ∧ w = literal s

end Word

open Word

/-- The words that write a field. Only a field that repeats has the word that says so. A field
without a word before its type cannot be of a type that starts with the option keyword. -/
def Field.Written (f : Field String Int Bool) (ws : List Word) : Prop :=
  ∃ rule ∈ if f.repeated then [[ident "repeated"]]
      else [[], [ident "optional"], [ident "required"]],
    ∃ type tag, DottedName f.typeName type ∧ (rule = [] → type.head? ≠ some (ident "option")) ∧
      Counts f.tag tag ∧ ws = rule ++ type ++ [ident f.name, equals, tag, semicolon]

def EnumValue.Written (v : EnumValue String Int) (ws : List Word) : Prop :=
  ∃ number, Counts v.number number ∧ ws = [ident v.name, equals, number, semicolon]

def EnumDef.Written (e : EnumDef String Int) (ws : List Word) : Prop :=
  ∃ values, List.Forall₂ EnumValue.Written e.values values ∧
    ws = definition "enum" e.name values.flatten

/-- The type of a request or a response, whether or not it is streamed. -/
def Method.TypeWritten (type : String) (ws : List Word) : Prop :=
  ∃ stream ∈ [[], [ident "stream"]], ∃ path, DottedName type path ∧ ws = stream ++ path

def Method.Written (m : Method String) (ws : List Word) : Prop :=
  ∃ request response, TypeWritten m.inputType request ∧ TypeWritten m.outputType response ∧
    ∃ close ∈ [[semicolon], [lbrace, rbrace]],
      ws = ident "rpc" :: ident m.name :: lparen :: (request ++ rparen :: ident "returns" ::
        lparen :: (response ++ rparen :: close))

def Service.Written (s : Service String) (ws : List Word) : Prop :=
  ∃ methods, List.Forall₂ Method.Written s.methods methods ∧
    ws = definition "service" s.name methods.flatten

/-- The words of the body of a message. The fields, messages and enums keep their orders. -/
inductive Message.BodyWritten : Message String Int Bool → List Word → Prop where
  | nil (s : String) : BodyWritten ⟨s, [], [], []⟩ []
  | field {f : Field String Int Bool} (head : f.Written front)
      (tail : BodyWritten ⟨s, fs, ms, es⟩ back) : BodyWritten ⟨s, f :: fs, ms, es⟩ (front ++ back)
  | message {m : Message String Int Bool} (head : BodyWritten m body)
      (tail : BodyWritten ⟨s, fs, ms, es⟩ back) :
      BodyWritten ⟨s, fs, m :: ms, es⟩ (definition "message" m.name body ++ back)
  | enumDef {e : EnumDef String Int} (head : e.Written front)
      (tail : BodyWritten ⟨s, fs, ms, es⟩ back) : BodyWritten ⟨s, fs, ms, e :: es⟩ (front ++ back)

def Message.Written (m : Message String Int Bool) (ws : List Word) : Prop :=
  ∃ body, m.BodyWritten body ∧ ws = definition "message" m.name body

namespace Schema

/-- The words of the definitions of a file. The messages, enums and services keep their orders. -/
inductive DefinitionsWritten : List (Message String Int Bool) → List (EnumDef String Int) →
    List (Service String) → List Word → Prop where
  | nil : DefinitionsWritten [] [] [] []
  | message {m : Message String Int Bool} (head : m.Written front)
      (tail : DefinitionsWritten ms es ss back) :
      DefinitionsWritten (m :: ms) es ss (front ++ back)
  | enumDef {e : EnumDef String Int} (head : e.Written front)
      (tail : DefinitionsWritten ms es ss back) :
      DefinitionsWritten ms (e :: es) ss (front ++ back)
  | service {s : Service String} (head : s.Written front)
      (tail : DefinitionsWritten ms es ss back) :
      DefinitionsWritten ms es (s :: ss) (front ++ back)

/-- The statement that names the version, which may be left out for the default. -/
def VersionWritten (version : String) (ws : List Word) : Prop :=
  (version = "proto3" ∧ ws = []) ∨
    ∃ text, Literal version text ∧ ws = [ident "syntax", equals, text, semicolon]

/-- The statement that names the package, if there is one. -/
def PackageWritten : Option String → List Word → Prop
  | none, ws => ws = []
  | some s, ws => ∃ path, DottedName s path ∧ ws = ident "package" :: (path ++ [semicolon])

/-- An import statement, with or without a visibility word. -/
def ImportWritten (s : String) (ws : List Word) : Prop :=
  ∃ visibility ∈ [[], [ident "public"], [ident "weak"]], ∃ text, Literal s text ∧
    ws = ident "import" :: (visibility ++ [text, semicolon])

/-- The words that write a schema. -/
def Written (p : Schema) (ws : List Word) : Prop :=
  ∃ version package imports definitions, VersionWritten p.version version ∧
    PackageWritten p.package package ∧ List.Forall₂ ImportWritten p.imports imports ∧
      DefinitionsWritten p.messages p.enums p.services definitions ∧
        ws = version ++ (package ++ (imports.flatten ++ definitions))

end Schema

end ProtoSchema
