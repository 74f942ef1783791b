import ProtoSchema.Proofs.Formatting
import ProtoSchema.Proofs.RoundTrip
import ProtoSchema.Proofs.WellFormed

/-! # The types of fields

Any words make the type of a field, also those that begin something else in other places. Only the
word that begins an option is one of an option where nothing stands before the type.
-/

namespace ProtoSchema

theorem isName_iff {s : String} : IsName s ↔
    s.toList.head?.any Char.isAlpha ∧ s.toList.tail.all fun d => d.isAlphanum || d == '_' := by
  unfold IsName
  cases s.toList with
  | nil => simp
  | cons c cs => simp

instance (s : String) : Decidable (IsName s) :=
  decidable_of_iff' _ isName_iff

open Word

/-! ## Rows of words -/

namespace Word

/-- The lexeme of a word. -/
def lexeme (w : Word) : Lexeme :=
  .token w.1 w.2.toList

/-- The lexemes of some words with a space after each of them. -/
def spaced (ws : List Word) : List Lexeme :=
  ws.flatMap fun w => [w.lexeme, .gap [' ']]

variable {ws : List Word} {xs : List Lexeme}

theorem ident_precedes {s : String} (h : IsName s) {rest : List Char}
    (stop : ∀ c ∈ rest.head?, ¬Lexeme.isWordChar c) : (ident s).lexeme.Precedes rest := by
  obtain ⟨c, cs, same, first, inside⟩ := h
  rw [lexeme, ident, same]
  refine .ident ?_ (fun d hd => ?_) stop
  · rwa [Lexeme.isLetter_eq]
  · simpa [Lexeme.isWordChar_eq] using inside d hd

theorem decimal_precedes (zeros n : Nat) {rest : List Char}
    (stop : ∀ c ∈ rest.head?, ¬Lexeme.isDigit c) : (decimal zeros n).lexeme.Precedes rest := by
  have digits : ∀ c ∈ List.replicate zeros '0' ++ Nat.toDigits 10 n, Lexeme.isDigit c := by
    intro c hc
    obtain hc | hc := List.mem_append.mp hc
    · rw [List.eq_of_mem_replicate hc]
      rfl
    · exact Nat.isDigit_of_mem_toDigits (by omega) (by omega) hc
  rw [lexeme, decimal, Number.numeral, String.toList_ofList]
  cases same : List.replicate zeros '0' ++ Nat.toDigits 10 n with
  | nil => exact absurd same (by simp [Nat.toDigits_ne_nil])
  | cons c cs =>
      rw [same] at digits
      obtain ⟨first, inside⟩ := List.forall_mem_cons.mp digits
      exact .number first inside stop

theorem separate_spaced (alone : ∀ w ∈ ws, w.lexeme.Precedes []) (h : Lexeme.Separate xs) :
    Lexeme.Separate (spaced ws ++ xs) := by
  induction ws with
  | nil => exact h
  | cons w ws ih =>
      obtain ⟨first, rest⟩ := List.forall_mem_cons.mp alone
      have space : Trivia [' '] := .blank (by decide) .nil
      exact ⟨first.before_trivia space nofun, .blank rfl, ih rest⟩

theorem separate_path {first : String} {more : List String} (names : ∀ s ∈ first :: more, IsName s)
    (h : Lexeme.Separate (.gap [' '] :: xs)) :
    Lexeme.Separate ((path first more).map lexeme ++ .gap [' '] :: xs) := by
  induction more generalizing first with
  | nil => exact ⟨ident_precedes (names first List.mem_cons_self) (by rintro _ ⟨⟩; decide), h⟩
  | cons next more ih =>
      obtain ⟨name, rest⟩ := List.forall_mem_cons.mp names
      exact ⟨ident_precedes name (by rintro _ ⟨⟩; decide), .delimiter rfl, ih rest⟩

theorem text_spaced : Lexeme.text (spaced ws ++ xs) =
    ws.flatMap (·.2.toList ++ [' ']) ++ Lexeme.text xs := by
  simp [spaced, Lexeme.text, List.flatMap_assoc, lexeme, Lexeme.chars]

theorem text_lexemes : Lexeme.text (ws.map lexeme ++ xs) =
    ws.flatMap (·.2.toList) ++ Lexeme.text xs := by
  simp [Lexeme.text, List.flatMap_map, lexeme, Lexeme.chars]

theorem text_path (first : String) (more : List String) :
    (path first more).flatMap (·.2.toList) = (".".intercalate (first :: more)).toList := by
  induction more generalizing first with
  | nil => simp [path, ident]
  | cons next more ih =>
      rw [String.intercalate_cons_cons, String.toList_append, ← ih]
      simp [path, ident, dot]

@[simp] theorem words_gap (cs : List Char) : Lexeme.words (.gap cs :: xs) = Lexeme.words xs := rfl

@[simp] theorem words_lexeme (w : Word) : Lexeme.words (w.lexeme :: xs) = w :: Lexeme.words xs := by
  simp [Lexeme.words, Lexeme.word?, lexeme]

theorem words_spaced : Lexeme.words (spaced ws ++ xs) = ws ++ Lexeme.words xs := by
  induction ws with
  | nil => rfl
  | cons w ws ih => simpa [spaced] using ih

theorem words_lexemes : Lexeme.words (ws.map lexeme ++ xs) = ws ++ Lexeme.words xs := by
  induction ws with
  | nil => rfl
  | cons w ws ih => simpa using ih

end Word

open Lexeme ProtoSchema.Derivation

/-! ## A single message -/

/-- The schema of a single message. -/
def Schema.ofMessage (m : Message String Int Bool) : Schema :=
  { empty with messages := [m] }

namespace Derivation

theorem nodesList_rules (s : Parser.Scope) (ds : List Derivation) :
    (nodesList s ds).map (·.rule) = ds.filterMap label? := by
  induction ds with
  | nil => rfl
  | cons d ds ih =>
      rw [nodesList_cons, List.map_append, ih]
      cases d <;> rfl

theorem filterMap_label?_bare (ds : List Derivation) :
    (ds.map bare).filterMap label? = ds.filterMap label? := by
  simp [List.filterMap_map]

theorem From.file {d : Derivation} {last : Token} (h : d.From (.rule .messageDef))
    (eof : last.kind = .eof) :
    (node (.rule .protoFile) [d, .token last]).From (.rule .protoFile) := by
  refine from_protoFile.mpr ⟨[d], last, rfl, ⟨none, none, [], [d], rfl, ?_, ?_, ?_, ?_⟩, eof⟩
  · simp
  · simp
  · simp
  · simpa using .inl h

theorem file_nesting (d : Derivation) (last : Token) :
    (node (.rule .protoFile) [d, .token last]).nesting = d.nesting := by
  simp [nesting, nestingList]

theorem file_warnings (ds : List Derivation) (last : Token) :
    (node (.rule .protoFile) (ds ++ [.token last])).warnings =
      (numbersList ds).flatMap (·.warnings) := by
  rw [warnings, numbers_node (by decide) (by decide)]
  simp

theorem From.file_schema {d : Derivation} (h : d.From (.rule .messageDef)) (last : Token) :
    (node (.rule .protoFile) [d, .token last]).schema = .ofMessage d.message := by
  simp [Derivation.schema, parts, h.rooted.having_cons, messages_eq_map, Schema.ofMessage,
    Schema.empty]

/-- The tree of a file with one message, told from its derivation without places. -/
theorem tree_message {d : Derivation} {parts : List Derivation} {last : Token}
    (h : d.bare = node (.rule .protoFile) [node (.rule .messageDef) parts, .token last])
    (s : Parser.Scope) : ∃ m, (d.tree s).children = [m] ∧ m.rule = .messageDef ∧
      m.children.map (·.rule) = parts.filterMap label? := by
  cases d with
  | token t => cases h
  | node x ds =>
      rw [bare_node] at h
      obtain ⟨d, _, rfl, first, rest⟩ := List.map_eq_cons_iff.mp (node.inj h).2
      obtain ⟨e, rfl, final⟩ := List.map_eq_singleton_iff.mp rest
      cases e with
      | node _ _ => simp at final
      | token t =>
          cases d with
          | token u => cases first
          | node y es =>
              rw [bare_node] at first
              obtain ⟨rfl, rfl⟩ := node.inj first
              exact ⟨_, rfl, rfl, (nodesList_rules s es).trans (filterMap_label?_bare es).symm⟩

end Derivation

variable {limit : Nat}

/-- A text that writes a message has the message, whatever else stands in its body, and a node for
each part of the body. -/
theorem Schema.ofText_message {m : Message String Int Bool} {body : List Word}
    {ds : List Derivation} {xs : List Lexeme} (separate : Separate xs) (h : BodyOf m body ds)
    (said : words xs = definition "message" m.name body) (shallow : m.depth ≤ limit) :
    ofText limit (text xs) = .ok (ofMessage m, []) ∧
      ∃ tree n, Node.ofText limit (text xs) = .ok tree ∧ tree.children = [n] ∧
        n.rule = .messageDef ∧ n.children.map (·.rule) = .ident :: ds.filterMap label? := by
  obtain ⟨spells, same, quiet, within⟩ := h.derived
  let last : Token := ⟨.eof, "", 0, 0, 0, 0⟩
  let d := definitionOf .messageDef "message" m.name ds
  have derives : Derives ((words xs).map Word.token ++ [last])
      (node (.rule .protoFile) [d, .token last]) :=
    ⟨spells.root.file rfl, by simp [d, spells.yield, said]⟩
  have nesting := (file_nesting d last).trans_le (within.trans shallow)
  obtain ⟨e, places, parsed, read, lexemes⟩ := ofText_spelled separate derives nesting
  rw [spells.root.file_schema, same] at read
  have silent : (node (.rule .protoFile) [d, .token last]).warnings = [] :=
    (file_warnings [d] last).trans (by simpa [warnings] using quiet)
  rw [silent] at lexemes
  obtain ⟨n, children, rule, rules⟩ := tree_message places (.whole (text xs))
  refine ⟨List.map_eq_nil_iff.mp lexemes ▸ read, _, n, parsed, children, rule, rules.trans ?_⟩
  simp [List.filterMap_cons, label?, ofToken]

/-! ## Fields of any type -/

/-- The text of a message with one field. -/
def fieldText (message : String) (rule : Option String) (type name number : String) : List Char :=
  ("message " ++ message ++ " \x7b " ++ rule.elim "" (· ++ " ") ++ type ++ " " ++ name ++ " = " ++
    number ++ "; \x7d").toList

/-- The lexemes of that text. -/
def fieldRow (message : String) (rule : Option String) (first : String) (more : List String)
    (name : String) (number : Word) : List Lexeme :=
  spaced [ident "message", ident message, lbrace] ++ (spaced (rule.toList.map ident) ++
    ((path first more).map lexeme ++ .gap [' '] :: (spaced [ident name, equals] ++
      [number.lexeme, semicolon.lexeme, .gap [' '], rbrace.lexeme])))

variable (message : String) (rule : Option String) (first : String) (more : List String)
  (name : String)

theorem text_fieldRow (number : String) :
    text (fieldRow message rule first more name (.number, number)) =
      fieldText message rule (".".intercalate (first :: more)) name number := by
  rw [fieldRow, text_spaced, text_spaced, text_lexemes, text_path, text_cons, text_spaced]
  cases rule <;>
    simp [fieldText, ident, lbrace, equals, semicolon, rbrace, lexeme, chars]

theorem words_fieldRow (number : Word) :
    words (fieldRow message rule first more name number) = definition "message" message
      (rule.toList.map ident ++ path first more ++ [ident name, equals, number, semicolon]) := by
  rw [fieldRow, words_spaced, words_spaced, words_lexemes, words_gap, words_spaced]
  simp [definition, show Lexeme.words [] = [] from rfl]

variable {message first name : String} {more : List String} {rule : Option String}

theorem separate_fieldRow (hmessage : IsName message) (hrule : ∀ w ∈ rule, IsName w)
    (htype : ∀ s ∈ first :: more, IsName s) (hname : IsName name) (zeros n : Nat) :
    Separate (fieldRow message rule first more name (decimal zeros n)) := by
  refine separate_spaced ?_ (separate_spaced ?_ (separate_path htype
    ⟨.blank rfl, separate_spaced ?_ ⟨?_, .delimiter rfl, .blank rfl, .delimiter rfl, trivial⟩⟩))
  · have word : IsName "message" := by decide
    simpa using ⟨ident_precedes word (by simp), ident_precedes hmessage (by simp), .delimiter rfl⟩
  · simpa using fun w hw => ident_precedes (hrule w hw) (by simp)
  · simpa using ⟨ident_precedes hname (by simp), .delimiter rfl⟩
  · exact decimal_precedes zeros n (by rintro _ ⟨⟩; decide)

/-- The derivation of an option with a number for its value. -/
def optionOf (name : String) (number : Word) : Derivation :=
  .node (.rule .optionDecl) [.token (ident "option").token,
    .node .optionName [ofToken .ident (ident name).token], .token equals.token,
    .node (.rule .constant) [ofToken .number number.token], .token semicolon.token]

theorem optionOf_body (message name : String) {number : Word} (kind : number.1 = .number) :
    BodyOf ⟨message, [], [], []⟩ [ident "option", ident name, equals, number, semicolon]
      [optionOf name number] := by
  have path : (node .optionName [ofToken .ident (ident name).token]).From .optionName :=
    from_optionName.mpr ⟨_, rfl, .inl ⟨_, [], rfl, by simp [Dotted], rfl⟩⟩
  have value : (node (.rule .constant) [ofToken .number number.token]).From (.rule .constant) :=
    from_constant.mpr ⟨_, rfl, .inr (.inr (.inr ⟨none, _, none, by simp [Sign], kind,
      by simp [Fraction], rfl⟩))⟩
  have option : (optionOf name number).From (.rule .optionDecl) :=
    from_optionDecl.mpr ⟨_, _, _, _, _, rfl, rfl, path, rfl, value, rfl⟩
  refine ⟨List.forall_mem_singleton.mpr (.inr (.inr (.inr option))), ?_, ?_, ?_, ?_, ?_, ?_⟩
  · simp [optionOf]
  · simp [optionOf]
  · simp [optionOf, messages, label?]
  · simp [optionOf]
  · simp [optionOf, numbers]
  · simp [nestingList, option.nesting_eq_zero]

/-- The modifiers of a field, none included. -/
def Field.modifiers : List (Option String) :=
  [none, some "repeated", some "optional", some "required"]

theorem Field.modifier_written {rule : Option String} (h : rule ∈ modifiers) :
    rule.toList.map ident ∈ if rule == some "repeated" then [[ident "repeated"]]
      else [[], [ident "optional"], [ident "required"]] := by
  obtain rfl | rfl | rfl | rfl := by simpa [modifiers] using h
  all_goals decide

theorem Field.modifier_isName {rule : Option String} (h : rule ∈ modifiers) :
    ∀ w ∈ rule, IsName w := by
  rintro w rfl
  obtain rfl | rfl | rfl := by simpa [modifiers] using h
  all_goals decide

namespace Schema

/-- A field has the type that it is declared with, whatever words that is made of. Without a word
before the type, the word for options begins an option, which adds no field: it is an option in the
tree. -/
theorem ofText_fieldText (hmessage : IsName message) (hrule : rule ∈ Field.modifiers)
    (htype : ∀ s ∈ first :: more, IsName s) (hname : IsName name) {zeros n : Nat}
    (fits : n ≤ 2147483647) (short : zeros + (Nat.toDigits 10 n).length ≤ 4300) :
    let type := ".".intercalate (first :: more)
    let source := fieldText message rule type name (Number.numeral zeros n)
    (rule ≠ none ∨ first ≠ "option" → ofText (limit + 1) source =
      .ok (ofMessage ⟨message, [⟨name, type, n, rule == some "repeated"⟩], [], []⟩, [])) ∧
    (rule = none ∧ first = "option" ∧ more = [] →
      ofText (limit + 1) source = .ok (ofMessage ⟨message, [], [], []⟩, []) ∧
        ∃ tree m, Node.ofText (limit + 1) source = .ok tree ∧ tree.children = [m] ∧
          m.rule = .messageDef ∧ m.children.map (·.rule) = [.ident, .optionDecl]) := by
  intro type source
  have separate := separate_fieldRow hmessage (Field.modifier_isName hrule) htype hname zeros n
  have said := words_fieldRow message rule first more name (decimal zeros n)
  have shallow (fs : List (Field String Int Bool)) :
      Message.depth ⟨message, fs, [], []⟩ ≤ limit + 1 := by
    simp [Message.depth, Message.depthList]
  simp only [source, type, ← text_fieldRow]
  constructor
  · intro plain
    have field : Field.Written ⟨name, type, n, rule == some "repeated"⟩
        (rule.toList.map ident ++ path first more ++
          [ident name, equals, decimal zeros n, semicolon]) := by
      refine ⟨_, Field.modifier_written hrule, _, _, ⟨first, more, rfl, rfl⟩, fun bare => ?_,
        ⟨zeros, n, rfl, fits, short, rfl⟩, rfl⟩
      obtain rfl : rule = none := by simpa using bare
      simpa [path, ident] using plain
    obtain ⟨ds, body⟩ := (Message.BodyWritten.field field (.nil message)).derived
    rw [List.append_nil] at body
    exact (ofText_message separate body said (shallow _)).1
  · rintro ⟨rfl, rfl, rfl⟩
    exact ofText_message separate (optionOf_body message name rfl) said (shallow _)

/-- A repeated field of a type that begins with the word for options, and an option in place of a
field. -/
theorem ofText_fieldText_option :
    let limit := 1
    let field := "message M \x7b repeated option.repeated optional = 07; \x7d".toList
    let option := "message M \x7b option n = 1; \x7d".toList
    ofText limit field =
        .ok (ofMessage ⟨"M", [⟨"optional", "option.repeated", 7, true⟩], [], []⟩, []) ∧
      ofText limit option = .ok (ofMessage ⟨"M", [], [], []⟩, []) ∧
        ∃ tree m, Node.ofText limit option = .ok tree ∧ tree.children = [m] ∧
          m.rule = .messageDef ∧ m.children.map (·.rule) = [.ident, .optionDecl] := by
  intro limit field option
  have field_eq : field =
      fieldText "M" (some "repeated") "option.repeated" "optional" (Number.numeral 1 7) := by
    decide +kernel
  have option_eq : option = fieldText "M" none "option" "n" (Number.numeral 0 1) := by
    decide +kernel
  rw [field_eq, option_eq]
  exact ⟨(@ofText_fieldText 0 "M" "option" "optional" ["repeated"] (some "repeated")
      (by decide) (by decide) (by decide) (by decide) 1 7 (by decide) (by decide)).1
      (.inl (by decide)),
    (@ofText_fieldText 0 "M" "option" "n" [] none (by decide) (by decide) (by decide) (by decide)
      0 1 (by decide) (by decide)).2 ⟨rfl, rfl, rfl⟩⟩

/-- A field of the type that is named by the word for options is lost. -/
theorem not_ofText_fieldText :
    let limit := 1
    ofText limit "message M \x7b option n = 1; \x7d".toList =
      .ok (ofMessage ⟨"M", [], [], []⟩, []) ∧
    ¬∀ message rule first more name n, IsName message → rule ∈ Field.modifiers →
      (∀ s ∈ first :: more, IsName s) → IsName name → n ≤ 2147483647 →
        let type := ".".intercalate (first :: more)
        ∃ ws, ofText limit (fieldText message rule type name (Number.numeral 0 n)) =
          .ok (ofMessage ⟨message, [⟨name, type, n, rule == some "repeated"⟩], [], []⟩, ws) := by
  intro limit
  have read : ofText limit "message M \x7b option n = 1; \x7d".toList =
      .ok (ofMessage ⟨"M", [], [], []⟩, []) := by decide +kernel
  refine ⟨read, fun kept => ?_⟩
  have option_eq : "message M \x7b option n = 1; \x7d".toList =
      fieldText "M" none "option" "n" (Number.numeral 0 1) := by decide +kernel
  obtain ⟨ws, field⟩ := kept "M" none "option" [] "n" 1 (by decide) (by decide) (by decide)
    (by decide) (by decide)
  rw [option_eq] at read
  have same := read.symm.trans field
  simp [ofMessage] at same

end Schema

end ProtoSchema
