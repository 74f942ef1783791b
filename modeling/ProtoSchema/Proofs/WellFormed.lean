import ProtoSchema.Proofs.Numbering
import ProtoSchema.Proofs.Writing

/-! # Schemas that are read are well formed

Whatever a text is made of, the schema that is read from it has names where names belong, dotted
names where types and packages belong, and numbers of 31 bits. A method has the types that stand
between its parentheses, without the word that marks a stream.
-/

namespace ProtoSchema

/-- A letter, then letters, digits and underscores. -/
def IsName (s : String) : Prop :=
  ∃ c cs, s.toList = c :: cs ∧ c.isAlpha ∧ ∀ d ∈ cs, d.isAlphanum ∨ d = '_'

/-- One name or more, with dots between them. -/
def IsPath (s : String) : Prop :=
  ∃ first more, (∀ name ∈ first :: more, IsName name) ∧ s = ".".intercalate (first :: more)

/-- A number of 31 bits. -/
def IsTagNumber (n : Int) : Prop :=
  0 ≤ n ∧ n ≤ 2147483647

structure Field.WellFormed (f : Field String Int Bool) : Prop where
  name : IsName f.name
  typeName : IsPath f.typeName
  tag : IsTagNumber f.tag

structure EnumValue.WellFormed (v : EnumValue String Int) : Prop where
  name : IsName v.name
  number : IsTagNumber v.number

structure EnumDef.WellFormed (e : EnumDef String Int) : Prop where
  name : IsName e.name
  values : ∀ v ∈ e.values, v.WellFormed

structure Method.WellFormed (m : Method String) : Prop where
  name : IsName m.name
  inputType : IsPath m.inputType
  outputType : IsPath m.outputType

structure Service.WellFormed (s : Service String) : Prop where
  name : IsName s.name
  methods : ∀ m ∈ s.methods, m.WellFormed

/-- A message is well formed with all that is nested in it. -/
inductive Message.WellFormed : Message String Int Bool → Prop where
  | intro {m : Message String Int Bool} (name : IsName m.name)
      (fields : ∀ f ∈ m.fields, f.WellFormed) (messages : ∀ n ∈ m.messages, WellFormed n)
      (enums : ∀ e ∈ m.enums, e.WellFormed) : WellFormed m

structure Schema.WellFormed (p : Schema) : Prop where
  package : ∀ s ∈ p.package, IsPath s
  messages : ∀ m ∈ p.messages, m.WellFormed
  enums : ∀ e ∈ p.enums, e.WellFormed
  services : ∀ s ∈ p.services, s.WellFormed

/-- The head of a method: its name, and in parentheses its types, streamed or not. -/
def Method.HeadWritten (m : Method String) (ws : List Word) : Prop :=
  ∃ request response, TypeWritten m.inputType request ∧ TypeWritten m.outputType response ∧
    ws = .ident "rpc" :: .ident m.name :: .lparen :: (request ++ .rparen :: .ident "returns" ::
      .lparen :: (response ++ [.rparen]))

theorem Lexeme.isLetter_eq (c : Char) : isLetter c = c.isAlpha := by
  have upper : ('A' ≤ c && c ≤ 'Z') = c.isUpper := (Bool.decide_and ..).symm
  have lower : ('a' ≤ c && c ≤ 'z') = c.isLower := rfl
  rw [isLetter, upper, lower, Bool.or_comm]
  rfl

theorem Lexeme.isWordChar_eq (c : Char) : isWordChar c = (c.isAlphanum || c = '_') := by
  rw [isWordChar, isLetter_eq]
  rfl

namespace Token

/-- A token is spelled as its kind says. -/
structure Spelled (t : Token) : Prop where
  ident : t.kind = .ident → IsName t.text
  number : t.kind = .number → IsTagNumber t.value
  delimiter : ∀ {c}, Kind.ofDelimiter? c = some t.kind → t.word = (t.kind, String.singleton c)

variable {source : List Char} {tokens : List Token} {t : Token}

theorem scan_isName (h : scan source = .ok tokens) (ht : t ∈ tokens) (ident : t.kind = .ident) :
    IsName t.text := by
  obtain ⟨rest, precedes⟩ := scan_precedes h ht (by simp [ident])
  rw [ident] at precedes
  generalize chars : t.text.toList = cs at precedes
  cases precedes with
  | ident first inside =>
      refine ⟨_, _, chars, Lexeme.isLetter_eq _ ▸ first, fun d hd => ?_⟩
      simpa [Lexeme.isWordChar_eq] using inside d hd
  | delimiter kind => simpa using Lexeme.ofDelimiter?_kind kind

theorem scan_isTagNumber (h : scan source = .ok tokens) (ht : t ∈ tokens)
    (number : t.kind = .number) : IsTagNumber t.value := by
  rw [scan_value h ht number, tag]
  split
  · next fits =>
      obtain ⟨-, small⟩ := fits
      unfold IsTagNumber
      omega
  · constructor <;> decide

theorem scan_delimiter (h : scan source = .ok tokens) (ht : t ∈ tokens) {c : Char}
    (kind : Kind.ofDelimiter? c = some t.kind) : t.word = (t.kind, String.singleton c) := by
  have other := Lexeme.ofDelimiter?_kind kind
  obtain ⟨rest, precedes⟩ := scan_precedes h ht (by rintro same; simp [same] at other)
  have chars : t.text.toList = [c] := by
    generalize t.kind = k at *
    generalize t.text.toList = cs at precedes
    cases precedes with
    | string | number | ident => simp at other
    | delimiter same => rw [Lexeme.ofDelimiter?_inj same kind]
  exact congrArg (t.kind, ·) (String.toList_inj.mp (by rw [chars, String.toList_singleton]))

theorem scan_spelled (h : scan source = .ok tokens) : ∀ t ∈ tokens, t.Spelled := by
  intro t ht
  exact ⟨scan_isName h ht, scan_isTagNumber h ht, scan_delimiter h ht⟩

theorem word_ident (h : t.kind = .ident) : t.word = Word.ident t.text :=
  congrArg (·, t.text) h

theorem word_of_isWord {w : String} (h : t.isWord w) : t.word = Word.ident w := by
  obtain ⟨kind, rfl⟩ : t.kind = .ident ∧ t.text = w := by simpa [isWord] using h
  exact word_ident kind

end Token

namespace Derivation

/-! ## Well-formed parts -/

/-- The tokens of a derivation are spelled as their kinds say. -/
def Spelled (d : Derivation) : Prop :=
  ∀ t ∈ d.yield, t.Spelled

variable {d : Derivation} {x : Symbol} {ds : List Derivation}

theorem spelled_node : (node x ds).Spelled ↔ ∀ d ∈ ds, d.Spelled := by
  simp only [Spelled, yield_node, yieldList_eq_flatMap, List.mem_flatMap]
  constructor
  · intro h d hd t ht
    exact h t ⟨d, hd, ht⟩
  · rintro h t ⟨d, hd, ht⟩
    exact h d hd t ht

/-- A part with a label is a derivation from the rule. Only a dotted name may be the name of an
option instead. -/
theorem From.of_having {r : Rule} (valid : ∀ d ∈ ds, d.Valid) (hr : r ≠ .fullIdent) :
    ∀ d ∈ having r ds, d.From (.rule r) := by
  intro d hd
  obtain ⟨mem, label⟩ : d ∈ ds ∧ d.label? = some r := by simpa [having] using hd
  cases d with
  | token t => cases label
  | node x ds =>
      obtain rfl : x.label = r := by simpa [label?] using label
      cases x with
      | rule r => exact ⟨⟨ds, rfl⟩, valid _ mem⟩
      | optionName => exact absurd rfl hr

theorem From.parts_valid (h : d.From x) : ∀ e ∈ d.parts, e.Valid := by
  cases h.valid with
  | token t => simp [parts]
  | node form valid => exact valid

theorem Spelled.parts (h : d.Spelled) : ∀ e ∈ d.parts, e.Spelled := by
  cases d with
  | token t => simp [Derivation.parts]
  | node x ds => exact spelled_node.mp h

theorem From.part {r : Rule} (h : d.From x) (spelled : d.Spelled) (hr : r ≠ .fullIdent) :
    ∀ e ∈ having r d.parts, e.From (.rule r) ∧ e.Spelled := by
  intro e he
  exact ⟨From.of_having h.parts_valid hr e he, spelled.parts e (List.mem_of_mem_filter he)⟩

theorem isPath_dottedText {ts : List Token} {first : Token}
    (spelled : ∀ t ∈ ts, t.kind = .ident → IsName t.text) (mem : first ∈ ts)
    (ident : first.kind = .ident) : IsPath (dottedText ts) := by
  have names : ∀ name ∈ (ts.filter (·.kind = .ident)).map (·.text), IsName name := by
    simp only [List.forall_mem_map, List.mem_filter, decide_eq_true_eq]
    intro t ht
    exact spelled t ht.1 ht.2
  unfold dottedText
  cases same : (ts.filter (·.kind = .ident)).map (·.text) with
  | nil =>
      simp only [List.map_eq_nil_iff, List.filter_eq_nil_iff] at same
      exact absurd (decide_eq_true ident) (same first mem)
  | cons name more => exact ⟨name, more, same ▸ names, rfl⟩

theorem From.fullIdent_isPath (h : d.From (.rule .fullIdent)) (spelled : d.Spelled) :
    IsPath (dottedText d.yield) := by
  obtain ⟨first, pairs, yield, ident, -⟩ := h.fullIdent_yield
  exact isPath_dottedText (fun t ht => (spelled t ht).ident) (by simp [yield]) ident

theorem From.typeName_isPath (h : d.From (.rule .typeName)) (spelled : d.Spelled) :
    IsPath (dottedText d.yield) := by
  obtain ⟨first, pairs, yield, ident, -⟩ := h.typeName_yield
  exact isPath_dottedText (fun t ht => (spelled t ht).ident) (by simp [yield]) ident

theorem Defines.name {r : Rule} {w : String} {P : Derivation → Prop} (h : Defines r w P d)
    (spelled : d.Spelled) : IsName (textOf (d.words .ident)) := by
  obtain ⟨first, name, left, elements, right, rfl, -, ident, -⟩ := h
  have text : textOf (words .ident (node (.rule r) (.token first :: ofToken .ident name ::
      .token left :: (elements ++ [.token right])))) = name.text := by
    simp [words, parts, textOf]
  rw [text]
  exact (spelled name (by simp)).ident ident

theorem From.field_wellFormed (h : d.From (.rule .field)) (spelled : d.Spelled) :
    d.field.WellFormed := by
  obtain ⟨number, numbers, -⟩ := h.field_number
  obtain ⟨word, type, name, equals, tag, options, last, rfl, -, htype, hname, -, htag, hoptions,
    -⟩ := from_field.mp h
  have rooted : ∀ d ∈ options.toList, d.Rooted (.rule .fieldOptions) := fun d hd =>
    (hoptions d (by simpa using hd)).rooted
  obtain rfl : tag = number := by
    cases word <;>
      simpa [words, parts, htype.rooted.having_cons, having_all rooted] using numbers
  have path := htype.typeName_isPath (spelled_node.mp spelled type (by simp))
  constructor
  · cases word <;>
      simpa [field, words, parts, textOf, htype.rooted.having_cons] using
        (spelled name (by simp)).ident hname
  · cases word <;>
      simpa [field, words, parts, htype.rooted.having_cons, having_all rooted] using path
  · simpa [field, numbers] using (spelled tag (by simp)).number htag

theorem From.enumValue_wellFormed (h : d.From (.rule .enumValue)) (spelled : d.Spelled) :
    d.enumValue.WellFormed := by
  obtain ⟨tag, numbers, -⟩ := h.enumValue_number
  obtain ⟨name, equals, number, options, last, rfl, hname, -, hnumber, hoptions, -⟩ :=
    from_enumValue.mp h
  have rooted : ∀ d ∈ options.toList, d.Rooted (.rule .fieldOptions) := fun d hd =>
    (hoptions d (by simpa using hd)).rooted
  obtain rfl : number = tag := by simpa [words, parts, having_all rooted] using numbers
  constructor
  · simpa [enumValue, words, parts, textOf] using (spelled name (by simp)).ident hname
  · simpa [enumValue, numbers] using (spelled number (by simp)).number hnumber

theorem From.enumDef_wellFormed (h : d.From (.rule .enumDef)) (spelled : d.Spelled) :
    d.enumDef.WellFormed where
  name := (from_enumDef.mp h).name spelled
  values := by
    simp only [enumDef, List.forall_mem_map]
    intro v hv
    obtain ⟨value, inner⟩ := h.part spelled (by decide) v hv
    exact value.enumValue_wellFormed inner

/-! ## Methods -/

theorem From.fullIdent_written (h : d.From (.rule .fullIdent)) (spelled : d.Spelled) :
    Word.DottedName (dottedText d.yield) (d.yield.map Token.word) := by
  obtain ⟨first, pairs, yield, ident, dotted⟩ := h.fullIdent_yield
  refine ⟨first.text, pairs.map (·.2.text), ?_, ?_⟩
  · have words : (pairs.flatMap fun p => [p.1, p.2]).filter (·.kind = .ident) =
        pairs.map (·.2) := by
      rw [← yieldList_dotted]
      exact filter_dotted dotted
    simp [dottedText, yield, ident, words, Function.comp_def]
  · have pair : ∀ p ∈ pairs, [p.1.word, p.2.word] = [Word.dot, Word.ident p.2.text] := by
      intro p hp
      obtain ⟨dot, word⟩ := dotted p hp
      have mem : p.1 ∈ d.yield := by
        rw [yield]
        exact List.mem_cons_of_mem _ (List.mem_flatMap.mpr ⟨p, hp, by simp⟩)
      rw [Token.word_ident word, (spelled _ mem).delimiter (c := '.') (by rw [dot]; rfl), dot]
      rfl
    simp only [yield, List.map_cons, List.map_flatMap, List.map_nil, Token.word_ident ident,
      List.flatMap_congr pair, Word.path, List.flatMap_map]

theorem From.messageType_written (h : d.From (.rule .messageType)) (spelled : d.Spelled) :
    Method.TypeWritten (dottedText (d.words .fullIdent)) (d.yield.map Token.word) ∧
      IsPath (dottedText (d.words .fullIdent)) := by
  obtain ⟨word, path, rfl, hword, hpath⟩ := from_messageType.mp h
  have inner : path.Spelled := spelled_node.mp spelled path (by simp)
  have type : words .fullIdent (node (.rule .messageType) (word.toList.map (ofToken .stream) ++
      [path])) = path.yield := by
    cases word <;> simp [words, parts, hpath.rooted.having_cons]
  rw [type]
  refine ⟨⟨(word.map Token.word).toList, ?_, _, hpath.fullIdent_written inner, ?_⟩,
    hpath.fullIdent_isPath inner⟩
  · cases word with
    | none => simp
    | some t => simp [Token.word_of_isWord (hword t rfl)]
  · cases word <;> simp

theorem From.method_written (h : d.From (.rule .rpcDef)) (spelled : d.Spelled) :
    d.method.WellFormed ∧ ∃ ws, d.method.HeadWritten ws ∧ ws <+: d.yield.map Token.word := by
  obtain ⟨first, name, left, request, right, returns, open', response, close, ends, rfl, hfirst,
    hname, hleft, hrequest, hright, hreturns, hopen, hresponse, hclose, -⟩ := from_rpcDef.mp h
  have inner := spelled_node.mp spelled
  obtain ⟨input, inputPath⟩ := hrequest.messageType_written (inner request (by simp))
  obtain ⟨output, outputPath⟩ := hresponse.messageType_written (inner response (by simp))
  have method : method (node (.rule .rpcDef) (.token first :: ofToken .ident name :: .token left ::
      request :: .token right :: .token returns :: .token open' :: response :: .token close ::
        ends)) = ⟨name.text, dottedText (request.words .fullIdent),
          dottedText (response.words .fullIdent)⟩ := by
    simp [Derivation.method, words, parts, textOf, hrequest.rooted.having_cons,
      hresponse.rooted.having_cons]
  rw [method]
  refine ⟨⟨(spelled name (by simp)).ident hname, inputPath, outputPath⟩, _,
    ⟨_, _, input, output, rfl⟩, (yieldList ends).map Token.word, ?_⟩
  have lparen (t : Token) (ht : t.Spelled) (kind : t.kind = .lparen) : t.word = Word.lparen := by
    rw [ht.delimiter (c := '(') (by rw [kind]; rfl), kind]
    rfl
  have rparen (t : Token) (ht : t.Spelled) (kind : t.kind = .rparen) : t.word = Word.rparen := by
    rw [ht.delimiter (c := ')') (by rw [kind]; rfl), kind]
    rfl
  simp [Token.word_of_isWord hfirst, Token.word_ident hname, Token.word_of_isWord hreturns,
    lparen left (spelled _ (by simp)) hleft, rparen right (spelled _ (by simp)) hright,
    lparen open' (spelled _ (by simp)) hopen, rparen close (spelled _ (by simp)) hclose]

mutual
theorem From.message_wellFormed {d : Derivation} (h : d.From (.rule .messageDef))
    (spelled : d.Spelled) : d.message.WellFormed := by
  have name := (from_messageDef.mp h).name spelled
  have valid := h.parts_valid
  have fields := h.part (r := .field) spelled (by decide)
  have enums := h.part (r := .enumDef) spelled (by decide)
  cases d with
  | token t =>
      obtain ⟨_, same⟩ := h.rooted
      cases same
  | node x ds =>
      refine .intro (by rw [message]; exact name) ?_ ?_ ?_
      · simp only [message, List.forall_mem_map]
        intro f hf
        exact (fields f hf).1.field_wellFormed (fields f hf).2
      · rw [message]
        exact messages_wellFormed valid spelled.parts
      · simp only [message, List.forall_mem_map]
        intro e he
        exact (enums e he).1.enumDef_wellFormed (enums e he).2
termination_by sizeOf d

theorem messages_wellFormed {ds : List Derivation} (valid : ∀ d ∈ ds, d.Valid)
    (spelled : ∀ d ∈ ds, d.Spelled) : ∀ m ∈ messages ds, m.WellFormed := by
  cases ds with
  | nil => simp [messages]
  | cons d ds =>
      obtain ⟨hd, hds⟩ := List.forall_mem_cons.mp spelled
      have tail := messages_wellFormed (List.forall_mem_cons.mp valid).2 hds
      rw [messages]
      split
      · next label =>
          have head : d.From (.rule .messageDef) :=
            From.of_having valid (by decide) d (by simp [having, label])
          exact List.forall_mem_cons.mpr ⟨head.message_wellFormed hd, tail⟩
      · exact tail
termination_by sizeOf ds
end

/-! ## Whole files -/

theorem yield_within {e : Derivation} (h : e ∈ ds) : e.yield <:+: yieldList ds := by
  obtain ⟨front, back, rfl⟩ := List.append_of_mem h
  exact ⟨yieldList front, yieldList back, by simp⟩

theorem From.service_written (h : d.From (.rule .serviceDef)) (spelled : d.Spelled) :
    d.service.WellFormed ∧ ∀ m ∈ d.service.methods, ∃ ws, m.HeadWritten ws ∧
      ws <:+: d.yield.map Token.word := by
  have methods : ∀ e ∈ having .rpcDef d.parts, e.method.WellFormed ∧ ∃ ws, e.method.HeadWritten ws ∧
      ws <:+: d.yield.map Token.word := by
    intro e he
    obtain ⟨method, inner⟩ := h.part spelled (by decide) e he
    obtain ⟨wellFormed, ws, head, front⟩ := method.method_written inner
    obtain ⟨ds, rfl⟩ := h.rooted
    have within := yield_within (List.mem_of_mem_filter he)
    exact ⟨wellFormed, ws, head, front.isInfix.trans (within.map _)⟩
  refine ⟨⟨(from_serviceDef.mp h).name spelled, ?_⟩, ?_⟩
  · simp only [service, List.forall_mem_map]
    intro e he
    exact (methods e he).1
  · simp only [service, List.forall_mem_map]
    intro e he
    exact (methods e he).2

theorem From.packageDecl_isPath (h : d.From (.rule .packageDecl)) (spelled : d.Spelled) :
    IsPath (dottedText (d.words .fullIdent)) := by
  obtain ⟨first, path, last, rfl, -, hpath, -⟩ := from_packageDecl.mp h
  have words : words .fullIdent (node (.rule .packageDecl) [.token first, path, .token last]) =
      path.yield := by
    simp [Derivation.words, parts, hpath.rooted.having_cons]
  rw [words]
  exact hpath.fullIdent_isPath (spelled_node.mp spelled path (by simp))

theorem From.schema_wellFormed (h : d.From (.rule .protoFile)) (spelled : d.Spelled) :
    d.schema.WellFormed where
  package := by
    intro s hs
    obtain ⟨statement, last, rfl⟩ := by simpa [schema] using hs
    obtain ⟨package, inner⟩ := h.part spelled (by decide) statement (List.mem_of_getLast? last)
    exact package.packageDecl_isPath inner
  messages := messages_wellFormed h.parts_valid spelled.parts
  enums := by
    simp only [schema, List.forall_mem_map]
    intro e he
    obtain ⟨enum, inner⟩ := h.part spelled (by decide) e he
    exact enum.enumDef_wellFormed inner
  services := by
    simp only [schema, List.forall_mem_map]
    intro e he
    obtain ⟨service, inner⟩ := h.part spelled (by decide) e he
    exact (service.service_written inner).1

end Derivation

open ProtoSchema.Derivation

/-- The schema of a text is well formed at every level. The types of its methods stand as they are
between parentheses of the text, without the word that marks a stream. -/
theorem Schema.ofText_wellFormed {limit : Nat} {source : List Char} {p : Schema}
    {ws : List Warning} (h : ofText limit source = .ok (p, ws)) :
    p.WellFormed ∧ ∃ tokens, Token.scan source = .ok tokens ∧ ∀ s ∈ p.services, ∀ m ∈ s.methods,
      ∃ words, m.HeadWritten words ∧ words <:+: tokens.map Token.word := by
  obtain ⟨tokens, d, scanned, derives, -, rfl, -⟩ := ofText_eq_ok.mp h
  have spelled : d.Spelled := by
    intro t ht
    exact Token.scan_spelled scanned t (derives.2 ▸ ht)
  refine ⟨derives.1.schema_wellFormed spelled, tokens, scanned, ?_⟩
  simp only [schema, List.forall_mem_map]
  intro e he m hm
  obtain ⟨service, inner⟩ := derives.1.part spelled (by decide) e he
  obtain ⟨words, head, written⟩ := (service.service_written inner).2 m hm
  obtain ⟨ds, rfl⟩ := derives.1.rooted
  have within := yield_within (List.mem_of_mem_filter he)
  exact ⟨words, head, written.trans (derives.2 ▸ within.map _)⟩

/-- Comments inside dotted names, a number that is out of range in a nested message, and a streamed
type. -/
theorem Schema.ofText_wellFormed_stream :
    let limit := 2
    let source := "package a/*x*/.b;message M\x7bmessage N\x7bA. //y\nB f=2147483648;\x7d\x7d".toList ++
      "service S\x7brpc R(stream stream.C)returns(stream);\x7d".toList
    let n : Message String Int Bool := ⟨"N", [⟨"f", "A.B", 0, false⟩], [], []⟩
    let p : Schema := ⟨"proto3", some "a.b", [], [⟨"M", [], [n], []⟩], [],
      [⟨"S", [⟨"R", "stream.C", "stream"⟩]⟩]⟩
    ofText limit source = .ok (p, [⟨"2147483648", 2, 5⟩]) ∧ p.WellFormed ∧
      ∃ tokens, Token.scan source = .ok tokens ∧ ∃ words,
        Method.HeadWritten ⟨"R", "stream.C", "stream"⟩ words ∧
          words <:+: tokens.map Token.word := by
  intro limit source n p
  have read : ofText limit source = .ok (p, [⟨"2147483648", 2, 5⟩]) := by decide +kernel
  obtain ⟨wellFormed, tokens, scanned, methods⟩ := ofText_wellFormed read
  exact ⟨read, wellFormed, tokens, scanned, methods _ List.mem_cons_self _ List.mem_cons_self⟩

end ProtoSchema
