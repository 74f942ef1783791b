import ProtoSchema.Proofs.Meaning
import ProtoSchema.Proofs.Writing

/-! # Derivations of written schemas

The words that write a schema have a derivation that declares it.
-/

namespace ProtoSchema

open ProtoSchema.Derivation

/-- A token with the kind and the text of a word. -/
def Word.token (w : Word) : Token :=
  ⟨w.1, w.2, 0, 0, 0, 0⟩

@[simp] theorem Word.token_kind (w : Word) : w.token.kind = w.1 := rfl

@[simp] theorem Word.token_text (w : Word) : w.token.text = w.2 := rfl

/-- The derivation is one of the words `ws`. -/
structure Derivation.Spells (x : Symbol) (ws : List Word) (d : Derivation) : Prop where
  root : d.From x
  yield : d.yield = ws.map Word.token

namespace Word

/-! ## Names and literals -/

/-- The dots and words after the first word of a path. -/
def pairs (more : List String) : List (Token × Token) :=
  more.map fun s => (dot.token, (ident s).token)

theorem dotted_pairs (more : List String) : Dotted (pairs more) := by
  intro p hp
  obtain ⟨s, -, rfl⟩ := List.mem_map.mp hp
  exact ⟨rfl, rfl⟩

/-- The derivation of words joined by dots. -/
def pathDerivation (first : String) (more : List String) : Derivation :=
  .node (.rule .fullIdent) (ofToken .ident (ident first).token :: dotted (pairs more))

theorem pathDerivation_spells (first : String) (more : List String) :
    (pathDerivation first more).Spells (.rule .fullIdent) (path first more) where
  root := from_fullIdent.mpr ⟨_, _, rfl, rfl, dotted_pairs more⟩
  yield := by
    simp [pathDerivation, path, pairs, yieldList_dotted, List.map_flatMap, List.flatMap_map]

theorem dottedText_path (first : String) (more : List String) :
    dottedText ((path first more).map token) = ".".intercalate (first :: more) := by
  rw [← (pathDerivation_spells first more).yield, pathDerivation, yield_node, yieldList_cons,
    yield_ofToken, dottedText, List.filter_append, filter_dotted (dotted_pairs more)]
  simp [pairs, Function.comp_def, ident]

theorem DottedName.dottedText {s : String} {ws : List Word} (h : DottedName s ws) :
    Derivation.dottedText (ws.map token) = s := by
  obtain ⟨first, more, rfl, rfl⟩ := h
  exact dottedText_path first more

theorem DottedName.fullIdent {s : String} {ws : List Word} (h : DottedName s ws) :
    ∃ d : Derivation, d.Spells (.rule .fullIdent) ws := by
  obtain ⟨first, more, rfl, rfl⟩ := h
  exact ⟨_, pathDerivation_spells first more⟩

theorem DottedName.typeName {s : String} {ws : List Word} (h : DottedName s ws) :
    ∃ d : Derivation, d.Spells (.rule .typeName) ws := by
  obtain ⟨first, more, rfl, rfl⟩ := h
  by_cases scalar : more = [] ∧ first ∈ Grammar.primitives
  · obtain ⟨rfl, scalar⟩ := scalar
    exact ⟨_, from_typeName.mpr ⟨_, rfl, .inl ⟨(ident first).token, rfl, scalar, rfl⟩⟩, rfl⟩
  · have spells := pathDerivation_spells first more
    refine ⟨_, from_typeName.mpr ⟨_, rfl, .inr ⟨spells.root, fun t ht member => scalar ?_⟩⟩, ?_⟩
    · rw [spells.yield] at ht
      cases more with
      | nil =>
          obtain rfl : (ident first).token = t := by simpa [path] using ht
          exact ⟨rfl, member⟩
      | cons s more => simp [path] at ht
    · simpa using spells.yield

theorem Counts.token {n : Int} {w : Word} (h : Counts n w) :
    w.token.kind = .number ∧ w.token.value = n ∧ w.token.warnings = [] := by
  obtain ⟨zeros, m, rfl, fits, short, rfl⟩ := h
  have value := Number.ofText?_numeral fits short
  refine ⟨rfl, ?_, ?_⟩
  · simp [Token.value, decimal, value]
  · simp [Token.warnings, decimal, value]

theorem Literal.token {s : String} {w : Word} (h : Literal s w) :
    w.token.kind = .stringLit ∧ Node.unquote w.token.text = s := by
  obtain ⟨plain, rfl⟩ := h
  have stop (cs : List Char) (h : ∀ c ∈ cs, c ∈ s.toList) : cs.dropWhile (· == '"') = cs := by
    cases cs with
    | nil => rfl
    | cons c cs =>
        have := plain c (h c List.mem_cons_self)
        simp_all
  refine ⟨rfl, ?_⟩
  rw [Node.unquote, token_text, literal, String.toList_ofList, List.dropWhile_cons_of_pos rfl]
  have keep := stop s.toList fun _ => id
  have keep' := stop s.toList.reverse fun c hc => List.mem_reverse.mp hc
  rw [← String.toList_inj, String.toList_ofList]
  cases h : s.toList with
  | nil => rfl
  | cons c cs =>
      rw [h] at keep keep'
      have whole : (c :: cs ++ ['"']).dropWhile (· == '"') = c :: cs ++ ['"'] := by
        have := plain c (by simp [h])
        simp_all
      rw [whole, List.reverse_append, List.reverse_singleton, List.singleton_append,
        List.dropWhile_cons_of_pos rfl, keep', List.reverse_reverse]

end Word

theorem Word.optional (ws : List Word) {row : List Word} (h : row ∈ [] :: ws.map ([·])) :
    ∃ word : Option Word, row = word.toList ∧ ∀ w ∈ word, w ∈ ws := by
  obtain rfl | h := List.mem_cons.mp h
  · exact ⟨none, rfl, by simp⟩
  · obtain ⟨w, hw, rfl⟩ := List.mem_map.mp h
    exact ⟨some w, rfl, by simpa using hw⟩

/-! ## Fields and values -/

open Word hiding token

theorem Field.rule_cases {repeated : Bool} {rule : List Word}
    (h : rule ∈ if repeated then [[ident "repeated"]]
      else [[], [ident "optional"], [ident "required"]]) :
    ∃ word : Option Word, rule = word.toList ∧
      (∀ w ∈ word, w.1 = .ident ∧ w.2 ∈ Grammar.fieldRules) ∧
        word.any (·.2 == "repeated") = repeated := by
  cases repeated with
  | true =>
      obtain rfl := by simpa using h
      exact ⟨some (ident "repeated"), rfl, by rintro _ ⟨⟩; exact ⟨rfl, by decide⟩, rfl⟩
  | false =>
      obtain rfl | rfl | rfl := by simpa using h
      · exact ⟨none, rfl, by simp, rfl⟩
      · exact ⟨some (ident "optional"), rfl, by rintro _ ⟨⟩; exact ⟨rfl, by decide⟩, rfl⟩
      · exact ⟨some (ident "required"), rfl, by rintro _ ⟨⟩; exact ⟨rfl, by decide⟩, rfl⟩

theorem Field.Written.derived {f : Field String Int Bool} {ws : List Word} (h : f.Written ws) :
    ∃ d : Derivation, d.Spells (.rule .field) ws ∧ d.field = f ∧ d.warnings = [] ∧
      ∀ t ∈ d.yield.head?, ¬t.isWord "option" := by
  obtain ⟨rule, hrule, typeWords, tag, hpath, plain, counts, rfl⟩ := h
  obtain ⟨type, htype⟩ := hpath.typeName
  obtain ⟨hkind, value, quiet⟩ := counts.token
  obtain ⟨word, rfl, hword, repeated⟩ := Field.rule_cases hrule
  have root : (node (.rule .field) (word.toList.map (fun w => ofToken .fieldRule w.token) ++
      type :: ofToken .ident (ident f.name).token :: .token equals.token ::
        ofToken .number tag.token :: [.token semicolon.token])).From (.rule .field) := by
    refine from_field.mpr ⟨word.map (·.token), type, (ident f.name).token, equals.token, tag.token,
      none, semicolon.token, ?_, ?_, htype.root, rfl, rfl, hkind, by simp, rfl⟩
    · cases word <;> rfl
    · intro t ht
      obtain ⟨w, hw, rfl⟩ := Option.mem_map.mp ht
      exact hword w hw
  refine ⟨_, ⟨root, ?_⟩, ?_, ?_, ?_⟩
  · cases word <;> simp [htype.yield]
  · have rooted := htype.root.rooted
    cases f
    cases word <;>
      simp_all [Derivation.field, words, parts, textOf, rooted.having_cons, htype.yield,
        hpath.dottedText, ident]
  · cases word <;>
      simp [warnings_eq, numbers_node, htype.root.numbers_eq_nil (by decide), quiet]
  · cases word with
    | none =>
        obtain ⟨first, more, -, rfl⟩ := hpath
        simpa [htype.yield, path, Token.isWord, ident] using plain
    | some w =>
        obtain ⟨-, rule⟩ := hword w rfl
        rintro t ⟨⟩ word
        obtain ⟨-, text⟩ : w.1 = .ident ∧ w.2 = "option" := by simpa [Token.isWord] using word
        rw [text] at rule
        exact absurd rule (by decide)

theorem EnumValue.Written.derived {v : EnumValue String Int} {ws : List Word} (h : v.Written ws) :
    ∃ d : Derivation, d.Spells (.rule .enumValue) ws ∧ d.enumValue = v ∧ d.warnings = [] := by
  obtain ⟨number, counts, rfl⟩ := h
  obtain ⟨hkind, value, quiet⟩ := counts.token
  have root : (node (.rule .enumValue) (ofToken .ident (ident v.name).token ::
      .token equals.token :: ofToken .number number.token ::
        [.token semicolon.token])).From (.rule .enumValue) :=
    from_enumValue.mpr ⟨_, _, _, none, _, rfl, rfl, rfl, hkind, by simp, rfl⟩
  refine ⟨_, ⟨root, by simp⟩, ?_, ?_⟩
  · cases v
    simp_all [Derivation.enumValue, words, parts, textOf, ident]
  · simp [warnings_eq, numbers_node, quiet]

/-! ## Definitions -/

namespace Derivation

/-- The derivation of a definition with the elements `ds`. -/
def definitionOf (r : Rule) (w s : String) (ds : List Derivation) : Derivation :=
  .node (.rule r) (.token (ident w).token :: ofToken .ident (ident s).token ::
    .token lbrace.token :: (ds ++ [.token rbrace.token]))

variable {r : Rule} {w s : String} {ds : List Derivation}

theorem definitionOf_defines {P : Derivation → Prop} (h : ∀ d ∈ ds, P d) :
    Defines r w P (definitionOf r w s ds) :=
  ⟨_, _, _, ds, _, rfl, by simp [Token.isWord, ident], rfl, rfl, fun d hd => .inl (h d hd), rfl⟩

theorem definitionOf_yield {body : List Word} (h : yieldList ds = body.map Word.token) :
    (definitionOf r w s ds).yield = (definition w s body).map Word.token := by
  simp [definitionOf, definition, h]

theorem definitionOf_name (h : having .ident ds = []) :
    textOf ((definitionOf r w s ds).words .ident) = s := by
  simp [definitionOf, words, parts, h, textOf, ident]

theorem definitionOf_having {r' : Rule} (h : r' ≠ .ident) :
    having r' (definitionOf r w s ds).parts = having r' ds := by
  simp [definitionOf, parts, h.symm]

theorem definitionOf_warnings (hr : r ∉ [.number, .optionDecl]) :
    (definitionOf r w s ds).warnings = (numbersList ds).flatMap (·.warnings) := by
  rw [warnings, definitionOf, numbers_node (by rintro ⟨⟩; simp at hr) (by rintro ⟨⟩; simp at hr)]
  simp

theorem derived_list {P : α → List Word → Prop} {x : Symbol} {g : Derivation → α}
    (h : ∀ a ws, P a ws → ∃ d : Derivation, d.Spells x ws ∧ g d = a ∧ d.warnings = [])
    {as : List α} {rows : List (List Word)} (written : List.Forall₂ P as rows) :
    ∃ ds : List Derivation, (∀ d ∈ ds, d.From x) ∧ yieldList ds = rows.flatten.map Word.token ∧
      ds.map g = as ∧ (numbersList ds).flatMap (·.warnings) = [] := by
  induction written with
  | nil => exact ⟨[], by simp, rfl, rfl, rfl⟩
  | cons head _ ih =>
      obtain ⟨d, spells, rfl, quiet⟩ := h _ _ head
      obtain ⟨ds, roots, yield, rfl, quiets⟩ := ih
      refine ⟨d :: ds, List.forall_mem_cons.mpr ⟨spells.root, roots⟩, ?_, rfl, ?_⟩
      · simp [yield, spells.yield]
      · rw [numbersList_cons, List.flatMap_append, quiets, List.append_nil]
        exact quiet

end Derivation

theorem EnumDef.Written.derived {e : EnumDef String Int} {ws : List Word} (h : e.Written ws) :
    ∃ d : Derivation, d.Spells (.rule .enumDef) ws ∧ d.enumDef = e ∧ d.warnings = [] := by
  obtain ⟨rows, written, rfl⟩ := h
  obtain ⟨ds, roots, yield, values, quiet⟩ :=
    derived_list (fun _ _ => EnumValue.Written.derived) written
  have rooted : ∀ d ∈ ds, d.Rooted (.rule .enumValue) := fun d hd => (roots d hd).rooted
  have root := from_enumDef.mpr (definitionOf_defines (r := .enumDef) (w := "enum") (s := e.name)
    fun d hd => .inl (roots d hd))
  refine ⟨_, ⟨root, definitionOf_yield yield⟩, ?_, ?_⟩
  · rw [Derivation.enumDef, definitionOf_name (by simp [having_all rooted]),
      definitionOf_having (by decide), having_all rooted]
    simp [values]
  · rw [definitionOf_warnings (by decide), quiet]

theorem Method.TypeWritten.derived {type : String} {ws : List Word}
    (h : Method.TypeWritten type ws) : ∃ d : Derivation, d.Spells (.rule .messageType) ws ∧
      dottedText (d.words .fullIdent) = type := by
  obtain ⟨stream, hstream, pathWords, hpath, rfl⟩ := h
  obtain ⟨path, spells⟩ := hpath.fullIdent
  obtain ⟨word, rfl, hword⟩ := Word.optional [ident "stream"] hstream
  have root : (node (.rule .messageType) (word.toList.map (fun w => ofToken .stream w.token) ++
      [path])).From (.rule .messageType) := by
    refine from_messageType.mpr ⟨word.map (·.token), path, ?_, ?_, spells.root⟩
    · cases word <;> rfl
    · intro t ht
      obtain ⟨w, hw, rfl⟩ := Option.mem_map.mp ht
      rw [List.mem_singleton.mp (hword w hw)]
      rfl
  have rooted := spells.root.rooted
  refine ⟨_, ⟨root, ?_⟩, ?_⟩
  · cases word <;> simp [spells.yield]
  · cases word <;> simp [words, parts, rooted.having_cons, spells.yield, hpath.dottedText]

theorem Method.Written.derived {m : Method String} {ws : List Word} (h : m.Written ws) :
    ∃ d : Derivation, d.Spells (.rule .rpcDef) ws ∧ d.method = m ∧ d.warnings = [] := by
  obtain ⟨requestWords, responseWords, hrequest, hresponse, close, hclose, rfl⟩ := h
  obtain ⟨request, spells, input⟩ := hrequest.derived
  obtain ⟨response, spells', output⟩ := hresponse.derived
  obtain ⟨closing, same, ends⟩ : ∃ closing, closing = close.map Word.token ∧
      MethodEnd (closing.map .token) := by
    refine ⟨_, rfl, ?_⟩
    obtain rfl | rfl := by simpa using hclose
    · exact .inl ⟨_, rfl, rfl⟩
    · exact .inr ⟨_, [], _, rfl, by simp, rfl, rfl⟩
  have root : (node (.rule .rpcDef) (.token (ident "rpc").token ::
      ofToken .ident (ident m.name).token :: .token lparen.token :: request ::
        .token rparen.token :: .token (ident "returns").token :: .token lparen.token :: response ::
          .token rparen.token :: closing.map .token)).From (.rule .rpcDef) :=
    from_rpcDef.mpr ⟨_, _, _, request, _, _, _, response, _, _, rfl, rfl, rfl, rfl, spells.root,
      rfl, rfl, rfl, spells'.root, rfl, ends⟩
  have rooted := spells.root.rooted
  have rooted' := spells'.root.rooted
  refine ⟨_, ⟨root, by simp [spells.yield, spells'.yield, ← same]⟩, ?_, ?_⟩
  · cases m
    simp_all [Derivation.method, words, parts, textOf, rooted.having_cons, rooted'.having_cons,
      ident]
  · simp [warnings_eq, numbers_node, spells.root.numbers_eq_nil (by decide),
      spells'.root.numbers_eq_nil (by decide)]

theorem Service.Written.derived {s : Service String} {ws : List Word} (h : s.Written ws) :
    ∃ d : Derivation, d.Spells (.rule .serviceDef) ws ∧ d.service = s ∧ d.warnings = [] := by
  obtain ⟨rows, written, rfl⟩ := h
  obtain ⟨ds, roots, yield, methods, quiet⟩ :=
    derived_list (fun _ _ => Method.Written.derived) written
  have rooted : ∀ d ∈ ds, d.Rooted (.rule .rpcDef) := fun d hd => (roots d hd).rooted
  have root := from_serviceDef.mpr (definitionOf_defines (r := .serviceDef) (w := "service")
    (s := s.name) fun d hd => .inl (roots d hd))
  refine ⟨_, ⟨root, definitionOf_yield yield⟩, ?_, ?_⟩
  · rw [Derivation.service, definitionOf_name (by simp [having_all rooted]),
      definitionOf_having (by decide), having_all rooted]
    simp [methods]
  · rw [definitionOf_warnings (by decide), quiet]

/-! ## Messages -/

namespace Derivation

/-- The derivations `ds` are the elements of the message `m`, over the words `body`. -/
structure BodyOf (m : Message String Int Bool) (body : List Word) (ds : List Derivation) :
    Prop where
  elements : ∀ d ∈ ds, d.MessageElement (·.From (.rule .messageDef))
  yield : yieldList ds = body.map Word.token
  fields : (having .field ds).map field = m.fields
  messages : messages ds = m.messages
  enums : (having .enumDef ds).map enumDef = m.enums
  quiet : (numbersList ds).flatMap (·.warnings) = []
  nesting : nestingList ds ≤ Message.depthList m.messages

theorem MessageElement.label?_ne_ident {d : Derivation}
    (h : d.MessageElement (·.From (.rule .messageDef))) : d.label? ≠ some .ident := by
  obtain ⟨h, -⟩ | h | h | h := h
  all_goals simp [h.label?_eq]

theorem nestingList_cons_le {d : Derivation} {ds : List Derivation} {m n : Nat}
    (head : d.nesting ≤ m)
    (tail : nestingList ds ≤ n) : nestingList (d :: ds) ≤ max m n := by
  rw [nestingList]
  omega

theorem quiet_cons {d : Derivation} {ds : List Derivation} (head : d.warnings = [])
    (tail : (numbersList ds).flatMap (·.warnings) = []) :
    (numbersList (d :: ds)).flatMap (·.warnings) = [] := by
  rw [numbersList_cons, List.flatMap_append, tail, List.append_nil]
  exact head

theorem BodyOf.derived {m : Message String Int Bool} {body : List Word} {ds : List Derivation}
    (h : BodyOf m body ds) :
    let d := definitionOf .messageDef "message" m.name ds
    d.Spells (.rule .messageDef) (definition "message" m.name body) ∧ d.message = m ∧
      d.warnings = [] ∧ d.nesting ≤ m.depth := by
  intro d
  have root := from_messageDef.mpr
    (definitionOf_defines (r := .messageDef) (w := "message") (s := m.name) h.elements)
  have name := definitionOf_name (r := .messageDef) (w := "message") (s := m.name)
    (having_eq_nil fun d hd => (h.elements d hd).label?_ne_ident)
  refine ⟨⟨root, definitionOf_yield h.yield⟩, ?_, ?_, ?_⟩
  · simp only [d]
    rw [definitionOf] at name ⊢
    rw [message, name]
    simp [Derivation.messages, messages_append, label?, ofToken, h.fields, h.messages, h.enums]
    cases m
    rfl
  · exact (definitionOf_warnings (by decide)).trans h.quiet
  · obtain ⟨s, fs, ms, es⟩ := m
    refine Nat.succ_le_succ (nestingList_le.mpr fun d hd => ?_)
    simp only [List.mem_cons, List.mem_append, List.not_mem_nil, or_false] at hd
    obtain rfl | rfl | rfl | hd | rfl := hd
    · exact Nat.zero_le _
    · exact Nat.zero_le _
    · exact Nat.zero_le _
    · exact nestingList_le.mp h.nesting d hd
    · exact Nat.zero_le _

theorem BodyOf.field {f : Field String Int Bool} {s : String} {fs ms es} {front back : List Word}
    {d : Derivation} {ds : List Derivation} (spells : d.Spells (.rule .field) front)
    (same : d.field = f) (quiet : d.warnings = []) (first : ∀ t ∈ d.yield.head?, ¬t.isWord "option")
    (rest : BodyOf ⟨s, fs, ms, es⟩ back ds) :
    BodyOf ⟨s, f :: fs, ms, es⟩ (front ++ back) (d :: ds) where
  elements := List.forall_mem_cons.mpr ⟨.inl ⟨spells.root, first⟩, rest.elements⟩
  yield := by simp [spells.yield, rest.yield]
  fields := by simp [having_cons, spells.root.label?_eq, same, rest.fields]
  messages := by simp [Derivation.messages, spells.root.label?_eq, rest.messages]
  enums := by simp [having_cons, spells.root.label?_eq, rest.enums]
  quiet := quiet_cons quiet rest.quiet
  nesting := by
    have := spells.root.nesting_eq_zero (by decide) (by decide)
    simpa using nestingList_cons_le this.le rest.nesting

theorem BodyOf.message {m : Message String Int Bool} {s : String} {fs ms es}
    {front back : List Word} {d : Derivation} {ds : List Derivation}
    (spells : d.Spells (.rule .messageDef) front) (same : d.message = m) (quiet : d.warnings = [])
    (shallow : d.nesting ≤ m.depth) (rest : BodyOf ⟨s, fs, ms, es⟩ back ds) :
    BodyOf ⟨s, fs, m :: ms, es⟩ (front ++ back) (d :: ds) where
  elements := List.forall_mem_cons.mpr ⟨.inr (.inl spells.root), rest.elements⟩
  yield := by simp [spells.yield, rest.yield]
  fields := by simp [having_cons, spells.root.label?_eq, rest.fields]
  messages := by simp [Derivation.messages, spells.root.label?_eq, same, rest.messages]
  enums := by simp [having_cons, spells.root.label?_eq, rest.enums]
  quiet := quiet_cons quiet rest.quiet
  nesting := nestingList_cons_le shallow rest.nesting

theorem BodyOf.enumDef {e : EnumDef String Int} {s : String} {fs ms es} {front back : List Word}
    {d : Derivation} {ds : List Derivation} (spells : d.Spells (.rule .enumDef) front)
    (same : d.enumDef = e) (quiet : d.warnings = []) (rest : BodyOf ⟨s, fs, ms, es⟩ back ds) :
    BodyOf ⟨s, fs, ms, e :: es⟩ (front ++ back) (d :: ds) where
  elements := List.forall_mem_cons.mpr ⟨.inr (.inr (.inl spells.root)), rest.elements⟩
  yield := by simp [spells.yield, rest.yield]
  fields := by simp [having_cons, spells.root.label?_eq, rest.fields]
  messages := by simp [Derivation.messages, spells.root.label?_eq, rest.messages]
  enums := by simp [having_cons, spells.root.label?_eq, same, rest.enums]
  quiet := quiet_cons quiet rest.quiet
  nesting := by
    have := spells.root.nesting_eq_zero (by decide) (by decide)
    simpa using nestingList_cons_le this.le rest.nesting

end Derivation

theorem Message.BodyWritten.derived {m : Message String Int Bool} {body : List Word}
    (h : m.BodyWritten body) : ∃ ds, BodyOf m body ds := by
  induction h with
  | nil s => exact ⟨[], by simp, rfl, rfl, rfl, rfl, rfl, Nat.le_refl _⟩
  | field head _ ih =>
      obtain ⟨d, spells, same, quiet, first⟩ := head.derived
      obtain ⟨ds, rest⟩ := ih
      exact ⟨d :: ds, rest.field spells same quiet first⟩
  | message _ _ ih ih' =>
      obtain ⟨es, body⟩ := ih
      obtain ⟨spells, same, quiet, shallow⟩ := body.derived
      obtain ⟨ds, rest⟩ := ih'
      exact ⟨_ :: ds, rest.message spells same quiet shallow⟩
  | enumDef head _ ih =>
      obtain ⟨d, spells, same, quiet⟩ := head.derived
      obtain ⟨ds, rest⟩ := ih
      exact ⟨d :: ds, rest.enumDef spells same quiet⟩

theorem Message.Written.derived {m : Message String Int Bool} {ws : List Word} (h : m.Written ws) :
    ∃ d : Derivation, d.Spells (.rule .messageDef) ws ∧ d.message = m ∧ d.warnings = [] ∧
      d.nesting ≤ m.depth := by
  obtain ⟨body, written, rfl⟩ := h
  obtain ⟨ds, body⟩ := written.derived
  exact ⟨_, body.derived⟩

/-! ## Files -/

namespace Schema

theorem VersionWritten.derived {version : String} {ws : List Word} (h : VersionWritten version ws) :
    ∃ statement : Option Derivation, (∀ d ∈ statement, d.From (.rule .syntaxDecl)) ∧
      yieldList statement.toList = ws.map Word.token ∧
        (statement.map fun d => Node.unquote (textOf (d.words .stringLit))).getD defaultVersion =
          version := by
  obtain ⟨rfl, rfl⟩ | ⟨text, literal, rfl⟩ := h
  · exact ⟨none, by simp, rfl, rfl⟩
  · obtain ⟨hkind, value⟩ := literal.token
    refine ⟨some (.node (.rule .syntaxDecl) [.token (ident "syntax").token, .token equals.token,
      ofToken .stringLit text.token, .token semicolon.token]), ?_, by simp, ?_⟩
    · rintro _ ⟨⟩
      exact from_syntaxDecl.mpr ⟨_, _, _, _, rfl, rfl, rfl, hkind, rfl⟩
    · simpa [words, parts, textOf] using value

theorem PackageWritten.derived {package : Option String} {ws : List Word}
    (h : PackageWritten package ws) :
    ∃ statement : Option Derivation, (∀ d ∈ statement, d.From (.rule .packageDecl)) ∧
      yieldList statement.toList = ws.map Word.token ∧
        (statement.map fun d => dottedText (d.words .fullIdent)) = package := by
  cases package with
  | none =>
      obtain rfl : ws = [] := h
      exact ⟨none, by simp, rfl, rfl⟩
  | some s =>
      obtain ⟨pathWords, hpath, rfl⟩ : ∃ path, DottedName s path ∧
        ws = ident "package" :: (path ++ [semicolon]) := h
      obtain ⟨path, spells⟩ := hpath.fullIdent
      have rooted := spells.root.rooted
      refine ⟨some (.node (.rule .packageDecl) [.token (ident "package").token, path,
        .token semicolon.token]), ?_, by simp [spells.yield], ?_⟩
      · rintro _ ⟨⟩
        exact from_packageDecl.mpr ⟨_, _, _, rfl, rfl, spells.root, rfl⟩
      · simp [words, parts, rooted.having_cons, spells.yield, hpath.dottedText]

theorem ImportWritten.derived {s : String} {ws : List Word} (h : ImportWritten s ws) :
    ∃ d : Derivation, d.Spells (.rule .importDecl) ws ∧
      Node.unquote (textOf (d.words .stringLit)) = s ∧ d.warnings = [] := by
  obtain ⟨visibility, hvisibility, text, literal, rfl⟩ := h
  obtain ⟨hkind, value⟩ := literal.token
  obtain ⟨word, rfl, hword⟩ := Word.optional [ident "public", ident "weak"] hvisibility
  have root : (node (.rule .importDecl) (.token (ident "import").token ::
      (word.map (·.token)).toList.map .token ++
        [ofToken .stringLit text.token, .token semicolon.token])).From (.rule .importDecl) := by
    refine from_importDecl.mpr ⟨_, word.map (·.token), _, _, rfl, rfl, ?_, hkind, rfl⟩
    intro t ht
    obtain ⟨w, hw, rfl⟩ := Option.mem_map.mp ht
    obtain rfl | rfl := by simpa using hword w hw
    · exact .inl rfl
    · exact .inr rfl
  refine ⟨_, ⟨root, ?_⟩, ?_, ?_⟩
  · cases word <;> simp
  · cases word <;> simpa [words, parts, textOf] using value
  · cases word <;> simp [warnings_eq, numbers_node]

end Schema

namespace Derivation

/-- The derivations `ds` are the definitions of a file, over the words `body`. -/
structure DefinitionsOf (ms : List (Message String Int Bool)) (es : List (EnumDef String Int))
    (ss : List (Service String)) (body : List Word) (ds : List Derivation) : Prop where
  definitions : ∀ d ∈ ds, d.TopLevel (·.From (.rule .messageDef))
  yield : yieldList ds = body.map Word.token
  messages : messages ds = ms
  enums : (having .enumDef ds).map enumDef = es
  services : (having .serviceDef ds).map service = ss
  quiet : (numbersList ds).flatMap (·.warnings) = []
  nesting : nestingList ds ≤ Message.depthList ms

namespace DefinitionsOf

variable {ms : List (Message String Int Bool)} {es : List (EnumDef String Int)}
  {ss : List (Service String)} {front back : List Word} {d : Derivation} {ds : List Derivation}

theorem message {m : Message String Int Bool} (spells : d.Spells (.rule .messageDef) front)
    (same : d.message = m) (quiet : d.warnings = []) (shallow : d.nesting ≤ m.depth)
    (rest : DefinitionsOf ms es ss back ds) :
    DefinitionsOf (m :: ms) es ss (front ++ back) (d :: ds) where
  definitions := List.forall_mem_cons.mpr ⟨.inl spells.root, rest.definitions⟩
  yield := by simp [spells.yield, rest.yield]
  messages := by simp [Derivation.messages, spells.root.label?_eq, same, rest.messages]
  enums := by simp [having_cons, spells.root.label?_eq, rest.enums]
  services := by simp [having_cons, spells.root.label?_eq, rest.services]
  quiet := quiet_cons quiet rest.quiet
  nesting := nestingList_cons_le shallow rest.nesting

theorem enumDef {e : EnumDef String Int} (spells : d.Spells (.rule .enumDef) front)
    (same : d.enumDef = e) (quiet : d.warnings = []) (rest : DefinitionsOf ms es ss back ds) :
    DefinitionsOf ms (e :: es) ss (front ++ back) (d :: ds) where
  definitions := List.forall_mem_cons.mpr ⟨.inr (.inl spells.root), rest.definitions⟩
  yield := by simp [spells.yield, rest.yield]
  messages := by simp [Derivation.messages, spells.root.label?_eq, rest.messages]
  enums := by simp [having_cons, spells.root.label?_eq, same, rest.enums]
  services := by simp [having_cons, spells.root.label?_eq, rest.services]
  quiet := quiet_cons quiet rest.quiet
  nesting := by
    have := spells.root.nesting_eq_zero (by decide) (by decide)
    simpa using nestingList_cons_le this.le rest.nesting

theorem service {s : Service String} (spells : d.Spells (.rule .serviceDef) front)
    (same : d.service = s) (quiet : d.warnings = []) (rest : DefinitionsOf ms es ss back ds) :
    DefinitionsOf ms es (s :: ss) (front ++ back) (d :: ds) where
  definitions := List.forall_mem_cons.mpr ⟨.inr (.inr (.inl spells.root)), rest.definitions⟩
  yield := by simp [spells.yield, rest.yield]
  messages := by simp [Derivation.messages, spells.root.label?_eq, rest.messages]
  enums := by simp [having_cons, spells.root.label?_eq, rest.enums]
  services := by simp [having_cons, spells.root.label?_eq, same, rest.services]
  quiet := quiet_cons quiet rest.quiet
  nesting := by
    have := spells.root.nesting_eq_zero (by decide) (by decide)
    simpa using nestingList_cons_le this.le rest.nesting

end DefinitionsOf

end Derivation

theorem Schema.DefinitionsWritten.derived {ms es ss} {body : List Word}
    (h : DefinitionsWritten ms es ss body) : ∃ ds, DefinitionsOf ms es ss body ds := by
  induction h with
  | nil => exact ⟨[], by simp, rfl, rfl, rfl, rfl, rfl, Nat.le_refl _⟩
  | message head _ ih =>
      obtain ⟨d, spells, same, quiet, shallow⟩ := head.derived
      obtain ⟨ds, rest⟩ := ih
      exact ⟨d :: ds, rest.message spells same quiet shallow⟩
  | enumDef head _ ih =>
      obtain ⟨d, spells, same, quiet⟩ := head.derived
      obtain ⟨ds, rest⟩ := ih
      exact ⟨d :: ds, rest.enumDef spells same quiet⟩
  | service head _ ih =>
      obtain ⟨d, spells, same, quiet⟩ := head.derived
      obtain ⟨ds, rest⟩ := ih
      exact ⟨d :: ds, rest.service spells same quiet⟩

namespace Derivation

theorem messages_eq_map (ds : List Derivation) :
    messages ds = (having .messageDef ds).map message := by
  induction ds with
  | nil => rfl
  | cons d ds ih =>
      rw [messages, ih, having_cons]
      split <;> rfl

theorem TopLevel.label?_mem {P : Derivation → Prop} {d : Derivation} (h : d.TopLevel P)
    (hp : P d → d.From (.rule .messageDef)) :
    d.label? ∈ [some .messageDef, some .enumDef, some .serviceDef, some .optionDecl] := by
  obtain h | h | h | h := h
  · simp [(hp h).label?_eq]
  all_goals simp [h.label?_eq]

theorem DefinitionsOf.schema {p : Schema} {version package : Option Derivation}
    {imports definitions : List Derivation} {last : Token} {body : List Word}
    (versionRoot : ∀ d ∈ version, d.From (.rule .syntaxDecl))
    (packageRoot : ∀ d ∈ package, d.From (.rule .packageDecl))
    (importRoots : ∀ d ∈ imports, d.From (.rule .importDecl))
    (versionText : (version.map fun d => Node.unquote (textOf (d.words .stringLit))).getD
      Schema.defaultVersion = p.version)
    (packageText : (package.map fun d => dottedText (d.words .fullIdent)) = p.package)
    (importTexts : imports.map (fun d => Node.unquote (textOf (d.words .stringLit))) = p.imports)
    (h : DefinitionsOf p.messages p.enums p.services body definitions) :
    (node (.rule .protoFile) (version.toList ++ (package.toList ++ (imports ++ definitions)) ++
      [.token last])).schema = p := by
  have versions : ∀ d ∈ version.toList, d.Rooted (.rule .syntaxDecl) :=
    fun d hd => (versionRoot d (by simpa using hd)).rooted
  have packages : ∀ d ∈ package.toList, d.Rooted (.rule .packageDecl) :=
    fun d hd => (packageRoot d (by simpa using hd)).rooted
  have imported : ∀ d ∈ imports, d.Rooted (.rule .importDecl) :=
    fun d hd => (importRoots d hd).rooted
  have others {r : Rule} (hr : some r ∉
      [some .messageDef, some .enumDef, some .serviceDef, some .optionDecl]) :
      having r definitions = [] :=
    having_eq_nil fun d hd eq => hr (eq ▸ (h.definitions d hd).label?_mem id)
  have messages := messages_eq_map definitions ▸ h.messages
  rw [Derivation.schema, messages_eq_map]
  have only (o : Option Derivation) : o.toList.getLast? = o := by cases o <;> rfl
  simp [Derivation.parts, having_all versions, having_all packages, having_all imported, others,
    messages, h.enums, h.services, importTexts, only, versionText, packageText]

end Derivation

/-- The words that write a schema have a derivation that declares it, without warnings. -/
theorem Schema.Written.derived {p : Schema} {ws : List Word} (h : p.Written ws) (last : Token)
    (eof : last.kind = .eof) : ∃ d : Derivation, Derives (ws.map Word.token ++ [last]) d ∧
      d.schema = p ∧ d.warnings = [] ∧ d.nesting ≤ p.depth := by
  obtain ⟨_, _, _, _, hversion, hpackage, himports, hdefinitions, rfl⟩ := h
  obtain ⟨version, versionRoot, versionYield, versionText⟩ := hversion.derived
  obtain ⟨package, packageRoot, packageYield, packageText⟩ := hpackage.derived
  obtain ⟨imports, importRoots, importYield, importTexts, importsQuiet⟩ :=
    derived_list (fun _ _ => ImportWritten.derived) himports
  obtain ⟨definitions, body⟩ := hdefinitions.derived
  have parts : FileParts (·.From (.rule .messageDef))
      (version.toList ++ (package.toList ++ (imports ++ definitions))) :=
    ⟨version, package, imports, definitions, rfl, versionRoot, packageRoot,
      fun d hd => .inl (importRoots d hd), body.definitions⟩
  refine ⟨_, ⟨from_protoFile.mpr ⟨_, last, rfl, parts, eof⟩, ?_⟩, ?_, ?_, ?_⟩
  · simp [versionYield, packageYield, importYield, body.yield]
  · exact body.schema versionRoot packageRoot importRoots versionText packageText importTexts
  · rw [warnings, numbers_node (by decide) (by decide)]
    simp only [numbersList_append, List.flatMap_append, numbersList_toList versionRoot (by decide),
      numbersList_toList packageRoot (by decide), importsQuiet, body.quiet, numbersList_cons,
      numbers_token, numbersList_nil, List.flatMap_nil, List.append_nil]
  · rw [nesting_file, nestingList_le]
    intro d hd
    simp only [List.mem_append, Option.mem_toList] at hd
    obtain hd | hd | hd | hd := hd
    · exact ((versionRoot d hd).nesting_eq_zero (by decide) (by decide)).trans_le (Nat.zero_le _)
    · exact ((packageRoot d hd).nesting_eq_zero (by decide) (by decide)).trans_le (Nat.zero_le _)
    · exact ((importRoots d hd).nesting_eq_zero (by decide) (by decide)).trans_le (Nat.zero_le _)
    · exact nestingList_le.mp body.nesting d hd

end ProtoSchema
