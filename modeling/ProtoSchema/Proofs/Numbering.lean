import ProtoSchema.Proofs.Numeral
import ProtoSchema.Proofs.Positions
import ProtoSchema.Proofs.Writable

/-! # Which number comes from which token

A derivation declares a schema for every way to read its numbers. Read as the tokens themselves,
they show where each number of the schema comes from: the numbers of fields and enum values are the
numbers of the schema, each of them once. A token that makes no tag counts as zero and is logged.
-/

namespace ProtoSchema

namespace Token

/-- The number that the digits of a token make. -/
def decimal (t : Token) : Nat :=
  Nat.ofDigitChars 10 t.text.toList 0

/-- The digits of a token make a number for tags and enum values. -/
def IsTag (t : Token) : Prop :=
  t.text.length ≤ 4300 ∧ t.decimal ≤ 2147483647

instance (t : Token) : Decidable t.IsTag :=
  inferInstanceAs (Decidable (_ ∧ _))

/-- The tag or enum number of a token. -/
def tag (t : Token) : Int :=
  if t.IsTag then t.decimal else 0

/-- What is logged about a token that makes no tag. -/
def fallbackEntry (t : Token) : Log.Entry :=
  ⟨.warning, "number_out_of_range",
    [("lexeme", .text t.text), ("line", .int t.line), ("col", .int t.col), ("fallback", .int 0)]⟩

theorem scan_digits {source : List Char} {tokens : List Token} (h : scan source = .ok tokens)
    {t : Token} (ht : t ∈ tokens) (number : t.kind = .number) :
    t.text.toList ≠ [] ∧ ∀ c ∈ t.text.toList, c.isDigit := by
  obtain ⟨rest, precedes⟩ := scan_precedes h ht (by simp [number])
  have digit {c : Char} (h : Lexeme.isDigit c) : c.isDigit := by
    simpa [Lexeme.isDigit, Char.isDigit, Char.le_def] using h
  rw [number] at precedes
  generalize t.text.toList = cs at precedes
  cases precedes with
  | number first inside =>
      exact ⟨by simp, List.forall_mem_cons.mpr ⟨digit first, fun c hc => digit (inside c hc)⟩⟩
  | delimiter kind => simpa using Lexeme.ofDelimiter?_kind kind

end Token

namespace Derivation

/-! ## Schemas for every reading of numbers -/

section Reading

variable {ν : Type} (number : Option Token → ν)

/-- The field that a derivation declares. -/
def fieldOf (d : Derivation) : Field String ν Bool where
  name := textOf (d.words .ident)
  typeName := dottedText (d.words .typeName)
  tag := number (d.words .number).head?
  repeated := (d.words .fieldRule).any (·.text == "repeated")

/-- The value of an enum that a derivation declares. -/
def enumValueOf (d : Derivation) : EnumValue String ν where
  name := textOf (d.words .ident)
  number := number (d.words .number).head?

/-- The enum that a derivation declares. -/
def enumDefOf (d : Derivation) : EnumDef String ν where
  name := textOf (d.words .ident)
  values := (having .enumValue d.parts).map (enumValueOf number)

mutual
/-- The message that a derivation declares. -/
def messageOf : Derivation → Message String ν Bool
  | .token _ => default
  | .node x parts =>
    ⟨textOf ((node x parts).words .ident), (having .field parts).map (fieldOf number),
      messagesOf parts, (having .enumDef parts).map (enumDefOf number)⟩

/-- The messages among some derivations. -/
def messagesOf : List Derivation → List (Message String ν Bool)
  | [] => []
  | d :: ds => if d.label? = some .messageDef then messageOf d :: messagesOf ds else messagesOf ds
end

/-- The schema that a derivation declares, where `number` reads the number of a field or a value
from the token that it has for it, if it has one. -/
def schemaOf (d : Derivation) : SchemaOf String (Option String) (List String) ν Bool where
  version := d.schema.version
  package := d.schema.package
  imports := d.schema.imports
  messages := messagesOf number d.parts
  enums := (having .enumDef d.parts).map (enumDefOf number)
  services := d.schema.services

end Reading

/-- The number that a schema has for a token. -/
def valueOf (t? : Option Token) : Int :=
  (t?.map (·.value)).getD Warning.fallback

mutual
theorem message_eq (d : Derivation) : d.message = d.messageOf valueOf := by
  cases d with
  | token t => rfl
  | node x parts =>
      rw [message, messageOf, messages_eq parts]
      rfl

theorem messages_eq (ds : List Derivation) : messages ds = messagesOf valueOf ds := by
  cases ds with
  | nil => rfl
  | cons d ds => rw [messages, messagesOf, message_eq d, messages_eq ds]
end

theorem schema_eq (d : Derivation) : d.schema = d.schemaOf valueOf := by
  rw [schemaOf, ← messages_eq]
  rfl

/-! ## Readings that agree on the numbers of a schema -/

section Congruence

variable {ν : Type} {f g : Option Token → ν}

theorem fieldOf_congr {d : Derivation} (h : f (d.fieldOf id).tag = g (d.fieldOf id).tag) :
    d.fieldOf f = d.fieldOf g :=
  congrArg (Field.mk _ _ · _) h

theorem enumValueOf_congr {d : Derivation}
    (h : f (d.enumValueOf id).number = g (d.enumValueOf id).number) :
    d.enumValueOf f = d.enumValueOf g :=
  congrArg (EnumValue.mk _ ·) h

theorem enumDefOf_congr {d : Derivation} (h : ∀ t? ∈ (d.enumDefOf id).numbers, f t? = g t?) :
    d.enumDefOf f = d.enumDefOf g := by
  refine congrArg (EnumDef.mk _ ·) (List.map_congr_left fun e he => enumValueOf_congr (h _ ?_))
  simp only [EnumDef.numbers, enumDefOf, List.map_map]
  exact List.mem_map_of_mem he

theorem enumsOf_congr {ds : List Derivation}
    (h : ∀ t? ∈ (ds.map (enumDefOf id)).flatMap (·.numbers), f t? = g t?) :
    ds.map (enumDefOf f) = ds.map (enumDefOf g) :=
  List.map_congr_left fun _ he => enumDefOf_congr fun t? ht =>
    h t? (List.mem_flatMap.mpr ⟨_, List.mem_map_of_mem he, ht⟩)

mutual
theorem messageOf_congr (d : Derivation) (h : ∀ t? ∈ (d.messageOf id).numbers, f t? = g t?) :
    d.messageOf f = d.messageOf g := by
  cases d with
  | token t => rfl
  | node x parts =>
      simp only [messageOf, Message.numbers, List.forall_mem_append] at h
      obtain ⟨fields, messages, enums⟩ := h
      have same : (having .field parts).map (fieldOf f) = (having .field parts).map (fieldOf g) :=
        List.map_congr_left fun e he => fieldOf_congr
          (fields _ (List.mem_map_of_mem (List.mem_map_of_mem he)))
      rw [messageOf, messageOf, same, messagesOf_congr parts messages, enumsOf_congr enums]

theorem messagesOf_congr (ds : List Derivation)
    (h : ∀ t? ∈ Message.numbersList (messagesOf id ds), f t? = g t?) :
    messagesOf f ds = messagesOf g ds := by
  cases ds with
  | nil => rfl
  | cons d ds =>
      simp only [messagesOf] at h ⊢
      split at h
      · next label =>
          rw [Message.numbersList, List.forall_mem_append] at h
          rw [if_pos label, if_pos label, messageOf_congr d h.1, messagesOf_congr ds h.2]
      · next label => rw [if_neg label, if_neg label, messagesOf_congr ds h]
end

theorem schemaOf_congr {d : Derivation} (h : ∀ t? ∈ (d.schemaOf id).numbers, f t? = g t?) :
    d.schemaOf f = d.schemaOf g := by
  rw [SchemaOf.numbers, List.forall_mem_append] at h
  obtain ⟨messages, enums⟩ := h
  rw [schemaOf, schemaOf, messagesOf_congr d.parts messages, enumsOf_congr enums]

end Congruence

/-! ## The numbers of a schema -/

variable {ν : Type} {number : Option Token → ν} {d : Derivation}

theorem numbers_parts {x : Symbol} (root : d.Rooted x) (number : x ≠ .rule .number)
    (option : x ≠ .rule .optionDecl) : d.numbers = numbersList d.parts := by
  obtain ⟨ps, rfl⟩ := root
  exact numbers_node number option ps

theorem map_having {r : Rule} {g : Derivation → ν} {f : Token → ν} {ds : List Derivation}
    (member : ∀ d ∈ ds, d.label? = some r → d.numbers.map f = [g d])
    (other : ∀ d ∈ ds, d.label? ≠ some r → d.numbers = []) :
    (having r ds).map g = (numbersList ds).map f := by
  induction ds with
  | nil => rfl
  | cons d ds ih =>
      obtain ⟨hm, hms⟩ := List.forall_mem_cons.mp member
      obtain ⟨ho, hos⟩ := List.forall_mem_cons.mp other
      rw [having_cons, numbersList_cons, List.map_append, ← ih hms hos]
      by_cases label : d.label? = some r
      · rw [if_pos label, hm label]
        rfl
      · rw [if_neg label, ho label]
        rfl

theorem From.enumDef_numbers (h : d.From (.rule .enumDef)) :
    (d.enumDefOf number).numbers = d.numbers.map (number ∘ some) := by
  have parts := (from_enumDef.mp h).part
  rw [EnumDef.numbers, enumDefOf, List.map_map, numbers_parts h.rooted (by decide) (by decide)]
  refine map_having (fun e he label => ?_) fun e he label => ?_
  · obtain ⟨t, rfl⟩ | name | value | option := parts e he
    · cases label
    · simp [name.label?_eq] at label
    · obtain ⟨t, word, same⟩ := value.enumValue_number
      simp [enumValueOf, word, same]
    · simp [option.label?_eq] at label
  · obtain ⟨t, rfl⟩ | name | value | option := parts e he
    · rfl
    · exact name.numbers_eq_nil (by decide)
    · exact absurd value.label?_eq label
    · exact option.optionDecl_numbers

/-- The numbers that a part adds to the message or the file around it. -/
def added (number : Option Token → ν) (d : Derivation) : List ν :=
  match d.label? with
  | some .field => [(d.fieldOf number).tag]
  | some .messageDef => (d.messageOf number).numbers
  | some .enumDef => (d.enumDefOf number).numbers
  | _ => []

/-- A schema lists its fields, messages and enums apart, whatever their order was. -/
theorem added_perm (number : Option Token → ν) (ds : List Derivation) :
    (((having .field ds).map (fieldOf number)).map (·.tag) ++
      (Message.numbersList (messagesOf number ds) ++
        ((having .enumDef ds).map (enumDefOf number)).flatMap (·.numbers))).Perm
      (ds.flatMap (added number)) := by
  induction ds with
  | nil => exact .refl _
  | cons d ds ih =>
      refine .trans ?_ (ih.append_left (added number d))
      rw [having_cons, having_cons, messagesOf]
      by_cases field : d.label? = some .field
      · simp [added, field]
      by_cases message : d.label? = some .messageDef
      · simp only [added, message, reduceCtorEq, Option.some.injEq, if_true, if_false,
          Message.numbersList, List.append_assoc]
        exact List.perm_append_comm_assoc ..
      by_cases enum : d.label? = some .enumDef
      · simp only [added, enum, reduceCtorEq, Option.some.injEq, if_true, if_false, List.map_cons,
          List.flatMap_cons]
        exact ((List.perm_append_comm_assoc ..).append_left _).trans
          (List.perm_append_comm_assoc ..)
      · have nothing : added number d = [] := by
          unfold added
          split <;> simp_all
        rw [nothing, if_neg field, if_neg message, if_neg enum]
        exact .refl _

/-- A part adds its own numbers, in some order. -/
def Accounted (number : Option Token → ν) (d : Derivation) : Prop :=
  (added number d).Perm (d.numbers.map (number ∘ some))

theorem Accounted.of_label {r : Rule} (label : d.label? = some r)
    (other : r ∉ [.field, .messageDef, .enumDef]) (none : d.numbers = []) :
    Accounted number d := by
  rw [Accounted, none, added, label]
  split <;> simp_all

theorem From.field_accounted (h : d.From (.rule .field)) : Accounted number d := by
  obtain ⟨tag, word, same⟩ := h.field_number
  rw [Accounted, added, h.label?_eq, same]
  simp [fieldOf, word]

theorem From.enumDef_accounted (h : d.From (.rule .enumDef)) : Accounted number d := by
  rw [Accounted, added, h.label?_eq]
  exact .of_eq h.enumDef_numbers

theorem From.optionDecl_accounted (h : d.From (.rule .optionDecl)) : Accounted number d :=
  .of_label h.label?_eq (by decide) h.optionDecl_numbers

theorem From.numberless_accounted {r : Rule} (h : d.From (.rule r))
    (other : r ∉ [.field, .messageDef, .enumDef]) (hr : .rule r ∈ numberless) :
    Accounted number d :=
  .of_label h.label?_eq other (h.numbers_eq_nil hr)

theorem numbersList_perm {ds : List Derivation} (h : ∀ d ∈ ds, Accounted number d) :
    (ds.flatMap (added number)).Perm ((numbersList ds).map (number ∘ some)) := by
  rw [numbersList_eq_flatMap, List.map_flatMap]
  exact .flatMap_left ds h

theorem MessageUpTo.accounted {limit : Nat} (h : d.MessageUpTo limit) : Accounted number d := by
  induction limit generalizing d with
  | zero => exact absurd h messageUpTo_zero
  | succ limit ih =>
      have part : ∀ e ∈ d.parts, Accounted number e := by
        intro e he
        obtain ⟨t, rfl⟩ | name | field | message | enum | option :=
          (messageUpTo_succ.mp h).part e he
        · exact .refl _
        · exact name.numberless_accounted (by decide) (by decide)
        · exact field.1.field_accounted
        · exact ih message
        · exact enum.enumDef_accounted
        · exact option.optionDecl_accounted
      rw [Accounted, added, h.1.label?_eq, numbers_parts h.1.rooted (by decide) (by decide)]
      obtain ⟨ds, rfl⟩ := h.1.rooted
      exact (added_perm number ds).trans (numbersList_perm part)

theorem From.serviceDef_numbers (h : d.From (.rule .serviceDef)) : d.numbers = [] := by
  rw [numbers_parts h.rooted (by decide) (by decide)]
  refine numbersList_eq_nil fun e he => ?_
  obtain ⟨t, rfl⟩ | name | method | option := (from_serviceDef.mp h).part e he
  · rfl
  · exact name.numbers_eq_nil (by decide)
  · exact method.rpcDef_numbers
  · exact option.optionDecl_numbers

theorem Statement.accounted (h : d.Statement) : Accounted number d := by
  obtain version | package | path | message | enum | service | option := h
  · exact version.numberless_accounted (by decide) (by decide)
  · exact package.numberless_accounted (by decide) (by decide)
  · exact path.numberless_accounted (by decide) (by decide)
  · exact MessageUpTo.accounted ⟨message, Nat.le_refl _⟩
  · exact enum.enumDef_accounted
  · exact .of_label service.label?_eq (by decide) service.serviceDef_numbers
  · exact option.optionDecl_accounted

theorem Statement.label?_ne_field (h : d.Statement) : d.label? ≠ some .field := by
  obtain h | h | h | h | h | h | h := h
  all_goals simp [h.label?_eq]

/-- The numbers of the schema of a file are those of the file, each of them once. -/
theorem From.schema_numbers (h : d.From (.rule .protoFile)) :
    (d.schemaOf number).numbers.Perm (d.numbers.map (number ∘ some)) := by
  obtain ⟨ds, last, rfl, file, -⟩ := from_protoFile.mp h
  have accounted : ∀ e ∈ ds ++ [.token last], Accounted number e := by
    intro e he
    obtain he | rfl := by simpa using he
    · exact (file.statements e he).accounted
    · exact .refl _
  have fields : having .field (ds ++ [.token last]) = [] := having_eq_nil fun e he => by
    obtain he | rfl := by simpa using he
    · exact (file.statements e he).label?_ne_field
    · simp [label?]
  have parts := added_perm number (ds ++ [.token last])
  rw [fields] at parts
  rw [numbers_node (by decide) (by decide)]
  exact parts.trans (numbersList_perm accounted)

mutual
theorem numbers_sublist (d : Derivation) : d.numbers.Sublist d.yield := by
  cases d with
  | token t => exact List.nil_sublist _
  | node x parts =>
      by_cases number : x = .rule .number
      · subst number
        exact .refl _
      by_cases option : x = .rule .optionDecl
      · subst option
        exact List.nil_sublist _
      rw [numbers_node number option]
      exact numbersList_sublist parts

theorem numbersList_sublist (ds : List Derivation) : (numbersList ds).Sublist (yieldList ds) := by
  cases ds with
  | nil => exact .refl _
  | cons d ds => exact (numbers_sublist d).append (numbersList_sublist ds)
end

end Derivation

open ProtoSchema.Derivation

namespace Token

variable {source : List Char} {tokens : List Token}

theorem scan_ofText? (h : scan source = .ok tokens) {t : Token} (ht : t ∈ tokens)
    (number : t.kind = .number) :
    Number.ofText? t.text = if t.IsTag then some (t.decimal : Int) else none := by
  obtain ⟨ne, digits⟩ := scan_digits h ht number
  exact Number.ofText?_digits digits ne

theorem scan_value (h : scan source = .ok tokens) {t : Token} (ht : t ∈ tokens)
    (number : t.kind = .number) : t.value = t.tag := by
  rw [value, scan_ofText? h ht number, tag]
  split <;> rfl

/-- Each number that makes no tag is logged, and no other. -/
theorem scan_log (h : scan source = .ok tokens) {ts : List Token}
    (numbers : ∀ t ∈ ts, t ∈ tokens ∧ t.kind = .number) :
    (ts.flatMap (·.warnings)).map (·.entry) = (ts.filter (¬·.IsTag)).map fallbackEntry := by
  induction ts with
  | nil => rfl
  | cons t ts ih =>
      obtain ⟨⟨mem, number⟩, rest⟩ := List.forall_mem_cons.mp numbers
      rw [List.flatMap_cons, List.map_append, ih rest, List.filter_cons, warnings,
        scan_ofText? h mem number]
      by_cases fits : t.IsTag
      · simp [fits]
      · simp [fits, Warning.entry, Warning.fallback, fallbackEntry]

end Token

namespace Schema

/-- The numbers of a text that is read, token by token, and what is logged about them. Their tokens
stand apart from those in options. A text that is not read fails before any number is looked at. -/
theorem ofText_numbers (limit : Nat) (path : String) (source : List Char) :
    (∀ p ws, ofText limit source = .ok (p, ws) → ∃ tokens d,
      Token.scan source = .ok tokens ∧ Derives tokens d ∧
        d.numbers.Sublist tokens ∧ d.numbers.Pairwise (·.start < ·.start) ∧
          (∀ t ∈ d.numbers, t.kind = .number) ∧
            (d.schemaOf id).numbers.Perm (d.numbers.map some) ∧
              p = d.schemaOf (fun t? => t?.elim 0 Token.tag) ∧
                readingLog path (.ok (p, ws)) = readingEntry path ::
                  (d.numbers.filter (¬·.IsTag)).map Token.fallbackEntry) ∧
    ∀ e, ofText limit source = .error e →
      (∃ e', Node.ofText limit source = .error e' ∧ e = .tree e') ∧
        readingLog path (.error (.schema e)) = [readingEntry path] := by
  refine ⟨fun p ws h => ?_, fun e h => ⟨ofText_eq_error.mp h, rfl⟩⟩
  obtain ⟨tokens, d, scanned, derives, -, rfl, rfl⟩ := ofText_eq_ok.mp h
  have sublist : d.numbers.Sublist tokens := derives.2 ▸ d.numbers_sublist
  have kind : ∀ t ∈ d.numbers, t.kind = .number := fun t ht => (derives.1.valid.numbers ht).2
  have perm : (d.schemaOf id).numbers.Perm (d.numbers.map some) := derives.1.schema_numbers
  have value : d.schemaOf valueOf = d.schemaOf (fun t? => t?.elim 0 Token.tag) :=
    schemaOf_congr fun t? ht => by
      obtain ⟨t, hd, rfl⟩ := List.mem_map.mp (perm.mem_iff.mp ht)
      exact Token.scan_value scanned (sublist.mem hd) (kind t hd)
  have log : d.warnings.map (·.entry) = (d.numbers.filter (¬·.IsTag)).map Token.fallbackEntry :=
    Token.scan_log scanned fun t ht => ⟨sublist.mem ht, kind t ht⟩
  exact ⟨tokens, d, scanned, derives, sublist, (Token.scan_sorted scanned).sublist sublist, kind,
    perm, d.schema_eq.trans value, congrArg (readingEntry path :: ·) log⟩

/-- A tag beyond 31 bits, an enum number with zeros before it and the greatest tag, with longer
numbers in two options; and a text that is not read. -/
theorem ofText_numbers_message :
    let limit := 1
    let source := "message M\x7boption x = 2147483649;\nA a = 2147483648 [n = 99999999999];".toList ++
      "enum E\x7bX = 007;\x7dB b = 2147483647;\x7d".toList
    let p : Schema := ⟨"proto3", none, [], [⟨"M", [⟨"a", "A", 0, false⟩,
      ⟨"b", "B", 2147483647, false⟩], [], [⟨"E", [⟨"X", 7⟩]⟩]⟩], [], []⟩
    let nameless := "enum = 99999999999".toList
    let mistake : ParseError := ⟨[.rule .ident], "enum_def", ⟨.equals, "=", 1, 6, 5, 6⟩⟩
    let log := [readingEntry "a.proto", ⟨.warning, "number_out_of_range",
      [("lexeme", .text "2147483648"), ("line", .int 2), ("col", .int 7), ("fallback", .int 0)]⟩]
    (ofText limit source = .ok (p, [⟨"2147483648", 2, 7⟩]) ∧ ∃ tokens d,
      Token.scan source = .ok tokens ∧ Derives tokens d ∧ d.numbers.Sublist tokens ∧
        (d.schemaOf id).numbers.Perm (d.numbers.map some) ∧
          p = d.schemaOf (fun t? => t?.elim 0 Token.tag) ∧
            log = readingEntry "a.proto" :: (d.numbers.filter (¬·.IsTag)).map Token.fallbackEntry) ∧
    ofText limit nameless = .error (.tree (.parse (.mismatch mistake))) ∧
      Node.ofText limit nameless = .error (.parse (.mismatch mistake)) ∧
        readingLog "a.proto" (.error (.schema (.tree (.parse (.mismatch mistake))))) =
          [readingEntry "a.proto"] := by
  intro limit source p nameless mistake log
  have read : ofText limit source = .ok (p, [⟨"2147483648", 2, 7⟩]) := by decide +kernel
  have unread : ofText limit nameless = .error (.tree (.parse (.mismatch mistake))) := by
    decide +kernel
  obtain ⟨tokens, d, scanned, derives, sublist, -, -, perm, schema, logged⟩ :=
    (ofText_numbers limit "a.proto" source).1 _ _ read
  obtain ⟨⟨e, tree, same⟩, quiet⟩ := (ofText_numbers limit "a.proto" nameless).2 _ unread
  obtain rfl : _ = e := by simpa using same
  exact ⟨⟨read, tokens, d, scanned, derives, sublist, perm, schema, logged⟩, unread, tree, quiet⟩

end Schema

end ProtoSchema
