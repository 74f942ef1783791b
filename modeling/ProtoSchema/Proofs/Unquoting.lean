import ProtoSchema.Proofs.WellFormed

/-! # Literals without their quotes

The version and the imports of a file are literals without their quotes. A literal between quotes
may end in an escaped quote, and then removing the quotes at its ends removes that one too. In all
other cases what is left is what stands between the first character and the last.
-/

namespace ProtoSchema

theorem Lexeme.Quoted.split (h : Quoted cs) :
    ∃ inner, cs = inner ++ ['"'] ∧ inner.head? ≠ some '"' ∧
      (inner.getLast? = some '"' → ∃ front, inner = front ++ ['\\', '"']) := by
  induction h with
  | close => exact ⟨[], rfl, by simp, by simp⟩
  | escape c _ ih =>
      obtain ⟨inner, rfl, -, last⟩ := ih
      refine ⟨'\\' :: c :: inner, rfl, by simp, fun quote => ?_⟩
      cases inner with
      | nil =>
          obtain rfl : c = '"' := by simpa using quote
          exact ⟨[], rfl⟩
      | cons d ds =>
          obtain ⟨front, same⟩ := last (by simpa using quote)
          exact ⟨'\\' :: c :: front, by rw [same]; rfl⟩
  | @plain c cs plain _ _ _ ih =>
      obtain ⟨inner, rfl, -, last⟩ := ih
      refine ⟨c :: inner, rfl, by simpa using plain, fun quote => ?_⟩
      cases inner with
      | nil => exact absurd (by simpa using quote) plain
      | cons d ds =>
          obtain ⟨front, same⟩ := last (by simpa using quote)
          exact ⟨c :: front, by rw [same]; rfl⟩

namespace Token

/-- The characters of a token without the first and the last. -/
def inner (t : Token) : List Char :=
  t.text.toList.tail.dropLast

/-- The last character inside is a quote, which is escaped then. -/
def EndsInQuote (t : Token) : Prop :=
  t.inner.getLast? = some '"'

instance (t : Token) : Decidable t.EndsInQuote :=
  inferInstanceAs (Decidable (_ = _))

variable {source : List Char} {tokens : List Token} {t : Token}

theorem scan_literal (h : scan source = .ok tokens) (ht : t ∈ tokens)
    (literal : t.kind = .stringLit) :
    t.text.toList = '"' :: (t.inner ++ ['"']) ∧ t.inner.head? ≠ some '"' ∧
      (t.EndsInQuote → ∃ front, t.inner = front ++ ['\\', '"']) := by
  obtain ⟨rest, precedes⟩ := scan_precedes h ht (by simp [literal])
  have quoted : ∃ body, t.text.toList = '"' :: body ∧ Lexeme.Quoted body := by
    generalize t.text.toList = cs at precedes
    rw [literal] at precedes
    cases precedes with
    | string inside => exact ⟨_, rfl, inside⟩
    | delimiter kind => simpa using Lexeme.ofDelimiter?_kind kind
  obtain ⟨_, text, quoted⟩ := quoted
  obtain ⟨inside, rfl, first, last⟩ := quoted.split
  have inner : t.inner = inside := by simp [Token.inner, text]
  rw [EndsInQuote, inner]
  exact ⟨text, first, last⟩

/-- Without the quotes at its ends a literal lacks the quote that ends what is inside, if one
does. -/
theorem scan_unquote (h : scan source = .ok tokens) (ht : t ∈ tokens)
    (literal : t.kind = .stringLit) :
    (Node.unquote t.text).toList = if t.EndsInQuote then t.inner.dropLast else t.inner := by
  obtain ⟨text, first, last⟩ := scan_literal h ht literal
  have opened : ((t.inner ++ ['"']).dropWhile (· == '"')).reverse.dropWhile (· == '"') =
      t.inner.reverse.dropWhile (· == '"') := by
    cases inside : t.inner with
    | nil => rfl
    | cons c cs =>
        have plain : c ≠ '"' := by simpa [inside] using first
        simp [plain]
  rw [Node.unquote, text, String.toList_ofList, List.dropWhile_cons_of_pos rfl, opened]
  by_cases quote : t.EndsInQuote
  · obtain ⟨front, inside⟩ := last quote
    simp [quote, inside]
  · rw [if_neg quote]
    rw [EndsInQuote, ← List.head?_reverse] at quote
    cases inside : t.inner.reverse with
    | nil => simpa using inside
    | cons c cs =>
        have plain : c ≠ '"' := by simpa [inside] using quote
        rw [List.dropWhile_cons_of_neg (by simpa using plain), ← inside, List.reverse_reverse]

/-- Just the literals without a quote at the end of what is inside are what is inside without the
quotes at their ends. -/
theorem scan_unquote_eq (h : scan source = .ok tokens) (ht : t ∈ tokens)
    (literal : t.kind = .stringLit) :
    (Node.unquote t.text).toList = t.inner ↔ ¬t.EndsInQuote := by
  rw [scan_unquote h ht literal]
  by_cases quote : t.EndsInQuote
  · obtain ⟨front, inside⟩ := (scan_literal h ht literal).2.2 quote
    simp [quote, inside]
  · simp [quote]

end Token

namespace Derivation

/-- The literals in the statements with the rule `r`. -/
def literals (r : Rule) (d : Derivation) : List Token :=
  (having r d.parts).flatMap (words .stringLit)

/-- The version is what is inside its literal, and so is each import. -/
def Unquotes (d : Derivation) (p : Schema) : Prop :=
  (∀ t ∈ d.literals .syntaxDecl, p.version.toList = t.inner) ∧
    p.imports.map (·.toList) = (d.literals .importDecl).map Token.inner

variable {d : Derivation} {r : Rule}

theorem having_sublist {f : Derivation → List Token} (inside : ∀ d, (f d).Sublist d.yield)
    (r : Rule) (d : Derivation) : ((having r d.parts).flatMap f).Sublist d.yield := by
  have parts (ds : List Derivation) : ((having r ds).flatMap f).Sublist (yieldList ds) := by
    induction ds with
    | nil => exact .refl _
    | cons d ds ih =>
        rw [having_cons]
        split
        · exact (inside d).append ih
        · exact ih.trans (List.sublist_append_right ..)
  cases d with
  | token t => exact List.nil_sublist _
  | node x ds => exact parts ds

theorem literals_sublist (r : Rule) (d : Derivation) : (d.literals r).Sublist d.yield := by
  refine having_sublist (fun e => ?_) r d
  rw [words, yieldList_eq_flatMap]
  exact having_sublist (fun _ => .refl _) .stringLit e

/-- There is one literal in the derivation. -/
def HasLiteral (d : Derivation) : Prop :=
  ∃ t, t.kind = .stringLit ∧ d.words .stringLit = [t]

theorem From.syntaxDecl_literal (h : d.From (.rule .syntaxDecl)) : d.HasLiteral := by
  obtain ⟨first, equals, version, last, rfl, -, -, kind, -⟩ := from_syntaxDecl.mp h
  exact ⟨version, kind, by simp [words, parts]⟩

theorem From.importDecl_literal (h : d.From (.rule .importDecl)) : d.HasLiteral := by
  obtain ⟨first, visibility, path, last, rfl, -, -, kind, -⟩ := from_importDecl.mp h
  exact ⟨path, kind, by simp [words, parts]⟩

theorem literals_texts (single : ∀ e ∈ having r d.parts, e.HasLiteral) :
    (∀ t ∈ d.literals r, t.kind = .stringLit) ∧
      (having r d.parts).map (fun e => Node.unquote (textOf (e.words .stringLit))) =
        (d.literals r).map (Node.unquote ·.text) := by
  unfold literals
  generalize having r d.parts = ds at single
  induction ds with
  | nil => exact ⟨by simp, rfl⟩
  | cons e ds ih =>
      obtain ⟨⟨t, kind, words⟩, rest⟩ := List.forall_mem_cons.mp single
      obtain ⟨kinds, texts⟩ := ih rest
      rw [List.flatMap_cons, words]
      refine ⟨List.forall_mem_cons.mpr ⟨kind, kinds⟩, ?_⟩
      rw [List.map_cons, texts, words]
      rfl

theorem From.syntaxDecl_at_most_one (h : d.From (.rule .protoFile)) :
    (having .syntaxDecl d.parts).length ≤ 1 := by
  obtain ⟨_, last, rfl, ⟨version, package, headers, definitions, rfl, hv, hp, hh, hd⟩, -⟩ :=
    from_protoFile.mp h
  have packages : having .syntaxDecl package.toList = [] := having_eq_nil fun e he => by
    simp [(hp e (by simpa using he)).label?_eq]
  have header : having .syntaxDecl headers = [] := having_eq_nil fun e he => by
    obtain h | h := hh e he <;> simp [h.label?_eq]
  have definition : having .syntaxDecl definitions = [] := having_eq_nil fun e he => by
    obtain h | h | h | h := hd e he <;> simp [h.label?_eq]
  simp only [parts, having_append, packages, header, definition, List.append_nil,
    having_cons_token, having_nil]
  exact (List.length_filter_le ..).trans (by cases version <;> simp)

/-- The version and the imports of a file are its literals without the quotes at their ends. -/
theorem From.literals_spec (h : d.From (.rule .protoFile)) :
    (∀ t ∈ d.literals .syntaxDecl ++ d.literals .importDecl, t.kind = .stringLit) ∧
      (d.literals .syntaxDecl).length ≤ 1 ∧
      (∀ t ∈ d.literals .syntaxDecl, d.schema.version = Node.unquote t.text) ∧
      d.schema.imports = (d.literals .importDecl).map (Node.unquote ·.text) := by
  have versions := literals_texts fun e he =>
    (From.of_having h.parts_valid (by decide) e he).syntaxDecl_literal
  have imports := literals_texts fun e he =>
    (From.of_having h.parts_valid (by decide) e he).importDecl_literal
  have single : (d.literals .syntaxDecl).length ≤ 1 := by
    simpa using (congrArg List.length versions.2).symm.trans_le
      (by simpa using h.syntaxDecl_at_most_one)
  refine ⟨List.forall_mem_append.mpr ⟨versions.1, imports.1⟩, single, fun t ht => ?_, imports.2⟩
  obtain ⟨u, only⟩ := List.length_eq_one_iff.mp (single.antisymm (List.length_pos_of_mem ht))
  obtain rfl : t = u := by simpa [only] using ht
  rw [schema]
  have last := congrArg List.getLast? versions.2
  rw [only, List.getLast?_map] at last
  simp [last]

/-- The version and the imports are what is inside their literals just if none ends in a quote. -/
theorem Derives.unquotes_iff {source : List Char} {tokens : List Token}
    (scanned : Token.scan source = .ok tokens) (h : Derives tokens d) :
    d.Unquotes d.schema ↔
      ∀ t ∈ d.literals .syntaxDecl ++ d.literals .importDecl, ¬t.EndsInQuote := by
  obtain ⟨kinds, -, version, imports⟩ := h.1.literals_spec
  have mem (r : Rule) : ∀ t ∈ d.literals r, t ∈ tokens := by
    intro t ht
    exact h.2 ▸ (literals_sublist r d).mem ht
  obtain ⟨versionKinds, importKinds⟩ := List.forall_mem_append.mp kinds
  rw [List.forall_mem_append, Unquotes, imports, List.map_map, List.map_inj_left]
  refine and_congr (forall₂_congr fun t ht => ?_) (forall₂_congr fun t ht => ?_)
  · rw [version t ht, Token.scan_unquote_eq scanned (mem _ t ht) (versionKinds t ht)]
  · exact Token.scan_unquote_eq scanned (mem _ t ht) (importKinds t ht)

end Derivation

namespace Schema

open ProtoSchema.Derivation

/-- The version and the imports of a text that is read are what is inside the literals of its
statements, just if no escaped quote stands at the end there. -/
theorem ofText_unquoted {limit : Nat} {source : List Char} {p : Schema} {ws : List Warning}
    (h : ofText limit source = .ok (p, ws)) : ∃ tokens d, Token.scan source = .ok tokens ∧
      Derives tokens d ∧ (d.literals .syntaxDecl).length ≤ 1 ∧
        (∀ r, (d.literals r).Sublist tokens) ∧
        (∀ t ∈ d.literals .syntaxDecl ++ d.literals .importDecl, t.kind = .stringLit ∧
          (Parser.Scope.whole source).slice t.start t.stop = t.text ∧
            t.text.toList = '"' :: (t.inner ++ ['"'])) ∧
        (d.Unquotes p ↔
          ∀ t ∈ d.literals .syntaxDecl ++ d.literals .importDecl, ¬t.EndsInQuote) := by
  obtain ⟨tokens, d, scanned, derives, -, rfl, -⟩ := ofText_eq_ok.mp h
  obtain ⟨kinds, single, -, -⟩ := derives.1.literals_spec
  have sublist (r : Rule) : (d.literals r).Sublist tokens := derives.2 ▸ literals_sublist r d
  refine ⟨tokens, d, scanned, derives, single, sublist, fun t ht => ?_,
    derives.unquotes_iff scanned⟩
  have mem : t ∈ tokens := (List.mem_append.mp ht).elim ((sublist _).mem ·) ((sublist _).mem ·)
  exact ⟨kinds t ht, Token.scan_slice scanned _ t mem,
    (Token.scan_literal scanned mem (kinds t ht)).1⟩

/-- An empty version and a path with two escapes, the last of which is no quote. -/
theorem ofText_unquoted_escapes :
    let limit := 0
    let source := "syntax = \"\";import weak \"a\\\"b\\\\\";".toList
    let p : Schema := { empty with version := "", imports := ["a\\\"b\\\\"] }
    ofText limit source = .ok (p, []) ∧ ∃ tokens d, Token.scan source = .ok tokens ∧
      Derives tokens d ∧ d.Unquotes p := by
  intro limit source p
  have read : ofText limit source = .ok (p, []) := by decide +kernel
  have plain : ∃ tokens, Token.scan source = .ok tokens ∧
      ∀ t ∈ tokens, t.kind = .stringLit → ¬t.EndsInQuote := by
    refine ⟨[⟨.ident, "syntax", 1, 1, 0, 6⟩, ⟨.equals, "=", 1, 8, 7, 8⟩,
      ⟨.stringLit, "\"\"", 1, 10, 9, 11⟩, ⟨.semicolon, ";", 1, 12, 11, 12⟩,
      ⟨.ident, "import", 1, 13, 12, 18⟩, ⟨.ident, "weak", 1, 20, 19, 23⟩,
      ⟨.stringLit, "\"a\\\"b\\\\\"", 1, 25, 24, 32⟩, ⟨.semicolon, ";", 1, 33, 32, 33⟩,
      ⟨.eof, "", 1, 34, 33, 33⟩], by decide +kernel, by decide⟩
  obtain ⟨_, scanned', plain⟩ := plain
  obtain ⟨tokens, d, scanned, derives, -, sublist, kinds, exact⟩ := ofText_unquoted read
  obtain rfl := Except.ok.inj (scanned'.symm.trans scanned)
  refine ⟨read, _, d, scanned, derives, exact.mpr fun t ht => plain t ?_ (kinds t ht).1⟩
  exact (List.mem_append.mp ht).elim ((sublist _).mem ·) ((sublist _).mem ·)

/-- An escaped quote at the end of a path is removed with the quote after it. -/
theorem not_unquoted :
    let limit := 0
    let source := "import \"a\\\"\";".toList
    ofText limit source = .ok ({ empty with imports := ["a\\"] }, []) ∧
      ¬∀ source p ws, ofText limit source = .ok (p, ws) → ∃ tokens d,
        Token.scan source = .ok tokens ∧ Derives tokens d ∧ d.Unquotes p := by
  intro limit source
  have read : ofText limit source = .ok ({ empty with imports := ["a\\"] }, []) := by decide +kernel
  have quoted : ∃ tokens, Token.scan source = .ok tokens ∧
      ∀ t ∈ tokens, t.kind = .stringLit → t.EndsInQuote := by
    refine ⟨[⟨.ident, "import", 1, 1, 0, 6⟩, ⟨.stringLit, "\"a\\\"\"", 1, 8, 7, 12⟩,
      ⟨.semicolon, ";", 1, 13, 12, 13⟩, ⟨.eof, "", 1, 14, 13, 13⟩], by decide +kernel, by decide⟩
  obtain ⟨_, scanned, quoted⟩ := quoted
  refine ⟨read, fun unquoted => ?_⟩
  obtain ⟨tokens, d, scanned', derives, -, imports⟩ := unquoted source _ _ read
  obtain rfl := Except.ok.inj (scanned.symm.trans scanned')
  -- What is inside the literal of the only import would be what is left of it.
  obtain ⟨t, only, same⟩ := List.map_eq_singleton_iff.mp imports.symm
  have literal : t ∈ d.literals .importDecl := by simp [only]
  have kind := derives.1.literals_spec.1 t (List.mem_append_right _ literal)
  have ends := quoted t (derives.2 ▸ (literals_sublist .importDecl d).mem literal) kind
  rw [Token.EndsInQuote, same] at ends
  exact absurd ends (by decide)

end Schema

end ProtoSchema
