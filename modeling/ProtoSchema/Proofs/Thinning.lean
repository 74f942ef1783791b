import ProtoSchema.Proofs.Subderivation

/-! # Parts that the grammar does not need

Options, blocks of options and the semicolons between elements may be left out: the right-hand sides
of the grammar keep their words without them. A semicolon that closes a statement may not, and it
never follows a brace or another semicolon.
-/

namespace ProtoSchema

open Computability

/-- The symbols of rows of elements. -/
def Symbol.rows : List Symbol :=
  [.rule .protoFile, .rule .messageDef, .rule .enumDef, .rule .serviceDef, .rule .fieldOptions]

/-- The symbols that have options or empty statements below them. -/
def Symbol.frames : List Symbol :=
  rows ++ [.rule .field, .rule .enumValue, .rule .rpcDef]

/-- The symbols without options, blocks of options, braces and semicolons below them. -/
def Symbol.plain : List Symbol :=
  [.optionName, .rule .fieldRule, .rule .typeName, .rule .primitiveType, .rule .messageType,
    .rule .stream, .rule .ident, .rule .fullIdent, .rule .number, .rule .stringLit, .rule .constant]

/-- The kinds that an empty statement may follow. -/
def Token.openers : List Token.Kind :=
  [.lbrace, .rbrace, .semicolon]

theorem Symbol.frames_of_uses {x y : Symbol} (h : y ∈ x.uses)
    (hy : y ∈ .rule .optionDecl :: frames) : x ∈ frames := by
  obtain r | _ := x
  · cases r
    all_goals
      revert y
      decide
  · revert y
    decide

theorem Symbol.plain_of_uses {x y : Symbol} (h : x ∈ plain) (hy : y ∈ x.uses) : y ∈ plain := by
  have closed : ∀ x ∈ plain, ∀ y ∈ x.uses, y ∈ plain := by decide
  exact closed x h y hy

namespace Derivation

/-- An option, a block of options, or a semicolon. -/
def Inert (e : Derivation) : Prop :=
  e.Rooted (.rule .optionDecl) ∨ e.Rooted (.rule .fieldOptions) ∨
    ∃ t : Token, t.kind = .semicolon ∧ e = .token t

/-- Both derivations declare the same, and the second has no more messages inside each other. -/
structure Alike (d d' : Derivation) : Prop where
  field : d'.field = d.field
  enumValue : d'.enumValue = d.enumValue
  enumDef : d'.enumDef = d.enumDef
  method : d'.method = d.method
  service : d'.service = d.service
  message : d'.message = d.message
  schema : d'.schema = d.schema
  nesting : d'.nesting ≤ d.nesting

/-- What a part becomes without something inert: nothing, if it is the inert thing itself. The first
token of a field stays, since an element of a message is told from an option by it. -/
inductive Thins : Derivation → List Derivation → Prop where
  | drop {e : Derivation} (inert : e.Inert) : Thins e []
  | swap {y : Symbol} {d d' : Derivation} (frame : y ∈ Symbol.frames) (root : d.Rooted y)
      (root' : d'.Rooted y) (head : y = .rule .field → d'.yield.head? = d.yield.head?)
      (alike : Alike d d') : Thins d [d']

/-! ## Languages -/

variable {L M : Language Derivation} {x : Symbol} {d e : Derivation} {t : Token}
  {left right new ds es : List Derivation}

theorem Thins.of_token (h : Thins (.token t) new) : t.kind = .semicolon ∧ new = [] := by
  cases h with
  | drop inert =>
      obtain ⟨_, ⟨⟩⟩ | ⟨_, ⟨⟩⟩ | ⟨_, semicolon, ⟨⟩⟩ := inert
      exact ⟨semicolon, rfl⟩
  | swap _ root => obtain ⟨_, ⟨⟩⟩ := root

theorem Thins.of_rooted (h : Thins d new) (root : d.Rooted x) :
    (x = .rule .optionDecl ∨ x = .rule .fieldOptions) ∧ new = [] ∨
      ∃ d', new = [d'] ∧ d'.Rooted x ∧ x ∈ Symbol.frames ∧
        (x = .rule .field → d'.yield.head? = d.yield.head?) := by
  obtain ⟨parts, rfl⟩ := root
  cases h with
  | drop inert =>
      obtain ⟨_, ⟨⟩⟩ | ⟨_, ⟨⟩⟩ | ⟨_, -, ⟨⟩⟩ := inert
      · exact .inl ⟨.inl rfl, rfl⟩
      · exact .inl ⟨.inr rfl, rfl⟩
  | swap frame root root' head =>
      obtain ⟨_, ⟨⟩⟩ := root
      exact .inr ⟨_, rfl, root', frame, head⟩

theorem append_cons_cases {α : Type} {xs ys front back : List α} {a : α}
    (h : xs ++ ys = front ++ a :: back) : (∃ more, xs = front ++ a :: more ∧ back = more ++ ys) ∨
      ∃ more, front = xs ++ more ∧ ys = more ++ a :: back := by
  obtain ⟨more, rfl, rfl⟩ | ⟨more, rfl, same⟩ := List.append_eq_append_iff.mp h
  · exact .inr ⟨more, rfl, rfl⟩
  · cases more with
    | nil => exact .inr ⟨[], by simp, same.symm⟩
    | cons b more =>
        obtain ⟨rfl, rfl⟩ := List.cons_eq_cons.mp same
        exact .inl ⟨more, rfl, rfl⟩

theorem eq_of_singleton (h : left ++ e :: right = [d]) : left = [] ∧ e = d ∧ right = [] := by
  cases left <;> simp_all

/-- The words of a language stay in it when one of their parts is thinned. -/
def Stable (L : Language Derivation) : Prop :=
  ∀ left e right new, Thins e new → left ++ e :: right ∈ L → left ++ (new ++ right) ∈ L

/-- The words of a language stay in it or vanish when one of their parts is thinned. -/
def Erasable (L : Language Derivation) : Prop :=
  ∀ left e right new, Thins e new → left ++ e :: right ∈ L →
    left ++ (new ++ right) ∈ L ∨ left ++ (new ++ right) = []

/-- The words of a language stay in it when one of their parts is thinned that is not their last
token. -/
def Ended (L : Language Derivation) : Prop :=
  ∀ left e right new, Thins e new → left ++ e :: right ∈ L →
    left ++ (new ++ right) ∈ L ∨ right = [] ∧ ∃ t, e = .token t

namespace Stable

theorem one : Stable 1 := by
  rintro left e right new - h
  simp [Language.mem_one] at h

theorem optional (hL : Erasable L) : Stable (1 + L) := by
  rintro left e right new thins (h | h)
  · exact .inl (one left e right new thins h)
  · obtain h | h := hL left e right new thins h
    · exact .inr h
    · exact .inl h

theorem mul (hL : Stable L) (hM : Stable M) : Stable (L * M) := by
  rintro left e right new thins ⟨ds, hds, es, hes, h⟩
  obtain ⟨r, rfl, rfl⟩ | ⟨l, rfl, rfl⟩ := append_cons_cases h
  · exact ⟨_, hL left e r new thins hds, es, hes, by simp⟩
  · exact ⟨ds, hds, _, hM l e right new thins hes, by simp⟩

theorem kstar (hL : Erasable L) : Stable L∗ := by
  rintro left e right new thins ⟨rounds, same, h⟩
  induction rounds generalizing left with
  | nil => simp at same
  | cons round rounds ih =>
      obtain ⟨hround, hrounds⟩ := List.forall_mem_cons.mp h
      obtain ⟨r, rfl, rfl⟩ | ⟨l, rfl, later⟩ := append_cons_cases same.symm
      · obtain kept | gone := hL left e r new thins hround
        · exact ⟨_ :: rounds, by simp, List.forall_mem_cons.mpr ⟨kept, hrounds⟩⟩
        -- A round of which nothing is left is no round any more.
        · refine ⟨rounds, ?_, hrounds⟩
          rw [← List.append_assoc, ← List.append_assoc, List.append_assoc left, gone,
            List.nil_append]
      · obtain ⟨rounds', same', h'⟩ := ih l later.symm hrounds
        exact ⟨round :: rounds', by rw [List.flatten_cons, ← same', List.append_assoc],
          List.forall_mem_cons.mpr ⟨hround, h'⟩⟩

theorem letter {p : Token → Prop} (h : ∀ t, p t → t.kind ≠ .semicolon) : Stable (letter p) := by
  rintro left e right new thins ⟨t, ht, same⟩
  obtain ⟨rfl, rfl, rfl⟩ := eq_of_singleton same
  exact absurd thins.of_token.1 (h t ht)

theorem kind {k : Token.Kind} (h : k ≠ .semicolon) : Stable (kind k) :=
  letter fun _ ht => ht ▸ h

theorem word (w : String) : Stable (word w) :=
  letter fun t ht => by simp_all [Token.isWord]

theorem symbolWhere {p : List Token → Prop} (plain : x ∉ [.rule .optionDecl, .rule .fieldOptions])
    (h : ∀ ts us, x ∈ Symbol.frames → (x = .rule .field → us.head? = ts.head?) → p ts → p us) :
    Stable (symbolWhere x p) := by
  rintro left e right new thins ⟨d, root, hp, same⟩
  obtain ⟨rfl, rfl, rfl⟩ := eq_of_singleton same
  obtain ⟨inert, -⟩ | ⟨d', rfl, root', frame, head⟩ := thins.of_rooted root
  · exact absurd (by simpa using inert) plain
  · exact ⟨d', root', h _ _ frame head hp, rfl⟩

theorem symbol (plain : x ∉ [.rule .optionDecl, .rule .fieldOptions]) : Stable (symbol x) :=
  symbolWhere plain fun _ _ _ _ => id

theorem rule {r : Rule} (plain : r ∉ [.optionDecl, .fieldOptions]) : Stable (rule r) :=
  symbol (by simpa using plain)

end Stable

namespace Erasable

theorem of_stable (hL : Stable L) : Erasable L :=
  fun left e right new thins h => .inl (hL left e right new thins h)

theorem add (hL : Erasable L) (hM : Erasable M) : Erasable (L + M) := by
  rintro left e right new thins (h | h)
  · exact (hL left e right new thins h).imp_left .inl
  · exact (hM left e right new thins h).imp_left .inr

theorem letter (p : Token → Prop) : Erasable (letter p) := by
  rintro left e right new thins ⟨t, ht, same⟩
  obtain ⟨rfl, rfl, rfl⟩ := eq_of_singleton same
  exact .inr (by rw [thins.of_token.2]; rfl)

theorem rule (r : Rule) : Erasable (rule r) := by
  rintro left e right new thins ⟨d, root, -, same⟩
  obtain ⟨rfl, rfl, rfl⟩ := eq_of_singleton same
  obtain ⟨-, rfl⟩ | ⟨d', rfl, root', -⟩ := thins.of_rooted root
  · exact .inr rfl
  · exact .inl ⟨d', root', trivial, rfl⟩

end Erasable

namespace Ended

theorem of_stable (hL : Stable L) : Ended L :=
  fun left e right new thins h => .inl (hL left e right new thins h)

theorem add (hL : Ended L) (hM : Ended M) : Ended (L + M) := by
  rintro left e right new thins (h | h)
  · exact (hL left e right new thins h).imp_left .inl
  · exact (hM left e right new thins h).imp_left .inr

theorem mul (hL : Stable L) (hM : Ended M) : Ended (L * M) := by
  rintro left e right new thins ⟨ds, hds, es, hes, h⟩
  obtain ⟨r, rfl, rfl⟩ | ⟨l, rfl, rfl⟩ := append_cons_cases h
  · exact .inl ⟨_, hL left e r new thins hds, es, hes, by simp⟩
  · exact (hM l e right new thins hes).imp_left fun kept => ⟨ds, hds, _, kept, by simp⟩

theorem kind (k : Token.Kind) : Ended (kind k) := by
  rintro left e right new - ⟨t, -, same⟩
  obtain ⟨rfl, rfl, rfl⟩ := eq_of_singleton same
  exact .inr ⟨rfl, t, rfl⟩

end Ended

/-! ## The grammar -/

theorem body_stable {E : Language Derivation} (h : Erasable E) : Stable (body E) :=
  .mul (.mul (.kind (by decide)) (.kstar (h.add (.letter _)))) (.kind (by decide))

theorem production_stable (h : x ∈ Symbol.rows) : Stable (production x) := by
  simp only [Symbol.rows, List.mem_cons, List.not_mem_nil, or_false] at h
  obtain rfl | rfl | rfl | rfl | rfl := h
  all_goals
    repeat' first
      | apply Stable.mul | apply body_stable | apply Stable.kstar | apply Stable.optional
      | apply Stable.word | apply Stable.kind | apply Stable.rule | apply Erasable.add
      | apply Erasable.rule | apply Erasable.letter | apply Erasable.of_stable
      | apply Stable.symbolWhere
  all_goals first | decide | simp_all

theorem production_ended (h : x ∈ Symbol.frames) : Ended (production x) := by
  obtain row | h := List.mem_append.mp h
  · exact .of_stable (production_stable row)
  · simp only [List.mem_cons, List.not_mem_nil, or_false] at h
    obtain rfl | rfl | rfl := h
    all_goals
      repeat' first
        | exact Ended.kind _ | exact Ended.of_stable (body_stable (.rule _)) | apply Ended.add
        | apply Ended.mul | apply Stable.mul | apply Stable.optional | apply Stable.word
        | apply Stable.kind | apply Stable.rule | apply Erasable.rule
    all_goals decide

/-! ## Closing semicolons -/

/-- What may stand directly below a plain symbol. -/
def Plain : Derivation → Prop
  | .token t => t.kind ∉ Token.openers
  | .node y _ => y ∈ Symbol.plain

theorem production_plain (h : x ∈ Symbol.plain) : AllLetters Plain (production x) := by
  have kinds : ∀ x ∈ Symbol.plain, ∀ k ∈ x.kinds, k ∉ Token.openers := by decide
  intro ds hds d hd
  have below := production_below x ds hds d hd
  cases d with
  | token t => exact kinds x h t.kind below
  | node y parts => exact Symbol.plain_of_uses h below

theorem Valid.plain (h : d.Valid) (plain : d.Plain) : ∀ t ∈ d.yield, t.kind ∉ Token.openers := by
  induction h with
  | token t => exact List.forall_mem_singleton.mpr plain
  | @node x parts form valid ih =>
      intro t ht
      rw [yield_node, yieldList_eq_flatMap] at ht
      obtain ⟨part, hpart, ht⟩ := List.mem_flatMap.mp ht
      exact ih part hpart (production_plain plain parts form part hpart) t ht

/-- Words with tokens, of which no semicolon is a part and no opener is the last. -/
def Calm (L : Language Derivation) : Prop :=
  ∀ ds, Fits L ds → (∀ t : Token, .token t ∈ ds → t.kind ≠ .semicolon) ∧
    ∃ u, (yieldList ds).getLast? = some u ∧ u.kind ∉ Token.openers

namespace Calm

theorem of_plain (plain : AllLetters Plain L) (nonempty : [] ∉ L) : Calm L := by
  rintro ds ⟨hds, valid⟩
  have tokens : ∀ u ∈ yieldList ds, u.kind ∉ Token.openers := by
    intro u hu
    rw [yieldList_eq_flatMap] at hu
    obtain ⟨d, hd, hu⟩ := List.mem_flatMap.mp hu
    exact (valid d hd).plain (plain ds hds d hd) u hu
  refine ⟨fun t ht semicolon => ?_, ?_⟩
  · exact plain ds hds _ ht (by simp [semicolon, Token.openers])
  · cases ds with
    | nil => exact absurd hds nonempty
    | cons d ds =>
        have wide : yieldList (d :: ds) ≠ [] := by
          rw [yieldList_cons]
          exact List.append_ne_nil_of_left_ne_nil (valid d List.mem_cons_self).yield_ne_nil _
        exact ⟨_, List.getLast?_eq_some_getLast wide, tokens _ (List.getLast_mem wide)⟩

theorem options (h : Calm L) : Calm (L * (1 + rule .fieldOptions)) := by
  intro ds hds
  obtain ⟨front, hfront, back, hback, rfl⟩ := fits_mul.mp hds
  obtain ⟨inner, last⟩ := h front hfront
  obtain rfl | ⟨o, ho, rfl⟩ := by simpa only [fits_add, fits_one, fits_rule] using hback
  · simpa using ⟨inner, last⟩
  · obtain ⟨left, parts, right, rfl, -, -, bracket⟩ := from_fieldOptions.mp ho
    have final : (left :: (yieldList parts ++ [right])).getLast? = some right :=
      List.getLast?_concat (l := left :: yieldList parts)
    exact ⟨by simpa using inner, right, by simp [final], by simp [bracket, Token.openers]⟩

/-- What a semicolon behind such a word stands behind. -/
theorem closes (h : Calm L) (fits : Fits (L * M) (left ++ .token t :: right))
    (semicolon : t.kind = .semicolon) :
    ∃ front l, Fits L front ∧ left = front ++ l ∧ Fits M (l ++ .token t :: right) := by
  obtain ⟨front, hfront, back, hback, same⟩ := fits_mul.mp fits
  obtain ⟨r, rfl, rfl⟩ | ⟨l, rfl, rfl⟩ := append_cons_cases same.symm
  · exact absurd semicolon ((h _ hfront).1 t (by simp))
  · exact ⟨front, l, hfront, rfl, hback⟩

theorem last (h : Calm L) (fits : Fits (L * kind .semicolon) (left ++ .token t :: right))
    (semicolon : t.kind = .semicolon) :
    ∃ u, (yieldList left).getLast? = some u ∧ u.kind ∉ Token.openers := by
  obtain ⟨front, l, hfront, rfl, hl⟩ := h.closes fits semicolon
  obtain ⟨u, -, same⟩ := fits_kind.mp hl
  obtain ⟨rfl, -⟩ := eq_of_singleton same
  simpa using (h front hfront).2

theorem last_or_inner {E : Language Derivation} (h : Calm L)
    (fits : Fits (L * (kind .semicolon + body E)) (left ++ .token t :: right))
    (semicolon : t.kind = .semicolon) :
    (∃ u, (yieldList left).getLast? = some u ∧ u.kind ∉ Token.openers) ∨ right ≠ [] := by
  obtain ⟨front, l, hfront, rfl, hl⟩ := h.closes fits semicolon
  obtain hl | ⟨⟨ds, -, _, ⟨u, brace, rfl⟩, same⟩, -⟩ := fits_add.mp hl
  · obtain ⟨u, -, same⟩ := fits_kind.mp hl
    obtain ⟨rfl, -⟩ := eq_of_singleton same
    exact .inl (by simpa using (h front hfront).2)
  · refine .inr ?_
    rintro rfl
    obtain ⟨-, ⟨⟩⟩ := List.append_inj' same rfl
    simp [semicolon] at brace

end Calm

/-- A semicolon among the parts of a symbol without a row of elements closes them. It stands behind
a token that no empty statement follows, unless it is in the body of a method. -/
theorem From.closing_semicolon (h : (node x (left ++ .token t :: right)).From x)
    (semicolon : t.kind = .semicolon) (rows : x ∉ Symbol.rows) :
    (∃ u, (yieldList left).getLast? = some u ∧ u.kind ∉ Token.openers) ∨
      x = .rule .rpcDef ∧ right ≠ [] := by
  obtain ⟨_, ⟨⟩, fits⟩ := from_iff.mp h
  by_cases plain : x ∈ Symbol.plain
  · have := production_plain plain _ fits.1 (.token t) (by simp)
    simp [Plain, semicolon, Token.openers] at this
  obtain r | _ := x
  · cases r
    -- What is left are the statements and members that end with a semicolon, after a block of
    -- options or without one, and methods, which may end with a body.
    all_goals first
      | exact absurd (by decide) rows
      | exact absurd (by decide) plain
      | refine .inl (Calm.last (.options (.of_plain ?_ ?_)) fits semicolon)
      | refine .inl (Calm.last (.of_plain ?_ ?_) fits semicolon)
      | refine (Calm.last_or_inner (.of_plain ?_ ?_) fits semicolon).imp_right (⟨rfl, ·⟩)
    all_goals first
      | (simp [nil_mem_mul, word, kind, nil_not_mem_letter]; done)
      | repeat' first
          | exact AllLetters.one | apply AllLetters.mul | apply AllLetters.add
          | apply AllLetters.kind | apply AllLetters.word | apply AllLetters.rule
          | apply AllLetters.symbol
        all_goals simp_all [Plain, Token.openers, Symbol.plain, Token.isWord]
  · exact absurd (by decide) plain

/-- What a part becomes without something inert may stand in its place. -/
theorem Thins.production (thins : Thins e new) (h : (node x (left ++ e :: right)).From x)
    (opener : ∀ t, e = .token t → ∀ u ∈ (yieldList left).getLast?, u.kind ∈ Token.openers) :
    x ∈ Symbol.frames ∧ left ++ (new ++ right) ∈ production x := by
  obtain ⟨_, ⟨⟩, fits⟩ := from_iff.mp h
  cases e with
  | token t =>
      obtain ⟨semicolon, rfl⟩ := thins.of_token
      by_cases hx : x ∈ Symbol.rows
      · exact ⟨List.mem_append_left _ hx, production_stable hx left _ right [] thins fits.1⟩
      obtain ⟨u, last, other⟩ | ⟨rfl, inside⟩ := h.closing_semicolon semicolon hx
      · exact absurd (opener t rfl u last) other
      · have frame : .rule .rpcDef ∈ Symbol.frames := by decide
        obtain kept | ⟨gone, -⟩ := production_ended frame left (.token t) right [] thins fits.1
        · exact ⟨frame, kept⟩
        · exact absurd gone inside
  | node y parts =>
      have uses : y ∈ x.uses := production_inner x _ fits.1 (.node y parts) (by simp)
      have frame : x ∈ Symbol.frames := by
        refine Symbol.frames_of_uses uses ?_
        obtain ⟨rfl | rfl, -⟩ | ⟨-, -, -, frame, -⟩ := thins.of_rooted ⟨parts, rfl⟩
        · exact List.mem_cons_self
        · decide
        · exact List.mem_cons_of_mem _ frame
      obtain kept | ⟨-, t, ⟨⟩⟩ := production_ended frame left (.node y parts) right new thins fits.1
      exact ⟨frame, kept⟩

end Derivation

end ProtoSchema
