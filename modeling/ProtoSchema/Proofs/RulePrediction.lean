import ProtoSchema.Proofs.Prediction
import ProtoSchema.Proofs.RuleReading

/-! # Rules that look at one token

Names, constants and the statements of a file decide by the next token only, so what they predict
is put together from what their parts predict.
-/

namespace ProtoSchema

/-- A token of a given kind and text at no place in particular. -/
def Token.sample (k : Kind) (text : String) : Token :=
  ⟨k, text, 0, 0, 0, 0⟩

namespace Expectation

open ProtoSchema.Derivation

theorem names_letter {r : Rule} {p : Token → Prop} (h : form r = letter p) {ts : List Token} :
    (rule r).Names ts ↔ ∃ t, p t ∧ ts = [t] := by
  constructor
  · rintro ⟨d, derived, rfl⟩
    obtain ⟨t, ht, rfl⟩ := (from_letter h).mp derived
    exact ⟨t, ht, rfl⟩
  · rintro ⟨t, ht, rfl⟩
    exact ⟨ofToken r t, (from_letter h).mpr ⟨t, ht, rfl⟩, rfl⟩

theorem names_ident {t : Token} (h : t.kind = .ident) : (rule .ident).Names [t] :=
  (names_letter rfl).mpr ⟨t, h, rfl⟩

theorem names_number {t : Token} (h : t.kind = .number) : (rule .number).Names [t] :=
  (names_letter rfl).mpr ⟨t, h, rfl⟩

theorem names_stringLit {t : Token} (h : t.kind = .stringLit) : (rule .stringLit).Names [t] :=
  (names_letter rfl).mpr ⟨t, h, rfl⟩

theorem names_stream {t : Token} (h : t.isWord "stream") : (rule .stream).Names [t] :=
  (names_letter rfl).mpr ⟨t, h, rfl⟩

theorem ident_of_names {t : Token} {ts : List Token} (h : (rule .ident).Names (t :: ts)) :
    t.kind = .ident :=
  kind_of_names ((names_letter rfl).mp h)

end Expectation

namespace Grammar

open ProtoSchema.Parser

/-- The rest of an option statement after its keyword. -/
def optionTail (first : Token) : Parser Node := do
  let name ← optionName
  let _ ← expect .equals Rule.optionDecl.name
  let value ← constant
  let last ← expect .semicolon Rule.optionDecl.name
  node .optionDecl first last [name, value]

end Grammar

namespace Parser

/-- What may follow a dotted name. -/
def NotDot (v : Token) : Prop :=
  v.kind ≠ .dot

instance : DecidablePred NotDot :=
  fun v => inferInstanceAs (Decidable (v.kind ≠ .dot))

theorem NotDot.of_kind {k : Token.Kind} (other : k ≠ .dot) (v : Token) (h : v.kind = k) :
    NotDot v :=
  h.trans_ne other

/-- A word without a meaning of its own. -/
def aWord : Token := .sample .ident "a"

theorem Follows.ident {t : Token} {P Q : Token → Prop} (sample : t.kind = .ident)
    (h : ∀ v : Token, v.kind = .ident → Q v) : Follows (Option.some t) [.rule .ident] P Q := by
  refine .some (h t sample) fun x mem v ts names => ?_
  obtain rfl := List.mem_singleton.mp mem
  exact h v (Expectation.ident_of_names names)

/-- A pair of parsers that start with the word `w`: wherever that word stands they take it, and they
ask for nothing else before. -/
structure Headed (s : Scope) (w : String) (P : Token → Prop) (p : Bool → Parser α) : Prop where
  run : ∀ {t : Token} {more : List Token} {wants : List Expectation}, t.isWord w →
    Ended (t :: more) → Predicts s False wants P p (t :: more)
  offers : Offers s P (p true) (.word w) []

namespace Headed

variable {s : Scope} {w : String} {P : Token → Prop}

theorem keyword (context : String) : Headed s w P fun _ => Parser.keyword w context where
  run {t more wants} ht ended := by
    have inner : t.kind ≠ .eof := by simp_all [Token.isWord]
    exact (Predictive.pure t).after (List.cons_ne_nil t []) (.cons inner .nil)
      (fun _ xs => keyword_cons ht context xs) ended
  offers := by
    have sample : (Token.sample .ident w).isWord w := by simp [Token.isWord, Token.sample]
    exact ((Predictive.keyword (P := P) sample context).ready true).offers
      (Expectation.names_word sample)

theorem step {p : Bool → Parser α} {f : Bool → α → Parser β} {start : Option Token}
    {wants : List Expectation} (h : Headed s w anyToken p)
    (hf : ∀ a, Predictive s start wants P (f · a)) : Headed s w P fun b => p b >>= f b where
  run {t more wants'} ht ended := by
    refine ((h.run ht ended).bind ended (fun a rest ended' _ => (hf a).run rest ended')
      (fun b a => (hf a).ready b) follows_any (fun x mem front a takes => ?_)
      (List.Subset.refl wants') nofun).imp And.left
    exact .bind_next takes ((hf a).offers x mem) fun _ _ _ => trivial
  offers := h.offers.bind_left (fun a => (hf a).ready true) follows_any

end Headed

namespace Predictive

variable {s : Scope} {P : Token → Prop}

theorem word (context : String) :
    Predictive s (some aWord) [.rule .ident] P fun _ => Grammar.word context :=
  expectAs rfl (by decide) (Expectation.names_ident rfl) _

theorem ident (context : String) :
    Predictive s (some aWord) [.rule .ident] P fun _ => Grammar.ident context :=
  leaf rfl (by decide) (Expectation.names_ident rfl) _

theorem dottedItem_consumes (context : String) : Consumes s (do
    let _ ← Parser.advance
    Grammar.word context) := by
  refine (Reads.advance.bind fun _ => Reads.word context).consumes ?_
  rintro a ds rest ⟨_, _, _, rfl, rfl, -⟩
  simp

theorem dottedTail (hP : ∀ v, P v → NotDot v) (context : String) :
    Predictive s none [] P fun _ => Grammar.dottedTail context := by
  refine many (fun _ => dottedItem_consumes context) (fun t rest ended go => ?_)
    (fun v hv => by simpa [NotDot] using hP v hv) nofun
  have dot : t.kind = .dot := by simpa using go
  exact (word context).after (List.cons_ne_nil t []) (.cons (by simp [dot]) .nil) (fun _ _ => rfl)
    ended

theorem fullIdent (hP : ∀ v, P v → NotDot v) (context : String) :
    Predictive s (some aWord) [.rule .ident] P fun _ => Grammar.fullIdent context :=
  (word context).step fun _ => (dottedTail hP context).last fun _ => (leaves ..).last fun _ =>
    node ..

theorem equals (context : String) : Predictive s (some (.sample .equals "=")) [.kind .equals] P
    fun _ => Parser.expect .equals context :=
  expect rfl (by decide) _

theorem semicolon (context : String) : Predictive s (some (.sample .semicolon ";"))
    [.kind .semicolon] P fun _ => Parser.expect .semicolon context :=
  expect rfl (by decide) _

theorem stringLit (context : String) : Predictive s (some (.sample .stringLit ""))
    [.rule .stringLit] P fun _ => Parser.leaf .stringLit .stringLit context :=
  leaf rfl (by decide) (Expectation.names_stringLit rfl) _

theorem number (context : String) : Predictive s (some (.sample .number "1")) [.rule .number] P
    fun _ => Parser.leaf .number .number context :=
  leaf rfl (by decide) (Expectation.names_number rfl) _

theorem syntaxDecl : Headed s "syntax" P fun _ => Grammar.syntaxDecl :=
  (Headed.keyword _).step fun _ => (equals _).step fun _ => (stringLit _).step fun _ =>
    (semicolon _).step fun _ => node ..

theorem packageDecl : Headed s "package" P fun _ => Grammar.packageDecl :=
  (Headed.keyword _).step fun _ => (fullIdent (fun _ => id) _).bind (fun _ =>
    (semicolon _).step fun _ => node ..) (.kind rfl (NotDot.of_kind (by decide)))

theorem importDecl : Headed s "import" P fun _ => Grammar.importDecl := by
  have path (first : Token) : Predictive s (some (.sample .stringLit "")) [.rule .stringLit] P
      fun _ => (do
        let path ← Parser.leaf .stringLit .stringLit Rule.importDecl.name
        let last ← Parser.expect .semicolon Rule.importDecl.name
        Parser.node .importDecl first last [path]) :=
    (stringLit _).step fun _ => (semicolon _).step fun _ => node ..
  refine (Headed.keyword _).step fun first => lookFor (Expectation.names_stringLit rfl)
    (fun t more ended => ?_) (path first).ready
  split
  · next h =>
      have inner : t.kind ≠ .eof := by
        simp only [Token.isWord, Bool.or_eq_true, Bool.and_eq_true, beq_iff_eq] at h
        obtain ⟨kind, -⟩ | ⟨kind, -⟩ := h <;> simp [kind]
      exact (path first).after (List.cons_ne_nil t []) (.cons inner .nil) (fun _ _ => rfl) ended
  · exact (path first).eats ended

theorem optionName (hP : ∀ v, P v → NotDot v) :
    Predictive s (some aWord) [.rule .ident] P fun _ => Grammar.optionName := by
  have bracketed (first : Token) :=
    (fullIdent (s := s) (fun _ => id) Rule.optionDecl.name).bind (fun path =>
      (expect (t := .sample .rparen ")") rfl (by decide) Rule.optionDecl.name).step fun close =>
        (dottedTail hP Rule.optionDecl.name).last fun more => (leaves .ident more).last fun names =>
          node .fullIdent first (more.getLastD close) (path :: names))
            (.kind rfl (NotDot.of_kind (by decide)))
  refine lookFor (Expectation.names_ident rfl) (fun t more ended => ?_) (fullIdent hP _).ready
  split
  · next left =>
      exact (bracketed t).after (List.cons_ne_nil t []) (.cons (by simp [left]) .nil)
        (fun _ _ => rfl) ended
  · exact (fullIdent hP _).eats ended

theorem decimal (hP : ∀ v, P v → NotDot v) :
    Predictive s (some (.sample .number "1")) [.kind .number] P fun _ => Grammar.decimal := by
  refine (expect rfl (by decide) _).step fun whole => lookIdle (fun t more ended dot => ?_) hP
  exact (expect (t := .sample .number "1") rfl (by decide) Rule.constant.name).after
    (List.cons_ne_nil t []) (.cons (by simp [dot]) .nil) (fun _ _ => rfl) ended

theorem signedConstant (hP : ∀ v, P v → NotDot v) : Predictive s (some (.sample .number "1"))
    [.kind .number] P fun _ => Grammar.signedConstant := by
  have value : Predictive s (some (.sample .number "1")) [.kind .number] P fun _ => (do
      if (← Parser.peek).kind = .ident then Parser.advance else Grammar.decimal) := by
    refine lookFor (Expectation.names_kind rfl) (fun t more ended => ?_) (decimal hP).ready
    split
    · next name =>
        exact (pure t).after (List.cons_ne_nil t []) (.cons (by simp [name]) .nil) (fun _ _ => rfl)
          ended
    · exact (decimal hP).eats ended
  refine lookFor (Expectation.names_kind rfl) (fun t more ended => ?_) value.ready
  split
  · next minus =>
      exact value.after (List.cons_ne_nil t []) (.cons (by simp [minus]) .nil)
        (fun _ _ => rfl) ended
  · exact value.eats ended

theorem constant (hP : ∀ v, P v → NotDot v) : Predictive s (some (.sample .number "1"))
    [.kind .number] P fun _ => Grammar.constant := by
  have name (first : Token) := (dottedTail (s := s) hP Rule.optionDecl.name).last fun more =>
    node .constant first (more.getLastD first) []
  have signed (first : Token) := (signedConstant (s := s) hP).last fun last =>
    node .constant first last []
  refine lookFor (Expectation.names_kind rfl) (fun t more ended => ?_) (signed _).ready
  split
  · next string =>
      exact (node .constant t t []).after (List.cons_ne_nil t []) (.cons (by simp [string]) .nil)
        (fun _ _ => rfl) ended
  split
  · next word =>
      exact (name t).after (List.cons_ne_nil t []) (.cons (by simp [word]) .nil)
        (fun _ xs => bind_ok (expectAs_cons word _ _ xs) _) ended
  · exact (signed t).eats ended

theorem optionTail (first : Token) :
    Predictive s (some aWord) [.rule .ident] P fun _ => Grammar.optionTail first :=
  (optionName fun _ => id).bind (fun _ => (equals _).step fun _ => (constant fun _ => id).bind
    (fun _ => (semicolon _).step fun _ => node ..) (.kind rfl (NotDot.of_kind (by decide))))
      (.kind rfl (NotDot.of_kind (by decide)))

theorem optionDecl : Headed s "option" P fun _ => Grammar.optionDecl :=
  (Headed.keyword _).step optionTail

end Predictive

end Parser

end ProtoSchema
