import ProtoSchema.Proofs.DefinitionPrediction
import ProtoSchema.Proofs.FileReading

/-! # Files predict

A file is a row of statements, each of which starts with a word of its own, and only the end of the
text may follow them. The pair of parsers is one for a lower and one for a higher limit on nesting.
-/

namespace ProtoSchema

namespace Parser

namespace Predictive

variable {s : Scope} {P : Token → Prop}

theorem optional {w : String} {statement : Parser Node}
    (h : Headed s w anyToken fun _ => statement) :
    Predictive s none [] (·.isWord w = false) fun _ => Grammar.optional w statement := by
  have single := h.step fun n => pure (P := (·.isWord w = false)) [n]
  exact lookIdle (c := (·.isWord w)) (fun _ _ ended word => single.run word ended) fun v hv => by
    simp [hv]

/-- What may follow the imports: neither an import nor an option. -/
def NotHeader (v : Token) : Prop :=
  (v.isWord "import" || v.isWord "option") = false

theorem header {wants : List Expectation} {t : Token} {more : List Token}
    (ended : Ended (t :: more))
    (word : t.isWord "import" || t.isWord "option") :
    Predicts s False wants P (fun _ => Grammar.header) (t :: more) := by
  refine .peek (.ite (fun first => importDecl.run first ended) fun other => ?_)
  exact optionDecl.run (by simpa [other] using word) ended

theorem headers : Predictive s none [] NotHeader fun _ =>
    Parser.many (fun t => t.isWord "import" || t.isWord "option") Grammar.header :=
  many (fun _ => consumes_single Reads.header fun _ => Derivation.Header.wordFirst)
    (fun _ _ ended word => header ended word) (fun _ => id) nofun

theorem topLevel_consumes (limit : Nat) : Consumes s (Grammar.topLevel limit) :=
  consumes_single (Reads.topLevel limit) fun _ => Derivation.TopLevel.wordFirst fun _ => And.left

/-- What stands at the front of a definition, or of an option, or at the end of a file. -/
def topWants : List Expectation :=
  [.word "message", .word "enum", .word "service", .word "option", .kind .eof]

theorem topLevel {n m : Nat} (less : n < m) {t : Token} {more : List Token}
    (ended : Ended (t :: more)) :
    Predicts s False topWants P (fun b => Grammar.topLevel (limits n m b)) (t :: more) :=
  .peek (.ite (fun word => (messageDef less).run word ended) fun _ =>
    .ite (fun word => enumDef.run word ended) fun _ =>
      .ite (fun word => serviceDef.run word ended) fun _ =>
        .ite (fun word => optionDecl.run word ended) fun _ => .refusal (List.cons_ne_nil _ _))

theorem definitions {n m : Nat} (less : n < m) : Predictive s none topWants (·.kind = .eof) fun b =>
    Parser.many (·.kind != .eof) (Grammar.topLevel (limits n m b)) := by
  have stop : ∀ v : Token, v.kind = .eof → (v.kind != .eof) = false := fun v hv => by simp [hv]
  refine many (fun b => topLevel_consumes (limits n m b)) (fun _ _ ended _ => topLevel less ended)
    stop fun x mem => ?_
  have consumes := topLevel_consumes (s := s) (limits n m true)
  have word {w : String} {q : Parser Node} (h : Offers s anyToken q (.word w) [])
      (agree : ∀ t : Token, t.isWord w → ∀ xs,
        Grammar.topLevel (limits n m true) s (t :: xs) = q s (t :: xs)) :
      Offers s (·.kind = .eof) (Parser.many (·.kind != .eof) (Grammar.topLevel (limits n m true)))
        (.word w) [] := by
    obtain ⟨first, offers⟩ := headed_offers h agree
    exact offers.many consumes stop fun t ts names => by simp [first t ts names]
  have choice (t : Token) (xs : List Token) : Grammar.topLevel (limits n m true) s (t :: xs) =
      (if t.isWord "message" then Grammar.messageDef (limits n m true)
      else if t.isWord "enum" then Grammar.enumDef
      else if t.isWord "service" then Grammar.serviceDef
      else if t.isWord "option" then Grammar.optionDecl
      else Parser.mismatch topWants Rule.protoFile.name) s (t :: xs) := rfl
  obtain rfl | rfl | rfl | rfl | rfl : x = .word "message" ∨ x = .word "enum" ∨
      x = .word "service" ∨ x = .word "option" ∨ x = .kind .eof := by
    simpa [topWants] using mem
  · refine word (messageDef less).offers fun t ht xs => ?_
    rw [choice, if_pos ht]
  · refine word enumDef.offers fun t ht xs => ?_
    rw [choice, if_neg (by simp [Derivation.isWord_other ht]), if_pos ht]
  · refine word serviceDef.offers fun t ht xs => ?_
    rw [choice, if_neg (by simp [Derivation.isWord_other ht]),
      if_neg (by simp [Derivation.isWord_other ht]), if_pos ht]
  · refine word optionDecl.offers fun t ht xs => ?_
    rw [choice, if_neg (by simp [Derivation.isWord_other ht]),
      if_neg (by simp [Derivation.isWord_other ht]), if_neg (by simp [Derivation.isWord_other ht]),
      if_pos ht]
  · exact .idle (many_stop consumes stop) fun v hv => Expectation.names_kind hv

theorem headers_option {front : List Token} {hs : List Node} (h : Takes s NotHeader
    (Parser.many (fun t => t.isWord "import" || t.isWord "option") Grammar.header) front hs) :
    Offers s NotHeader (Parser.many (fun t => t.isWord "import" || t.isWord "option")
      Grammar.header) (.word "option") front := by
  have reads := Reads.manyNodes (fun t => t.isWord "import" || t.isWord "option")
    (Reads.header (s := s)) (fun d hd => hd.startsWith.imp fun t ht => by simpa using ht)
    fun d hd => hd.wordFirst.1
  have sample : NotHeader (.sample .eof "") := rfl
  obtain ⟨tail, n, inner, starts, takes⟩ := optionDecl (s := s) (P := anyToken).offers
  -- the statements that were read, and the new one
  obtain ⟨ds, ⟨headers, -, -⟩, same⟩ := reads.ok_iff.mp (h _ [] sample)
  obtain ⟨_, ⟨d, rfl, derived, -⟩, same'⟩ := Reads.optionDecl.ok_iff.mp
    (takes (.sample .eof "") [] trivial)
  obtain rfl : Derivation.yieldList ds = front := List.append_cancel_right same
  obtain rfl : d.yield = tail := by simpa using same'
  refine ⟨d.yield, Derivation.nodesList s (ds ++ [d]), inner, fun v _ => starts v trivial,
    fun v rest hv => ?_⟩
  refine reads.ok_iff.mpr ⟨ds ++ [d], ⟨?_, rfl, hv⟩, by simp⟩
  intro e he
  obtain he | rfl := by simpa using he
  · exact headers e he
  · exact .inr derived

/-- No statement but one of its own stands at a word. -/
theorem topWants_other {x : Expectation} (mem : x ∈ topWants) {w : String} (other : x ≠ .word w)
    {t : Token} {ts : List Token} (names : x.Names (t :: ts)) : t.isWord w = false := by
  obtain ⟨v, rfl⟩ | rfl : (∃ v, x = .word v) ∨ x = .kind .eof := by
    simp only [topWants, List.mem_cons, List.not_mem_nil, or_false] at mem
    obtain rfl | rfl | rfl | rfl | rfl := mem <;> simp
  · exact Derivation.isWord_other (Expectation.isWord_of_names names) fun same => other (same ▸ rfl)
  · simp [Token.isWord, Expectation.kind_of_names names]

theorem rest {n m : Nat} (less : n < m) (ns : List Node) :
    Predictive s none topWants (·.kind = .eof)
    fun b => do
      let headers ← Parser.many (fun t => t.isWord "import" || t.isWord "option") Grammar.header
      let definitions ← Parser.many (·.kind != .eof) (Grammar.topLevel (limits n m b))
      return ns ++ headers ++ definitions := by
  have tail (headers : List Node) := (definitions (s := s) less).last fun definitions =>
    pure (P := (·.kind = .eof)) (ns ++ headers ++ definitions)
  have follows : Follows none [] (·.kind = .eof) NotHeader := .none fun v hv => by
    simp [NotHeader, Token.isWord, hv]
  have next : ∀ x ∈ topWants, ∀ front hs, Takes s NotHeader (Parser.many
      (fun t => t.isWord "import" || t.isWord "option") Grammar.header) front hs →
        Offers s (·.kind = .eof) (do
          let headers ← Parser.many (fun t => t.isWord "import" || t.isWord "option") Grammar.header
          let definitions ← Parser.many (·.kind != .eof) (Grammar.topLevel (limits n m true))
          return ns ++ headers ++ definitions) x front := by
    intro x mem front hs takes
    by_cases option : x = .word "option"
    · -- the loop over the imports takes an option before the loop over the definitions does
      obtain rfl := option
      exact (headers_option takes).bind_left (fun headers => (tail headers).ready true) follows
    · refine .bind_next takes ((tail hs).offers x mem) fun t ts names => ?_
      have notImport : x ≠ .word "import" := by
        rintro rfl
        exact absurd mem (by decide)
      simp [NotHeader, topWants_other mem notImport names, topWants_other mem option names]
  refine ⟨fun ts ended => ?_, fun b => (headers.ready b).bind (fun hs => (tail hs).ready b) follows,
    fun x mem => next x mem [] [] ?_⟩
  · exact ((headers.run ts ended).bind ended (fun hs rest ended' _ => (tail hs).run rest ended')
      (fun b hs => (tail hs).ready b) follows next (List.nil_subset topWants) fun _ =>
        List.Subset.refl topWants).imp fun _ => rfl
  · exact many_stop (consumes_single Reads.header fun _ => Derivation.Header.wordFirst) fun _ => id

/-- The statements of a file, read with a lower and a higher limit on nesting. -/
theorem statements {n m : Nat} (less : n < m) : Predictive s none topWants (·.kind = .eof)
    fun b => Grammar.statements (limits n m b) := by
  have first {w : String} (other : .word w ∉ topWants) :
      Follows none topWants (·.kind = .eof) (·.isWord w = false) := by
    refine ⟨nofun, fun x mem t ts => topWants_other mem ?_, fun _ v hv =>
      by simp [Token.isWord, hv]⟩
    rintro rfl
    exact other mem
  exact (optional syntaxDecl).bind (fun version => (optional packageDecl).bind
    (fun package => rest less (version ++ package)) (first (by decide))) (first (by decide))

end Predictive

end Parser

end ProtoSchema
