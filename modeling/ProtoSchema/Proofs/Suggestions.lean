import ProtoSchema.Proofs.FirstImpossible
import ProtoSchema.Proofs.Formatting

/-! # What a syntax error asks for is possible

A syntax error names what could have stood in place of the token that it is at. Each of these is
really possible: some file starts with the tokens before, and goes on with a token, or with the
tokens of a construct, that the error names.
-/

namespace ProtoSchema

namespace Parser

variable {s : Scope}

/-- What a file asks for after its first tokens, a file with more nesting goes on with. -/
theorem statements_offers {limit : Nat} {ts : List Token} {e : ParseError} (ended : Ended ts)
    (failed : Grammar.statements limit s ts = .error (.mismatch e)) :
    ∃ front more, ts = front ++ e.found :: more ∧ Inner front ∧ e.expected ≠ [] ∧
      ∀ x ∈ e.expected, Offers s (·.kind = .eof) (Grammar.statements (limit + 1)) x front := by
  have predictive := Predictive.statements (s := s) (Nat.lt_succ_self limit)
  obtain ⟨front, more, same, inner, asks⟩ := (predictive.run ts ended).mismatch_asks failed
  refine ⟨front, more, same, inner, asks.some, fun x mem => ?_⟩
  by_cases none : front = []
  · exact none ▸ predictive.offers x (asks.first none mem)
  · exact asks.later none x mem

end Parser

open ProtoSchema.Parser

namespace Node

/-- What a parser of files offers after some tokens starts a list that has a tree. -/
theorem ofTokens_offers {limit : Nat} {source : List Char} {last : Token} {x : Expectation}
    {front : List Token} (eof : last.kind = .eof)
    (offers : Offers ⟨source, last⟩ (·.kind = .eof) (Grammar.statements limit) x front) :
    ∃ part rest, part ≠ [] ∧ x.Names part ∧ ∀ limit' ≥ limit, ∃ tree,
      ofTokens limit' source (front ++ part ++ rest) = .ok tree := by
  obtain ⟨tail, ns, -, starts, takes⟩ := offers
  obtain ⟨t, more, names, rest, same⟩ := starts last eof
  refine ⟨t :: more, rest, List.cons_ne_nil t more, names, fun limit' le => ?_⟩
  refine ⟨root source ns, ?_⟩
  rw [List.append_assoc, same, ← List.append_assoc, ofTokens_append,
    statements_grow le (takes last [] eof)]

/-- What a syntax error asks for at a token is not nothing, and each of it can stand there: some
list of tokens that starts with those before the token, and goes on with what the error names, has a
tree, whatever the limit on nesting is beyond the one that holds for the error. -/
theorem ofTokens_suggestions {limit : Nat} {source : List Char} {tokens : List Token}
    {e : ParseError} (scanned : Token.scan source = .ok tokens)
    (failed : ofTokens limit source tokens = .error (.mismatch e)) :
    ∃ i, StandsAt tokens e.found i ∧ e.diagnostic.expected ≠ [] ∧
      ∀ x ∈ e.expected, ∃ part rest, part ≠ [] ∧ x.Names part ∧ ∀ limit' > limit, ∃ tree,
        ofTokens limit' source (tokens.take i ++ part ++ rest) = .ok tree := by
  obtain ⟨xs, separate, -, row⟩ := Token.scan_ok_iff.mp scanned
  obtain ⟨body, ends, -, -⟩ := Lexeme.tokensAt_eq separate .start
  obtain rfl := row.symm.trans ends
  have ended : Ended (body ++ [.eof (Position.start.after (Lexeme.text xs))]) :=
    ⟨_, List.mem_append_right body (List.mem_singleton_self _), rfl⟩
  obtain ⟨front, more, same, -, some, offers⟩ :=
    statements_offers ended (ofTokens_eq_error.mp failed)
  refine ⟨front.length, Schema.standsAt scanned (by simp [same]),
    fun none => some (List.map_eq_nil_iff.mp none), ?_⟩
  intro x mem
  rw [same, List.take_left]
  exact ofTokens_offers rfl (offers x mem)

/-- A number cannot start an element of a message, and a field, a definition, an empty statement or
the closing brace can. -/
theorem ofTokens_suggestions_number :
    let source := "message M \x7b 5".toList
    let number : Token := ⟨.number, "5", 1, 13, 12, 13⟩
    let front : List Token := [⟨.ident, "message", 1, 1, 0, 7⟩, ⟨.ident, "M", 1, 9, 8, 9⟩,
      ⟨.lbrace, "\x7b", 1, 11, 10, 11⟩]
    let tokens := front ++ [number, .eof ⟨1, 14, 13⟩]
    let e : ParseError := ⟨[.rule .field, .word "message", .word "enum", .kind .semicolon,
      .kind .rbrace], "message_def", number⟩
    Token.scan source = .ok tokens ∧ ofTokens 1 source tokens = .error (.mismatch e) ∧
      ∃ i, StandsAt tokens e.found i ∧ e.diagnostic.expected ≠ [] ∧
        ∀ x ∈ e.expected, ∃ part rest, part ≠ [] ∧ x.Names part ∧ ∀ limit' > 1, ∃ tree,
          ofTokens limit' source (tokens.take i ++ part ++ rest) = .ok tree := by
  intro source number front tokens e
  have scanned : Token.scan source = .ok tokens := by decide +kernel
  have failed : ofTokens 1 source tokens = .error (.mismatch e) := rfl
  exact ⟨scanned, failed, ofTokens_suggestions scanned failed⟩

end Node

end ProtoSchema
