import ProtoSchema.Proofs.Confinement
import ProtoSchema.Proofs.NestingLimit
import ProtoSchema.Proofs.Progress

/-! # Any list of tokens

A list of tokens need not come from a text: it may lack a token that ends the text, or go on after
one, and the tokens may have any words and places. Reading it ends all the same. Tokens run out
only where nothing ends the text, and there no tree comes out; what stands after the end of the text
is not looked at.
-/

namespace ProtoSchema

open ProtoSchema.Parser

namespace Node

variable {limit : Nat} {source : List Char} {tokens : List Token}

theorem ofTokens_last {last : Token} (h : tokens.getLast? = some last) :
    ofTokens limit source tokens =
      (Grammar.statements limit ⟨source, last⟩ tokens).map fun r => root source r.1 := by
  obtain ⟨body, rfl⟩ := List.getLast?_eq_some_iff.mp h
  rw [ofTokens_append]
  cases Grammar.statements limit ⟨source, last⟩ (body ++ [last]) with
  | ok r => rfl
  | error failure => rfl

/-- There must be as many tokens as messages may be nested for the limit to be reached. -/
theorem le_length_of_tooDeep (h : ofTokens limit source tokens = .error .tooDeep) :
    limit ≤ tokens.length := by
  obtain rfl | ⟨body, last, rfl⟩ := tokens.eq_nil_or_concat'
  · cases h
  · by_contra less
    exact (Shallow.statements limit).reaches _ _ (Nat.lt_of_not_le less) (ofTokens_eq_error.mp h)

/-- Tokens do not run out in a list in which the text ends. -/
theorem ofTokens_ended (ended : Ended tokens) :
    ofTokens limit source tokens ≠ .error .outOfTokens := by
  obtain rfl | ⟨body, last, rfl⟩ := tokens.eq_nil_or_concat'
  · obtain ⟨_, _, ⟨⟩⟩ := ended.exists_cons
  · intro h
    have predictive := Predictive.statements (s := ⟨source, last⟩) (Nat.lt_succ_self limit)
    obtain ⟨_, _, _, found, -⟩ | ⟨_, _, found, -⟩ :=
      (predictive.run _ ended).failure_cases (ofTokens_eq_error.mp h)
    · cases found
    · cases found

/-- What stands after the end of the text has no effect. -/
theorem ofTokens_cut {front rest : List Token} {e : Token} (inner : Inner front) (he : e.IsEnd) :
    ofTokens limit source (front ++ e :: rest) = ofTokens limit source (front ++ [e]) := by
  obtain ⟨last, found⟩ : ∃ last, (front ++ e :: rest).getLast? = some last := by
    simp [List.getLast?_eq_some_getLast]
  -- both the tokens after the end of the text and the last token of the list are different
  have same := ((Confined.statements he limit).run front inner).same ⟨source, last⟩ ⟨source, e⟩ rfl
    rest []
  rw [ofTokens_last found, ofTokens_last List.getLast?_concat]
  generalize Grammar.statements limit ⟨source, last⟩ (front ++ e :: rest) = x,
    Grammar.statements limit ⟨source, e⟩ (front ++ [e]) = y at same
  cases same with
  | ok => rfl
  | error => rfl

theorem ofTokens_unended (inner : Inner tokens) (tree : Node) :
    ofTokens limit source tokens ≠ .ok tree := by
  intro h
  obtain rfl | ⟨body, last, rfl⟩ := tokens.eq_nil_or_concat'
  · cases h
  · obtain ⟨⟨ns, rest⟩, ok⟩ := ofTokens_ok h ⟨source, last⟩
    obtain ⟨ds, ⟨-, stop, -⟩, same⟩ := (Reads.statements limit).ok_iff.mp ok
    -- a file goes on up to a token that ends the text, which is in the list or is its last one
    cases rest with
    | nil => exact inner last List.mem_concat_self stop
    | cons t rest => exact inner t (by simp [← same]) stop

/-- Reading ends on every list of tokens: no loop needs its bound, and what comes out is a tree, a
syntax error or a lack of tokens, unless there are as many tokens as messages may be nested. -/
theorem ofTokens_safe (limit : Nat) (source : List Char) (tokens : List Token) :
    (∀ s, LoopsEnd s) ∧
    ((∃ tree, ofTokens limit source tokens = .ok tree) ∨
      (∃ e, ofTokens limit source tokens = .error (.mismatch e)) ∨
      ofTokens limit source tokens = .error .outOfTokens ∨
      ofTokens limit source tokens = .error .tooDeep ∧ limit ≤ tokens.length) ∧
    ((∃ t ∈ tokens, t.kind = .eof) → ofTokens limit source tokens ≠ .error .outOfTokens) ∧
    (∀ front e rest, tokens = front ++ e :: rest → (∀ t ∈ front, t.kind ≠ .eof) →
      e.kind = .eof → e.text = "" →
        ofTokens limit source tokens = ofTokens limit source (front ++ [e])) ∧
    ((∀ t ∈ tokens, t.kind ≠ .eof) → ∀ tree, ofTokens limit source tokens ≠ .ok tree) := by
  refine ⟨loopsEnd, ?outcome, ofTokens_ended, ?cut, ofTokens_unended⟩
  case outcome =>
    cases h : ofTokens limit source tokens with
    | ok tree => exact .inl ⟨tree, rfl⟩
    | error failure =>
        cases failure with
        | mismatch e => exact .inr (.inl ⟨e, rfl⟩)
        | outOfTokens => exact .inr (.inr (.inl rfl))
        | tooDeep => exact .inr (.inr (.inr ⟨rfl, le_length_of_tooDeep h⟩))
  case cut =>
    rintro front e rest rfl inner kind text
    exact ofTokens_cut inner ⟨kind, text⟩

/-- A list that goes on after the end of the text, and one in which the text does not end. -/
theorem ofTokens_safe_message :
    let message : Token := ⟨.ident, "message", 1, 1, 0, 7⟩
    let name : Token := ⟨.ident, "A", 1, 9, 8, 9⟩
    let stop : Token := ⟨.eof, "", 1, 8, 7, 7⟩
    ((∃ t ∈ [message, stop, name], t.kind = .eof) ∧
      ofTokens 1 [] [message, stop, name] ≠ .error .outOfTokens) ∧
    ((∀ t ∈ [message], t.kind ≠ .eof) ∧ stop.kind = .eof ∧ stop.text = "" ∧
      ofTokens 1 [] [message, stop, name] = ofTokens 1 [] ([message] ++ [stop])) ∧
    (∀ t ∈ [message, name], t.kind ≠ .eof) ∧ ∀ tree, ofTokens 1 [] [message, name] ≠ .ok tree := by
  intro message name stop
  have ended : ∃ t ∈ [message, stop, name], t.kind = .eof := ⟨stop, by simp, rfl⟩
  have inner : ∀ t ∈ [message], t.kind ≠ .eof := by decide
  have unended : ∀ t ∈ [message, name], t.kind ≠ .eof := by decide
  obtain ⟨-, -, enough, cut, -⟩ := ofTokens_safe 1 [] [message, stop, name]
  obtain ⟨-, -, -, -, treeless⟩ := ofTokens_safe 1 [] [message, name]
  exact ⟨⟨ended, enough ended⟩, ⟨inner, rfl, rfl, cut [message] stop [name] rfl inner rfl rfl⟩,
    unended, treeless unended⟩

end Node

end ProtoSchema
