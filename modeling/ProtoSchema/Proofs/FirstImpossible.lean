import ProtoSchema.Proofs.FilePrediction
import ProtoSchema.Proofs.GrammarExact

/-! # Errors stand at the first impossible token

The token that a syntax error names is the first one that no file has after the tokens before it:
those tokens start a file, and together with the named one they start none. What limit there is on
nesting does not matter for this, and neither do the text and the tokens after the named one.
-/

namespace ProtoSchema

namespace Parser

theorem Blocked.not_completes {s : Scope} {P : Token → Prop} {p : Parser α}
    {front more : List Token}
    (blocked : Blocked s p front) {v : Token} (hv : P v) : ¬Completes s P p (front ++ more) := by
  rintro ⟨tail, a, -, takes⟩
  have ok := takes v [] hv
  rw [List.append_assoc, List.append_assoc] at ok
  exact blocked _ _ ok

/-- A parser fails at one place only. -/
theorem front_eq {s : Scope} {P : Token → Prop} {p : Parser α}
    {front front' more more' : List Token}
    {t v : Token} (hv : P v) (same : front ++ t :: more = front' ++ t :: more')
    (completes : Completes s P p front) (blocked : Blocked s p (front ++ [t]))
    (completes' : Completes s P p front') (blocked' : Blocked s p (front' ++ [t])) :
    front = front' := by
  -- the longer one of the two would start with what blocks the parser
  obtain ⟨zs, rfl, h⟩ | ⟨zs, rfl, h⟩ := List.append_eq_append_iff.mp same
  · cases zs with
    | nil => exact (List.append_nil front).symm
    | cons z zs =>
        obtain ⟨rfl, -⟩ := List.cons_eq_cons.mp h
        exact absurd (List.append_cons front t zs ▸ completes') (blocked.not_completes hv)
  · cases zs with
    | nil => exact List.append_nil front'
    | cons z zs =>
        obtain ⟨rfl, -⟩ := List.cons_eq_cons.mp h
        exact absurd (List.append_cons front' t zs ▸ completes) (blocked'.not_completes hv)

section

variable {s : Scope} {limit limit' : Nat} {ts : List Token} {r : List Node × List Token}

/-- A file stays one with a higher limit. -/
theorem statements_grow (le : limit ≤ limit') (h : Grammar.statements limit s ts = .ok r) :
    Grammar.statements limit' s ts = .ok r := by
  obtain ⟨ds, ⟨parts, stop, nodes⟩, same⟩ := (Reads.statements limit).ok_iff.mp h
  obtain ⟨parts, shallow⟩ := Derivation.fileParts_messageUpTo.mp parts
  have parts := Derivation.fileParts_messageUpTo.mpr ⟨parts, shallow.trans le⟩
  exact (Reads.statements limit').ok_iff.mpr ⟨ds, ⟨parts, stop, nodes⟩, same⟩

/-- A file is one in any text, and whatever token is taken for its last one. -/
theorem statements_anywhere (h : Grammar.statements limit s ts = .ok r)
    (last : ts.getLast? = some s.last) (s' : Scope) :
    ∃ ns, Grammar.statements limit s' ts = .ok (ns, r.2) := by
  obtain ⟨ns, rest⟩ := r
  obtain ⟨ds, ⟨parts, stop, -⟩, rfl⟩ := (Reads.statements limit).ok_iff.mp h
  cases rest with
  | nil =>
      have mem : s.last ∈ Derivation.yieldList ds := List.mem_of_getLast? (by simpa using last)
      exact absurd stop ((Derivation.fileParts_messageUpTo.mp parts).1.kind_ne_eof s.last mem)
  | cons t rest =>
      exact ⟨_, (Reads.statements limit).ok_iff.mpr ⟨ds, ⟨parts, stop, rfl⟩, rfl⟩⟩

theorem statements_mismatch {e : ParseError} (ended : Ended ts)
    (h : Grammar.statements limit s ts = .error (.mismatch e)) :
    ∃ front more, ts = front ++ e.found :: more ∧ Inner front ∧
      Completes s (·.kind = .eof) (Grammar.statements limit) front ∧
        ∀ m, Blocked s (Grammar.statements m) (front ++ [e.found]) := by
  -- with each higher limit there is such a front, and they are all the same
  have above {m : Nat} (less : limit < m) : ∃ front more, ts = front ++ e.found :: more ∧
      Inner front ∧ Completes s (·.kind = .eof) (Grammar.statements limit) front ∧
        Blocked s (Grammar.statements limit) (front ++ [e.found]) ∧
          Blocked s (Grammar.statements m) (front ++ [e.found]) := by
    have predictive := Predictive.statements (s := s) less
    obtain ⟨_, front, more, found, same, inner, blocked, completes⟩ | ⟨_, _, found, -⟩ :=
      (predictive.run ts ended).failure_cases h
    · cases found
      refine ⟨front, more, same, inner, ?_, blocked false, blocked true⟩
      by_cases none : front = []
      · obtain ⟨tail, a, inner, -, takes⟩ := predictive.ready false
        exact ⟨tail, a, inner, none ▸ takes⟩
      · exact completes none false
    · cases found
  obtain ⟨front, more, same, inner, completes, blocked, -⟩ := above (Nat.lt_succ_self limit)
  refine ⟨front, more, same, inner, completes, fun m xs r ok => ?_⟩
  obtain ⟨front', more', same', -, completes', blocked', higher⟩ :=
    above (Nat.lt_succ_of_le (Nat.le_max_left limit m))
  have sample : (Token.sample .eof "").kind = .eof := rfl
  obtain rfl := front_eq (P := (·.kind = .eof)) sample (same.symm.trans same') completes blocked
    completes' blocked'
  exact higher xs r (statements_grow (Nat.le_succ_of_le (Nat.le_max_right limit m)) ok)

end

end Parser

open ProtoSchema.Parser

namespace Node

theorem ofTokens_eq_error {limit : Nat} {source : List Char} {body : List Token} {last : Token}
    {failure : Failure} : ofTokens limit source (body ++ [last]) = .error failure ↔
      Grammar.statements limit ⟨source, last⟩ (body ++ [last]) = .error failure := by
  rw [ofTokens_append]
  cases Grammar.statements limit ⟨source, last⟩ (body ++ [last]) with
  | ok r => simp
  | error e => simp

theorem ofTokens_ok {limit : Nat} {source : List Char} {ts : List Token} {tree : Node}
    (h : ofTokens limit source ts = .ok tree) (s : Scope) :
    ∃ r, Grammar.statements limit s ts = .ok r := by
  obtain ⟨body, last, rfl⟩ | rfl := ts.eq_nil_or_concat'.symm
  · rw [ofTokens_append] at h
    cases ok : Grammar.statements limit ⟨source, last⟩ (body ++ [last]) with
    | error failure => simp [ok] at h
    | ok r =>
        obtain ⟨ns, found⟩ := statements_anywhere ok List.getLast?_concat s
        exact ⟨_, found⟩
  · cases h

/-- A syntax error has the place of a token such that the tokens before it start a list with a tree,
and no list with a tree starts with them and this token. -/
theorem ofTokens_mismatch (limit : Nat) (source : List Char) (body : List Token) (last : Token)
    (eof : last.kind = .eof) (e : ParseError)
    (failed : ofTokens limit source (body ++ [last]) = .error (.mismatch e)) :
    ∃ (i : Nat) (t : Token), (body ++ [last])[i]? = some t ∧
      (e.diagnostic.line = t.line ∧ e.diagnostic.col = t.col ∧ e.diagnostic.offset = t.start) ∧
      (∃ more tree, (∀ u ∈ (body ++ [last]).take i ++ more, u.kind ≠ .eof) ∧
        ofTokens limit source ((body ++ [last]).take i ++ more ++ [last]) = .ok tree) ∧
      ∀ limit' source' more tree,
        ofTokens limit' source' ((body ++ [last]).take (i + 1) ++ more) ≠ .ok tree := by
  have ended : Ended (body ++ [last]) := ⟨last, by simp, eof⟩
  obtain ⟨front, rest, same, inner, ⟨more, ns, inner', takes⟩, blocked⟩ :=
    statements_mismatch ended (ofTokens_eq_error.mp failed)
  rw [same]
  refine ⟨front.length, e.found, by simp, ⟨rfl, rfl, rfl⟩, ⟨more, root source ns, ?_, ?_⟩, ?_⟩
  · rw [List.take_left]
    exact inner.append inner'
  · rw [List.take_left, ofTokens_append, takes last [] eof]
  · intro limit' source' more tree ok
    obtain ⟨r, ok⟩ := ofTokens_ok ok ⟨source, last⟩
    rw [List.take_append, List.take_of_length_le (Nat.le_succ _), Nat.add_sub_cancel_left] at ok
    exact blocked limit' more r ok

/-- A message that has no name: an opening brace cannot follow its first word. -/
theorem ofTokens_mismatch_unnamed :
    let message : Token := ⟨.ident, "message", 1, 1, 0, 7⟩
    let left : Token := ⟨.lbrace, "\x7b", 1, 9, 8, 9⟩
    let last : Token := ⟨.eof, "", 1, 10, 9, 9⟩
    let e : ParseError := ⟨[.rule .ident], "message_def", left⟩
    last.kind = .eof ∧
      ofTokens 1 "message \x7b".toList ([message, left] ++ [last]) = .error (.mismatch e) ∧
      ∃ (i : Nat) (t : Token), ([message, left] ++ [last])[i]? = some t ∧
        (e.diagnostic.line = t.line ∧ e.diagnostic.col = t.col ∧ e.diagnostic.offset = t.start) ∧
        (∃ more tree, (∀ u ∈ ([message, left] ++ [last]).take i ++ more, u.kind ≠ .eof) ∧
          ofTokens 1 "message \x7b".toList (([message, left] ++ [last]).take i ++ more ++ [last]) =
            .ok tree) ∧
        ∀ limit' source' more tree,
          ofTokens limit' source' (([message, left] ++ [last]).take (i + 1) ++ more)
            ≠ .ok tree := by
  intro message left last e
  have failed : ofTokens 1 "message \x7b".toList ([message, left] ++ [last]) =
      .error (.mismatch e) := rfl
  exact ⟨rfl, failed, ofTokens_mismatch 1 _ _ last rfl e failed⟩

end Node

end ProtoSchema
