import ProtoSchema.Proofs.FirstImpossible

/-! # The limit on nesting

Reading tokens stops at the limit on nesting just where the tokens so far start files, all of which
have messages nested beyond the limit. On a list that ends with the end of the text, reading never
runs out of tokens.
-/

namespace ProtoSchema

open ProtoSchema.Parser ProtoSchema.Derivation

/-- Files start with these tokens, and all of them have messages nested beyond the limit. -/
def Derivation.Overnested (limit : Nat) (front : List Token) : Prop :=
  (∃ more d, Derives (front ++ more) d) ∧ ∀ more d, Derives (front ++ more) d → limit < d.nesting

namespace Parser

variable {s : Scope} {limit : Nat} {front : List Token}

theorem statements_derives {ts : List Token} {d : Derivation} (h : Derives ts d)
    (shallow : d.nesting ≤ limit) (s : Scope) : ∃ r, Grammar.statements limit s ts = .ok r := by
  obtain ⟨ds, last, rfl, parts, eof⟩ := from_protoFile.mp h.1
  obtain rfl : yieldList ds ++ [last] = ts := by simpa using h.2
  have tree : Node.ofTokens limit s.source (yieldList ds ++ [last]) = .ok _ :=
    (Node.ofTokens_eq_ok parts.kind_ne_eof eof).mpr ⟨_, h, shallow, rfl⟩
  exact Node.ofTokens_ok tree s

theorem Completes.derives (inner : Inner front) (eof : s.last.kind = .eof)
    (h : Completes s (·.kind = .eof) (Grammar.statements limit) front) :
    ∃ more d, Derives (front ++ more) d ∧ d.nesting ≤ limit := by
  obtain ⟨tail, ns, inner', takes⟩ := h
  have tree : Node.ofTokens limit s.source (front ++ tail ++ [s.last]) =
      .ok (.root s.source ns) := by
    rw [Node.ofTokens_append, takes s.last [] eof]
  obtain ⟨d, derives, shallow, -⟩ := (Node.ofTokens_eq_ok (inner.append inner') eof).mp tree
  exact ⟨tail ++ [s.last], d, by rwa [← List.append_assoc], shallow⟩

/-- Tokens that block a parser with one limit start no file within it. -/
theorem Blocked.nesting (h : Blocked s (Grammar.statements limit) front) {more : List Token}
    {d : Derivation} (derives : Derives (front ++ more) d) : limit < d.nesting := by
  by_contra shallow
  obtain ⟨r, ok⟩ := statements_derives derives (Nat.le_of_not_lt shallow) s
  exact h more r ok

end Parser

namespace Node

variable {limit : Nat} {source : List Char} {body : List Token} {last : Token}

theorem statements_predicted (limit : Nat) (source : List Char) (body : List Token) {last : Token}
    (eof : last.kind = .eof) : Predicts ⟨source, last⟩ True Predictive.topWants (·.kind = .eof)
      (fun b => Grammar.statements (Predictive.limits limit (limit + 1) b)) (body ++ [last]) :=
  ((Predictive.statements (Nat.lt_succ_self limit)).run _
    ⟨last, List.mem_concat_self, eof⟩).imp fun _ => trivial

theorem ofTokens_ne_outOfTokens (eof : last.kind = .eof) :
    ofTokens limit source (body ++ [last]) ≠ .error .outOfTokens := by
  intro h
  obtain ⟨_, _, _, found, -⟩ | ⟨_, _, found, -⟩ :=
    (statements_predicted limit source body eof).failure_cases (ofTokens_eq_error.mp h)
  · cases found
  · cases found

/-- A list of tokens is nested too deeply if and only if it starts with tokens that only files
nested beyond the limit start with. -/
theorem ofTokens_tooDeep (inner : ∀ t ∈ body, t.kind ≠ .eof) (eof : last.kind = .eof) :
    ofTokens limit source (body ++ [last]) = .error .tooDeep ↔
      ∃ front rest, body ++ [last] = front ++ rest ∧ Overnested limit front := by
  constructor
  · intro h
    obtain ⟨_, _, _, found, -⟩ | ⟨front, more, -, same, inner, blocked, completes⟩ :=
      (statements_predicted limit source body eof).failure_cases (ofTokens_eq_error.mp h)
    · cases found
    · obtain ⟨tail, d, derives, -⟩ := completes.derives inner eof
      exact ⟨front, more, same, ⟨tail, d, derives⟩, fun _ _ => blocked.nesting⟩
  · rintro ⟨front, rest, same, ⟨more, d, derives⟩, deep⟩
    cases h : ofTokens limit source (body ++ [last]) with
    | ok tree =>
        obtain ⟨d, derives, shallow, -⟩ := (ofTokens_eq_ok inner eof).mp h
        exact absurd shallow (Nat.not_le_of_lt (deep rest d (same ▸ derives)))
    | error failure =>
        cases failure with
        | tooDeep => rfl
        | outOfTokens => exact absurd h (ofTokens_ne_outOfTokens eof)
        | mismatch e =>
            obtain ⟨front', rest', same', inner', completes, blocked⟩ :=
              statements_mismatch ⟨last, by simp, eof⟩ (ofTokens_eq_error.mp h)
            -- the tokens before the error start a shallow file, and those up to it start none
            obtain ⟨zs, rfl, -⟩ | ⟨_ | ⟨z, zs⟩, rfl, after⟩ :=
              List.append_eq_append_iff.mp (same.symm.trans same')
            · obtain ⟨tail, d, derives, shallow⟩ := completes.derives inner' eof
              rw [List.append_assoc] at derives
              exact absurd shallow (Nat.not_le_of_lt (deep _ d derives))
            · obtain ⟨tail, d, derives, shallow⟩ := completes.derives inner' eof
              rw [List.append_nil] at deep
              exact absurd shallow (Nat.not_le_of_lt (deep _ d derives))
            · obtain ⟨rfl, -⟩ := List.cons_eq_cons.mp after
              rw [List.append_cons, List.append_assoc] at derives
              exact ((blocked d.nesting).nesting derives).false.elim

end Node

end ProtoSchema
