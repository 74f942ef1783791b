import ProtoSchema.Proofs.Meaning
import ProtoSchema.Proofs.Placement

/-! # The schema of a text

A text has a schema if and only if the grammar derives its tokens, and the schema is the one that
the derivation declares. No tree of a text has a shape that schemas cannot be built from.
-/

namespace ProtoSchema

open ProtoSchema.Derivation

variable {limit : Nat}

theorem mapError_eq_ok {f : ε → ε'} {x : Except ε α} {a : α} :
    x.mapError f = .ok a ↔ x = .ok a := by
  cases x <;> simp [Except.mapError]

/-- Only the last token of a text ends it. -/
theorem Token.scan_body {source : List Char} {tokens : List Token} (h : scan source = .ok tokens) :
    ∃ body, tokens = body ++ [.eof (Position.start.after source)] ∧
      ∀ t ∈ body, t.kind ≠ .eof := by
  obtain ⟨xs, separate, rfl, rfl⟩ := scan_ok_iff.mp h
  obtain ⟨body, same, -, inner⟩ := Lexeme.tokensAt_eq separate .start
  exact ⟨body, same, inner⟩

/-- The scope of a whole text. -/
def Parser.Scope.whole (source : List Char) : Scope :=
  ⟨source, .eof (Position.start.after source)⟩

theorem Node.ofText_scanned {source : List Char} {tokens : List Token}
    (h : Token.scan source = .ok tokens) : Node.ofText limit source =
      match Grammar.statements limit (.whole source) tokens with
      | .ok (children, _) => .ok (.root source children)
      | .error failure => .error (.parse failure) := by
  obtain ⟨body, rfl, -⟩ := Token.scan_body h
  rw [ofText, h, Parser.Scope.whole]
  dsimp only
  rw [ofTokens_append]
  generalize Grammar.statements _ _ _ = result
  cases result <;> rfl

/-- The texts of the tokens of a whole text are where they say. -/
theorem Derivation.Derives.faithful {source : List Char} {tokens : List Token} {d : Derivation}
    (h : Derives tokens d) (scanned : Token.scan source = .ok tokens) :
    d.Faithful (.whole source) := by
  intro t ht
  rw [h.2] at ht
  exact Token.scan_slice scanned _ t ht

/-- A text has a tree if and only if the grammar derives its tokens within the limit. -/
theorem Node.ofText_eq_ok {source : List Char} {tree : Node} : Node.ofText limit source = .ok tree ↔
    ∃ tokens d, Token.scan source = .ok tokens ∧ Derives tokens d ∧ d.nesting ≤ limit ∧
      d.tree (.whole source) = tree := by
  cases scanned : Token.scan source with
  | error e => simp [ofText, scanned]
  | ok tokens =>
      obtain ⟨body, rfl, inner⟩ := Token.scan_body scanned
      have last : (Token.eof (Position.start.after source)).kind = .eof := rfl
      simp [ofText, scanned, mapError_eq_ok, ofTokens_eq_ok inner last, Parser.Scope.whole]

/-- A text has a schema if and only if the grammar derives its tokens within the limit. The schema
and the warnings are those of the derivation. -/
theorem Schema.ofText_eq_ok {source : List Char} {p : Schema} {ws : List Warning} :
    Schema.ofText limit source = .ok (p, ws) ↔
      ∃ tokens d, Token.scan source = .ok tokens ∧ Derives tokens d ∧
        d.nesting ≤ limit ∧ d.schema = p ∧ d.warnings = ws := by
  constructor
  · intro h
    cases tree : Node.ofText limit source with
    | error e => simp [ofText, tree] at h
    | ok n =>
        obtain ⟨tokens, d, scanned, derives, shallow, rfl⟩ := Node.ofText_eq_ok.mp tree
        have built := derives.1.ofTree (derives.faithful scanned)
        obtain ⟨rfl, rfl⟩ := by simpa [ofText, tree, built, Except.mapError] using h
        exact ⟨tokens, d, scanned, derives, shallow, rfl, rfl⟩
  · rintro ⟨tokens, d, scanned, derives, shallow, rfl, rfl⟩
    have tree := Node.ofText_eq_ok.mpr ⟨tokens, d, scanned, derives, shallow, rfl⟩
    simp [ofText, tree, derives.1.ofTree (derives.faithful scanned), Except.mapError]

/-- A text without a schema has no tree either. -/
theorem Schema.ofText_eq_error {source : List Char} {e : SchemaError} :
    Schema.ofText limit source = .error e ↔
      ∃ e', Node.ofText limit source = .error e' ∧ e = .tree e' := by
  cases tree : Node.ofText limit source with
  | error e' => simp [ofText, tree, eq_comm]
  | ok n =>
      obtain ⟨tokens, d, scanned, derives, shallow, rfl⟩ := Node.ofText_eq_ok.mp tree
      simp [ofText, tree, derives.1.ofTree (derives.faithful scanned), Except.mapError]

end ProtoSchema
