import ProtoSchema.Proofs.Agreement
import ProtoSchema.Proofs.Bare
import ProtoSchema.Proofs.SchemaExact
import ProtoSchema.Proofs.WritingDerivation

/-! # Written schemas are read back

A text that writes a schema has that schema, however its definitions are interleaved and whatever
stands between its tokens. No number in it is out of range.
-/

namespace ProtoSchema

open ProtoSchema.Derivation

variable {limit : Nat}

/-- A text whose tokens have a derivation without their places has one with them. -/
theorem Token.scan_derives {source : List Char} {tokens : List Token} {d : Derivation}
    (scanned : Token.scan source = .ok tokens) (derives : Derives (tokens.map Token.bare) d)
    (shallow : d.nesting ≤ limit) :
    ∃ e : Derivation, Derives tokens e ∧ e.nesting ≤ limit ∧ e.bare = d := by
  have tree : Node.ofText limit source = _ := Node.ofText_scanned scanned
  obtain ⟨body, rfl, inner⟩ := Token.scan_body scanned
  let last := Token.eof (Position.start.after source)
  have inner' : ∀ t ∈ body.map Token.bare, t.kind ≠ .eof := by
    simpa using inner
  have bare : Node.ofTokens limit [] (body.map Token.bare ++ [last.bare]) = .ok _ :=
    (Node.ofTokens_eq_ok inner' rfl).mpr ⟨d, by simpa using derives, shallow, rfl⟩
  have related : List.Forall₂ (fun t u => t = Token.bare u) (body.map Token.bare ++ [last.bare])
      (body ++ [last]) := by
    rw [← List.map_singleton, ← List.map_append, List.forall₂_map_left_iff]
    exact List.forall₂_same.mpr fun _ _ => rfl
  have alike : ∀ t u : Token, t = u.bare → t.Alike u := by
    rintro _ u rfl
    exact ⟨rfl, rfl⟩
  have agree := (Parser.Respects.statements alike limit).agree ⟨[], last.bare⟩
    (.whole source) rfl _ _ related
  rw [Node.ofTokens_append] at bare
  generalize Grammar.statements limit ⟨[], last.bare⟩ _ = result at agree bare
  generalize Grammar.statements limit (.whole source) _ = result' at agree tree
  cases agree with
  | ok value rest =>
      obtain ⟨_, e, same, derives', shallow', -⟩ := Node.ofText_eq_ok.mp tree
      obtain rfl := by simpa [scanned] using same
      exact ⟨e, derives', shallow', derives'.bare.unique derives⟩
  | mismatch | outOfTokens | tooDeep => simp at bare

/-- A text has the tree and the schema that its tokens declare without their places. -/
theorem Schema.ofText_declared {source : List Char} {tokens : List Token} {d : Derivation}
    (scanned : Token.scan source = .ok tokens) (derives : Derives (tokens.map Token.bare) d)
    (shallow : d.nesting ≤ limit) :
    ∃ e : Derivation, e.bare = d ∧ Node.ofText limit source = .ok (e.tree (.whole source)) ∧
      ofText limit source = .ok (d.schema, e.warnings) ∧
        e.warnings.map (·.lexeme) = d.warnings.map (·.lexeme) := by
  obtain ⟨e, derives', shallow', bare⟩ := Token.scan_derives scanned derives shallow
  obtain ⟨schema, lexemes⟩ := derives.same derives' (by simp [Token.bare])
  exact ⟨e, bare, Node.ofText_eq_ok.mpr ⟨_, e, scanned, derives', shallow', rfl⟩,
    ofText_eq_ok.mpr ⟨_, e, scanned, derives', shallow', schema.symm, rfl⟩, lexemes.symm⟩

theorem Lexeme.map_bare_tokensAt (p : Position) (xs : List Lexeme) :
    (tokensAt p xs).map Token.bare =
      (words xs).map Word.token ++ [⟨.eof, "", 0, 0, 0, 0⟩] := by
  induction xs generalizing p with
  | nil => rfl
  | cons x xs ih =>
      cases x with
      | gap skipped => exact ih _
      | token k v => exact congrArg (_ :: ·) (ih _)

/-- A text has the tree and the schema that its words declare. -/
theorem Schema.ofText_spelled {xs : List Lexeme} {d : Derivation} (separate : Lexeme.Separate xs)
    (derives : Derives ((Lexeme.words xs).map Word.token ++ [⟨.eof, "", 0, 0, 0, 0⟩]) d)
    (shallow : d.nesting ≤ limit) :
    ∃ e : Derivation, e.bare = d ∧
      Node.ofText limit (Lexeme.text xs) = .ok (e.tree (.whole (Lexeme.text xs))) ∧
        ofText limit (Lexeme.text xs) = .ok (d.schema, e.warnings) ∧
          e.warnings.map (·.lexeme) = d.warnings.map (·.lexeme) := by
  rw [← Lexeme.map_bare_tokensAt .start] at derives
  exact ofText_declared (Token.scan_ok_iff.mpr ⟨xs, separate, rfl, rfl⟩) derives shallow

/-- A text that writes a schema within the limit has that schema, without warnings. -/
theorem Schema.ofText_written {p : Schema} {xs : List Lexeme} (separate : Lexeme.Separate xs)
    (written : p.Written (Lexeme.words xs)) (shallow : p.depth ≤ limit) :
    Schema.ofText limit (Lexeme.text xs) = .ok (p, []) := by
  obtain ⟨d, derives, rfl, quiet, within⟩ := written.derived ⟨.eof, "", 0, 0, 0, 0⟩ rfl
  obtain ⟨e, -, -, read, lexemes⟩ := ofText_spelled separate derives (within.trans shallow)
  rw [quiet] at lexemes
  rw [read, List.map_eq_nil_iff.mp lexemes]

/-- A message that is named by a keyword and has a field of a type that is named by a keyword. -/
theorem Schema.ofText_written_message :
    let limit := 1
    let source := "message message\x7bmessage message=07;\x7d".toList
    let p : Schema := ⟨"proto3", none, [],
      [⟨"message", [⟨"message", "message", 7, false⟩], [], []⟩], [], []⟩
    ∃ xs, Lexeme.text xs = source ∧ Lexeme.Separate xs ∧ p.Written (Lexeme.words xs) ∧
      p.depth ≤ limit ∧ Schema.ofText limit source = .ok (p, []) := by
  intro limit source p
  have scanned : Token.scan source = .ok [⟨.ident, "message", 1, 1, 0, 7⟩,
      ⟨.ident, "message", 1, 9, 8, 15⟩, ⟨.lbrace, "\x7b", 1, 16, 15, 16⟩,
      ⟨.ident, "message", 1, 17, 16, 23⟩, ⟨.ident, "message", 1, 25, 24, 31⟩,
      ⟨.equals, "=", 1, 32, 31, 32⟩, ⟨.number, "07", 1, 33, 32, 34⟩,
      ⟨.semicolon, ";", 1, 35, 34, 35⟩, ⟨.rbrace, "\x7d", 1, 36, 35, 36⟩,
      ⟨.eof, "", 1, 37, 36, 36⟩] := by decide +kernel
  obtain ⟨xs, separate, same, row⟩ := Token.scan_ok_iff.mp scanned
  obtain ⟨body, row', said, -⟩ := Lexeme.tokensAt_eq separate .start
  have path : Word.DottedName "message" [Word.ident "message"] :=
      ⟨"message", [], by decide +kernel, rfl⟩
  have tag : Word.Counts 7 (.number, "07") :=
    ⟨1, 7, rfl, by decide, by decide, by decide +kernel⟩
  have field : Field.Written ⟨"message", "message", 7, false⟩ [Word.ident "message",
      Word.ident "message", Word.equals, (.number, "07"), Word.semicolon] :=
    ⟨[], by simp, _, _, path, by decide, tag, rfl⟩
  have written : p.Written (Lexeme.words xs) := by
    refine ⟨[], [], [], _, .inl ⟨rfl, rfl⟩, rfl, .nil,
      .message ⟨_, .field field (.nil _), rfl⟩ .nil, ?_⟩
    rw [← said]
    obtain ⟨rfl, -⟩ := List.append_inj'
      (row'.symm.trans row : _ = [_, _, _, _, _, _, _, _, _] ++ [_])
      rfl
    rfl
  have shallow : p.depth ≤ limit := by decide
  exact ⟨xs, same, separate, written, shallow, same ▸ ofText_written separate written shallow⟩

end ProtoSchema
