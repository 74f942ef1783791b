import ProtoSchema.Proofs.FileReading

/-! # The parser accepts exactly its grammar

A token list has a tree if and only if the grammar derives it with messages nested no deeper than
the limit, the tree is the one of that derivation, and there is only one derivation.
-/

namespace ProtoSchema

namespace Derivation

theorem nesting_file {ds : List Derivation} {last : Token} :
    (node (.rule .protoFile) (ds ++ [.token last])).nesting = nestingList ds := by
  refine (nesting_node (by decide) _).trans (Nat.le_antisymm ?_ ?_)
  · refine nestingList_le.mpr fun d hd => ?_
    obtain hd | rfl := by simpa using hd
    · exact nestingList_le.mp (Nat.le_refl _) d hd
    · exact Nat.zero_le _
  · exact nestingList_le.mpr fun d hd => nestingList_le.mp (Nat.le_refl _) d (by simp [hd])

/-- A file is derived in one way. -/
theorem Derives.unique {ts : List Token} {d e : Derivation} (hd : Derives ts d)
    (he : Derives ts e) :
    d = e := by
  obtain ⟨hd, rfl⟩ := hd
  obtain ⟨he, same⟩ := he
  obtain ⟨ds, last, rfl, hds, hlast⟩ := from_protoFile.mp hd
  obtain ⟨es, last', rfl, hes, -⟩ := from_protoFile.mp he
  simp only [yield_node, yieldList_append, yieldList_cons, yield_token, yieldList_nil,
    List.append_nil] at same
  obtain ⟨parts, last_eq⟩ := List.append_inj' same rfl
  obtain rfl : last' = last := by simpa using last_eq
  have deep {fs} (h : FileParts (·.From (.rule .messageDef)) fs)
      (shallow : nestingList fs ≤ max (nestingList ds) (nestingList es)) :=
    fileParts_messageUpTo.mpr ⟨h, shallow⟩
  have reads := Parser.Reads.statements (s := ⟨[], last'⟩) (max (nestingList ds) (nestingList es))
  have stop : (Parser.Scope.next ⟨[], last'⟩ []).kind = .eof := hlast
  obtain ⟨-, rfl, -⟩ := reads.determined ⟨deep hds (Nat.le_max_left _ _), stop, rfl⟩
    ⟨deep hes (Nat.le_max_right _ _), stop, rfl⟩ (by simp [parts])
  rfl

end Derivation

open ProtoSchema.Derivation

/-- Where only the last token of a list ends the text, what stands before an end of text is all but
that token. -/
theorem eq_of_append_eof {xs ys body : List Token} {last t : Token}
    (inner : ∀ u ∈ body, u.kind ≠ .eof) (front : ∀ u ∈ xs, u.kind ≠ .eof) (eof : t.kind = .eof)
    (same : xs ++ t :: ys = body ++ [last]) : xs = body ∧ last = t ∧ ys = [] := by
  obtain ⟨zs, rfl, h⟩ | ⟨zs, rfl, h⟩ := List.append_eq_append_iff.mp same
  · cases zs with
    | nil => simp_all
    | cons z zs => simp_all
  · cases zs with
    | nil => simp_all
    | cons z zs => simp_all

theorem Node.ofTokens_append {limit : Nat} {source : List Char} {body : List Token} {last : Token} :
    Node.ofTokens limit source (body ++ [last]) =
      match Grammar.statements limit ⟨source, last⟩ (body ++ [last]) with
      | .ok (children, _) => .ok (.root source children)
      | .error failure => .error failure := by
  have run : (Grammar.statements limit).run source (body ++ [last]) =
      Grammar.statements limit ⟨source, last⟩ (body ++ [last]) := by
    rw [Parser.run, List.getLast?_concat]
  change (match (Grammar.statements limit).run source (body ++ [last]) with
    | .ok (children, _) => Except.ok (Node.root source children)
    | .error failure => .error failure) = _
  rw [run]

theorem Node.ofTokens_eq_ok {limit : Nat} {source : List Char} {body : List Token} {last : Token}
    {tree : Node} (inner : ∀ t ∈ body, t.kind ≠ .eof) (eof : last.kind = .eof) :
    Node.ofTokens limit source (body ++ [last]) = .ok tree ↔
      ∃ d, Derives (body ++ [last]) d ∧ d.nesting ≤ limit ∧ d.tree ⟨source, last⟩ = tree := by
  have reads := Parser.Reads.statements (s := ⟨source, last⟩) limit
  rw [ofTokens_append]
  constructor
  · intro h
    cases ok : Grammar.statements limit ⟨source, last⟩ (body ++ [last]) with
    | error failure => simp [ok] at h
    | ok result =>
        obtain ⟨ns, rest⟩ := result
        obtain rfl : Node.root source ns = tree := by simpa [ok] using h
        obtain ⟨ds, ⟨parts, stop, rfl⟩, same⟩ := reads.ok_iff.mp ok
        obtain ⟨parts, shallow⟩ := fileParts_messageUpTo.mp parts
        cases rest with
        | nil =>
            have mem : last ∈ yieldList ds := by simp_all
            exact absurd eof (parts.kind_ne_eof last mem)
        | cons t rest =>
            obtain ⟨rfl, rfl, rfl⟩ := eq_of_append_eof inner parts.kind_ne_eof stop same
            refine ⟨_, ⟨from_protoFile.mpr ⟨ds, last, rfl, parts, eof⟩, by simp⟩,
              nesting_file.trans_le shallow, by simp [Derivation.tree]⟩
  · rintro ⟨d, ⟨hd, yield_eq⟩, shallow, rfl⟩
    obtain ⟨ds, last', rfl, parts, -⟩ := from_protoFile.mp hd
    obtain ⟨rfl, rfl⟩ : yieldList ds = body ∧ last' = last := by simpa using yield_eq
    have ok : Grammar.statements limit ⟨source, last'⟩ (yieldList ds ++ [last']) =
        .ok (nodesList ⟨source, last'⟩ ds, [last']) :=
      reads.ok_iff.mpr ⟨ds, ⟨fileParts_messageUpTo.mpr ⟨parts, nesting_file.symm.trans_le shallow⟩,
        eof, rfl⟩, rfl⟩
    rw [ok]
    simp [Derivation.tree]

/-- A token list that ends with its only end of text has a tree if and only if the grammar derives
it within the limit. The tree is that of the derivation, and there is one derivation only. -/
theorem Node.ofTokens_exact (limit : Nat) (source : List Char) (body : List Token) (last : Token)
    (inner : ∀ t ∈ body, t.kind ≠ .eof) (eof : last.kind = .eof) :
    (∀ tree, Node.ofTokens limit source (body ++ [last]) = .ok tree ↔
      ∃ d, Derives (body ++ [last]) d ∧ d.nesting ≤ limit ∧ d.tree ⟨source, last⟩ = tree) ∧
    ∀ d e, Derives (body ++ [last]) d → Derives (body ++ [last]) e → d = e :=
  ⟨fun _ => ofTokens_eq_ok inner eof, fun _ _ => Derives.unique⟩

/-- A file with one empty message, whose tokens touch. -/
theorem Node.ofTokens_exact_emptyMessage :
    let message : Token := ⟨.ident, "message", 1, 1, 0, 7⟩
    let name : Token := ⟨.ident, "A", 1, 9, 8, 9⟩
    let left : Token := ⟨.lbrace, "\x7b", 1, 10, 9, 10⟩
    let right : Token := ⟨.rbrace, "\x7d", 1, 11, 10, 11⟩
    let last : Token := ⟨.eof, "", 1, 12, 11, 11⟩
    let source := "message A\x7b\x7d".toList
    (∀ t ∈ [message, name, left, right], t.kind ≠ .eof) ∧ last.kind = .eof ∧
      ∃ d, Derives ([message, name, left, right] ++ [last]) d ∧ d.nesting ≤ 1 ∧
        d.tree ⟨source, last⟩ = .root source
          [⟨.messageDef, "message A\x7b\x7d", 0, 11, 1, 1, [⟨.ident, "A", 8, 9, 1, 9, []⟩]⟩] := by
  intro message name left right last source
  have inner : ∀ t ∈ [message, name, left, right], t.kind ≠ .eof := by decide
  exact ⟨inner, rfl, ((Node.ofTokens_exact 1 source _ last inner rfl).1 _).mp rfl⟩

end ProtoSchema
