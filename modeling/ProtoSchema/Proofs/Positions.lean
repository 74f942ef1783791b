import ProtoSchema.Proofs.Agreement
import ProtoSchema.Proofs.SchemaExact

/-! # Reported positions

Everything that is reported about a text stands where the report says: tokens, nodes, mistakes and
warnings. Nodes and mistakes get their places from tokens of the text, and a token has the place
at which the lexer started it.
-/

namespace ProtoSchema

open ProtoSchema.Derivation

variable {limit : Nat}

/-- A node of a tree: its root, or one below it. -/
inductive Node.Within (n : Node) : Node → Prop where
  | root : Within n n
  | inside {m tree : Node} (child : m ∈ tree.children) (within : Within n m) : Within n tree

namespace Derivation

variable {s : Parser.Scope} {d : Derivation} {n tree : Node} {t : Token}

theorem starts_with_token (h : n.Within tree) (hd : tree ∈ nodes s d) :
    ∃ t ∈ s.last :: d.yield, n.line = t.line ∧ n.col = t.col ∧ n.start = t.start := by
  induction h generalizing d with
  | root =>
      cases d with
      | token t => simp at hd
      | node x parts =>
          rw [nodes_node, List.mem_singleton] at hd
          subst hd
          refine ⟨(yieldList parts).headD s.last, ?_, rfl, rfl, rfl⟩
          cases h : yieldList parts <;> simp [h]
  | @inside m tree child _ ih =>
      cases d with
      | token t => simp at hd
      | node x parts =>
          rw [nodes_node, List.mem_singleton] at hd
          subst hd
          rw [Parser.Scope.node_children] at child
          have child : m ∈ nodesList s parts := by
            split at child
            · simp at child
            · exact child
          rw [nodesList_eq_flatMap] at child
          obtain ⟨part, hpart, child⟩ := List.mem_flatMap.mp child
          obtain ⟨t, ht, place⟩ := ih child
          refine ⟨t, ?_, place⟩
          rw [yield_node, yieldList_eq_flatMap]
          obtain rfl | ht := List.mem_cons.mp ht
          · exact List.mem_cons_self
          · exact List.mem_cons_of_mem _ (List.mem_flatMap.mpr ⟨part, hpart, ht⟩)

theorem Valid.numbers (h : d.Valid) (ht : t ∈ d.numbers) : t ∈ d.yield ∧ t.kind = .number := by
  induction h with
  | token u => simp at ht
  | @node x parts form valid ih =>
      by_cases number : x = .rule .number
      · subst number
        obtain ⟨u, kind, same⟩ := from_number.mp ⟨⟨parts, rfl⟩, .node form valid⟩
        rw [same, numbers_number, List.mem_singleton] at ht
        subst ht
        exact ⟨by simp [same], kind⟩
      by_cases option : x = .rule .optionDecl
      · subst option
        cases ht
      rw [numbers_node number option, numbersList_eq_flatMap] at ht
      obtain ⟨part, hpart, ht⟩ := List.mem_flatMap.mp ht
      obtain ⟨mem, kind⟩ := ih part hpart ht
      rw [yield_node, yieldList_eq_flatMap]
      exact ⟨List.mem_flatMap.mpr ⟨part, hpart, mem⟩, kind⟩

end Derivation

theorem Node.ofTokens_found {limit : Nat} {source : List Char} {body : List Token} {last : Token}
    {e : ParseError} (h : Node.ofTokens limit source (body ++ [last]) = .error (.mismatch e)) :
    e.found ∈ body ++ [last] := by
  have agree := (Parser.Respects.statements (Q := fun t u => t = u ∧ t ∈ body ++ [last])
    (by rintro t _ ⟨rfl, -⟩; exact ⟨rfl, rfl⟩) limit).agree ⟨source, last⟩ ⟨source, last⟩
    ⟨rfl, by simp⟩ (body ++ [last]) (body ++ [last]) (List.forall₂_same.mpr fun t ht => ⟨rfl, ht⟩)
  rw [Node.ofTokens_append] at h
  generalize Grammar.statements limit ⟨source, last⟩ (body ++ [last]) = result at agree h
  cases agree with
  | ok => cases h
  | mismatch found =>
      obtain rfl := by simpa using h
      exact found.2
  | outOfTokens => cases h
  | tooDeep => cases h

/-- The mistake in the text that an error reports, if it reports one. -/
def TreeError.diagnostic? : TreeError → Option Diagnostic
  | .scan e => some e.diagnostic
  | .parse (.mismatch e) => some e.diagnostic
  | .parse _ => none

/-- The mistake in the text that an error reports, if it reports one. -/
def SchemaError.diagnostic? : SchemaError → Option Diagnostic
  | .tree e => e.diagnostic?
  | .build _ => none

/-- The place of a diagnostic is right. -/
def Diagnostic.Placed (source : List Char) (d : Diagnostic) : Prop :=
  ProtoSchema.Placed source d.line d.col d.offset

theorem Node.ofText_error_placed {source : List Char} {e : TreeError}
    (h : Node.ofText limit source = .error e) : ∀ d ∈ e.diagnostic?, d.Placed source := by
  cases scanned : Token.scan source with
  | error scan =>
      obtain rfl := by simpa [Node.ofText, scanned] using h
      rintro d ⟨⟩
      exact Token.scan_error_placed scanned
  | ok tokens =>
      obtain ⟨body, rfl, -⟩ := Token.scan_body scanned
      rw [Node.ofText, scanned] at h
      cases parsed : ofTokens limit source (body ++ [.eof (Position.start.after source)]) with
      | ok tree => simp [parsed, Except.mapError] at h
      | error failure =>
          obtain rfl := by simpa [parsed, Except.mapError] using h
          cases failure with
          | mismatch e =>
              rintro d ⟨⟩
              exact Token.scan_placed scanned _ (ofTokens_found parsed)
          | outOfTokens => rintro d ⟨⟩
          | tooDeep => rintro d ⟨⟩

/-- A node of the tree of a text starts where it says. -/
theorem Node.ofText_placed {source : List Char} {tree n : Node}
    (h : Node.ofText limit source = .ok tree)
    (within : n.Within tree) : Placed source n.line n.col n.start := by
  obtain ⟨tokens, d, scanned, derives, -, rfl⟩ := ofText_eq_ok.mp h
  obtain ⟨ds, last, rfl, -⟩ := from_protoFile.mp derives.1
  cases within with
  | root => exact Position.placed [] source
  | @inside m _ child within =>
      have child : m ∈ nodesList (.whole source) ds := by
        simpa [Derivation.tree, root, Parser.Scope.whole] using child
      rw [nodesList_eq_flatMap] at child
      obtain ⟨part, hpart, child⟩ := List.mem_flatMap.mp child
      obtain ⟨t, ht, line, col, start⟩ := starts_with_token within child
      rw [line, col, start]
      refine Token.scan_placed scanned t ?_
      obtain rfl | ht := List.mem_cons.mp ht
      · obtain ⟨body, rfl, -⟩ := Token.scan_body scanned
        simp [Parser.Scope.whole]
      · rw [← derives.2, yield_node, yieldList_eq_flatMap]
        exact List.mem_flatMap.mpr ⟨part, List.mem_append_left _ hpart, ht⟩

/-- A warning is about a number of the text and names the place of that number. -/
theorem Schema.ofText_warning {source : List Char} {p : Schema} {ws : List Warning} {w : Warning}
    (h : Schema.ofText limit source = .ok (p, ws)) (hw : w ∈ ws) :
    ∃ tokens, Token.scan source = .ok tokens ∧ ∃ t ∈ tokens, t.kind = .number ∧
      t.text = w.lexeme ∧ Placed source w.line w.col t.start := by
  obtain ⟨tokens, d, scanned, derives, -, -, rfl⟩ := ofText_eq_ok.mp h
  obtain ⟨t, ht, hw⟩ := List.mem_flatMap.mp hw
  obtain ⟨mem, kind⟩ := derives.1.valid.numbers ht
  rw [derives.2] at mem
  obtain ⟨-, rfl⟩ : _ ∧ w = ⟨t.text, t.line, t.col⟩ := by simpa [Token.warnings] using hw
  exact ⟨tokens, scanned, t, mem, kind, rfl, Token.scan_placed scanned t mem⟩

/-- All tokens, nodes, mistakes and warnings of a text stand where they say. -/
theorem Schema.positions (limit : Nat) (source : List Char) :
    (∀ tokens, Token.scan source = .ok tokens →
      ∀ t ∈ tokens, Placed source t.line t.col t.start) ∧
    (∀ tree, Node.ofText limit source = .ok tree →
      (tree.line, tree.col, tree.start) = (1, 1, 0) ∧
        ∀ n : Node, n.Within tree → Placed source n.line n.col n.start) ∧
    (∀ e, Token.scan source = .error e → e.diagnostic.Placed source) ∧
    (∀ e, Node.ofText limit source = .error e → ∀ d ∈ e.diagnostic?, d.Placed source) ∧
    (∀ e, Schema.ofText limit source = .error e → ∀ d ∈ e.diagnostic?, d.Placed source) ∧
    ∀ p ws, Schema.ofText limit source = .ok (p, ws) → ∀ w ∈ ws, ∃ tokens,
      Token.scan source = .ok tokens ∧ ∃ t ∈ tokens, t.kind = .number ∧ t.text = w.lexeme ∧
        Placed source w.line w.col t.start := by
  refine ⟨fun _ h => Token.scan_placed h, fun tree h => ⟨?_, fun _ => Node.ofText_placed h⟩,
    fun _ h => Token.scan_error_placed h, fun _ h => Node.ofText_error_placed h, fun e h => ?_,
    fun _ _ h _ => ofText_warning h⟩
  · obtain ⟨tokens, d, -, -, -, rfl⟩ := Node.ofText_eq_ok.mp h
    cases d <;> rfl
  · obtain ⟨e', tree, rfl⟩ := ofText_eq_error.mp h
    exact Node.ofText_error_placed tree

/-- A number that is out of range, a word that is missing and a character that starts no token, all
on a second line. -/
theorem Schema.positions_secondLine :
    let limit := 1
    let numbered := "enum E\x7b\nA = 2147483648;\x7d".toList
    let nameless := "message\n;".toList
    let stray := "\n #".toList
    let mistake : ParseError := ⟨[.rule .ident], "message_def", ⟨.semicolon, ";", 2, 1, 8, 9⟩⟩
    (∃ tokens, Token.scan numbered = .ok tokens ∧
      (∀ t ∈ tokens, Placed numbered t.line t.col t.start) ∧
        ∃ t ∈ tokens, t.kind = .number ∧ t.text = "2147483648" ∧ Placed numbered 2 5 t.start) ∧
    (∃ tree, Node.ofText limit numbered = .ok tree ∧
      (tree.line, tree.col, tree.start) = (1, 1, 0) ∧
      ∀ n : Node, n.Within tree → Placed numbered n.line n.col n.start) ∧
    Node.ofText limit nameless = .error (.parse (.mismatch mistake)) ∧
    Schema.ofText limit nameless = .error (.tree (.parse (.mismatch mistake))) ∧
    mistake.diagnostic.Placed nameless ∧
    (mistake.diagnostic.line, mistake.diagnostic.col) = (2, 1) ∧
    Token.scan stray = .error ⟨.unexpected '#', ⟨2, 2, 2⟩⟩ ∧ Placed stray 2 2 2 := by
  intro limit numbered nameless stray mistake
  obtain ⟨tokens, trees, -, -, -, warnings⟩ := Schema.positions limit numbered
  obtain ⟨-, -, -, -, inSchema, -⟩ := Schema.positions limit nameless
  obtain ⟨-, -, inText, -⟩ := Schema.positions limit stray
  have warned : Schema.ofText limit numbered =
      .ok (⟨"proto3", none, [], [], [⟨"E", [⟨"A", 0⟩]⟩], []⟩, [⟨"2147483648", 2, 5⟩]) := by
    decide +kernel
  have noSchema : Schema.ofText limit nameless = .error (.tree (.parse (.mismatch mistake))) := by
    decide +kernel
  have noTokens : Token.scan stray = .error ⟨.unexpected '#', ⟨2, 2, 2⟩⟩ := by decide +kernel
  obtain ⟨e, noTree, same⟩ := ofText_eq_error.mp noSchema
  obtain rfl : _ = e := by simpa using same
  obtain ⟨ts, scanned, number⟩ := warnings _ _ warned _ List.mem_cons_self
  obtain ⟨ts', d, scanned', derives, shallow, -⟩ := ofText_eq_ok.mp warned
  have tree := Node.ofText_eq_ok.mpr ⟨ts', d, scanned', derives, shallow, rfl⟩
  exact ⟨⟨ts, scanned, tokens ts scanned, number⟩, ⟨_, tree, trees _ tree⟩, noTree, noSchema,
    inSchema _ noSchema _ rfl, rfl, noTokens, inText _ noTokens⟩

end ProtoSchema
