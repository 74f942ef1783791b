import ProtoSchema.Proofs.Blanking

/-! # Texts one below the other

A row of lexemes may always end before a line feed. So the tokens of a text above another one are
not changed by it, and those of the text below, or the mistake in it, are only moved down. Where the
text below has definitions and options only, the two together declare what the one and then the
other declares.
-/

namespace ProtoSchema

namespace Position

/-- The position some lines and characters further on. -/
def moved (p : Position) (lines chars : Nat) : Position :=
  ⟨p.line + lines, p.col, p.offset + chars⟩

theorem moved_after (p : Position) (lines chars : Nat) (cs : List Char) :
    (p.moved lines chars).after cs = (p.after cs).moved lines chars := by
  induction cs generalizing p with
  | nil => rfl
  | cons c cs ih =>
      have step : (p.moved lines chars).next c = (p.next c).moved lines chars := by
        unfold next moved
        split <;> simp only [mk.injEq, true_and] <;> omega
      rw [after_cons, after_cons, step, ih]

theorem after_feed (cs : List Char) : start.after (cs ++ ['\n']) =
    start.moved (cs.count '\n' + 1) (cs.length + 1) := by
  rw [after_append, after_cons, after_nil, next, if_pos rfl, line_after, offset_after]
  simp only [moved, start, mk.injEq, true_and]
  omega

end Position

/-- The token some lines and characters further on. -/
def Token.moved (lines chars : Nat) (t : Token) : Token :=
  ⟨t.kind, t.text, t.line + lines, t.col, t.start + chars, t.stop + chars⟩

@[simp] theorem Token.bare_moved (lines chars : Nat) (t : Token) :
    (t.moved lines chars).bare = t.bare := rfl

theorem Token.spanning_moved (k : Kind) (cs : List Char) (p : Position) (lines chars : Nat) :
    spanning k cs (p.moved lines chars) = (spanning k cs p).moved lines chars := by
  simp only [spanning, moved, Position.moved_after]
  simp [Position.moved]

namespace Lexeme

variable {x : Lexeme} {xs ys : List Lexeme}

theorem Precedes.before_feed {cs rest : List Char} (h : x.Precedes cs) :
    x.Precedes (cs ++ '\n' :: rest) := by
  cases cs with
  | cons c cs => exact h.congr rfl
  | nil =>
      cases h with
      | blank blank => exact .blank blank
      | line inside _ => exact .line inside (by simp)
      | block inside => exact .block inside
      | string inside => exact .string inside
      | number first inside _ => exact .number first inside (by rintro _ ⟨⟩; decide)
      | ident first inside _ => exact .ident first inside (by rintro _ ⟨⟩; decide)
      | delimiter kind => exact .delimiter kind

theorem Separate.stackedBefore {rest : List Char} (above : Separate xs)
    (below : SeparateBefore rest ys) : SeparateBefore rest (xs ++ gap ['\n'] :: ys) := by
  induction xs with
  | nil => exact ⟨.blank rfl, below⟩
  | cons x xs ih =>
      have precedes : x.Precedes (text (xs ++ gap ['\n'] :: ys) ++ rest) := by
        rw [text_append, List.append_assoc]
        exact above.1.before_feed
      exact ⟨precedes, ih above.2⟩

theorem Separate.stacked (above : Separate xs) (below : Separate ys) :
    Separate (xs ++ gap ['\n'] :: ys) :=
  separateBefore_nil.mp (above.stackedBefore (separateBefore_nil.mpr below))

theorem tokensAt_ne_nil (p : Position) (xs : List Lexeme) : tokensAt p xs ≠ [] := by
  induction xs generalizing p with
  | nil => simp [tokensAt]
  | cons x xs ih =>
      cases x with
      | gap cs => exact ih _
      | token k cs => simp [tokensAt]

theorem tokensAt_append (p : Position) (xs ys : List Lexeme) :
    tokensAt p (xs ++ ys) = (tokensAt p xs).dropLast ++ tokensAt (p.after (text xs)) ys := by
  induction xs generalizing p with
  | nil => rfl
  | cons x xs ih =>
      rw [text_cons, Position.after_append]
      cases x with
      | gap cs => exact ih _
      | token k cs =>
          rw [tokensAt, List.dropLast_cons_of_ne_nil (tokensAt_ne_nil _ _)]
          exact congrArg (_ :: ·) (ih _)

theorem tokensAt_moved (p : Position) (lines chars : Nat) (xs : List Lexeme) :
    tokensAt (p.moved lines chars) xs = (tokensAt p xs).map (·.moved lines chars) := by
  induction xs generalizing p with
  | nil => exact congrArg ([·]) (Token.spanning_moved ..)
  | cons x xs ih =>
      cases x with
      | gap cs => simp only [tokensAt, Position.moved_after, ih]
      | token k cs =>
          simp only [tokensAt, Position.moved_after, ih, Token.spanning_moved, List.map_cons]

end Lexeme

theorem Token.scan_stacked {a b : List Char} {ts us : List Token} (above : scan a = .ok ts)
    (below : scan b = .ok us) : scan (a ++ '\n' :: b) =
      .ok (ts.dropLast ++ us.map (·.moved (a.count '\n' + 1) (a.length + 1))) := by
  obtain ⟨xs, separate, rfl, rfl⟩ := scan_ok_iff.mp above
  obtain ⟨ys, separate', rfl, rfl⟩ := scan_ok_iff.mp below
  refine scan_ok_iff.mpr ⟨xs ++ .gap ['\n'] :: ys, separate.stacked separate',
    by simp [Lexeme.chars], ?_⟩
  rw [Lexeme.tokensAt_append, ← Lexeme.tokensAt_moved, ← Position.after_feed,
    Position.after_append]
  rfl

/-- The mistake some lines and characters further on. -/
def ScanError.moved (lines chars : Nat) (e : ScanError) : ScanError :=
  ⟨e.cause, e.position.moved lines chars⟩

/-- What is reported of a mistake further on differs in the line and the offset only. -/
theorem ScanError.diagnostic_moved (lines chars : Nat) (e : ScanError) :
    (e.moved lines chars).diagnostic = { e.diagnostic with
      line := e.diagnostic.line + lines, offset := e.diagnostic.offset + chars } := by
  simp [diagnostic, moved, Position.moved]

theorem Token.scan_stacked_error {a b : List Char} {ts : List Token} {e : ScanError}
    (above : scan a = .ok ts) (below : scan b = .error e) :
    scan (a ++ '\n' :: b) = .error (e.moved (a.count '\n' + 1) (a.length + 1)) := by
  obtain ⟨xs, separate, rfl, rfl⟩ := scan_ok_iff.mp above
  obtain ⟨ys, c, rest, leading, rfl, unread, place⟩ := scan_error_iff.mp below
  refine scan_error_iff.mpr
    ⟨xs ++ .gap ['\n'] :: ys, c, rest, separate.stackedBefore leading, ?_, unread, ?_⟩
  · simp [Lexeme.chars]
  · have split : Lexeme.text (xs ++ .gap ['\n'] :: ys) =
        (Lexeme.text xs ++ ['\n']) ++ Lexeme.text ys := by
      simp [Lexeme.chars]
    rw [split, Position.after_append, Position.after_feed, Position.moved_after, ← place]
    rfl

/-- The lexer starts anew after a line feed. Below a text with tokens, the tokens of any other text
come after those of the first, moved down, and a mistake in it is the same one, moved down. -/
theorem Token.scan_append_feed {a : List Char} {tokens : List Token} (above : scan a = .ok tokens)
    (b : List Char) :
    let lines := a.count '\n' + 1
    let chars := a.length + 1
    ∃ body, tokens = body ++ [.eof (Position.start.after a)] ∧
      (∀ us, scan b = .ok us → scan (a ++ '\n' :: b) = .ok (body ++ us.map (·.moved lines chars))) ∧
        ∀ e, scan b = .error e →
          ∃ e', scan (a ++ '\n' :: b) = .error e' ∧ e'.diagnostic = { e.diagnostic with
            line := e.diagnostic.line + lines, offset := e.diagnostic.offset + chars } := by
  intro lines chars
  obtain ⟨body, rfl, -⟩ := scan_body above
  refine ⟨body, rfl, fun us below => ?_, fun e below => ?_⟩
  · have joint := scan_stacked above below
    rwa [List.dropLast_concat] at joint
  · exact ⟨e.moved lines chars, scan_stacked_error above below, e.diagnostic_moved lines chars⟩

/-- Below a text that ends in a comment, a text with tokens and a text with an open string. -/
theorem Token.scan_append_feed_comment :
    let a := "a\n//".toList
    let last : Token := ⟨.eof, "", 2, 3, 4, 4⟩
    let opened : ScanError := ⟨.unterminatedString, ⟨2, 2, 2⟩⟩
    scan a = .ok [⟨.ident, "a", 1, 1, 0, 1⟩, last] ∧
      scan (a ++ '\n' :: ['b']) = .ok [⟨.ident, "a", 1, 1, 0, 1⟩, ⟨.ident, "b", 3, 1, 5, 6⟩,
        ⟨.eof, "", 3, 2, 6, 6⟩] ∧
      scan "\n \"".toList = .error opened ∧
      ∃ e, scan (a ++ '\n' :: "\n \"".toList) = .error e ∧ e.diagnostic =
        { opened.diagnostic with line := 4, offset := 7 } := by
  intro a last opened
  have above : scan a = .ok [⟨.ident, "a", 1, 1, 0, 1⟩, last] := by decide +kernel
  have tokens : scan ['b'] = .ok [⟨.ident, "b", 1, 1, 0, 1⟩, ⟨.eof, "", 1, 2, 1, 1⟩] := by
    decide +kernel
  have failed : scan "\n \"".toList = .error opened := by decide +kernel
  obtain ⟨body, same, below, -⟩ := scan_append_feed above ['b']
  obtain ⟨-, -, -, broken⟩ := scan_append_feed above "\n \"".toList
  obtain rfl : [_] = body := (List.append_inj' same rfl).1
  exact ⟨above, below _ tokens, failed, broken opened failed⟩

namespace Derivation

variable {as bs : List Derivation} {last last' : Token}

/-- Definitions and options may follow the statements of any file. -/
theorem FileParts.stacked {P : Derivation → Prop} (above : FileParts P as)
    (below : ∀ d ∈ bs, d.TopLevel P) : FileParts P (as ++ bs) := by
  obtain ⟨version, package, headers, definitions, rfl, hv, hp, hh, hd⟩ := above
  refine ⟨version, package, headers, definitions ++ bs, by simp, hv, hp, hh, ?_⟩
  intro d hmem
  cases List.mem_append.mp hmem with
  | inl hmem => exact hd d hmem
  | inr hmem => exact below d hmem

theorem FileParts.topLevel {s : Parser.Scope} (parts : FileParts (·.From (.rule .messageDef)) bs)
    (plain : ∀ n ∈ nodesList s bs, n.rule ∉ [.syntaxDecl, .packageDecl, .importDecl]) :
    ∀ d ∈ bs, d.TopLevel (·.From (.rule .messageDef)) := by
  intro d hmem
  have statement := parts.statements d hmem
  obtain ⟨n, hn⟩ := statement.nodes_eq s
  have rule : n.rule ∉ [.syntaxDecl, .packageDecl, .importDecl] :=
    plain n (by rw [nodesList_eq_flatMap]; exact List.mem_flatMap.mpr ⟨d, hmem, by simp [hn]⟩)
  obtain h | h | h | h := statement
  · exact absurd (h.rooted.node_rule hn) (by rintro same; simp [same] at rule)
  · exact absurd (h.rooted.node_rule hn) (by rintro same; simp [same] at rule)
  · exact absurd (h.rooted.node_rule hn) (by rintro same; simp [same] at rule)
  · exact h

theorem TopLevel.having_eq_nil (below : ∀ d ∈ bs, d.TopLevel (·.From (.rule .messageDef)))
    {r : Rule} (hr : r ∈ [.syntaxDecl, .packageDecl, .importDecl]) : having r bs = [] := by
  refine Derivation.having_eq_nil fun d hmem label => ?_
  obtain h | h | h | h := below d hmem
  all_goals
    obtain rfl := by simpa [h.label?_eq] using label
    simp at hr

theorem schema_stacked (below : ∀ d ∈ bs, d.TopLevel (·.From (.rule .messageDef))) :
    let p := (node (.rule .protoFile) (as ++ [.token last])).schema
    let q := (node (.rule .protoFile) (bs ++ [.token last'])).schema
    (node (.rule .protoFile) (as ++ (bs ++ [.token last']))).schema =
      { p with messages := p.messages ++ q.messages, enums := p.enums ++ q.enums,
               services := p.services ++ q.services } := by
  have version := TopLevel.having_eq_nil below (r := .syntaxDecl) (by simp)
  have package := TopLevel.having_eq_nil below (r := .packageDecl) (by simp)
  have imports := TopLevel.having_eq_nil below (r := .importDecl) (by simp)
  simp [schema, parts, version, package, imports, messages_append, messages, label?]

/-- The numbers of derivations over tokens that some function maps to each other. -/
theorem numbersList_mapped {f : Token → Token} (same : as.map bare = bs.map bare)
    (yields : yieldList bs = (yieldList as).map f) : numbersList bs = (numbersList as).map f := by
  have related : List.Forall₂ (f · = ·) (yieldList as) (yieldList bs) := by
    rw [yields, ← List.forall₂_map_left_iff, List.forall₂_eq_eq_eq]
  have numbers := numbersList_related (by simpa only [bareList_eq_map] using same) related
  rwa [← List.forall₂_map_left_iff, List.forall₂_eq_eq_eq, eq_comm] at numbers

/-- A derivation over the tokens of two files has the numbers of the one and then of the other. -/
theorem numbers_stacked {f : Token → Token} {e : Derivation}
    (same : e.bare = (node (.rule .protoFile) (as ++ bs)).bare)
    (yields : e.yield = yieldList as ++ (yieldList bs).map f) :
    e.numbers = numbersList as ++ (numbersList bs).map f := by
  cases e with
  | token t => simp at same
  | node x es =>
      obtain ⟨rfl, parts⟩ := by simpa using same
      obtain ⟨front, back, rfl, above, below⟩ := List.map_eq_append_iff.mp parts
      have length := congrArg (fun ds => (yieldList ds).length) above
      simp only [yieldList_map_bare, List.length_map] at length
      obtain ⟨first, second⟩ := List.append_inj ((yieldList_append ..).symm.trans yields) length
      rw [numbers_node (by decide) (by decide), numbersList_append,
        numbersList_mapped (f := id) above.symm (by simpa using first),
        numbersList_mapped below.symm second, List.map_id]

end Derivation

/-- The warning some lines further on. -/
def Warning.moved (lines : Nat) (w : Warning) : Warning :=
  { w with line := w.line + lines }

theorem Token.warnings_moved (lines chars : Nat) (t : Token) :
    (t.moved lines chars).warnings = t.warnings.map (·.moved lines) := by
  unfold warnings
  split <;> simp_all [moved, Warning.moved]

open ProtoSchema.Derivation

/-- A text above another one that has definitions and options only. Both together have the syntax,
the package and the imports of the text above, the definitions of both, and the warnings of both,
those of the text below at the lines where its numbers then stand. -/
theorem Schema.ofText_stacked {limit : Nat} {a b : List Char} {p q : Schema}
    {ws us : List Warning} {tree : Node}
    (above : ofText limit a = .ok (p, ws)) (below : ofText limit b = .ok (q, us))
    (parsed : Node.ofText limit b = .ok tree)
    (plain : ∀ n ∈ tree.children, n.rule ∉ [.syntaxDecl, .packageDecl, .importDecl]) :
    ofText limit (a ++ '\n' :: b) = .ok
      ({ p with messages := p.messages ++ q.messages
                enums := p.enums ++ q.enums
                services := p.services ++ q.services },
        ws ++ us.map (·.moved (a.count '\n' + 1))) := by
  obtain ⟨ts, d, scanned, derives, shallow, rfl, rfl⟩ := ofText_eq_ok.mp above
  obtain ⟨us, e, scanned', derives', shallow', rfl, rfl⟩ := ofText_eq_ok.mp below
  let f := Token.moved (a.count '\n' + 1) (a.length + 1)
  have joint : Token.scan (a ++ '\n' :: b) = .ok (ts.dropLast ++ us.map f) :=
    Token.scan_stacked scanned scanned'
  obtain ⟨ds, last, rfl, parts, hlast⟩ := from_protoFile.mp derives.1
  obtain ⟨es, last', rfl, parts', hlast'⟩ := from_protoFile.mp derives'.1
  have tree_eq : tree.children = nodesList (.whole b) es := by
    obtain ⟨_, e, same, unique, -, rfl⟩ := Node.ofText_eq_ok.mp parsed
    obtain rfl := by simpa [scanned'] using same
    obtain rfl := derives'.unique unique
    simp [Derivation.tree, Node.root]
  have definitions := parts'.topLevel (tree_eq ▸ plain)
  have tokens : ts.dropLast = yieldList ds := by
    rw [← derives.2]
    simp
  have tokens' : us = yieldList (es ++ [.token last']) := derives'.2.symm
  -- the statements of both texts, as one file that the tokens have up to their places
  let stack := node (.rule .protoFile) (ds ++ (es ++ [.token last']))
  have stacked : Derives ((ts.dropLast ++ us.map f).map Token.bare) stack.bare := by
    have file : stack.From (.rule .protoFile) := from_protoFile.mpr
      ⟨ds ++ es, last', by simp [stack], parts.stacked definitions, hlast'⟩
    refine ⟨(Derives.bare ⟨file, rfl⟩).1, ?_⟩
    simp [stack, tokens, tokens', f]
  have within : stack.nesting ≤ limit := by
    rw [nesting_file, nestingList_le] at shallow shallow'
    simp only [stack, ← List.append_assoc, nesting_file, nestingList_le, List.forall_mem_append]
    exact ⟨shallow, shallow'⟩
  obtain ⟨whole, derived, fits, same⟩ :=
    Token.scan_derives joint stacked (nesting_bare stack ▸ within)
  refine ofText_eq_ok.mpr ⟨_, whole, joint, derived, fits, ?_, ?_⟩
  · rw [← schema_bare whole, same, schema_bare]
    exact schema_stacked definitions
  · have numbers := numbers_stacked (f := f) same
      (derived.2.trans (by rw [tokens, tokens']))
    simp [warnings, numbers, numbers_node, f, List.flatMap_map, Token.warnings_moved,
      List.map_flatMap]

/-- A text that ends in a comment, above a text with an option and a number on its second line. -/
theorem Schema.ofText_stacked_comment :
    let limit := 1
    let a := "syntax=\"proto2\";import\"i\";enum A\x7bX=2147483648;\x7d\n//".toList
    let b := "option o=1;\nmessage B\x7bA b=2147483649;\x7d".toList
    let p : Schema := ⟨"proto2", none, ["i"], [], [⟨"A", [⟨"X", 0⟩]⟩], []⟩
    let q : Schema := ⟨"proto3", none, [], [⟨"B", [⟨"b", "A", 0, false⟩], [], []⟩], [], []⟩
    ofText limit a = .ok (p, [⟨"2147483648", 1, 36⟩]) ∧
      ofText limit b = .ok (q, [⟨"2147483649", 2, 15⟩]) ∧
      (∃ tree, Node.ofText limit b = .ok tree ∧
        ∀ n ∈ tree.children, n.rule ∉ [.syntaxDecl, .packageDecl, .importDecl]) ∧
      ofText limit (a ++ '\n' :: b) = .ok (⟨"proto2", none, ["i"], q.messages, p.enums, []⟩,
        [⟨"2147483648", 1, 36⟩, ⟨"2147483649", 4, 15⟩]) := by
  intro limit a b p q
  have above : ofText limit a = .ok (p, [⟨"2147483648", 1, 36⟩]) := by decide +kernel
  have below : ofText limit b = .ok (q, [⟨"2147483649", 2, 15⟩]) := by decide +kernel
  have rules : (Node.ofText limit b).map (·.children.map (·.rule)) =
      .ok [.optionDecl, .messageDef] := by decide +kernel
  cases parsed : Node.ofText limit b with
  | error e => simp [parsed, Except.map] at rules
  | ok tree =>
      have rules : tree.children.map (·.rule) = [.optionDecl, .messageDef] := by
        simpa [parsed, Except.map] using rules
      have others : ∀ r ∈ [Rule.optionDecl, .messageDef],
          r ∉ [Rule.syntaxDecl, .packageDecl, .importDecl] := by decide
      have plain : ∀ n ∈ tree.children, n.rule ∉ [.syntaxDecl, .packageDecl, .importDecl] := by
        intro n hn
        exact others _ (rules ▸ List.mem_map_of_mem hn)
      exact ⟨above, below, ⟨tree, rfl, plain⟩, ofText_stacked above below parsed plain⟩

end ProtoSchema
