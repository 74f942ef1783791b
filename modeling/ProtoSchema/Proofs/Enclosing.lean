import ProtoSchema.Proofs.Depth
import ProtoSchema.Proofs.FieldTypes
import ProtoSchema.Proofs.Stacking

/-! # Definitions inside a message

The definitions and options of a file may also stand in the body of a message. There they declare
the same messages and enums, one level further down.
-/

namespace ProtoSchema

open Word Lexeme

/-- The text `source` as the body of a message. -/
def enclose (name : String) (source : List Char) : List Char :=
  ("message " ++ name ++ " \x7b").toList ++ (source ++ ['\n', '\x7d'])

/-- The lexemes of that text, for those of the body. -/
def enclosingRow (name : String) (xs : List Lexeme) : List Lexeme :=
  spaced [ident "message", ident name] ++ lbrace.lexeme :: (xs ++ [.gap ['\n'], rbrace.lexeme])

theorem text_enclosingRow (name : String) (xs : List Lexeme) :
    text (enclosingRow name xs) = enclose name (text xs) := by
  rw [enclosingRow, text_spaced, text_cons, text_append]
  simp [enclose, ident, lbrace, rbrace, lexeme, chars]

theorem words_enclosingRow (name : String) (xs : List Lexeme) :
    words (enclosingRow name xs) = definition "message" name (words xs) := by
  rw [enclosingRow, words_spaced, words_lexeme, words_append, words_gap, words_lexeme]
  rfl

/-- The body may end in a comment, which the line feed closes. -/
theorem separate_enclosingRow {name : String} {xs : List Lexeme} (hname : IsName name)
    (h : Separate xs) : Separate (enclosingRow name xs) := by
  have closing : Separate [rbrace.lexeme] := ⟨.delimiter rfl, trivial⟩
  refine separate_spaced ?_ ⟨.delimiter rfl, h.stacked closing⟩
  have word : IsName "message" := by decide
  simpa using ⟨ident_precedes word (by simp), ident_precedes hname (by simp)⟩

namespace Derivation

variable {ds : List Derivation} {d : Derivation} {name : String}

/-! ## The body of a message -/

theorem From.bare {x : Symbol} (h : d.From x) : d.bare.From x := by
  obtain ⟨⟨parts, rfl⟩, valid⟩ := h
  exact ⟨⟨_, bare_node x parts⟩, valid.bare⟩

/-- What may stand both among the definitions of a file and in the body of a message. -/
def Enclosable (d : Derivation) : Prop :=
  d.From (.rule .messageDef) ∨ d.From (.rule .enumDef) ∨ d.From (.rule .optionDecl)

theorem Enclosable.bare (h : d.Enclosable) : d.bare.Enclosable :=
  h.imp From.bare (.imp From.bare From.bare)

theorem Enclosable.element (h : d.Enclosable) : d.MessageElement (·.From (.rule .messageDef)) :=
  .inr h

theorem Enclosable.label?_mem (h : d.Enclosable) :
    d.label? ∈ [some .messageDef, some .enumDef, some .optionDecl] := by
  obtain h | h | h := h
  all_goals simp [h.label?_eq]

theorem Statement.enclosable {s : Parser.Scope} (h : d.Statement)
    (plain : ∀ n ∈ nodes s d, n.rule ∈ [.messageDef, .enumDef, .optionDecl]) : d.Enclosable := by
  obtain ⟨n, hn⟩ := h.nodes_eq s
  have rule := plain n (hn ▸ List.mem_singleton_self n)
  obtain h | h | h | h | h | h | h := h
  · exact absurd (h.rooted.node_rule hn) (by rintro same; simp [same] at rule)
  · exact absurd (h.rooted.node_rule hn) (by rintro same; simp [same] at rule)
  · exact absurd (h.rooted.node_rule hn) (by rintro same; simp [same] at rule)
  · exact .inl h
  · exact .inr (.inl h)
  · exact absurd (h.rooted.node_rule hn) (by rintro same; simp [same] at rule)
  · exact .inr (.inr h)

/-- A message whose body has definitions and options only has no fields. -/
theorem definitionOf_message (h : ∀ d ∈ ds, d.Enclosable) :
    (definitionOf .messageDef "message" name ds).message =
      ⟨name, [], messages ds, (having .enumDef ds).map enumDef⟩ := by
  have without (r : Rule) (hr : r ∈ [.ident, .field]) : having r ds = [] := by
    refine having_eq_nil fun d hd label => ?_
    obtain rfl | rfl := by simpa using hr
    all_goals simpa [label] using (h d hd).label?_mem
  have word := definitionOf_name (r := .messageDef) (w := "message") (s := name)
    (without .ident (by simp))
  rw [definitionOf] at word ⊢
  rw [message, word]
  simp [messages, messages_append, label?, ofToken, without .field]

theorem definitionOf_nesting (h : ∀ d ∈ ds, d.Enclosable) :
    (definitionOf .messageDef "message" name ds).nesting = Message.depthList (messages ds) + 1 := by
  have root := from_messageDef.mpr (definitionOf_defines (r := .messageDef) (w := "message")
    (s := name) fun d hd => (h d hd).element)
  rw [nesting_eq_depth _ root, definitionOf_message h, Message.depth]

end Derivation

namespace Schema

open ProtoSchema.Derivation

variable {limit : Nat}

/-- A row of words that are derived as definitions and options, as the body of a message. -/
theorem ofText_enclosingRow {name : String} {xs : List Lexeme} {ds : List Derivation}
    (hname : IsName name) (separate : Separate xs) (h : ∀ d ∈ ds, d.Enclosable)
    (said : yieldList ds = (words xs).map Word.token)
    (shallow : Message.depthList (messages ds) < limit) :
    ∃ us, ofText limit (text (enclosingRow name xs)) =
        .ok (ofMessage ⟨name, [], messages ds, (having .enumDef ds).map enumDef⟩, us) ∧
      us.map (·.lexeme) = ((numbersList ds).flatMap (·.warnings)).map (·.lexeme) := by
  have root : (definitionOf .messageDef "message" name ds).From (.rule .messageDef) :=
    from_messageDef.mpr (definitionOf_defines fun d hd => (h d hd).element)
  have derives : Derives ((words (enclosingRow name xs)).map Word.token ++
      [⟨.eof, "", 0, 0, 0, 0⟩]) (node (.rule .protoFile)
        [definitionOf .messageDef "message" name ds, .token ⟨.eof, "", 0, 0, 0, 0⟩]) := by
    refine ⟨root.file rfl, ?_⟩
    rw [words_enclosingRow, ← definitionOf_yield (r := .messageDef) said]
    simp
  have within : (node (.rule .protoFile) [definitionOf .messageDef "message" name ds,
      .token ⟨.eof, "", 0, 0, 0, 0⟩]).nesting ≤ limit := by
    rwa [file_nesting, definitionOf_nesting h]
  obtain ⟨e, -, -, read, lexemes⟩ :=
    ofText_spelled (separate_enclosingRow hname separate) derives within
  rw [root.file_schema, definitionOf_message h] at read
  refine ⟨e.warnings, read, lexemes.trans ?_⟩
  rw [← definitionOf_warnings (r := .messageDef) (w := "message") (s := name) (by decide)]
  exact congrArg (List.map _) ((file_warnings [_] _).trans (by simp [warnings]))

/-- A text of definitions and options, as the body of a message, declares the same messages and
enums inside that message. It gives the same warnings, at the places where its numbers then
stand. -/
theorem ofText_enclosed {name : String} {source : List Char} {p : Schema} {ws : List Warning}
    {tree : Node} (hname : IsName name) (read : ofText limit source = .ok (p, ws))
    (parsed : Node.ofText limit source = .ok tree)
    (plain : ∀ n ∈ tree.children, n.rule ∈ [.messageDef, .enumDef, .optionDecl])
    (shallow : p.depth < limit) :
    ∃ us, ofText limit (enclose name source) =
        .ok (ofMessage ⟨name, [], p.messages, p.enums⟩, us) ∧
      us.map (·.lexeme) = ws.map (·.lexeme) := by
  obtain ⟨tokens, d, scanned, derives, -, rfl, rfl⟩ := ofText_eq_ok.mp read
  obtain ⟨ds, last, rfl, parts, hlast⟩ := from_protoFile.mp derives.1
  have enclosable : ∀ d ∈ ds, d.Enclosable := by
    obtain ⟨_, e, same, unique, -, rfl⟩ := Node.ofText_eq_ok.mp parsed
    obtain rfl := by simpa [scanned] using same
    obtain rfl := derives.unique unique
    intro d hd
    refine (parts.statements d hd).enclosable (s := .whole source) fun n hn => plain n ?_
    simpa [Derivation.tree, Node.root, nodesList_eq_flatMap] using ⟨d, hd, hn⟩
  obtain ⟨xs, separate, rfl, row⟩ := Token.scan_ok_iff.mp scanned
  -- places are left out, since the statements stand elsewhere in the message
  have said : yieldList (ds.map Derivation.bare) = (words xs).map Word.token := by
    have whole := congrArg (List.map Token.bare) (derives.2.trans row.symm)
    rw [map_bare_tokensAt, yield_node, yieldList_append, List.map_append, ← yieldList_map_bare]
      at whole
    exact (List.append_inj' whole rfl).1
  have messages_eq : messages (ds.map Derivation.bare) = messages ds := by
    rw [← bareList_eq_map, messages_bareList]
  have declared : (node (.rule .protoFile) (ds ++ [.token last])).schema.messages =
      messages ds := by
    simp [schema, Derivation.parts, messages_append, messages, label?]
  have declared' : (node (.rule .protoFile) (ds ++ [.token last])).schema.enums =
      (having .enumDef (ds.map Derivation.bare)).map enumDef := by
    simp [schema, Derivation.parts, Function.comp_def]
  obtain ⟨us, inside, lexemes⟩ := ofText_enclosingRow hname separate
    (List.forall_mem_map.mpr fun d hd => (enclosable d hd).bare) said
    (by rwa [messages_eq, ← declared])
  rw [text_enclosingRow, messages_eq, ← declared, ← declared'] at inside
  refine ⟨us, inside, lexemes.trans ?_⟩
  have same := (derives.same derives.bare (by simp [Token.bare])).2
  rw [bare_node, List.map_append] at same
  exact (same.trans (by rw [List.map_singleton, bare_token, file_warnings])).symm

/-- A text that ends in a comment, with a message inside a message and a number out of range. -/
theorem ofText_enclosed_comment :
    let limit := 3
    let source := "option o=1;message A\x7bmessage B\x7b\x7dB b=2147483649;\x7denum E\x7bX=1;\x7d//".toList
    let a : Message String Int Bool := ⟨"A", [⟨"b", "B", 0, false⟩], [⟨"B", [], [], []⟩], []⟩
    let p : Schema := ⟨"proto3", none, [], [a], [⟨"E", [⟨"X", 1⟩]⟩], []⟩
    IsName "message" ∧ ofText limit source = .ok (p, [⟨"2147483649", 1, 37⟩]) ∧
      (∃ tree, Node.ofText limit source = .ok tree ∧
        ∀ n ∈ tree.children, n.rule ∈ [.messageDef, .enumDef, .optionDecl]) ∧
      p.depth < limit ∧
      ∃ us, ofText limit (enclose "message" source) =
          .ok (ofMessage ⟨"message", [], [a], [⟨"E", [⟨"X", 1⟩]⟩]⟩, us) ∧
        us.map (·.lexeme) = ["2147483649"] := by
  intro limit source a p
  have hname : IsName "message" := by decide
  have read : ofText limit source = .ok (p, [⟨"2147483649", 1, 37⟩]) := by decide +kernel
  have shallow : p.depth < limit := by decide
  have rules : (Node.ofText limit source).map (·.children.map (·.rule)) =
      .ok [.optionDecl, .messageDef, .enumDef] := by decide +kernel
  cases parsed : Node.ofText limit source with
  | error e => simp [parsed, Except.map] at rules
  | ok tree =>
      have rules : tree.children.map (·.rule) = [.optionDecl, .messageDef, .enumDef] := by
        simpa [parsed, Except.map] using rules
      have inside : ∀ r ∈ [Rule.optionDecl, .messageDef, .enumDef],
          r ∈ [Rule.messageDef, .enumDef, .optionDecl] := by decide
      have plain : ∀ n ∈ tree.children, n.rule ∈ [.messageDef, .enumDef, .optionDecl] := by
        intro n hn
        exact inside _ (rules ▸ List.mem_map_of_mem hn)
      exact ⟨hname, read, ⟨tree, rfl, plain⟩, shallow,
        ofText_enclosed hname read parsed plain shallow⟩

end Schema

end ProtoSchema
