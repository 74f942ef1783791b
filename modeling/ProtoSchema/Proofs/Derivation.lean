import ProtoSchema.Grammar
import Mathlib.Computability.Language

/-! # Derivations by the grammar

A derivation is a tree of grammar symbols whose leaves are all the tokens that it covers, keywords
and punctuation included. What stands directly below a symbol has to be a word of that symbol's
language, and the languages are the right-hand sides of the grammar. Nothing here runs a parser.
-/

namespace ProtoSchema

open Computability

theorem Token.Kind.mem_all (k : Kind) : k ∈ all := by
  cases k <;> decide

/-- What derives tokens: a rule, or the name of an option, whose node is labelled as a dotted name
but which has a form of its own. -/
inductive Symbol where
  | rule (r : Rule)
  | optionName
deriving DecidableEq

namespace Symbol

/-- The rule at a node of the symbol. -/
def label : Symbol → Rule
  | .rule r => r
  | .optionName => .fullIdent

@[simp] theorem label_rule (r : Rule) : label (.rule r) = r := rfl

@[simp] theorem label_optionName : label .optionName = .fullIdent := rfl

/-- Constants and blocks of options are kept as spans, without what they are made of. -/
@[simp] def isSpan (x : Symbol) : Bool :=
  x == .rule .constant || x == .rule .fieldOptions

/-- The symbols on the right-hand side of a symbol. -/
def uses : Symbol → List Symbol
  | .optionName => [.rule .ident, .rule .fullIdent]
  | .rule .protoFile =>
    [.rule .syntaxDecl, .rule .packageDecl, .rule .importDecl, .rule .optionDecl,
      .rule .messageDef, .rule .enumDef, .rule .serviceDef]
  | .rule .syntaxDecl | .rule .importDecl => [.rule .stringLit]
  | .rule .packageDecl => [.rule .fullIdent]
  | .rule .optionDecl => [.optionName, .rule .constant]
  | .rule .messageDef =>
    [.rule .ident, .rule .field, .rule .messageDef, .rule .enumDef, .rule .optionDecl]
  | .rule .field =>
    [.rule .fieldRule, .rule .typeName, .rule .ident, .rule .number, .rule .fieldOptions]
  | .rule .typeName => [.rule .primitiveType, .rule .fullIdent]
  | .rule .fieldOptions => [.rule .fieldOptions]
  | .rule .enumDef => [.rule .ident, .rule .enumValue, .rule .optionDecl]
  | .rule .enumValue => [.rule .ident, .rule .number, .rule .fieldOptions]
  | .rule .serviceDef => [.rule .ident, .rule .rpcDef, .rule .optionDecl]
  | .rule .rpcDef => [.rule .ident, .rule .messageType, .rule .optionDecl]
  | .rule .messageType => [.rule .stream, .rule .fullIdent]
  | .rule .fullIdent => [.rule .ident]
  | .rule .constant => [.rule .stringLit, .rule .fullIdent, .rule .ident, .rule .number]
  | .rule _ => []

/-- The kinds of the tokens on the right-hand side of a symbol. -/
def kinds : Symbol → List Token.Kind
  | .optionName => [.lparen, .rparen, .dot]
  | .rule .protoFile => [.eof]
  | .rule .packageDecl | .rule .importDecl => [.ident, .semicolon]
  | .rule .syntaxDecl | .rule .optionDecl => [.ident, .equals, .semicolon]
  | .rule .messageDef | .rule .enumDef | .rule .serviceDef =>
    [.ident, .lbrace, .semicolon, .rbrace]
  | .rule .field | .rule .enumValue => [.equals, .semicolon]
  | .rule .fieldOptions => Token.Kind.all.erase .eof
  | .rule .rpcDef => [.ident, .lparen, .rparen, .lbrace, .semicolon, .rbrace]
  | .rule .fieldRule | .rule .primitiveType | .rule .stream | .rule .ident => [.ident]
  | .rule .fullIdent => [.dot]
  | .rule .constant => [.minus, .dot]
  | .rule .number => [.number]
  | .rule .stringLit => [.stringLit]
  | .rule .typeName | .rule .messageType => []

theorem eq_file_of_eof {x : Symbol} (h : .eof ∈ x.kinds) : x = .rule .protoFile := by
  obtain r | _ := x
  · cases r <;> first | rfl | exact absurd h (by decide)
  · exact absurd h (by decide)

end Symbol

/-- A derivation tree with tokens at its leaves. -/
inductive Derivation where
  | token (t : Token)
  | node (symbol : Symbol) (parts : List Derivation)

namespace Derivation

mutual
/-- The tokens at the leaves, from left to right. -/
def yield : Derivation → List Token
  | .token t => [t]
  | .node _ parts => yieldList parts

def yieldList : List Derivation → List Token
  | [] => []
  | d :: ds => yield d ++ yieldList ds
end

@[simp] theorem yield_token (t : Token) : yield (.token t) = [t] := rfl

@[simp] theorem yield_node (x : Symbol) (parts : List Derivation) :
    yield (.node x parts) = yieldList parts := rfl

@[simp] theorem yieldList_nil : yieldList [] = [] := rfl

@[simp] theorem yieldList_cons (d : Derivation) (ds : List Derivation) :
    yieldList (d :: ds) = yield d ++ yieldList ds := rfl

@[simp] theorem yieldList_append (ds es : List Derivation) :
    yieldList (ds ++ es) = yieldList ds ++ yieldList es := by
  induction ds with
  | nil => rfl
  | cons d ds ih => simp only [List.cons_append, yieldList_cons, ih, List.append_assoc]

@[simp] theorem yieldList_tokens (ts : List Token) : yieldList (ts.map .token) = ts := by
  induction ts with
  | nil => rfl
  | cons t ts ih => rw [List.map_cons, yieldList_cons, yield_token, ih, List.singleton_append]

theorem yieldList_eq_flatMap (ds : List Derivation) : yieldList ds = ds.flatMap yield := by
  induction ds with
  | nil => rfl
  | cons d ds ih => simp only [yieldList_cons, List.flatMap_cons, ih]

mutual
/-- How many messages are nested inside each other. -/
def nesting : Derivation → Nat
  | .token _ => 0
  | .node (.rule .messageDef) parts => nestingList parts + 1
  | .node _ parts => nestingList parts

def nestingList : List Derivation → Nat
  | [] => 0
  | d :: ds => max (nesting d) (nestingList ds)
end

mutual
/-- The nodes that a derivation adds to its parent's children: tokens add none. -/
def nodes (s : Parser.Scope) : Derivation → List Node
  | .token _ => []
  | .node x parts =>
    [s.node x.label ((yieldList parts).headD s.last) ((yieldList parts).getLastD s.last)
      (if x.isSpan then [] else nodesList s parts)]

def nodesList (s : Parser.Scope) : List Derivation → List Node
  | [] => []
  | d :: ds => nodes s d ++ nodesList s ds
end

/-- The syntax tree of a derived file: its root covers the whole source. -/
def tree (s : Parser.Scope) : Derivation → Node
  | .token _ => .root s.source []
  | .node _ parts => .root s.source (nodesList s parts)

@[simp] theorem nodes_token (s : Parser.Scope) (t : Token) : nodes s (.token t) = [] := rfl

@[simp] theorem nodes_node (s : Parser.Scope) (x : Symbol) (parts : List Derivation) :
    nodes s (.node x parts) = [s.node x.label ((yieldList parts).headD s.last)
      ((yieldList parts).getLastD s.last) (if x.isSpan then [] else nodesList s parts)] := rfl

@[simp] theorem nodesList_nil (s : Parser.Scope) : nodesList s [] = [] := rfl

@[simp] theorem nodesList_cons (s : Parser.Scope) (d : Derivation) (ds : List Derivation) :
    nodesList s (d :: ds) = nodes s d ++ nodesList s ds := rfl

@[simp] theorem nodesList_append (s : Parser.Scope) (ds es : List Derivation) :
    nodesList s (ds ++ es) = nodesList s ds ++ nodesList s es := by
  induction ds with
  | nil => rfl
  | cons d ds ih => simp only [List.cons_append, nodesList_cons, ih, List.append_assoc]

@[simp] theorem nodesList_tokens (s : Parser.Scope) (ts : List Token) :
    nodesList s (ts.map .token) = [] := by
  induction ts with
  | nil => rfl
  | cons t ts ih => rw [List.map_cons, nodesList_cons, nodes_token, ih, List.nil_append]

theorem nodesList_eq_flatMap (s : Parser.Scope) (ds : List Derivation) :
    nodesList s ds = ds.flatMap (nodes s) := by
  induction ds with
  | nil => rfl
  | cons d ds ih => simp only [nodesList_cons, List.flatMap_cons, ih]

/-! ## The grammar -/

/-- The derivation is a node of the symbol. -/
def Rooted (x : Symbol) (d : Derivation) : Prop :=
  ∃ parts, d = .node x parts

/-- One token that passes `p`. -/
def letter (p : Token → Prop) : Language Derivation :=
  {ds | ∃ t, p t ∧ ds = [.token t]}

/-- One token of a given kind. -/
def kind (k : Token.Kind) : Language Derivation :=
  letter (·.kind = k)

/-- A given word. -/
def word (w : String) : Language Derivation :=
  letter (·.isWord w)

/-- One of the given words. -/
def wordOf (ws : List String) : Language Derivation :=
  letter fun t => t.kind = .ident ∧ t.text ∈ ws

/-- A token that is free to stand between brackets: only these and the end of the text are not. -/
def loose : Language Derivation :=
  letter (·.kind ∉ [.lbracket, .rbracket, .eof])

/-- One derivation from a symbol, over tokens that pass `p`. -/
def symbolWhere (x : Symbol) (p : List Token → Prop) : Language Derivation :=
  {ds | ∃ d, d.Rooted x ∧ p d.yield ∧ ds = [d]}

/-- One derivation from a symbol. -/
def symbol (x : Symbol) : Language Derivation :=
  symbolWhere x fun _ => True

/-- One derivation from a rule. -/
def rule (r : Rule) : Language Derivation :=
  symbol (.rule r)

/-- A body in braces: elements and semicolons. -/
def body (elements : Language Derivation) : Language Derivation :=
  kind .lbrace * (elements + kind .semicolon)∗ * kind .rbrace

/-- An element of a body: one that passes `P`, or a semicolon. -/
def Element (P : Derivation → Prop) (d : Derivation) : Prop :=
  P d ∨ ∃ t : Token, t.kind = .semicolon ∧ d = .token t

/-- The right-hand side of a rule. An element of a message that starts with the option keyword is
an option, and a type of a single word is scalar if that word names a scalar type. -/
def form : Rule → Language Derivation
  | .protoFile =>
    (1 + rule .syntaxDecl) * (1 + rule .packageDecl) * (rule .importDecl + rule .optionDecl)∗ *
      (rule .messageDef + rule .enumDef + rule .serviceDef + rule .optionDecl)∗ * kind .eof
  | .syntaxDecl => word "syntax" * kind .equals * rule .stringLit * kind .semicolon
  | .packageDecl => word "package" * rule .fullIdent * kind .semicolon
  | .importDecl =>
    word "import" * (1 + word "public" + word "weak") * rule .stringLit * kind .semicolon
  | .optionDecl =>
    word "option" * symbol .optionName * kind .equals * rule .constant * kind .semicolon
  | .messageDef =>
    word "message" * rule .ident *
      body (symbolWhere (.rule .field) (fun ts => ∀ t ∈ ts.head?, ¬t.isWord "option") +
        rule .messageDef + rule .enumDef + rule .optionDecl)
  | .field =>
    (1 + rule .fieldRule) * rule .typeName * rule .ident * kind .equals * rule .number *
      (1 + rule .fieldOptions) * kind .semicolon
  | .fieldRule => wordOf Grammar.fieldRules
  | .typeName =>
    rule .primitiveType +
      symbolWhere (.rule .fullIdent) fun ts => ∀ t, ts = [t] → t.text ∉ Grammar.primitives
  | .primitiveType => wordOf Grammar.primitives
  | .fieldOptions =>
    kind .lbracket * (rule .fieldOptions + loose)∗ * kind .rbracket
  | .enumDef => word "enum" * rule .ident * body (rule .enumValue + rule .optionDecl)
  | .enumValue =>
    rule .ident * kind .equals * rule .number * (1 + rule .fieldOptions) * kind .semicolon
  | .serviceDef => word "service" * rule .ident * body (rule .rpcDef + rule .optionDecl)
  | .rpcDef =>
    word "rpc" * rule .ident * kind .lparen * rule .messageType * kind .rparen *
      word "returns" * kind .lparen * rule .messageType * kind .rparen *
      (kind .semicolon + body (rule .optionDecl))
  | .messageType => (1 + rule .stream) * rule .fullIdent
  | .stream => word "stream"
  | .ident => kind .ident
  | .fullIdent => rule .ident * (kind .dot * rule .ident)∗
  | .number => kind .number
  | .stringLit => kind .stringLit
  | .constant =>
    rule .stringLit + rule .fullIdent + kind .minus * rule .ident +
      (1 + kind .minus) * rule .number * (1 + kind .dot * rule .number)

/-- The right-hand side of a symbol. -/
def production : Symbol → Language Derivation
  | .rule r => form r
  | .optionName =>
    (rule .ident + kind .lparen * rule .fullIdent * kind .rparen) * (kind .dot * rule .ident)∗

/-- Every node is made as the grammar says. -/
inductive Valid : Derivation → Prop where
  | token (t : Token) : Valid (.token t)
  | node {x : Symbol} {parts : List Derivation} (form : parts ∈ production x)
      (valid : ∀ d ∈ parts, Valid d) : Valid (.node x parts)

/-- A valid derivation from the symbol `x`. -/
structure From (x : Symbol) (d : Derivation) : Prop where
  rooted : d.Rooted x
  valid : d.Valid

/-- A derivation of a whole file from the tokens `ts`. -/
def Derives (ts : List Token) (d : Derivation) : Prop :=
  d.From (.rule .protoFile) ∧ d.yield = ts

/-! ## Words of the languages -/

/-- A word of a language whose letters are valid derivations. -/
def Fits (L : Language Derivation) (ds : List Derivation) : Prop :=
  ds ∈ L ∧ ∀ d ∈ ds, d.Valid

theorem from_iff {x : Symbol} {d : Derivation} :
    d.From x ↔ ∃ parts, d = .node x parts ∧ Fits (production x) parts := by
  constructor
  · rintro ⟨⟨parts, rfl⟩, _ | ⟨form, valid⟩⟩
    exact ⟨parts, rfl, form, valid⟩
  · rintro ⟨parts, rfl, form, valid⟩
    exact ⟨⟨parts, rfl⟩, .node form valid⟩

variable {L M : Language Derivation} {ds : List Derivation}

@[simp] theorem fits_one : Fits 1 ds ↔ ds = [] := by
  simp only [Fits, Language.mem_one]
  constructor
  · exact fun h => h.1
  · rintro rfl
    simp

theorem fits_add : Fits (L + M) ds ↔ Fits L ds ∨ Fits M ds := by
  simp only [Fits, Language.mem_add, or_and_right]

@[simp] theorem fits_sup : Fits (L ⊔ M) ds ↔ Fits L ds ∨ Fits M ds :=
  fits_add

@[simp] theorem fits_mul :
    Fits (L * M) ds ↔ ∃ front, Fits L front ∧ ∃ back, Fits M back ∧ ds = front ++ back := by
  simp only [Fits, Language.mem_mul]
  constructor
  · rintro ⟨⟨front, hf, back, hb, rfl⟩, valid⟩
    simp only [List.mem_append, or_imp, forall_and] at valid
    exact ⟨front, ⟨hf, valid.1⟩, back, ⟨hb, valid.2⟩, rfl⟩
  · rintro ⟨front, ⟨hf, vf⟩, back, ⟨hb, vb⟩, rfl⟩
    refine ⟨⟨front, hf, back, hb, rfl⟩, ?_⟩
    simp only [List.mem_append, or_imp, forall_and]
    exact ⟨vf, vb⟩

@[simp] theorem fits_letter {p : Token → Prop} :
    Fits (letter p) ds ↔ ∃ t, p t ∧ ds = [.token t] := by
  constructor
  · exact fun h => h.1
  · rintro ⟨t, h, rfl⟩
    exact ⟨⟨t, h, rfl⟩, by simpa using .token t⟩

@[simp] theorem fits_kind {k : Token.Kind} :
    Fits (kind k) ds ↔ ∃ t : Token, t.kind = k ∧ ds = [.token t] :=
  fits_letter

@[simp] theorem fits_word {w : String} :
    Fits (word w) ds ↔ ∃ t : Token, t.isWord w ∧ ds = [.token t] :=
  fits_letter

@[simp] theorem fits_wordOf {ws : List String} :
    Fits (wordOf ws) ds ↔ ∃ t : Token, (t.kind = .ident ∧ t.text ∈ ws) ∧ ds = [.token t] :=
  fits_letter

@[simp] theorem fits_loose : Fits loose ds ↔
    ∃ t : Token, t.kind ∉ [.lbracket, .rbracket, .eof] ∧ ds = [.token t] :=
  fits_letter

@[simp] theorem fits_symbolWhere {x : Symbol} {p : List Token → Prop} :
    Fits (symbolWhere x p) ds ↔ ∃ d, d.From x ∧ p d.yield ∧ ds = [d] := by
  constructor
  · rintro ⟨⟨d, root, h, rfl⟩, valid⟩
    exact ⟨d, ⟨root, valid d (by simp)⟩, h, rfl⟩
  · rintro ⟨d, ⟨root, valid⟩, h, rfl⟩
    exact ⟨⟨d, root, h, rfl⟩, by simpa using valid⟩

@[simp] theorem fits_symbol {x : Symbol} : Fits (symbol x) ds ↔ ∃ d, d.From x ∧ ds = [d] := by
  simp [symbol]

@[simp] theorem fits_rule {r : Rule} :
    Fits (rule r) ds ↔ ∃ d, d.From (.rule r) ∧ ds = [d] :=
  fits_symbol

theorem fits_optional {P : α → Prop} {f : α → Derivation}
    (h : ∀ ds, Fits L ds ↔ ∃ a, P a ∧ ds = [f a]) :
    Fits (1 + L) ds ↔ ∃ o : Option α, (∀ a ∈ o, P a) ∧ ds = o.toList.map f := by
  rw [fits_add, fits_one, h]
  constructor
  · rintro (rfl | ⟨a, ha, rfl⟩)
    · exact ⟨none, by simp, rfl⟩
    · exact ⟨some a, by simpa using ha, rfl⟩
  · rintro ⟨_ | a, ha, rfl⟩
    · exact .inl rfl
    · exact .inr ⟨a, ha a rfl, rfl⟩

/-- A loop over single derivations takes any number of them in any order. -/
theorem fits_kstar_singles (single : ∀ ds, Fits L ds → ∃ d, ds = [d]) :
    Fits L∗ ds ↔ ∀ d ∈ ds, Fits L [d] := by
  constructor
  · rintro ⟨⟨rounds, rfl, h⟩, valid⟩ d hd
    obtain ⟨ds, hds, hd⟩ := List.mem_flatten.mp hd
    have round : Fits L ds := ⟨h ds hds, fun e he => valid e (List.mem_flatten.mpr ⟨ds, hds, he⟩)⟩
    obtain ⟨e, rfl⟩ := single ds round
    obtain rfl := List.mem_singleton.mp hd
    exact round
  · intro h
    refine ⟨⟨ds.map ([·]), by rw [← List.flatMap_def, List.flatMap_singleton'], ?_⟩,
      fun d hd => (h d hd).2 d List.mem_cons_self⟩
    intro es hes
    obtain ⟨d, hd, rfl⟩ := List.mem_map.mp hes
    exact (h d hd).1

theorem fits_body {E : Language Derivation} {P : Derivation → Prop}
    (element : ∀ ds, Fits E ds ↔ ∃ d, P d ∧ ds = [d]) :
    Fits (body E) ds ↔ ∃ (left : Token) (elements : List Derivation) (right : Token),
      left.kind = .lbrace ∧ (∀ d ∈ elements, d.Element P) ∧ right.kind = .rbrace ∧
        ds = .token left :: (elements ++ [.token right]) := by
  have loop {es} : Fits (E + kind .semicolon) es ↔ ∃ d, d.Element P ∧ es = [d] := by
    rw [fits_add, element, fits_kind]
    constructor
    · rintro (⟨d, hd, rfl⟩ | ⟨t, ht, rfl⟩)
      · exact ⟨d, .inl hd, rfl⟩
      · exact ⟨_, .inr ⟨t, ht, rfl⟩, rfl⟩
    · rintro ⟨d, hd | ⟨t, ht, rfl⟩, rfl⟩
      · exact .inl ⟨d, hd, rfl⟩
      · exact .inr ⟨t, ht, rfl⟩
  have single (es) (h : Fits (E + kind .semicolon) es) : ∃ d, es = [d] :=
    (loop.mp h).imp fun _ => And.right
  simp only [body, fits_mul, fits_kind, fits_kstar_singles single, loop, List.cons_eq_cons,
    and_true, exists_eq_right']
  constructor
  · rintro ⟨_, ⟨_, ⟨left, hl, rfl⟩, elements, he, rfl⟩, _, ⟨right, hr, rfl⟩, rfl⟩
    exact ⟨left, elements, right, hl, he, hr, rfl⟩
  · rintro ⟨left, elements, right, hl, he, hr, rfl⟩
    exact ⟨_, ⟨_, ⟨left, hl, rfl⟩, elements, he, rfl⟩, _, ⟨right, hr, rfl⟩, rfl⟩

/-! ## What stands below a symbol -/

/-- What may stand directly below `x`: the symbols that it uses, and tokens. Only a file has an end
of text. -/
def Inner (x : Symbol) : Derivation → Prop
  | .token t => x = .rule .protoFile ∨ t.kind ≠ .eof
  | .node y _ => y ∈ x.uses

/-- All letters of a language pass `P`. -/
def AllLetters (P : Derivation → Prop) (L : Language Derivation) : Prop :=
  ∀ ds ∈ L, ∀ d ∈ ds, P d

namespace AllLetters

variable {P : Derivation → Prop}

theorem one : AllLetters P 1 := by
  rintro _ ⟨⟩
  simp

theorem add (hL : AllLetters P L) (hM : AllLetters P M) : AllLetters P (L + M) := by
  rintro ds (h | h)
  · exact hL ds h
  · exact hM ds h

theorem mul (hL : AllLetters P L) (hM : AllLetters P M) : AllLetters P (L * M) := by
  rintro _ ⟨ds, hds, es, hes, rfl⟩ d hd
  obtain hd | hd := List.mem_append.mp hd
  · exact hL ds hds d hd
  · exact hM es hes d hd

theorem kstar (hL : AllLetters P L) : AllLetters P L∗ := by
  rintro _ ⟨rounds, rfl, h⟩ d hd
  obtain ⟨ds, hds, hd⟩ := List.mem_flatten.mp hd
  exact hL ds (h ds hds) d hd

theorem letter {p : Token → Prop} (h : ∀ t, p t → P (.token t)) : AllLetters P (letter p) := by
  rintro _ ⟨t, ht, rfl⟩ d hd
  obtain rfl := List.mem_singleton.mp hd
  exact h t ht

theorem kind {k : Token.Kind} (h : ∀ t, t.kind = k → P (.token t)) : AllLetters P (kind k) :=
  letter h

theorem word {w : String} (h : ∀ t, t.isWord w → P (.token t)) : AllLetters P (word w) :=
  letter h

theorem wordOf {ws : List String} (h : ∀ t, t.kind = .ident ∧ t.text ∈ ws → P (.token t)) :
    AllLetters P (wordOf ws) :=
  letter h

theorem loose (h : ∀ t, t.kind ∉ [.lbracket, .rbracket, .eof] → P (.token t)) :
    AllLetters P loose :=
  letter h

theorem symbolWhere {y : Symbol} {p : List Token → Prop} (h : ∀ parts, P (.node y parts)) :
    AllLetters P (symbolWhere y p) := by
  rintro _ ⟨_, ⟨parts, rfl⟩, -, rfl⟩ d hd
  obtain rfl := List.mem_singleton.mp hd
  exact h parts

theorem symbol {y : Symbol} (h : ∀ parts, P (.node y parts)) : AllLetters P (symbol y) :=
  symbolWhere h

theorem rule {r : Rule} (h : ∀ parts, P (.node (.rule r) parts)) : AllLetters P (rule r) :=
  symbol h

end AllLetters

/-- A token of the right-hand side of `x`, or a node of a symbol there. -/
def Below (x : Symbol) : Derivation → Prop
  | .token t => t.kind ∈ x.kinds
  | .node y _ => y ∈ x.uses

theorem production_below (x : Symbol) : AllLetters (Below x) (production x) := by
  obtain r | _ := x
  · cases r
    all_goals
      repeat' first
        | exact AllLetters.one | apply AllLetters.mul | apply AllLetters.add
        | apply AllLetters.kstar | apply AllLetters.kind | apply AllLetters.word
        | apply AllLetters.wordOf | apply AllLetters.loose | apply AllLetters.rule
        | apply AllLetters.symbol | apply AllLetters.symbolWhere
      all_goals simp_all [Below, Symbol.uses, Symbol.kinds, Token.isWord, Token.Kind.mem_all]
  · repeat' first
      | apply AllLetters.mul | apply AllLetters.add | apply AllLetters.kstar
      | apply AllLetters.kind | apply AllLetters.rule
    all_goals simp_all [Below, Symbol.uses, Symbol.kinds]

theorem production_inner (x : Symbol) : AllLetters (Inner x) (production x) := by
  intro ds hds d hd
  have below := production_below x ds hds d hd
  cases d with
  | token t =>
      by_cases eof : t.kind = .eof
      · exact .inl (Symbol.eq_file_of_eof (eof ▸ below))
      · exact .inr eof
  | node y parts => exact below

/-- Induction over the derivations from the symbols that pass `Q`, where these use no others. -/
theorem From.induct {Q : Symbol → Prop} {P : Derivation → Prop}
    (file : ¬Q (.rule .protoFile)) (closed : ∀ x, Q x → ∀ y ∈ x.uses, Q y)
    (token : ∀ t, t.kind ≠ .eof → P (.token t))
    (node : ∀ x parts, Q x → (∀ d ∈ parts, P d) → P (.node x parts)) {x : Symbol} {d : Derivation}
    (h : d.From x) (hx : Q x) : P d := by
  obtain ⟨root, valid⟩ := h
  induction valid generalizing x with
  | token t => obtain ⟨_, ⟨⟩⟩ := root
  | @node y parts form valid ih =>
      obtain ⟨_, ⟨⟩⟩ := root
      refine node _ _ hx fun d hd => ?_
      have inner := production_inner y parts form d hd
      cases d with
      | token t => exact token t (inner.resolve_left fun same => file (same ▸ hx))
      | node z zs => exact ih _ hd (closed y hx z inner) ⟨zs, rfl⟩

theorem nesting_node {x : Symbol} (h : x ≠ .rule .messageDef) (parts : List Derivation) :
    nesting (.node x parts) = nestingList parts := by
  unfold nesting
  split
  · simp_all
  · simp_all
  · simp_all

theorem nestingList_le {n : Nat} {ds : List Derivation} :
    nestingList ds ≤ n ↔ ∀ d ∈ ds, d.nesting ≤ n := by
  induction ds with
  | nil => simp [nestingList]
  | cons d ds ih => simp [nestingList, ih]

theorem From.nesting_eq_zero {x : Symbol} {d : Derivation} (h : d.From x)
    (file : x ≠ .rule .protoFile) (message : x ≠ .rule .messageDef) : d.nesting = 0 := by
  refine h.induct (Q := fun x => x ≠ .rule .protoFile ∧ x ≠ .rule .messageDef)
    (P := fun d => d.nesting = 0) (by simp) ?_ (fun _ _ => rfl) ?_ ⟨file, message⟩
  · rintro (r | _)
    · cases r <;> simp [Symbol.uses]
    · simp [Symbol.uses]
  · intro y parts hy ih
    rw [nesting_node hy.2, ← Nat.le_zero, nestingList_le]
    exact fun e he => (ih e he).le

theorem From.kind_ne_eof {x : Symbol} {d : Derivation} (h : d.From x)
    (file : x ≠ .rule .protoFile) : ∀ t ∈ d.yield, t.kind ≠ .eof := by
  refine h.induct (Q := (· ≠ .rule .protoFile)) (P := fun d => ∀ t ∈ d.yield, t.kind ≠ .eof)
    (by simp) ?_ (by simp) ?_ file
  · rintro (r | _)
    · cases r <;> simp [Symbol.uses]
    · simp [Symbol.uses]
  · intro y parts _ ih t ht
    rw [yield_node, yieldList_eq_flatMap] at ht
    obtain ⟨e, he, ht⟩ := List.mem_flatMap.mp ht
    exact ih e he t ht

end Derivation

end ProtoSchema
