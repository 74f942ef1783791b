import ProtoSchema.Proofs.FilePrediction

/-! # Properties that the grammar keeps

The parsers of the grammar are put together in a few ways. A property of parsers that these ways
keep holds of each parser if it holds of that for messages, where the limit on nesting comes in. A
step takes a token after a look at it, and none that ends the text; nor does a choice depend on a
token after the one that ends the text.
-/

namespace ProtoSchema

/-- The end of a text, which may stand anywhere in a list. Some words are looked for whatever the
kind of the token, so it must have no text. -/
structure Token.IsEnd (e : Token) : Prop where
  kind : e.kind = .eof
  text : e.text = ""

theorem Token.IsEnd.isWord {e : Token} (h : e.IsEnd) (w : String) : e.isWord w = false := by
  simp [Token.isWord, h.kind]

namespace Parser

namespace Predictive

variable {s : Scope}

theorem rpcElement_consumes : Consumes s Grammar.rpcElement :=
  consumes_single Reads.rpcElement fun _ hd => hd.wordFirst hd.optionDecl_startsWith

theorem serviceElement_consumes : Consumes s Grammar.serviceElement :=
  consumes_single Reads.serviceElement fun _ => Derivation.serviceElement_wordFirst

theorem header_consumes : Consumes s Grammar.header :=
  consumes_single Reads.header fun _ => Derivation.Header.wordFirst

end Predictive

/-- A property of parsers that is kept by the ways in which the grammar puts them together. -/
structure Closed (Q : ∀ α : Type, Parser α → Prop) : Prop where
  pure {α : Type} (a : α) : Q α (Pure.pure a)
  node (r : Rule) (first last : Token) (ns : List Node) : Q Node (Parser.node r first last ns)
  leaves (r : Rule) (ts : List Token) : Q (List Node) (Parser.leaves r ts)
  bind {α β : Type} {p : Parser α} {f : α → Parser β} (hp : Q α p) (hf : ∀ a, Q β (f a)) :
    Q β (p >>= f)
  mismatch {α : Type} (expected : List Expectation) (context : String) :
    Q α (Parser.mismatch expected context)
  peek {α : Type} {k : Token → Parser α} (h : ∀ t, Q α (k t)) : Q α (Parser.peek >>= k)
  /-- A look at the token after the next one. -/
  look {α : Type} {k : Token → Token → Parser α}
    (blind : ∀ t, t.IsEnd → ∀ u v, k t u = k t v) (h : ∀ t u, Q α (k t u)) :
    Q α (Parser.peek >>= fun t => Parser.peekAt 1 >>= fun u => k t u)
  /-- A look at two tokens after the next one. -/
  lookTwice {α : Type} {k : Token → Token → Token → Parser α}
    (blind : ∀ t, t.IsEnd → ∀ u v u' v', k t u v = k t u' v')
    (blind' : ∀ t u, u.IsEnd → ∀ v v', k t u v = k t u v') (h : ∀ t u v, Q α (k t u v)) :
    Q α (Parser.peek >>= fun t => Parser.peekAt 1 >>= fun u => Parser.peekAt 2 >>= fun v => k t u v)
  /-- A token is taken after a look at it. -/
  take {α : Type} {c : Token → Prop} [DecidablePred c] (inner : ∀ t, c t → t.kind ≠ .eof)
    {taken : Token → Token → Parser α} {other : Token → Parser α}
    (htaken : ∀ t u, Q α (taken t u)) (hother : ∀ t, Q α (other t)) :
    Q α (do
      let t ← Parser.peek
      if c t then Parser.advance >>= taken t else other t)
  many {α : Type} {more : Token → Bool} {item : Parser α} (consumes : ∀ s, Consumes s item)
    (h : Q α item) : Q (List α) (Parser.many more item)
  /-- A loop that takes each token that it goes on at. -/
  manyTaking {α : Type} {more : Token → Bool} {f : Token → Parser α}
    (consumes : ∀ s, Consumes s (Parser.advance >>= f))
    (inner : ∀ t, more t → t.kind ≠ .eof) (h : ∀ t, Q α (f t)) :
    Q (List α) (Parser.many more (Parser.advance >>= f))
  /-- A loop, after which the token is taken that ends the loop. -/
  manyUntil {α β : Type} {more : Token → Bool} {item : Parser α} {f : List α → Token → Parser β}
    (consumes : ∀ s, Consumes s item) (inner : ∀ t, more t = false → t.kind ≠ .eof)
    (hitem : Q α item) (hf : ∀ xs t, Q β (f xs t)) :
    Q β (Parser.many more item >>= fun xs => Parser.advance >>= f xs)
  closeBrackets (depth : Nat) : Q Token (Grammar.closeBrackets depth)

namespace Closed

variable {Q : ∀ α : Type, Parser α → Prop} {α : Type} {p q : Parser α} (kept : Closed Q)

omit kept in
theorem ite {c : Prop} [Decidable c] (hp : Q α p) (hq : Q α q) : Q α (if c then p else q) := by
  split
  · exact hp
  · exact hq

include kept

theorem takeOr {c : Token → Prop} [DecidablePred c] (inner : ∀ t, c t → t.kind ≠ .eof)
    {other : Token → Parser Token} (h : ∀ t, Q Token (other t)) :
    Q Token (do
      let t ← Parser.peek
      if c t then Parser.advance else other t) := by
  have taken : Parser.advance >>= Pure.pure = Parser.advance := by
    funext s ts
    cases ts with
    | nil => rfl
    | cons t ts => rfl
  have step : Q Token (do
      let t ← Parser.peek
      if c t then Parser.advance >>= Pure.pure else other t) :=
    kept.take inner (fun _ => kept.pure) h
  rwa [taken] at step

theorem expectAs {k : Token.Kind} (hk : k ≠ .eof) (names : List Expectation) (context : String) :
    Q Token (Parser.expectAs k names context) :=
  kept.takeOr (c := (·.kind = k)) (fun _ h => h.symm ▸ hk) fun _ => kept.mismatch names context

theorem expect {k : Token.Kind} (hk : k ≠ .eof) (context : String) :
    Q Token (Parser.expect k context) :=
  kept.expectAs hk _ context

theorem keyword (w context : String) : Q Token (Parser.keyword w context) :=
  kept.takeOr (c := (·.isWord w)) (fun t h => by simp_all [Token.isWord]) fun _ =>
    kept.mismatch _ context

theorem leaf {k : Token.Kind} (hk : k ≠ .eof) (r : Rule) (context : String) :
    Q Node (Parser.leaf k r context) :=
  kept.bind (kept.expectAs hk _ context) fun t => kept.node r t t []

theorem word (context : String) : Q Token (Grammar.word context) :=
  kept.expectAs (by decide) ..

theorem ident (context : String) : Q Node (Grammar.ident context) :=
  kept.leaf (by decide) ..

theorem dottedTail (context : String) : Q (List Token) (Grammar.dottedTail context) :=
  kept.manyTaking (fun _ => Predictive.dottedItem_consumes context)
    (fun t h => by simp_all) fun _ => kept.word context

theorem fullIdent (context : String) : Q Node (Grammar.fullIdent context) :=
  kept.bind (kept.word context) fun _ => kept.bind (kept.dottedTail context) fun _ =>
    kept.bind (kept.leaves ..) fun _ => kept.node ..

theorem syntaxDecl : Q Node Grammar.syntaxDecl :=
  kept.bind (kept.keyword ..) fun _ => kept.bind (kept.expect (by decide) _) fun _ =>
    kept.bind (kept.leaf (by decide) ..) fun _ => kept.bind (kept.expect (by decide) _) fun _ =>
      kept.node ..

theorem packageDecl : Q Node Grammar.packageDecl :=
  kept.bind (kept.keyword ..) fun _ => kept.bind (kept.fullIdent _) fun _ =>
    kept.bind (kept.expect (by decide) _) fun _ => kept.node ..

theorem importDecl : Q Node Grammar.importDecl := by
  have path (first : Token) : Q Node (do
      let path ← Parser.leaf .stringLit .stringLit Rule.importDecl.name
      let last ← Parser.expect .semicolon Rule.importDecl.name
      Parser.node .importDecl first last [path]) :=
    kept.bind (kept.leaf (by decide) ..) fun _ => kept.bind (kept.expect (by decide) _) fun _ =>
      kept.node ..
  refine kept.bind (kept.keyword ..) fun first => ?_
  exact kept.take (c := fun t => t.isWord "public" || t.isWord "weak")
    (fun t h => by rintro eof; simp [Token.isWord, eof] at h) (fun _ _ => path first)
    fun _ => path first

theorem optionName : Q Node Grammar.optionName :=
  kept.take (c := (·.kind = .lparen)) (fun t h => by simp [h])
    (fun _ _ => kept.bind (kept.fullIdent _) fun _ => kept.bind (kept.expect (by decide) _) fun _ =>
      kept.bind (kept.dottedTail _) fun _ => kept.bind (kept.leaves ..) fun _ => kept.node ..)
    fun _ => kept.fullIdent _

theorem decimal : Q Token Grammar.decimal :=
  kept.bind (kept.expect (by decide) _) fun whole =>
    kept.take (c := (·.kind = .dot)) (fun t h => by simp [h])
      (fun _ _ => kept.expect (by decide) _) fun _ => kept.pure whole

theorem signedConstant : Q Token Grammar.signedConstant := by
  have last : Q Token
      (do if (← Parser.peek).kind = .ident then Parser.advance else Grammar.decimal) :=
    kept.takeOr (c := (·.kind = .ident)) (fun t h => by simp [h]) fun _ => kept.decimal
  exact kept.take (c := (·.kind = .minus)) (fun t h => by simp [h]) (fun _ _ => last) fun _ => last

theorem constant : Q Node Grammar.constant :=
  kept.take (c := (·.kind = .stringLit)) (fun t h => by simp [h]) (fun _ _ => kept.node ..) fun _ =>
    ite (kept.bind (kept.word _) fun _ => kept.bind (kept.dottedTail _) fun _ => kept.node ..)
      (kept.bind kept.signedConstant fun _ => kept.node ..)

theorem optionDecl : Q Node Grammar.optionDecl :=
  kept.bind (kept.keyword ..) fun _ => kept.bind kept.optionName fun _ =>
    kept.bind (kept.expect (by decide) _) fun _ => kept.bind kept.constant fun _ =>
      kept.bind (kept.expect (by decide) _) fun _ => kept.node ..

theorem typeName : Q Node Grammar.typeName :=
  kept.look (fun t ht u v => by simp [ht.kind]) fun t u =>
    ite (kept.bind (kept.leaf (by decide) ..) fun _ => kept.pure _)
      (kept.bind (kept.fullIdent _) fun _ => kept.pure _)

theorem fieldOptions : Q Node Grammar.fieldOptions :=
  kept.bind (kept.expect (by decide) _) fun _ => kept.bind (kept.closeBrackets 0) fun _ =>
    kept.node ..

theorem closeWithOptions (context : String) :
    Q (List Node × Token) (Grammar.closeWithOptions context) :=
  kept.peek fun _ => ite
    (kept.bind kept.fieldOptions fun _ => kept.bind (kept.expect (by decide) _) fun _ =>
      kept.pure _)
    (kept.bind (kept.expect (by decide) _) fun _ => kept.pure _)

theorem fieldRule : Q (List Node) Grammar.fieldRule := by
  refine kept.lookTwice (fun t ht u v u' v' => ?_) (fun t u hu v v' => ?_) fun t u v =>
    ite (kept.bind (kept.leaf (by decide) ..) fun _ => kept.pure _) (kept.pure _)
  · simp [ht.text, Grammar.fieldRules]
  · simp [hu.kind]

theorem field : Q Node Grammar.field :=
  kept.peek fun _ => kept.bind kept.fieldRule fun _ => kept.bind kept.typeName fun _ =>
    kept.bind (kept.ident _) fun _ => kept.bind (kept.expect (by decide) _) fun _ =>
      kept.bind (kept.leaf (by decide) ..) fun _ => kept.bind (kept.closeWithOptions _) fun _ =>
        kept.node ..

theorem block {element : Parser Node} (consumes : ∀ s, Consumes s element)
    (h : Q Node element) : Q (List Node × Token) (Grammar.block element) := by
  have item : Q (List Node) (Grammar.bodyItem element) :=
    kept.take (c := (·.kind = .semicolon)) (fun t h => by simp [h]) (fun _ _ => kept.pure _)
      fun _ => kept.bind h fun _ => kept.pure _
  exact kept.manyUntil (fun s => Predictive.bodyItem_consumes (consumes s))
    (fun t stop => by simp_all) item fun _ _ => kept.pure _

theorem definitionTail (r : Rule) (first : Token) {element : Parser Node}
    (consumes : ∀ s, Consumes s element) (h : Q Node element) : Q Node (do
      let name ← Grammar.ident r.name
      let _ ← Parser.expect .lbrace r.name
      let (elements, last) ← Grammar.block element
      Parser.node r first last (name :: elements)) :=
  kept.bind (kept.ident _) fun _ => kept.bind (kept.expect (by decide) _) fun _ =>
    kept.bind (kept.block consumes h) fun _ => kept.node ..

theorem definition (w : String) (r : Rule) {element : Parser Node}
    (consumes : ∀ s, Consumes s element) (h : Q Node element) :
    Q Node (Grammar.definition w r element) :=
  kept.bind (kept.keyword ..) fun first => kept.definitionTail r first consumes h

theorem enumValue : Q Node Grammar.enumValue :=
  kept.peek fun _ => kept.bind (kept.ident _) fun _ =>
    kept.bind (kept.expect (by decide) _) fun _ => kept.bind (kept.leaf (by decide) ..) fun _ =>
      kept.bind (kept.closeWithOptions _) fun _ => kept.node ..

theorem enumElement : Q Node Grammar.enumElement :=
  kept.look (fun t ht u v => by simp [ht.isWord]) fun _ _ =>
    ite kept.optionDecl (ite kept.enumValue (kept.mismatch ..))

theorem enumDef : Q Node Grammar.enumDef :=
  kept.definition _ _ (fun _ => Predictive.enumElement_consumes) kept.enumElement

theorem messageType : Q Node Grammar.messageType :=
  kept.look (fun t ht u v => by simp [ht.text]) fun _ _ => ite
    (kept.bind (kept.leaf (by decide) ..) fun _ => kept.bind (kept.word _) fun _ =>
      kept.bind (kept.dottedTail _) fun _ => kept.bind (kept.leaves ..) fun _ =>
        kept.bind (kept.node ..) fun _ => kept.node ..)
    (kept.bind (kept.fullIdent _) fun _ => kept.pure _)

theorem rpcElement : Q Node Grammar.rpcElement :=
  kept.peek fun _ => ite kept.optionDecl (kept.mismatch ..)

theorem rpcBody : Q (List Node × Token) Grammar.rpcBody :=
  kept.take (c := (·.kind = .lbrace)) (fun t h => by simp [h])
    (fun _ _ => kept.block (fun _ => Predictive.rpcElement_consumes) kept.rpcElement)
    fun _ => kept.bind (kept.expectAs (by decide) ..) fun _ => kept.pure _

theorem rpcDef : Q Node Grammar.rpcDef :=
  kept.bind (kept.keyword ..) fun _ => kept.bind (kept.ident _) fun _ =>
    kept.bind (kept.expect (by decide) _) fun _ => kept.bind kept.messageType fun _ =>
      kept.bind (kept.expect (by decide) _) fun _ => kept.bind (kept.keyword ..) fun _ =>
        kept.bind (kept.expect (by decide) _) fun _ => kept.bind kept.messageType fun _ =>
          kept.bind (kept.expect (by decide) _) fun _ => kept.bind kept.rpcBody fun _ =>
            kept.node ..

theorem serviceElement : Q Node Grammar.serviceElement :=
  kept.peek fun _ => ite kept.rpcDef (ite kept.optionDecl (kept.mismatch ..))

theorem serviceDef : Q Node Grammar.serviceDef :=
  kept.definition _ _ (fun _ => Predictive.serviceElement_consumes) kept.serviceElement

theorem atDefinition (w : String) : Q Bool (Grammar.atDefinition w) := by
  refine kept.lookTwice (fun t ht u v u' v' => by simp [ht.isWord]) (fun t u hu v v' => ?_)
    fun _ _ _ => kept.pure _
  have other : (u.kind == .ident) = false := by
    rw [hu.kind]
    rfl
  simp [other]

theorem messageElement {nested : Parser Node} (h : Q Node nested) :
    Q Node (Grammar.messageElement nested) :=
  kept.peek fun _ => kept.bind (kept.atDefinition _) fun _ => ite h
    (kept.bind (kept.atDefinition _) fun _ => ite kept.enumDef (ite kept.optionDecl
      (ite kept.field (kept.mismatch ..))))

theorem header : Q Node Grammar.header :=
  kept.peek fun _ => ite kept.importDecl kept.optionDecl

theorem optional (w : String) {statement : Parser Node} (h : Q Node statement) :
    Q (List Node) (Grammar.optional w statement) :=
  kept.peek fun _ => ite (kept.bind h fun _ => kept.pure _) (kept.pure _)

variable {limit : Nat} (message : Q Node (Grammar.messageDef limit))
include message

theorem topLevel : Q Node (Grammar.topLevel limit) :=
  kept.peek fun _ => ite message (ite kept.enumDef (ite kept.serviceDef
    (ite kept.optionDecl (kept.mismatch ..))))

/-- A property that is kept holds of the statements of a file if it holds of messages. -/
theorem statements : Q (List Node) (Grammar.statements limit) :=
  kept.bind (kept.optional "syntax" kept.syntaxDecl) fun _ =>
    kept.bind (kept.optional "package" kept.packageDecl) fun _ =>
      kept.bind (kept.many (fun _ => Predictive.header_consumes) kept.header) fun _ =>
        kept.bind (kept.many (fun _ => Predictive.topLevel_consumes limit) (kept.topLevel message))
          fun _ => kept.pure _

end Closed

end Parser

end ProtoSchema
