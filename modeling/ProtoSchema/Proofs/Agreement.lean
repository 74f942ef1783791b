import Mathlib.Data.List.Forall2
import ProtoSchema.Grammar

/-! # Parsers on related tokens

What a parser does depends on the kinds and texts of tokens and not on their places. On two lists
whose tokens are related one by one, where related tokens have the same kind and text, a parser
takes as many tokens from both, or fails on both with the same message at related tokens.
-/

namespace ProtoSchema

/-- Two tokens that differ at most in their places. -/
structure Token.Alike (t u : Token) : Prop where
  kind : t.kind = u.kind
  text : t.text = u.text

theorem Token.Alike.isWord {t u : Token} (h : t.Alike u) (w : String) :
    t.isWord w = u.isWord w := by
  simp only [Token.isWord, h.kind, h.text]

namespace Parser

/-- Two results of parsers on lists of tokens related by `Q`. -/
inductive Agree (Q : Token → Token → Prop) (V : α → β → Prop) :
    Except Failure (α × List Token) → Except Failure (β × List Token) → Prop where
  | ok {a : α} {b : β} {ts us : List Token} (value : V a b) (rest : List.Forall₂ Q ts us) :
      Agree Q V (.ok (a, ts)) (.ok (b, us))
  | mismatch {expected : List Expectation} {context : String} {t u : Token} (found : Q t u) :
      Agree Q V (.error (.mismatch ⟨expected, context, t⟩))
        (.error (.mismatch ⟨expected, context, u⟩))
  | outOfTokens : Agree Q V (.error .outOfTokens) (.error .outOfTokens)
  | tooDeep : Agree Q V (.error .tooDeep) (.error .tooDeep)

/-- Two parsers agree on all related lists. -/
structure Respects (Q : Token → Token → Prop) (V : α → β → Prop) (p : Parser α) (q : Parser β) :
    Prop where
  agree : ∀ s s' : Scope, Q s.last s'.last → ∀ ts us, List.Forall₂ Q ts us →
    Agree Q V (p s ts) (q s' us)

/-- Nothing is said about two values. -/
def Whatever (_ : α) (_ : β) : Prop := True

namespace Respects

variable {Q : Token → Token → Prop} {V : α → β → Prop} {W : γ → δ → Prop}
  {p p' : Parser α} {q q' : Parser β}

theorem pure {a : α} {b : β} (h : V a b) : Respects Q V (Pure.pure a) (Pure.pure b) where
  agree _ _ _ _ _ rel := .ok h rel

theorem bind {f : α → Parser γ} {g : β → Parser δ} (hp : Respects Q V p q)
    (hf : ∀ a b, V a b → Respects Q W (f a) (g b)) : Respects Q W (p >>= f) (q >>= g) where
  agree := by
    intro s s' last ts us rel
    have agree := hp.agree s s' last ts us rel
    generalize left : p s ts = x, right : q s' us = y at agree
    cases agree with
    | ok value rest =>
        rw [bind_ok left, bind_ok right]
        exact (hf _ _ value).agree s s' last _ _ rest
    | mismatch found =>
        rw [bind_error left, bind_error right]
        exact .mismatch found
    | outOfTokens =>
        rw [bind_error left, bind_error right]
        exact .outOfTokens
    | tooDeep =>
        rw [bind_error left, bind_error right]
        exact .tooDeep

theorem ite {c d : Prop} [Decidable c] [Decidable d] (same : c ↔ d) (hp : Respects Q V p q)
    (hp' : Respects Q V p' q') : Respects Q V (if c then p else p') (if d then q else q') := by
  by_cases h : c
  · rwa [if_pos h, if_pos (same.mp h)]
  · rwa [if_neg h, if_neg (mt same.mpr h)]

theorem peekAt (k : Nat) : Respects Q Q (peekAt k) (peekAt k) where
  agree := by
    intro s s' last ts us rel
    refine .ok ?_ rel
    induction rel generalizing k with
    | nil => simpa using last
    | cons head _ ih =>
        cases k with
        | zero => simpa using head
        | succ k => simpa using ih k

theorem peek : Respects Q Q peek peek :=
  peekAt 0

theorem advance : Respects Q Q advance advance where
  agree := by
    intro s s' last ts us rel
    cases rel with
    | nil => exact .outOfTokens
    | cons head tail => exact .ok head tail

theorem mismatch (expected : List Expectation) (context : String) :
    Respects Q V (mismatch expected context) (mismatch expected context) :=
  peek.bind fun _ _ found => ⟨fun _ _ _ _ _ _ => .mismatch found⟩

theorem tooDeep : Respects Q V tooDeep tooDeep where
  agree _ _ _ _ _ _ := .tooDeep

theorem node {r : Rule} {first last first' last' : Token} {ns ns' : List Node} :
    Respects Q Whatever (node r first last ns) (node r first' last' ns') where
  agree _ _ _ _ _ rel := .ok trivial rel

theorem leaves {r : Rule} {ts us : List Token} :
    Respects Q Whatever (leaves r ts) (leaves r us) where
  agree _ _ _ _ _ rel := .ok trivial rel

theorem manyUpTo {more : Token → Bool} (same : ∀ t u, Q t u → more t = more u)
    (item : Respects Q V p q) (bound : Nat) :
    Respects Q (List.Forall₂ V) (manyUpTo more p bound) (manyUpTo more q bound) := by
  induction bound with
  | zero => exact ⟨fun _ _ _ _ _ _ => .outOfTokens⟩
  | succ bound ih =>
      refine peek.bind fun t u found => ite (by rw [same t u found]) ?_ (pure .nil)
      exact item.bind fun a b head => ih.bind fun as bs tail => pure (.cons head tail)

theorem many {more : Token → Bool} (same : ∀ t u, Q t u → more t = more u)
    (item : Respects Q V p q) : Respects Q (List.Forall₂ V) (many more p) (many more q) where
  agree := by
    intro s s' last ts us rel
    have := (manyUpTo same item (ts.length + 1)).agree s s' last ts us rel
    rw [Parser.many, Parser.many, ← rel.length_eq]
    exact this

variable (alike : ∀ t u, Q t u → t.Alike u)
include alike

theorem takeIf {c : Token → Prop} [DecidablePred c] (same : ∀ t u, t.Alike u → (c t ↔ c u))
    (expected : List Expectation) (context : String) :
    Respects Q Q (do if c (← Parser.peek) then Parser.advance else Parser.mismatch expected context)
      (do if c (← Parser.peek) then Parser.advance else Parser.mismatch expected context) :=
  peek.bind fun t u found => ite (same t u (alike t u found)) advance (mismatch expected context)

theorem expectAs (k : Token.Kind) (names : List Expectation) (context : String) :
    Respects Q Q (expectAs k names context) (expectAs k names context) :=
  takeIf alike (fun t u h => by rw [h.kind]) names context

theorem expect (k : Token.Kind) (context : String) :
    Respects Q Q (expect k context) (expect k context) :=
  expectAs alike k _ context

theorem keyword (w context : String) : Respects Q Q (keyword w context) (keyword w context) :=
  takeIf alike (fun t u h => by rw [h.isWord w]) _ context

theorem leaf (k : Token.Kind) (r : Rule) (context : String) :
    Respects Q Whatever (leaf k r context) (leaf k r context) :=
  (expectAs alike k _ context).bind fun _ _ _ => node

/-! ## The grammar -/

theorem word (context : String) : Respects Q Q (Grammar.word context) (Grammar.word context) :=
  expectAs alike ..

theorem ident (context : String) :
    Respects Q Whatever (Grammar.ident context) (Grammar.ident context) :=
  leaf alike ..

theorem dottedTail (context : String) :
    Respects Q (List.Forall₂ Q) (Grammar.dottedTail context) (Grammar.dottedTail context) :=
  many (fun t u h => by rw [(alike t u h).kind]) (advance.bind fun _ _ _ => word alike context)

theorem fullIdent (context : String) :
    Respects Q Whatever (Grammar.fullIdent context) (Grammar.fullIdent context) :=
  (word alike context).bind fun _ _ _ => (dottedTail alike context).bind fun _ _ _ =>
    leaves.bind fun _ _ _ => node

theorem syntaxDecl : Respects Q Whatever Grammar.syntaxDecl Grammar.syntaxDecl :=
  (keyword alike ..).bind fun _ _ _ => (expect alike ..).bind fun _ _ _ =>
    (leaf alike ..).bind fun _ _ _ => (expect alike ..).bind fun _ _ _ => node

theorem packageDecl : Respects Q Whatever Grammar.packageDecl Grammar.packageDecl :=
  (keyword alike ..).bind fun _ _ _ => (fullIdent alike _).bind fun _ _ _ =>
    (expect alike ..).bind fun _ _ _ => node

theorem importDecl : Respects Q Whatever Grammar.importDecl Grammar.importDecl := by
  refine (keyword alike ..).bind fun _ _ _ => peek.bind fun t u found => ?_
  refine ite (by simp only [(alike t u found).isWord]) (advance.bind fun _ _ _ => ?_) ?_
  · exact (leaf alike ..).bind fun _ _ _ => (expect alike ..).bind fun _ _ _ => node
  · exact (leaf alike ..).bind fun _ _ _ => (expect alike ..).bind fun _ _ _ => node

theorem optionName : Respects Q Whatever Grammar.optionName Grammar.optionName := by
  refine peek.bind fun t u found => ite (by rw [(alike t u found).kind]) ?_ (fullIdent alike _)
  exact advance.bind fun _ _ _ => (fullIdent alike _).bind fun _ _ _ =>
    (expect alike ..).bind fun _ _ _ => (dottedTail alike _).bind fun _ _ _ =>
      leaves.bind fun _ _ _ => node

theorem decimal : Respects Q Q Grammar.decimal Grammar.decimal :=
  (expect alike ..).bind fun _ _ whole => peek.bind fun t u found =>
    ite (by rw [(alike t u found).kind]) (advance.bind fun _ _ _ => expect alike ..) (pure whole)

theorem signedConstant : Respects Q Q Grammar.signedConstant Grammar.signedConstant := by
  have last : Respects Q Q
      (do if (← Parser.peek).kind = .ident then Parser.advance else Grammar.decimal)
      (do if (← Parser.peek).kind = .ident then Parser.advance else Grammar.decimal) :=
    peek.bind fun t u found => ite (by rw [(alike t u found).kind]) advance (decimal alike)
  exact peek.bind fun t u found => ite (by rw [(alike t u found).kind])
    (advance.bind fun _ _ _ => last) last

theorem constant : Respects Q Whatever Grammar.constant Grammar.constant := by
  refine peek.bind fun t u found => ite (by rw [(alike t u found).kind]) ?_ (ite ?_ ?_ ?_)
  · exact advance.bind fun _ _ _ => node
  · rw [(alike t u found).kind]
  · exact (word alike _).bind fun _ _ _ => (dottedTail alike _).bind fun _ _ _ => node
  · exact (signedConstant alike).bind fun _ _ _ => node

theorem optionDecl : Respects Q Whatever Grammar.optionDecl Grammar.optionDecl :=
  (keyword alike ..).bind fun _ _ _ => (optionName alike).bind fun _ _ _ =>
    (expect alike ..).bind fun _ _ _ => (constant alike).bind fun _ _ _ =>
      (expect alike ..).bind fun _ _ _ => node

theorem typeName : Respects Q Whatever Grammar.typeName Grammar.typeName := by
  refine peek.bind fun t u found => (peekAt 1).bind fun t' u' found' => ite ?_ ?_ ?_
  · simp only [(alike t u found).kind, (alike t u found).text, (alike t' u' found').kind]
  · exact (leaf alike ..).bind fun _ _ _ => pure trivial
  · exact (fullIdent alike _).bind fun _ _ _ => pure trivial

theorem closeBrackets (depth : Nat) :
    Respects Q Q (Grammar.closeBrackets depth) (Grammar.closeBrackets depth) where
  agree := by
    intro s s' last ts us rel
    induction rel generalizing depth with
    | nil =>
        rw [Grammar.closeBrackets, Grammar.closeBrackets, (alike _ _ last).kind]
        split
        · exact .mismatch last
        · exact .outOfTokens
    | @cons t u ts us head tail ih =>
        have kind := (alike t u head).kind
        cases hu : u.kind
        case eof => simpa [Grammar.closeBrackets, kind, hu] using .mismatch head
        case lbracket => simpa [Grammar.closeBrackets, kind, hu] using ih (depth + 1)
        case rbracket =>
          cases depth with
          | zero => simpa [Grammar.closeBrackets, kind, hu] using .ok head tail
          | succ depth => simpa [Grammar.closeBrackets, kind, hu] using ih depth
        all_goals simpa [Grammar.closeBrackets, kind, hu] using ih depth

theorem fieldOptions : Respects Q Whatever Grammar.fieldOptions Grammar.fieldOptions :=
  (expect alike ..).bind fun _ _ _ => (closeBrackets alike 0).bind fun _ _ _ => node

theorem closeWithOptions (context : String) : Respects Q (fun x y => Q x.2 y.2)
    (Grammar.closeWithOptions context) (Grammar.closeWithOptions context) := by
  refine peek.bind fun t u found => ite (by rw [(alike t u found).kind]) ?_ ?_
  · exact (fieldOptions alike).bind fun _ _ _ => (expect alike ..).bind fun _ _ last => pure last
  · exact (expect alike ..).bind fun _ _ last => pure last

theorem fieldRule : Respects Q Whatever Grammar.fieldRule Grammar.fieldRule := by
  refine peek.bind fun t u found => (peekAt 1).bind fun t' u' found' =>
    (peekAt 2).bind fun t'' u'' found'' => ite ?_ ?_ (pure trivial)
  · simp only [(alike t u found).text, (alike t' u' found').kind, (alike t'' u'' found'').kind]
  · exact (leaf alike ..).bind fun _ _ _ => pure trivial

theorem field : Respects Q Whatever Grammar.field Grammar.field :=
  peek.bind fun _ _ _ => (fieldRule alike).bind fun _ _ _ => (typeName alike).bind fun _ _ _ =>
    (ident alike _).bind fun _ _ _ => (expect alike ..).bind fun _ _ _ =>
      (leaf alike ..).bind fun _ _ _ => (closeWithOptions alike _).bind fun _ _ _ => node

theorem block {p q : Parser Node} (hp : Respects Q Whatever p q) :
    Respects Q (fun x y => Q x.2 y.2) (Grammar.block p) (Grammar.block q) := by
  have element : Respects Q (Whatever (α := List Node) (β := List Node))
      (do
        if (← Parser.peek).kind = .semicolon then
          let _ ← Parser.advance
          return []
        else
          return [← p])
      (do
        if (← Parser.peek).kind = .semicolon then
          let _ ← Parser.advance
          return []
        else
          return [← q]) :=
    peek.bind fun t u found => ite (by rw [(alike t u found).kind])
      (advance.bind fun _ _ _ => pure trivial) (hp.bind fun _ _ _ => pure trivial)
  exact (many (fun t u found => by rw [(alike t u found).kind]) element).bind fun _ _ _ =>
    advance.bind fun _ _ last => pure last

theorem definition (w : String) (r : Rule) {p q : Parser Node} (hp : Respects Q Whatever p q) :
    Respects Q Whatever (Grammar.definition w r p) (Grammar.definition w r q) :=
  (keyword alike ..).bind fun _ _ _ => (ident alike _).bind fun _ _ _ =>
    (expect alike ..).bind fun _ _ _ => (block alike hp).bind fun _ _ _ => node

theorem enumValue : Respects Q Whatever Grammar.enumValue Grammar.enumValue :=
  peek.bind fun _ _ _ => (ident alike _).bind fun _ _ _ => (expect alike ..).bind fun _ _ _ =>
    (leaf alike ..).bind fun _ _ _ => (closeWithOptions alike _).bind fun _ _ _ => node

theorem enumElement : Respects Q Whatever Grammar.enumElement Grammar.enumElement := by
  refine peek.bind fun t u found => (peekAt 1).bind fun t' u' found' =>
    ite ?_ (optionDecl alike) (ite ?_ (enumValue alike) (mismatch ..))
  · simp only [(alike t u found).isWord, (alike t' u' found').kind]
  · rw [(alike t u found).kind]

theorem enumDef : Respects Q Whatever Grammar.enumDef Grammar.enumDef :=
  definition alike _ _ (enumElement alike)

theorem messageType : Respects Q Whatever Grammar.messageType Grammar.messageType := by
  refine peek.bind fun t u found => (peekAt 1).bind fun t' u' found' => ite ?_ ?_ ?_
  · simp only [(alike t u found).text, (alike t' u' found').kind]
  · exact (leaf alike ..).bind fun _ _ _ => (word alike _).bind fun _ _ _ =>
      (dottedTail alike _).bind fun _ _ _ => leaves.bind fun _ _ _ => node.bind fun _ _ _ => node
  · exact (fullIdent alike _).bind fun _ _ _ => pure trivial

theorem rpcElement : Respects Q Whatever Grammar.rpcElement Grammar.rpcElement :=
  peek.bind fun t u found => ite (by rw [(alike t u found).isWord]) (optionDecl alike)
    (mismatch ..)

theorem rpcBody : Respects Q (fun x y => Q x.2 y.2) Grammar.rpcBody Grammar.rpcBody :=
  peek.bind fun t u found => ite (by rw [(alike t u found).kind])
    (advance.bind fun _ _ _ => block alike (rpcElement alike))
    ((expectAs alike ..).bind fun _ _ last => pure last)

theorem rpcDef : Respects Q Whatever Grammar.rpcDef Grammar.rpcDef :=
  (keyword alike ..).bind fun _ _ _ => (ident alike _).bind fun _ _ _ =>
    (expect alike ..).bind fun _ _ _ => (messageType alike).bind fun _ _ _ =>
      (expect alike ..).bind fun _ _ _ => (keyword alike ..).bind fun _ _ _ =>
        (expect alike ..).bind fun _ _ _ => (messageType alike).bind fun _ _ _ =>
          (expect alike ..).bind fun _ _ _ => (rpcBody alike).bind fun _ _ _ => node

theorem serviceElement : Respects Q Whatever Grammar.serviceElement Grammar.serviceElement := by
  refine peek.bind fun t u found =>
    ite ?_ (rpcDef alike) (ite ?_ (optionDecl alike) (mismatch ..))
  · rw [(alike t u found).isWord]
  · rw [(alike t u found).isWord]

theorem serviceDef : Respects Q Whatever Grammar.serviceDef Grammar.serviceDef :=
  definition alike _ _ (serviceElement alike)

theorem atDefinition (w : String) :
    Respects Q Eq (Grammar.atDefinition w) (Grammar.atDefinition w) := by
  refine peek.bind fun t u found => (peekAt 1).bind fun t' u' found' =>
    (peekAt 2).bind fun t'' u'' found'' => pure ?_
  rw [(alike t u found).isWord, (alike t' u' found').kind, (alike t'' u'' found'').kind]

theorem messageElement {p q : Parser Node} (hp : Respects Q Whatever p q) :
    Respects Q Whatever (Grammar.messageElement p) (Grammar.messageElement q) := by
  refine peek.bind fun t u found => (atDefinition alike "message").bind fun b c nested => ?_
  refine ite (by rw [nested]) hp ?_
  refine (atDefinition alike "enum").bind fun b c enum => ?_
  refine ite (by rw [enum]) (enumDef alike) (ite ?_ (optionDecl alike) (ite ?_ (field alike) ?_))
  · rw [(alike t u found).isWord]
  · rw [(alike t u found).kind]
  · exact mismatch ..

theorem messageDef (limit : Nat) :
    Respects Q Whatever (Grammar.messageDef limit) (Grammar.messageDef limit) := by
  induction limit with
  | zero => exact tooDeep
  | succ limit ih => exact definition alike _ _ (messageElement alike ih)

theorem header : Respects Q Whatever Grammar.header Grammar.header :=
  peek.bind fun t u found => ite (by rw [(alike t u found).isWord]) (importDecl alike)
    (optionDecl alike)

theorem topLevel (limit : Nat) :
    Respects Q Whatever (Grammar.topLevel limit) (Grammar.topLevel limit) := by
  refine peek.bind fun t u found => ite ?_ (messageDef alike limit) (ite ?_ (enumDef alike)
    (ite ?_ (serviceDef alike) (ite ?_ (optionDecl alike) (mismatch ..))))
  all_goals rw [(alike t u found).isWord]

theorem optional (w : String) {p q : Parser Node} (hp : Respects Q Whatever p q) :
    Respects Q Whatever (Grammar.optional w p) (Grammar.optional w q) :=
  peek.bind fun t u found => ite (by rw [(alike t u found).isWord])
    (hp.bind fun _ _ _ => pure trivial) (pure trivial)

theorem statements (limit : Nat) :
    Respects Q Whatever (Grammar.statements limit) (Grammar.statements limit) := by
  refine (optional alike _ (syntaxDecl alike)).bind fun _ _ _ =>
    (optional alike _ (packageDecl alike)).bind fun _ _ _ => ?_
  refine (many ?_ (header alike)).bind fun _ _ _ =>
    (many ?_ (topLevel alike limit)).bind fun _ _ _ => pure trivial
  · intro t u found
    simp only [(alike t u found).isWord]
  · intro t u found
    rw [(alike t u found).kind]

end Respects

end Parser

end ProtoSchema
