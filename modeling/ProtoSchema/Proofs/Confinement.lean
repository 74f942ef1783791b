import ProtoSchema.Proofs.Closure

/-! # Nothing counts after the end of the text

No parser takes the token that ends the text, and none looks beyond it unless the tokens up to it
could go on there. So what a list holds after its first such token has no effect, nor has its last
token.
-/

namespace ProtoSchema

namespace Parser

/-- Two results that differ at most in what is left after the token `e`. -/
inductive SameUpTo (e : Token) : Except Failure (α × List Token) →
    Except Failure (α × List Token) → Prop where
  | ok {a : α} {front post post' : List Token} (inner : Inner front) :
      SameUpTo e (.ok (a, front ++ e :: post)) (.ok (a, front ++ e :: post'))
  | error {failure : Failure} : SameUpTo e (.error failure) (.error failure)

/-- After these tokens and `e` nothing has an effect on the parser. -/
structure ConfinedAt (e : Token) (front : List Token) (p : Parser α) : Prop where
  same : ∀ s s' : Scope, s.source = s'.source → ∀ post post',
    SameUpTo e (p s (front ++ e :: post)) (p s' (front ++ e :: post'))

/-- After the end of the text, which is `e`, nothing has an effect on the parser. -/
structure Confined (e : Token) (p : Parser α) : Prop where
  run : ∀ front, Inner front → ConfinedAt e front p

variable {e : Token} {front : List Token} {p q : Parser α}

theorem getElem?_front {n : Nat} (near : n ≤ front.length) (e t : Token) (post : List Token) :
    (front ++ e :: post)[n]?.getD t = front[n]?.getD e := by
  obtain less | rfl := Nat.lt_or_eq_of_le near
  · rw [List.getElem?_append_left less, List.getElem?_eq_getElem less]
    rfl
  · simp

namespace ConfinedAt

theorem bind {f : α → Parser β} (hp : ConfinedAt e front p) (hf : ∀ a, Confined e (f a)) :
    ConfinedAt e front (p >>= f) where
  same := by
    intro s s' source post post'
    have same := hp.same s s' source post post'
    generalize left : p s (front ++ e :: post) = x, right : p s' (front ++ e :: post') = y at same
    cases same with
    | ok inner =>
        rw [bind_ok left, bind_ok right]
        exact ((hf _).run _ inner).same s s' source _ _
    | error =>
        rw [bind_error left, bind_error right]
        exact .error

theorem ite {c : Prop} [Decidable c] (hp : c → ConfinedAt e front p)
    (hq : ¬c → ConfinedAt e front q) : ConfinedAt e front (if c then p else q) := by
  by_cases h : c
  · rw [if_pos h]
    exact hp h
  · rw [if_neg h]
    exact hq h

theorem peekAt {n : Nat} {k : Token → Parser α} (near : n ≤ front.length)
    (h : ConfinedAt e front (k (front[n]?.getD e))) :
    ConfinedAt e front (Parser.peekAt n >>= k) := by
  have look (s : Scope) (post : List Token) : (Parser.peekAt n >>= k) s (front ++ e :: post) =
      k (front[n]?.getD e) s (front ++ e :: post) := by
    rw [← getElem?_front near e s.last post]
    rfl
  refine ⟨fun s s' source post post' => ?_⟩
  rw [look, look]
  exact h.same s s' source post post'

theorem peek {k : Token → Parser α} (h : ConfinedAt e front (k (front[0]?.getD e))) :
    ConfinedAt e front (Parser.peek >>= k) :=
  peekAt (Nat.zero_le _) h

theorem unseen {n : Nat} {k : Token → Parser α} (blind : ∀ t, k t = k e)
    (h : ConfinedAt e front (k e)) : ConfinedAt e front (Parser.peekAt n >>= k) := by
  have look (s : Scope) (ts : List Token) : (Parser.peekAt n >>= k) s ts = k e s ts := by
    rw [← blind (ts[n]?.getD s.last)]
    rfl
  refine ⟨fun s s' source post post' => ?_⟩
  rw [look, look]
  exact h.same s s' source post post'

theorem advance (he : e.IsEnd) (inner : Inner front) (next : (front[0]?.getD e).kind ≠ .eof) :
    ConfinedAt e front Parser.advance := by
  cases front with
  | nil => exact absurd he.kind next
  | cons t front => exact ⟨fun _ _ _ _ _ => .ok fun u hu => inner u (List.mem_cons_of_mem t hu)⟩

end ConfinedAt

namespace Confined

theorem bind {f : α → Parser β} (hp : Confined e p) (hf : ∀ a, Confined e (f a)) :
    Confined e (p >>= f) :=
  ⟨fun front inner => (hp.run front inner).bind hf⟩

theorem pure (a : α) : Confined e (Pure.pure a : Parser α) :=
  ⟨fun _ inner => ⟨fun _ _ _ _ _ => .ok inner⟩⟩

theorem node (r : Rule) (first last : Token) (ns : List Node) :
    Confined e (Parser.node r first last ns) := by
  refine ⟨fun front inner => ⟨?_⟩⟩
  rintro ⟨source, last⟩ ⟨_, last'⟩ rfl post post'
  exact .ok inner

theorem leaves (r : Rule) (ts : List Token) : Confined e (Parser.leaves r ts) := by
  refine ⟨fun front inner => ⟨?_⟩⟩
  rintro ⟨source, last⟩ ⟨_, last'⟩ rfl post post'
  exact .ok inner

theorem fail (failure : Failure) : Confined e (fun _ _ => .error failure : Parser α) :=
  ⟨fun _ _ => ⟨fun _ _ _ _ _ => .error⟩⟩

theorem peek {k : Token → Parser α} (h : ∀ t, Confined e (k t)) :
    Confined e (Parser.peek >>= k) :=
  ⟨fun front inner => .peek ((h _).run front inner)⟩

/-- A look at the token after the next one, which does not matter at the end of the text. -/
theorem look {k : Token → Token → Parser α} (blind : ∀ u, k e u = k e e)
    (h : ∀ t u, Confined e (k t u)) :
    Confined e (Parser.peek >>= fun t => Parser.peekAt 1 >>= fun u => k t u) := by
  refine ⟨fun front inner => .peek ?_⟩
  cases front with
  | nil => exact .unseen blind ((h e e).run [] inner)
  | cons t front => exact .peekAt (Nat.le_add_left ..) ((h t _).run (t :: front) inner)

theorem lookTwice {k : Token → Token → Token → Parser α} (blind : ∀ u v, k e u v = k e e e)
    (blind' : ∀ t v, k t e v = k t e e) (h : ∀ t u v, Confined e (k t u v)) :
    Confined e (Parser.peek >>= fun t => Parser.peekAt 1 >>= fun u => Parser.peekAt 2 >>= fun v =>
      k t u v) := by
  refine ⟨fun front inner => .peek ?_⟩
  match front with
  | [] =>
    have same (u : Token) : k e u = k e e := funext fun v => (blind u v).trans (blind e v).symm
    exact .unseen (fun u => congrArg (Parser.peekAt 2 >>= ·) (same u))
      (.unseen (blind e) ((h e e e).run [] inner))
  | [t] => exact .peekAt (Nat.le_refl _) (.unseen (blind' t) ((h t e e).run [t] inner))
  | t :: u :: front =>
    exact .peekAt (Nat.le_add_left ..) (.peekAt (Nat.le_add_left ..) ((h t u _).run _ inner))

/-! ## Loops -/

theorem manyUpTo {more : Token → Bool} (item : ∀ front, Inner front → more (front[0]?.getD e) →
    ConfinedAt e front p) (bound : Nat) : Confined e (Parser.manyUpTo more p bound) := by
  induction bound with
  | zero => exact fail .outOfTokens
  | succ bound ih =>
      exact ⟨fun front inner => .peek (.ite (fun go => (item front inner go).bind fun x =>
        ih.bind fun xs => pure (x :: xs)) fun _ => (pure []).run front inner)⟩

/-- The bound of a loop depends on all tokens, but it has no effect. -/
theorem many {more : Token → Bool} (consumes : ∀ s, Consumes s p)
    (item : ∀ front, Inner front → more (front[0]?.getD e) → ConfinedAt e front p) :
    Confined e (Parser.many more p) := by
  refine ⟨fun front inner => ⟨fun s s' source post post' => ?_⟩⟩
  let bound := (front ++ e :: post).length + (front ++ e :: post').length + 1
  have left := manyUpTo_eq more (consumes s) (Nat.lt_succ_self (front ++ e :: post).length)
    (show _ < bound by omega)
  have right := manyUpTo_eq more (consumes s') (Nat.lt_succ_self (front ++ e :: post').length)
    (show _ < bound by omega)
  rw [Parser.many, Parser.many, left, right]
  exact ((manyUpTo item bound).run front inner).same s s' source post post'

/-- After a loop the next token is one that ends the loop. -/
theorem manyBind {more : Token → Bool} {f : List α → Parser β} (h : Confined e (Parser.many more p))
    (hf : ∀ xs front, Inner front → more (front[0]?.getD e) = false → ConfinedAt e front (f xs)) :
    Confined e (Parser.many more p >>= f) := by
  refine ⟨fun front inner => ⟨fun s s' source post post' => ?_⟩⟩
  have same := (h.run front inner).same s s' source post post'
  generalize left : Parser.many more p s (front ++ e :: post) = x,
    right : Parser.many more p s' (front ++ e :: post') = y at same
  cases same with
  | @ok xs rest _ _ inner' =>
      have stop := manyUpTo_stop left
      rw [Scope.next, getElem?_front (Nat.zero_le _)] at stop
      rw [bind_ok left, bind_ok right]
      exact (hf xs rest inner' stop).same s s' source _ _
  | error =>
      rw [bind_error left, bind_error right]
      exact .error

theorem closeBrackets (he : e.IsEnd) (depth : Nat) : Confined e (Grammar.closeBrackets depth) := by
  refine ⟨fun front inner => ⟨fun s s' source post post' => ?_⟩⟩
  induction front generalizing depth with
  | nil => simpa [Grammar.closeBrackets, he.kind] using .error
  | cons t front ih =>
      obtain ⟨ht, inner⟩ := List.forall_mem_cons.mp inner
      cases kind : t.kind
      case eof => exact absurd kind ht
      case lbracket => simpa [Grammar.closeBrackets, kind] using ih (depth + 1) inner
      case rbracket =>
        cases depth with
        | zero => simpa [Grammar.closeBrackets, kind] using .ok inner
        | succ depth => simpa [Grammar.closeBrackets, kind] using ih depth inner
      all_goals simpa [Grammar.closeBrackets, kind] using ih depth inner

theorem closed (he : e.IsEnd) : Closed fun _ => Confined e where
  pure := pure
  node := node
  leaves := leaves
  bind := bind
  mismatch expected context := peek fun t => fail (.mismatch ⟨expected, context, t⟩)
  peek := peek
  look blind := look fun u => blind e he u e
  lookTwice blind blind' := lookTwice (fun u v => blind e he u v e e) fun t v => blind' t e he v e
  take next _ _ htaken hother := ⟨fun front inner => .peek (.ite
    (fun h => (ConfinedAt.advance he inner (next _ h)).bind (htaken _))
    fun _ => (hother _).run front inner)⟩
  many consumes h := many consumes fun front inner _ => h.run front inner
  manyTaking consumes next h := many consumes fun _ inner go =>
    (ConfinedAt.advance he inner (next _ go)).bind h
  manyUntil consumes next hitem hf :=
    manyBind (many consumes fun front inner _ => hitem.run front inner)
      fun xs _ inner stop => (ConfinedAt.advance he inner (next _ stop)).bind (hf xs)
  closeBrackets := closeBrackets he

theorem messageDef (he : e.IsEnd) (limit : Nat) : Confined e (Grammar.messageDef limit) := by
  induction limit with
  | zero => exact fail .tooDeep
  | succ limit ih =>
      exact (closed he).definition _ _ (fun _ => Predictive.messageElement_consumes limit)
        ((closed he).messageElement ih)

/-- What stands after the end of the text has no effect on the statements of a file. -/
theorem statements (he : e.IsEnd) (limit : Nat) : Confined e (Grammar.statements limit) :=
  (closed he).statements (messageDef he limit)

end Confined

end Parser

end ProtoSchema
