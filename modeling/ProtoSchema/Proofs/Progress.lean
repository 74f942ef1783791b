import ProtoSchema.Proofs.Closure

/-! # Every list of tokens is dealt with

The parser has bounds of two kinds: one on the rounds of each loop and one on nested messages. Here
neither is what ends it. A round takes a token, so a loop without a bound ends as well, with what
the bounded loop gives; and a message takes a token before its body, so on a list that has fewer
tokens than there may be nested messages the limit on nesting is never reached. The search for a
closing bracket goes down the list and has no bound.
-/

namespace ProtoSchema

namespace Parser

/-! ## Loops without a bound -/

/-- What a loop gives that goes on as long as the next token passes `more`. -/
inductive Rounds (s : Scope) (more : Token → Bool) (item : Parser α) :
    List Token → Except Failure (List α × List Token) → Prop where
  | stop {ts : List Token} (halt : more (s.next ts) = false) :
      Rounds s more item ts (.ok ([], ts))
  | failed {ts : List Token} {failure : Failure} (go : more (s.next ts) = true)
      (round : item s ts = .error failure) : Rounds s more item ts (.error failure)
  | next {ts mid : List Token} {a : α} {result : Except Failure (List α × List Token)}
      (go : more (s.next ts) = true) (round : item s ts = .ok (a, mid))
      (rounds : Rounds s more item mid result) :
      Rounds s more item ts (result.map fun r => (a :: r.1, r.2))

section

variable {s : Scope} {more : Token → Bool} {item : Parser α}

/-- A loop whose rounds take tokens ends, and so it does without a bound. -/
theorem many_rounds (consumes : Consumes s item) (ts : List Token) :
    Rounds s more item ts (many more item s ts) := by
  -- a round leaves fewer tokens to the rounds after it
  induction hn : ts.length using Nat.strong_induction_on generalizing ts with
  | _ n ih =>
      rw [many_eq consumes]
      cases go : more (s.next ts) with
      | false => exact .stop go
      | true =>
          rw [if_pos rfl]
          cases round : item s ts with
          | error failure =>
              rw [bind_error round]
              exact .failed go round
          | ok r =>
              obtain ⟨a, mid⟩ := r
              have rounds := ih mid.length (hn ▸ consumes ts a mid round) mid rfl
              rw [bind_ok round]
              cases rest : many more item s mid with
              | error failure =>
                  rw [bind_error rest]
                  exact .next go round (rest ▸ rounds)
              | ok r =>
                  obtain ⟨as, left⟩ := r
                  rw [bind_ok rest]
                  exact .next go round (rest ▸ rounds)

theorem Rounds.many {ts : List Token} {result : Except Failure (List α × List Token)}
    (consumes : Consumes s item) (h : Rounds s more item ts result) :
    Parser.many more item s ts = result := by
  induction h with
  | stop halt => rw [many_eq consumes, if_neg (by simp [halt])]
  | failed go round => rw [many_eq consumes, if_pos go, bind_error round]
  | @next ts mid a result go round rounds ih =>
      rw [many_eq consumes, if_pos go, bind_ok round]
      cases result with
      | error failure => rw [bind_error ih]; rfl
      | ok r => rw [bind_ok ih]; rfl

end

/-- The loop `many more item` ends on every list, and its bound has no effect. -/
def LoopEnds (s : Scope) (more : Token → Bool) (item : Parser α) : Prop :=
  ∀ ts result, many more item s ts = result ↔ Rounds s more item ts result

theorem loopEnds {s : Scope} {more : Token → Bool} {item : Parser α} (consumes : Consumes s item) :
    LoopEnds s more item := by
  intro ts result
  constructor
  · rintro rfl
    exact many_rounds consumes ts
  · exact Rounds.many consumes

/-- All loops of the grammar end without their bounds. -/
structure LoopsEnd (s : Scope) : Prop where
  dottedTail (context : String) : LoopEnds s (·.kind == .dot) (do
    let _ ← advance
    Grammar.word context)
  enumBody : LoopEnds s (·.kind != .rbrace) (Grammar.bodyItem Grammar.enumElement)
  rpcBody : LoopEnds s (·.kind != .rbrace) (Grammar.bodyItem Grammar.rpcElement)
  serviceBody : LoopEnds s (·.kind != .rbrace) (Grammar.bodyItem Grammar.serviceElement)
  messageBody (limit : Nat) : LoopEnds s (·.kind != .rbrace)
    (Grammar.bodyItem (Grammar.messageElement (Grammar.messageDef limit)))
  headers : LoopEnds s (fun t => t.isWord "import" || t.isWord "option") Grammar.header
  definitions (limit : Nat) : LoopEnds s (·.kind != .eof) (Grammar.topLevel limit)

theorem loopsEnd (s : Scope) : LoopsEnd s where
  dottedTail context := loopEnds (Predictive.dottedItem_consumes context)
  enumBody := loopEnds (Predictive.bodyItem_consumes Predictive.enumElement_consumes)
  rpcBody := loopEnds (Predictive.bodyItem_consumes Predictive.rpcElement_consumes)
  serviceBody := loopEnds (Predictive.bodyItem_consumes Predictive.serviceElement_consumes)
  messageBody limit :=
    loopEnds (Predictive.bodyItem_consumes (Predictive.messageElement_consumes limit))
  headers := loopEnds Predictive.header_consumes
  definitions limit := loopEnds (Predictive.topLevel_consumes limit)

/-! ## Nesting -/

/-- On fewer than `n` tokens the limit on nesting does not stop the parser. -/
structure Shallow (n : Nat) (p : Parser α) : Prop where
  reaches : ∀ s ts, ts.length < n → p s ts ≠ .error .tooDeep
  shrinks : ∀ s ts a rest, p s ts = .ok (a, rest) → rest.length ≤ ts.length

namespace Shallow

variable {n : Nat} {p q : Parser α}

theorem bindTaking {m : Nat} {f : α → Parser β} (hp : Shallow (n + m) p)
    (takes : ∀ s ts a rest, p s ts = .ok (a, rest) → rest.length + m ≤ ts.length)
    (hf : ∀ a, Shallow n (f a)) : Shallow (n + m) (p >>= f) where
  reaches s ts less := by
    cases first : p s ts with
    | error failure =>
        rw [bind_error first]
        rintro ⟨⟩
        exact hp.reaches s ts less first
    | ok r =>
        obtain ⟨a, mid⟩ := r
        have taken := takes s ts a mid first
        rw [bind_ok first]
        exact (hf a).reaches s mid (by omega)
  shrinks s ts b rest ok := by
    obtain ⟨a, mid, first, second⟩ := bind_eq_ok.mp ok
    exact ((hf a).shrinks s mid b rest second).trans (hp.shrinks s ts a mid first)

theorem bind {f : α → Parser β} (hp : Shallow n p) (hf : ∀ a, Shallow n (f a)) :
    Shallow n (p >>= f) :=
  bindTaking (m := 0) hp hp.shrinks hf

theorem still (look : Scope → List Token → α) :
    Shallow n (fun s ts => .ok (look s ts, ts)) where
  reaches _ _ _ := nofun
  shrinks := by
    rintro s ts _ _ ⟨⟩
    exact Nat.le_refl _

theorem pure (a : α) : Shallow n (Pure.pure a : Parser α) :=
  still fun _ _ => a

theorem peekAt (k : Nat) : Shallow n (Parser.peekAt k) :=
  still fun s ts => ts[k]?.getD s.last

theorem advance : Shallow n Parser.advance where
  reaches := by rintro s (_ | ⟨t, ts⟩) - <;> exact nofun
  shrinks := by
    rintro s (_ | ⟨t, ts⟩) _ _ ⟨⟩
    exact Nat.le_succ _

theorem ite {c : Prop} [Decidable c] (hp : Shallow n p) (hq : Shallow n q) :
    Shallow n (if c then p else q) :=
  Closed.ite (Q := fun _ => Shallow n) hp hq

theorem fail {failure : Failure} (other : failure ≠ .tooDeep) :
    Shallow n (fun _ _ => .error failure : Parser α) :=
  ⟨fun _ _ _ same => other (Except.error.inj same), nofun⟩

theorem manyUpTo {more : Token → Bool} (item : Shallow n p) (bound : Nat) :
    Shallow n (Parser.manyUpTo more p bound) := by
  induction bound with
  | zero => exact fail nofun
  | succ bound ih =>
      exact (peekAt 0).bind fun _ =>
        ite (item.bind fun x => ih.bind fun xs => pure (x :: xs)) (pure [])

theorem many {more : Token → Bool} (item : Shallow n p) : Shallow n (Parser.many more p) where
  reaches s ts := (manyUpTo item (ts.length + 1)).reaches s ts
  shrinks s ts := (manyUpTo item (ts.length + 1)).shrinks s ts

theorem closeBrackets (depth : Nat) : Shallow n (Grammar.closeBrackets depth) where
  reaches s ts less := by
    fun_induction Grammar.closeBrackets depth s ts with
    | case1 | case2 | case3 | case5 => exact nofun
    | case4 s t rest depth kind ih => exact ih (Nat.lt_of_succ_lt less)
    | case6 s t rest depth kind ih => exact ih (Nat.lt_of_succ_lt less)
    | case7 s t rest depth _ _ _ _ ih => exact ih (Nat.lt_of_succ_lt less)
  shrinks s ts a rest ok := by
    fun_induction Grammar.closeBrackets depth s ts with
    | case1 | case2 | case3 => cases ok
    | case5 =>
        cases ok
        exact Nat.le_succ _
    | case4 s t ts depth kind ih => exact Nat.le_succ_of_le (ih ok)
    | case6 s t ts depth kind ih => exact Nat.le_succ_of_le (ih ok)
    | case7 s t ts depth _ _ _ _ ih => exact Nat.le_succ_of_le (ih ok)

theorem closed (n : Nat) : Closed fun _ => Shallow n where
  pure := pure
  node r first last ns := still fun s _ => s.node r first last ns
  leaves r ts := still fun s _ => ts.map (s.leaf r)
  bind := bind
  mismatch _ _ := (peekAt 0).bind fun _ => fail nofun
  peek := (peekAt 0).bind
  look _ h := (peekAt 0).bind fun t => (peekAt 1).bind (h t)
  lookTwice _ _ h := (peekAt 0).bind fun t => (peekAt 1).bind fun u => (peekAt 2).bind (h t u)
  take _ _ _ htaken hother := (peekAt 0).bind fun t => ite (advance.bind (htaken t)) (hother t)
  many _ h := many h
  manyTaking _ _ h := many (advance.bind h)
  manyUntil _ _ hitem hf := (many hitem).bind fun xs => advance.bind (hf xs)
  closeBrackets := closeBrackets

theorem keyword_takes {w context : String} (s : Scope) (ts : List Token) (t : Token)
    (rest : List Token) (ok : keyword w context s ts = .ok (t, rest)) :
    rest.length + 1 ≤ ts.length := by
  obtain ⟨ds, ⟨-, rfl⟩, rfl⟩ := (Reads.keyword w context).ok_iff.mp ok
  exact Nat.le_refl _

/-- Each message takes its keyword before the messages in it. -/
theorem messageDef (limit : Nat) : Shallow limit (Grammar.messageDef limit) := by
  induction limit with
  | zero => exact ⟨fun _ _ less => absurd less (Nat.not_lt_zero _), nofun⟩
  | succ limit ih =>
      -- what follows the keyword is one token shorter, as the limit is one less
      have body (first : Token) := (closed limit).definitionTail .messageDef first
        (fun _ => Predictive.messageElement_consumes limit) ((closed limit).messageElement ih)
      exact bindTaking ((closed (limit + 1)).keyword ..) keyword_takes body

/-- The limit on nesting does not stop the parser on fewer tokens. -/
theorem statements (limit : Nat) : Shallow limit (Grammar.statements limit) :=
  (closed limit).statements (messageDef limit)

end Shallow

end Parser

end ProtoSchema
