import ProtoSchema.Proofs.Derivation

/-! # What a parser reads

A reading relates the result of a parser to the derivations whose tokens it takes and to the
tokens that it leaves. `Reads` says that a parser succeeds exactly on its reading, and that the
tokens it takes have one list of derivations only. Both facts compose: the reading of a sequence
of parsers is put together from the readings of its steps, look-ahead included, because a step
sees the tokens of the later steps as tokens left.
-/

namespace ProtoSchema

/-- Results, the derivations that they are made of, and the tokens that follow. -/
abbrev Reading (α : Type) := α → List Derivation → List Token → Prop

namespace Parser

open ProtoSchema.Derivation

/-- The token that a parser sees first. -/
def Scope.next (s : Scope) (ts : List Token) : Token :=
  ts[0]?.getD s.last

@[simp] theorem Scope.next_cons (s : Scope) (t : Token) (ts : List Token) :
    s.next (t :: ts) = t := rfl

/-- The parser `p` succeeds exactly as `R` says, and in one way. -/
structure Reads (s : Scope) (p : Parser α) (R : Reading α) : Prop where
  ok_iff : ∀ {ts a rest}, p s ts = .ok (a, rest) ↔ ∃ ds, R a ds rest ∧ yieldList ds ++ rest = ts
  unique : ∀ {a ds es rest}, R a ds rest → R a es rest → yieldList ds = yieldList es → ds = es

theorem bind_eq_ok {s : Scope} {p : Parser α} {f : α → Parser β} {ts b rest} :
    (p >>= f) s ts = .ok (b, rest) ↔
      ∃ a mid, p s ts = .ok (a, mid) ∧ f a s mid = .ok (b, rest) := by
  cases first : p s ts with
  | ok result =>
      obtain ⟨a, mid⟩ := result
      rw [bind_ok first]
      simp
  | error failure =>
      rw [bind_error first]
      simp

namespace Reads

variable {s : Scope} {p q : Parser α} {R S : Reading α}

theorem congr (hp : Reads s p R) (same : ∀ a ds rest, R a ds rest ↔ S a ds rest) :
    Reads s p S := by
  have : R = S := by
    funext a ds rest
    exact propext (same a ds rest)
  exact this ▸ hp

/-- Two sequences over the same tokens have the same result, rest and derivations. -/
theorem determined (hp : Reads s p R) {a b ds es rest left} (h : R a ds rest) (h' : R b es left)
    (same : yieldList ds ++ rest = yieldList es ++ left) : a = b ∧ ds = es ∧ rest = left := by
  have first := hp.ok_iff.mpr ⟨ds, h, rfl⟩
  have second := hp.ok_iff.mpr ⟨es, h', rfl⟩
  rw [same, second] at first
  simp only [Except.ok.injEq, Prod.mk.injEq] at first
  obtain ⟨rfl, rfl⟩ := first
  exact ⟨rfl, hp.unique h h' (List.append_cancel_right same), rfl⟩

theorem looking (look : Scope → List Token → α) :
    Reads s (fun s ts => .ok (look s ts, ts)) fun a ds rest => a = look s rest ∧ ds = [] where
  ok_iff := by
    intro ts a rest
    simp only [Except.ok.injEq, Prod.mk.injEq]
    constructor
    · rintro ⟨rfl, rfl⟩
      exact ⟨[], ⟨rfl, rfl⟩, rfl⟩
    · rintro ⟨_, ⟨rfl, rfl⟩, rfl⟩
      exact ⟨rfl, rfl⟩
  unique := by
    rintro a ds es rest ⟨-, rfl⟩ ⟨-, rfl⟩ -
    rfl

theorem pure (a : α) : Reads s (Pure.pure a) fun b ds _ => b = a ∧ ds = [] :=
  looking fun _ _ => a

theorem peekAt (k : Nat) :
    Reads s (peekAt k) fun t ds rest => t = rest[k]?.getD s.last ∧ ds = [] :=
  looking fun s ts => ts[k]?.getD s.last

theorem peek : Reads s peek fun t ds rest => t = s.next rest ∧ ds = [] :=
  peekAt 0

theorem node (rule : Rule) (first last : Token) (children : List Node) :
    Reads s (Parser.node rule first last children)
      fun n ds _ => n = s.node rule first last children ∧ ds = [] :=
  looking fun s _ => s.node rule first last children

theorem leaves (rule : Rule) (words : List Token) :
    Reads s (Parser.leaves rule words) fun ns ds _ => ns = words.map (s.leaf rule) ∧ ds = [] :=
  looking fun s _ => words.map (s.leaf rule)

theorem failed {e : Failure} : Reads s (fun _ _ => .error e : Parser α) fun _ _ _ => False where
  ok_iff := by simp
  unique := by simp

theorem bind {f : α → Parser β} {F : α → Reading β} (hp : Reads s p R)
    (hf : ∀ a, Reads s (f a) (F a)) :
    Reads s (p >>= f) fun b ds rest => ∃ a front back, ds = front ++ back ∧
      R a front (yieldList back ++ rest) ∧ F a b back rest where
  ok_iff := by
    intro ts b rest
    rw [bind_eq_ok]
    constructor
    · rintro ⟨a, mid, first, second⟩
      obtain ⟨front, hfront, rfl⟩ := hp.ok_iff.mp first
      obtain ⟨back, hback, rfl⟩ := (hf a).ok_iff.mp second
      exact ⟨front ++ back, ⟨a, front, back, rfl, hfront, hback⟩, by simp⟩
    · rintro ⟨_, ⟨a, front, back, rfl, hfront, hback⟩, rfl⟩
      exact ⟨a, yieldList back ++ rest, hp.ok_iff.mpr ⟨front, hfront, by simp⟩,
        (hf a).ok_iff.mpr ⟨back, hback, rfl⟩⟩
  unique := by
    rintro b _ _ rest ⟨a, front, back, rfl, hfront, hback⟩ ⟨a', front', back', rfl, hfront', hback'⟩
      same
    simp only [yieldList_append] at same
    obtain ⟨rfl, rfl, -⟩ := hp.determined hfront hfront'
      (by rw [← List.append_assoc, same, List.append_assoc])
    rw [(hf a).unique hback hback' (List.append_cancel_left same)]

theorem ite {c : Prop} [Decidable c] (hp : c → Reads s p R) (hq : ¬c → Reads s q S) :
    Reads s (if c then p else q) fun a ds rest => c ∧ R a ds rest ∨ ¬c ∧ S a ds rest := by
  by_cases h : c
  · rw [if_pos h]
    exact (hp h).congr (by simp [h])
  · rw [if_neg h]
    exact (hq h).congr (by simp [h])

theorem below (x : Symbol) (hp : Reads s p R) :
    Reads s p fun a ds rest => ∃ parts, ds = [.node x parts] ∧ R a parts rest where
  ok_iff := by
    intro ts a rest
    rw [hp.ok_iff]
    constructor
    · rintro ⟨parts, h, rfl⟩
      exact ⟨[.node x parts], ⟨parts, rfl, h⟩, by simp⟩
    · rintro ⟨_, ⟨parts, rfl, h⟩, rfl⟩
      exact ⟨parts, h, by simp⟩
  unique := by
    rintro a _ _ rest ⟨parts, rfl, h⟩ ⟨parts', rfl, h'⟩ same
    rw [hp.unique h h' (by simpa using same)]

theorem advance : Reads s advance fun t ds _ => ds = [.token t] where
  ok_iff := by
    intro ts t rest
    cases ts with
    | nil => simp [Parser.advance]
    | cons u us => simp [Parser.advance, eq_comm]
  unique := by
    rintro t ds es rest rfl rfl -
    rfl

theorem mismatch {expected : List Expectation} {context : String} :
    Reads s (Parser.mismatch expected context : Parser α) fun _ _ _ => False :=
  (peek.bind fun _ => failed).congr (by simp)

theorem takeIf {c : Token → Prop} [DecidablePred c] {expected : List Expectation}
    {context : String} :
    Reads s (do if c (← Parser.peek) then Parser.advance else Parser.mismatch expected context)
      fun t ds _ => c t ∧ ds = [.token t] := by
  refine (peek.bind fun t => ite (fun _ => advance) fun _ => mismatch).congr ?_
  intro t ds rest
  constructor
  · rintro ⟨_, _, _, rfl, ⟨rfl, rfl⟩, ⟨h, rfl⟩ | ⟨_, ⟨⟩⟩⟩
    exact ⟨h, rfl⟩
  · rintro ⟨h, rfl⟩
    exact ⟨t, [], [.token t], rfl, ⟨rfl, rfl⟩, .inl ⟨h, rfl⟩⟩

theorem expectAs (k : Token.Kind) (names : List Expectation) (context : String) :
    Reads s (expectAs k names context) fun t ds _ => t.kind = k ∧ ds = [.token t] :=
  takeIf

theorem expect (k : Token.Kind) (context : String) :
    Reads s (expect k context) fun t ds _ => t.kind = k ∧ ds = [.token t] :=
  takeIf

theorem keyword (w : String) (context : String) :
    Reads s (keyword w context) fun t ds _ => t.isWord w ∧ ds = [.token t] :=
  takeIf

end Reads

/-- The reading of a loop: items as long as the token before them passes `more`. -/
inductive Repeats (s : Scope) (more : Token → Bool) (R : Reading α) : Reading (List α) where
  | nil {rest : List Token} (stop : more (s.next rest) = false) : Repeats s more R [] [] rest
  | cons {a : α} {as : List α} {front back : List Derivation} {rest : List Token}
      (go : more (s.next (yieldList front ++ (yieldList back ++ rest))) = true)
      (head : R a front (yieldList back ++ rest)) (tail : Repeats s more R as back rest) :
      Repeats s more R (a :: as) (front ++ back) rest

namespace Reads

variable {s : Scope} {p : Parser α} {R : Reading α} {more : Token → Bool}

theorem manyUpTo (hp : Reads s p R) (bound : Nat) : Reads s (manyUpTo more p bound)
    fun as ds rest => Repeats s more R as ds rest ∧ as.length < bound := by
  induction bound with
  | zero => exact failed.congr (by simp)
  | succ bound ih =>
      refine (peek.bind fun t => ite (fun _ => hp.bind fun a => ih.bind fun as => pure (a :: as))
        fun _ => pure []).congr ?_
      intro as ds rest
      constructor
      · rintro ⟨_, _, _, rfl, ⟨rfl, rfl⟩, ⟨go, a, front, _, rfl, head, as', back, _, rfl,
          ⟨tail, short⟩, rfl, rfl⟩ | ⟨stop, rfl, rfl⟩⟩
        · simp only [List.nil_append, List.append_nil, yieldList_append,
            List.append_assoc] at go head ⊢
          exact ⟨.cons go head tail, by simpa using short⟩
        · exact ⟨.nil (by simpa using stop), by simp⟩
      · rintro ⟨h, short⟩
        cases h with
        | nil stop => exact ⟨_, [], [], rfl, ⟨rfl, rfl⟩, .inr ⟨by simpa using stop, rfl, rfl⟩⟩
        | @cons a as front back rest go head tail =>
            refine ⟨_, [], front ++ back, rfl, ⟨rfl, rfl⟩, .inl ⟨?_, a, front, back, rfl, head, as,
              back, [], by simp, ⟨tail, by simpa using short⟩, rfl, rfl⟩⟩
            simpa using go

theorem many (hp : Reads s p R) (takes : ∀ {a ds rest}, R a ds rest → yieldList ds ≠ []) :
    Reads s (many more p) (Repeats s more R) := by
  -- every item takes a token, so the bound on their number is never reached
  have count : ∀ {as ds rest}, Repeats s more R as ds rest → as.length ≤ (yieldList ds).length := by
    intro as ds rest h
    induction h with
    | nil => simp
    | cons go head tail ih =>
        have := List.length_pos_iff.mpr (takes head)
        simp only [List.length_cons, yieldList_append, List.length_append]
        omega
  constructor
  · intro ts as rest
    refine (hp.manyUpTo (ts.length + 1)).ok_iff.trans ?_
    constructor
    · rintro ⟨ds, ⟨h, -⟩, rfl⟩
      exact ⟨ds, h, rfl⟩
    · rintro ⟨ds, h, rfl⟩
      have := count h
      exact ⟨ds, ⟨h, by rw [List.length_append]; omega⟩, rfl⟩
  · intro as ds es rest h h'
    exact (hp.manyUpTo (as.length + 1)).unique ⟨h, by omega⟩ ⟨h', by omega⟩

end Reads

end Parser

end ProtoSchema
