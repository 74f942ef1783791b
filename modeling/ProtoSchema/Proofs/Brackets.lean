import ProtoSchema.Proofs.Thinning
import ProtoSchema.Proofs.Spans

/-! # Brackets and braces

In every derivation brackets match, and so do braces where braces inside brackets are left aside.
Brackets stand around blocks of options only, so a token with open brackets before it is part of
such a block.
-/

namespace ProtoSchema

open Computability

namespace Token

/-- How many brackets are open after a token. -/
def bracketsAfter (depth : Nat) (t : Token) : Nat :=
  match t.kind with
  | .lbracket => depth + 1
  | .rbracket => depth - 1
  | _ => depth

/-- How many brackets are open after some tokens. -/
def brackets (depth : Nat) (ts : List Token) : Nat :=
  ts.foldl bracketsAfter depth

/-- By how much a token raises the number of open braces. In brackets it does not. -/
def brace (depth : Nat) (t : Token) : Int :=
  match depth, t.kind with
  | 0, .lbrace => 1
  | 0, .rbrace => -1
  | _, _ => 0

/-- By how much some tokens raise the number of open braces. -/
def braces : Nat → List Token → Int
  | _, [] => 0
  | depth, t :: ts => brace depth t + braces (bracketsAfter depth t) ts

/-- The kinds of brackets and braces. -/
def enclosers : List Kind :=
  [.lbrace, .rbrace, .lbracket, .rbracket]

variable {depth n : Nat} {t left right : Token} {ts us : List Token}

@[simp] theorem brackets_nil : brackets depth [] = depth := rfl

@[simp] theorem brackets_cons :
    brackets depth (t :: ts) = brackets (bracketsAfter depth t) ts := rfl

@[simp] theorem braces_nil : braces depth [] = 0 := rfl

@[simp] theorem braces_cons :
    braces depth (t :: ts) = brace depth t + braces (bracketsAfter depth t) ts := rfl

theorem brackets_append : brackets depth (ts ++ us) = brackets (brackets depth ts) us :=
  List.foldl_append

theorem braces_append :
    braces depth (ts ++ us) = braces depth ts + braces (brackets depth ts) us := by
  induction ts generalizing depth with
  | nil => simp
  | cons t ts ih =>
      rw [List.cons_append, braces_cons, braces_cons, brackets_cons, ih, Int.add_assoc]

theorem bracketsAfter_of_not_mem (h : t.kind ∉ [.lbracket, .rbracket]) :
    bracketsAfter depth t = depth := by
  unfold bracketsAfter
  cases hk : t.kind <;> simp_all

/-- Brackets and braces match where at least `n` brackets are open. -/
structure Level (n : Nat) (ts : List Token) : Prop where
  brackets : ∀ depth ≥ n, Token.brackets depth ts = depth
  braces : ∀ depth ≥ n, Token.braces depth ts = 0

namespace Level

theorem nil : Level n [] :=
  ⟨fun _ _ => rfl, fun _ _ => rfl⟩

theorem append (h : Level n ts) (h' : Level n us) : Level n (ts ++ us) where
  brackets depth le := by rw [brackets_append, h.brackets depth le, h'.brackets depth le]
  braces depth le := by
    rw [braces_append, h.braces depth le, h.brackets depth le, h'.braces depth le, Int.add_zero]

theorem mono {m : Nat} (h : Level n ts) (le : n ≤ m) : Level m ts :=
  ⟨fun depth le' => h.brackets depth (le.trans le'), fun depth le' => h.braces depth (le.trans le')⟩

theorem single (h : t.kind ∉ [.lbracket, .rbracket]) (even : ∀ depth ≥ n, brace depth t = 0) :
    Level n [t] :=
  ⟨fun _ _ => bracketsAfter_of_not_mem h, fun depth le => by simp [even depth le]⟩

theorem token (h : t.kind ∉ enclosers) : Level n [t] := by
  refine single (by simp_all [enclosers]) fun depth _ => ?_
  unfold brace
  cases hk : t.kind <;> simp_all [enclosers]

/-- In brackets also braces may stand alone. -/
theorem loose (h : t.kind ∉ [.lbracket, .rbracket]) : Level 1 [t] := by
  refine single h fun depth le => ?_
  obtain ⟨depth, rfl⟩ := Nat.exists_eq_add_of_le' le
  rfl

theorem braced (h : Level 0 ts) (opens : left.kind = .lbrace) (closes : right.kind = .rbrace) :
    Level 0 (left :: (ts ++ [right])) where
  brackets depth le := by
    simp [brackets_append, bracketsAfter, opens, closes, h.brackets depth le]
  braces depth le := by
    cases depth <;>
      simp [braces_append, bracketsAfter, brace, opens, closes, h.brackets _ (Nat.zero_le _),
        h.braces _ (Nat.zero_le _)]

theorem bracketed (h : Level 1 ts) (opens : left.kind = .lbracket)
    (closes : right.kind = .rbracket) : Level 0 (left :: (ts ++ [right])) where
  brackets depth le := by
    simp [brackets_append, bracketsAfter, opens, closes, h.brackets (depth + 1) (by omega)]
  braces depth le := by
    simp [braces_append, bracketsAfter, brace, opens, closes, h.brackets (depth + 1) (by omega),
      h.braces (depth + 1) (by omega)]

end Level

theorem without_brace {back : List Token} (h : Level 0 (ts ++ t :: back))
    (outside : brackets 0 ts = 0) (kind : t.kind ∈ [.lbrace, .rbrace]) :
    ¬Level 0 (ts ++ back) := by
  intro h'
  have whole := h.braces 0 (Nat.le_refl 0)
  have part := h'.braces 0 (Nat.le_refl 0)
  rw [braces_append, outside] at whole part
  obtain kind | kind := by simpa using kind
  all_goals
    simp only [braces_cons, brace, bracketsAfter, kind] at whole
    omega

end Token

namespace Derivation

open Token

/-- Brackets and braces match in a node. -/
def Leveled (d : Derivation) : Prop :=
  ∀ x, d.Rooted x → Level 0 d.yield

/-- Brackets and braces match in a word of the language if they do in its nodes. -/
def Levels (L : Language Derivation) : Prop :=
  ∀ ds ∈ L, (∀ d ∈ ds, d.Leveled) → Level 0 (yieldList ds)

namespace Levels

variable {L M : Language Derivation}

theorem one : Levels 1 := by
  rintro _ ⟨⟩ -
  exact .nil

theorem add (hL : Levels L) (hM : Levels M) : Levels (L + M) := by
  rintro ds (h | h)
  · exact hL ds h
  · exact hM ds h

theorem mul (hL : Levels L) (hM : Levels M) : Levels (L * M) := by
  rintro _ ⟨ds, hds, es, hes, rfl⟩ inner
  rw [yieldList_append]
  exact (hL ds hds fun d hd => inner d (List.mem_append_left _ hd)).append
    (hM es hes fun d hd => inner d (List.mem_append_right _ hd))

theorem kstar (hL : Levels L) : Levels L∗ := by
  rintro _ ⟨rounds, rfl, h⟩ inner
  induction rounds with
  | nil => exact .nil
  | cons ds rounds ih =>
      obtain ⟨hds, hrounds⟩ := List.forall_mem_cons.mp h
      rw [List.flatten_cons, yieldList_append]
      rw [List.flatten_cons, List.forall_mem_append] at inner
      exact (hL ds hds inner.1).append (ih hrounds inner.2)

theorem letter {p : Token → Prop} (h : ∀ t, p t → t.kind ∉ enclosers) : Levels (letter p) := by
  rintro _ ⟨t, ht, rfl⟩ -
  exact .token (h t ht)

theorem kind {k : Token.Kind} (h : k ∉ enclosers) : Levels (kind k) :=
  letter fun _ hk => hk ▸ h

theorem word (w : String) : Levels (word w) :=
  letter fun t ht => by simp_all [Token.isWord, enclosers]

theorem wordOf (ws : List String) : Levels (wordOf ws) :=
  letter fun t ht => by simp [ht.1, enclosers]

theorem symbolWhere (x : Symbol) (p : List Token → Prop) : Levels (symbolWhere x p) := by
  rintro _ ⟨d, root, -, rfl⟩ inner
  simpa using inner d List.mem_cons_self x root

theorem symbol (x : Symbol) : Levels (symbol x) :=
  symbolWhere x fun _ => True

theorem rule (r : Rule) : Levels (rule r) :=
  symbol _

theorem body {E : Language Derivation} (h : Levels E) : Levels (body E) := by
  rintro _ ⟨_, ⟨_, ⟨left, opens, rfl⟩, es, hes, rfl⟩, _, ⟨right, closes, rfl⟩, rfl⟩ inner
  have elements := (h.add (kind (by decide))).kstar es hes fun d hd => inner d (by simp [hd])
  simpa using elements.braced opens closes

end Levels

theorem production_levels {x : Symbol} (hx : x ≠ .rule .fieldOptions) : Levels (production x) := by
  obtain r | _ := x
  · cases r
    all_goals first
      | exact absurd rfl hx
      | skip
    all_goals
      repeat' first
        | exact Levels.one | exact Levels.word _ | exact Levels.wordOf _ | exact Levels.rule _
        | exact Levels.symbol _ | exact Levels.symbolWhere _ _ | apply Levels.body
        | apply Levels.mul | apply Levels.add | apply Levels.kstar | apply Levels.kind
    all_goals decide
  · repeat' first
      | exact Levels.rule _ | apply Levels.mul | apply Levels.add | apply Levels.kstar
      | apply Levels.kind
    all_goals decide

theorem Inside.level {ds : List Derivation} (h : Inside ds) : Level 1 (yieldList ds) := by
  induction h with
  | nil => exact .nil
  | skip kind tail ih => exact (Level.loose (by simp_all)).append ih
  | block opens closes inside tail ihInside ih =>
      simpa using ((ihInside.bracketed opens closes).mono (Nat.zero_le 1)).append ih

/-- Brackets and braces match in every node of the grammar. -/
theorem Valid.leveled {d : Derivation} (h : d.Valid) : d.Leveled := by
  induction h with
  | token t => rintro x ⟨_, ⟨⟩⟩
  | @node x parts form valid ih =>
      rintro _ ⟨_, ⟨⟩⟩
      by_cases block : x = .rule .fieldOptions
      · subst block
        obtain ⟨left, inner, right, same, opens, inside, closes⟩ :=
          from_fieldOptions.mp ⟨⟨parts, rfl⟩, .node form valid⟩
        rw [same]
        simpa using inside.level.bracketed opens closes
      · exact production_levels block parts form ih

/-- Without a brace that stands outside brackets a text is not derived. -/
theorem Derives.without_brace {front back : List Token} {t : Token} {d : Derivation}
    (h : Derives (front ++ t :: back) d) (brace : t.kind ∈ [.lbrace, .rbrace])
    (outside : brackets 0 front = 0) (e : Derivation) : ¬Derives (front ++ back) e := by
  intro h'
  have whole : Level 0 (front ++ t :: back) := h.2 ▸ h.1.valid.leveled _ h.1.rooted
  have part : Level 0 (front ++ back) := h'.2 ▸ h'.1.valid.leveled _ h'.1.rooted
  exact Token.without_brace whole outside brace part

/-! ## What stands in brackets -/

/-- Not a bracket. -/
def Unbracketed : Derivation → Prop
  | .token t => t.kind ∉ [.lbracket, .rbracket]
  | .node _ _ => True

theorem production_unbracketed {x : Symbol} (hx : x ≠ .rule .fieldOptions) :
    AllLetters Unbracketed (production x) := by
  have kinds : ∀ k ∈ x.kinds, k ∉ [.lbracket, .rbracket] := by
    obtain r | _ := x
    · cases r <;> first | exact absurd rfl hx | decide
    · decide
  intro ds hds d hd
  have below := production_below x ds hds d hd
  cases d with
  | token t => exact kinds t.kind below
  | node y parts => trivial

theorem brackets_yieldList {ds : List Derivation} (valid : ∀ d ∈ ds, d.Valid)
    (plain : ∀ d ∈ ds, d.Unbracketed) : brackets 0 (yieldList ds) = 0 := by
  induction ds with
  | nil => rfl
  | cons d ds ih =>
      rw [List.forall_mem_cons] at valid plain
      have head : brackets 0 d.yield = 0 := by
        cases d with
        | token t => simp [bracketsAfter_of_not_mem plain.1]
        | node x parts => exact (valid.1.leveled x ⟨parts, rfl⟩).brackets 0 (Nat.le_refl 0)
      rw [yieldList_cons, brackets_append, head, ih valid.2 plain.2]

variable {s : Parser.Scope} {x : Symbol} {d : Derivation} {t : Token} {front back : List Token}

theorem From.no_options (h : d.From x) (hx : x ∈ Symbol.plain) :
    ∀ m ∈ nodes s d, ∀ n : Node, n.Within m → n.rule ≠ .fieldOptions := by
  have label : ∀ x ∈ Symbol.plain, x.label ≠ .fieldOptions := by decide
  refine h.induct (Q := (· ∈ Symbol.plain))
    (P := fun d => ∀ m ∈ nodes s d, ∀ n : Node, n.Within m → n.rule ≠ .fieldOptions)
    (by decide) (fun _ hx _ hy => Symbol.plain_of_uses hx hy) (by simp) ?_ hx
  intro y parts hy ih m hm n hn
  obtain rfl := List.mem_singleton.mp hm
  cases hn with
  | root => exact label y hy
  | @inside c _ child within =>
      rw [Parser.Scope.node_children] at child
      split at child
      · cases child
      · rw [nodesList_eq_flatMap] at child
        obtain ⟨part, hpart, hc⟩ := List.mem_flatMap.mp child
        exact ih part hpart c hc n within

/-- A token with open brackets before it is part of a block of options. -/
theorem Occurs.in_options (h : (token t).Occurs front d back) (hd : d.Valid)
    (inner : brackets 0 front ≠ 0) : ∃ m ∈ nodes s d, ∃ n : Node, n.Within m ∧
      ∃ e, e.From (.rule .fieldOptions) ∧ nodes s e = [n] ∧ t ∈ e.yield ∧
        e.yield.Sublist d.yield := by
  induction h with
  | here => exact absurd rfl inner
  | @inside x d front back left right occurs ih =>
      obtain _ | ⟨form, valid⟩ := id hd
      rw [nodes_node]
      refine ⟨_, List.mem_singleton_self _, ?_⟩
      by_cases block : x = .rule .fieldOptions
      · subst block
        refine ⟨_, .root, _, ⟨⟨_, rfl⟩, hd⟩, rfl, ?_, List.Sublist.refl _⟩
        simp [occurs.yield_eq]
      · have before : brackets 0 (yieldList left) = 0 :=
          brackets_yieldList (fun e he => valid e (by simp [he])) fun e he =>
            production_unbracketed block _ form e (by simp [he])
        rw [brackets_append, before] at inner
        have hd' := valid d (by simp)
        obtain ⟨c, hc, n, within, e, from_e, made, ht, sub⟩ := ih hd' inner
        have constant : x ≠ .rule .constant := by
          rintro rfl
          cases d with
          | token u => cases hc
          | node y parts =>
              have plain := production_plain (by decide) _ form (node y parts) (by simp)
              have from_y : (node y parts).From y := ⟨⟨parts, rfl⟩, hd'⟩
              exact from_y.no_options plain c hc n within (from_e.rooted.node_rule made)
        refine ⟨n, .inside ?_ within, e, from_e, made, ht, sub.trans (yield_sublist (by simp))⟩
        simp [block, constant, hc]

end Derivation

end ProtoSchema
