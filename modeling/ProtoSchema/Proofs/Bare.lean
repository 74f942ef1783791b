import Mathlib.Data.List.Forall2
import ProtoSchema.Proofs.Meaning

/-! # Derivations without places

The grammar and the meaning of a derivation look at kinds and texts only. A derivation whose tokens
lose their places is still one, and it declares the same schema. Since a list of tokens has one
derivation, lists that differ in places only declare the same schema.
-/

namespace ProtoSchema

open Computability

namespace Token

/-- The token without its place. -/
def bare (t : Token) : Token :=
  ⟨t.kind, t.text, 0, 0, 0, 0⟩

@[simp] theorem bare_kind (t : Token) : t.bare.kind = t.kind := rfl

@[simp] theorem bare_text (t : Token) : t.bare.text = t.text := rfl

@[simp] theorem isWord_bare (t : Token) (w : String) : t.bare.isWord w = t.isWord w := rfl

@[simp] theorem value_bare (t : Token) : t.bare.value = t.value := rfl

theorem lexemes_related {ts us : List Token} (h : List.Forall₂ (·.text = ·.text) ts us) :
    (ts.flatMap (·.warnings)).map (·.lexeme) = (us.flatMap (·.warnings)).map (·.lexeme) := by
  induction h with
  | nil => rfl
  | @cons t u _ _ head _ ih =>
      have here : t.warnings.map (·.lexeme) = u.warnings.map (·.lexeme) := by
        rw [warnings, warnings, head]
        split <;> rfl
      simp only [List.flatMap_cons, List.map_append, here, ih]

end Token

namespace Derivation

mutual
/-- The derivation without the places of its tokens. -/
def bare : Derivation → Derivation
  | .token t => .token t.bare
  | .node x parts => .node x (bareList parts)

def bareList : List Derivation → List Derivation
  | [] => []
  | d :: ds => bare d :: bareList ds
end

theorem bareList_eq_map (ds : List Derivation) : bareList ds = ds.map bare := by
  induction ds with
  | nil => rfl
  | cons d ds ih => rw [bareList, ih, List.map_cons]

@[simp] theorem bare_token (t : Token) : bare (.token t) = .token t.bare := rfl

@[simp] theorem bare_node (x : Symbol) (parts : List Derivation) :
    bare (.node x parts) = .node x (parts.map bare) := by
  rw [bare, bareList_eq_map]

mutual
theorem yield_bare (d : Derivation) : d.bare.yield = d.yield.map Token.bare := by
  cases d with
  | token t => rfl
  | node x parts => exact yieldList_bare parts

theorem yieldList_bare (ds : List Derivation) :
    yieldList (bareList ds) = (yieldList ds).map Token.bare := by
  cases ds with
  | nil => rfl
  | cons d ds => rw [bareList, yieldList_cons, yieldList_cons, List.map_append, yield_bare d,
      yieldList_bare ds]
end

@[simp] theorem yieldList_map_bare (ds : List Derivation) :
    yieldList (ds.map bare) = (yieldList ds).map Token.bare := by
  rw [← bareList_eq_map, yieldList_bare]

mutual
theorem nesting_bare (d : Derivation) : d.bare.nesting = d.nesting := by
  cases d with
  | token t => rfl
  | node x parts =>
      have inner := nestingList_bareList parts
      by_cases message : x = .rule .messageDef
      · subst message
        exact congrArg (· + 1) inner
      · rw [bare, nesting_node message, nesting_node message, inner]

theorem nestingList_bareList (ds : List Derivation) :
    nestingList (bareList ds) = nestingList ds := by
  cases ds with
  | nil => rfl
  | cons d ds => rw [bareList, nestingList, nestingList, nesting_bare d, nestingList_bareList ds]
end

/-! ## The grammar -/

/-- A language that does not see places. -/
def Placeless (L : Language Derivation) : Prop :=
  ∀ ds ∈ L, ds.map bare ∈ L

namespace Placeless

variable {L M : Language Derivation}

theorem one : Placeless 1 := by
  rintro _ ⟨⟩
  rfl

theorem add (hL : Placeless L) (hM : Placeless M) : Placeless (L + M) := by
  rintro ds (h | h)
  · exact .inl (hL ds h)
  · exact .inr (hM ds h)

theorem mul (hL : Placeless L) (hM : Placeless M) : Placeless (L * M) := by
  rintro _ ⟨ds, hds, es, hes, rfl⟩
  exact ⟨ds.map bare, hL ds hds, es.map bare, hM es hes, List.map_append.symm⟩

theorem kstar (hL : Placeless L) : Placeless L∗ := by
  rintro _ ⟨rounds, rfl, h⟩
  refine ⟨rounds.map (·.map bare), by rw [List.map_flatten], ?_⟩
  intro es hes
  obtain ⟨ds, hds, rfl⟩ := List.mem_map.mp hes
  exact hL ds (h ds hds)

theorem letter {p : Token → Prop} (h : ∀ t, p t → p t.bare) : Placeless (letter p) := by
  rintro _ ⟨t, ht, rfl⟩
  exact ⟨t.bare, h t ht, rfl⟩

theorem kind (k : Token.Kind) : Placeless (kind k) :=
  letter fun _ => id

theorem word (w : String) : Placeless (word w) :=
  letter fun _ => id

theorem wordOf (ws : List String) : Placeless (wordOf ws) :=
  letter fun _ => id

theorem loose : Placeless loose :=
  letter fun _ => id

theorem symbolWhere {x : Symbol} {p : List Token → Prop} (h : ∀ ts, p ts → p (ts.map Token.bare)) :
    Placeless (symbolWhere x p) := by
  rintro _ ⟨d, ⟨parts, rfl⟩, hp, rfl⟩
  refine ⟨.node x (parts.map bare), ⟨_, rfl⟩, ?_, by simp⟩
  rw [yield_node, yieldList_map_bare]
  exact h _ hp

theorem symbol (x : Symbol) : Placeless (symbol x) :=
  symbolWhere fun _ => id

theorem rule (r : Rule) : Placeless (rule r) :=
  symbol _

end Placeless

theorem production_placeless (x : Symbol) : Placeless (production x) := by
  obtain r | _ := x
  · cases r
    all_goals
      repeat' first
        | exact Placeless.one | exact Placeless.kind _ | exact Placeless.word _
        | exact Placeless.wordOf _ | exact Placeless.loose | exact Placeless.rule _
        | exact Placeless.symbol _ | apply Placeless.mul | apply Placeless.add
        | apply Placeless.kstar | apply Placeless.symbolWhere
    all_goals
      intro ts h
      cases ts <;> simp_all
  · repeat' first
      | exact Placeless.kind _ | exact Placeless.rule _ | apply Placeless.mul
      | apply Placeless.add | apply Placeless.kstar

theorem Valid.bare {d : Derivation} (h : d.Valid) : d.bare.Valid := by
  induction h with
  | token t => exact .token t.bare
  | @node x parts form _ ih =>
      rw [bare_node]
      refine .node (production_placeless x parts form) fun d hd => ?_
      obtain ⟨part, hpart, rfl⟩ := List.mem_map.mp hd
      exact ih part hpart

theorem Derives.bare {ts : List Token} {d : Derivation} (h : Derives ts d) :
    Derives (ts.map Token.bare) d.bare := by
  obtain ⟨⟨⟨parts, rfl⟩, valid⟩, rfl⟩ := h
  exact ⟨⟨⟨_, bare_node _ parts⟩, valid.bare⟩, yield_bare _⟩

/-! ## The meaning -/

@[simp] theorem label?_bare (d : Derivation) : d.bare.label? = d.label? := by
  cases d <;> rfl

@[simp] theorem parts_bare (d : Derivation) : d.bare.parts = d.parts.map bare := by
  cases d with
  | token t => rfl
  | node x ds => exact bareList_eq_map ds

@[simp] theorem having_map_bare (r : Rule) (ds : List Derivation) :
    having r (ds.map bare) = (having r ds).map bare := by
  simp [having, List.filter_map, Function.comp_def]

@[simp] theorem words_bare (r : Rule) (d : Derivation) :
    d.bare.words r = (d.words r).map Token.bare := by
  simp [words]

@[simp] theorem textOf_map_bare (ts : List Token) : textOf (ts.map Token.bare) = textOf ts := by
  cases ts <;> rfl

@[simp] theorem dottedText_map_bare (ts : List Token) :
    dottedText (ts.map Token.bare) = dottedText ts := by
  simp only [dottedText, List.filter_map, List.map_map, Function.comp_def]
  rfl

@[simp] theorem field_bare (d : Derivation) : d.bare.field = d.field := by
  simp [field, Function.comp_def]

@[simp] theorem enumValue_bare (d : Derivation) : d.bare.enumValue = d.enumValue := by
  simp [enumValue, Function.comp_def]

@[simp] theorem enumDef_bare (d : Derivation) : d.bare.enumDef = d.enumDef := by
  simp [enumDef, Function.comp_def]

@[simp] theorem method_bare (d : Derivation) : d.bare.method = d.method := by
  simp [method, Function.comp_def]

@[simp] theorem service_bare (d : Derivation) : d.bare.service = d.service := by
  simp [service, Function.comp_def]

mutual
theorem message_bare (d : Derivation) : d.bare.message = d.message := by
  cases d with
  | token t => rfl
  | node x parts =>
      have words := words_bare .ident (.node x parts)
      rw [bare_node] at words ⊢
      rw [message, message, words, ← bareList_eq_map, messages_bareList parts]
      simp [bareList_eq_map, Function.comp_def]

theorem messages_bareList (ds : List Derivation) : messages (bareList ds) = messages ds := by
  cases ds with
  | nil => rfl
  | cons d ds => rw [bareList, messages, messages, label?_bare,
    message_bare d, messages_bareList ds]
end

@[simp] theorem schema_bare (d : Derivation) : d.bare.schema = d.schema := by
  have messages : messages (d.parts.map bare) = messages d.parts := by
    rw [← bareList_eq_map, messages_bareList]
  simp [schema, messages, Function.comp_def]

/-! ## Derivations over related tokens -/

theorem length_yield {d e : Derivation} (same : d.bare = e.bare) :
    d.yield.length = e.yield.length := by
  simpa [yield_bare] using congrArg (fun d => d.yield.length) same

theorem forall₂_append {R : α → β → Prop} {as bs : List α} {cs ds : List β}
    (length : as.length = cs.length) (h : List.Forall₂ R (as ++ bs) (cs ++ ds)) :
    List.Forall₂ R as cs ∧ List.Forall₂ R bs ds := by
  have front := List.forall₂_take_append _ _ _ h
  have back := List.forall₂_drop_append _ _ _ h
  rw [← length] at front back
  exact ⟨by simpa using front, by simpa using back⟩

theorem forall₂_map_eq {f : α → γ} {g : β → γ} {as : List α} {bs : List β} :
    List.Forall₂ (fun a b => f a = g b) as bs ↔ as.map f = bs.map g := by
  rw [← List.forall₂_eq_eq_eq, List.forall₂_map_left_iff, List.forall₂_map_right_iff]

mutual
/-- Derivations that differ in places only have their numbers at the same tokens. -/
theorem numbers_related {R : Token → Token → Prop} {d e : Derivation} (same : d.bare = e.bare)
    (related : List.Forall₂ R d.yield e.yield) : List.Forall₂ R d.numbers e.numbers := by
  cases d with
  | token t =>
      cases e with
      | token u => exact .nil
      | node y es => cases same
  | node x ds =>
      cases e with
      | token u => cases same
      | node y es =>
          obtain ⟨rfl, below⟩ := node.inj same
          have inner := numbersList_related below related
          by_cases number : x = .rule .number
          · subst number
            exact related
          by_cases option : x = .rule .optionDecl
          · subst option
            exact .nil
          rwa [numbers_node number option, numbers_node number option]

theorem numbersList_related {R : Token → Token → Prop} {ds es : List Derivation}
    (same : bareList ds = bareList es) (related : List.Forall₂ R (yieldList ds) (yieldList es)) :
    List.Forall₂ R (numbersList ds) (numbersList es) := by
  cases ds with
  | nil =>
      cases es with
      | nil => exact .nil
      | cons e es => cases same
  | cons d ds =>
      cases es with
      | nil => cases same
      | cons e es =>
          obtain ⟨head, tail⟩ := List.cons.inj same
          obtain ⟨first, rest⟩ := forall₂_append (length_yield head) related
          exact List.rel_append (numbers_related head first) (numbersList_related tail rest)
end

theorem Derives.same {ts us : List Token} {d e : Derivation} (hd : Derives ts d) (he : Derives us e)
    (same : ts.map Token.bare = us.map Token.bare) :
    d.schema = e.schema ∧ d.warnings.map (·.lexeme) = e.warnings.map (·.lexeme) := by
  have bare : d.bare = e.bare := hd.bare.unique (same ▸ he.bare)
  have related : List.Forall₂ (·.text = ·.text) d.yield e.yield := by
    rw [hd.2, he.2, forall₂_map_eq]
    simpa [Function.comp_def] using congrArg (List.map Token.text) same
  refine ⟨by rw [← schema_bare d, bare, schema_bare], ?_⟩
  exact Token.lexemes_related (numbers_related bare related)

end Derivation

end ProtoSchema
