import ProtoSchema.Document
import ProtoSchema.Proofs.SchemaExact

/-! # How deep a text is nested

As many messages are inside each other in a text as in its schema. Reading finds them nested too
deeply or goes as it does with any higher limit, so a limit matters only to texts that reach it.
-/

namespace ProtoSchema

namespace Derivation

variable {ds : List Derivation} {d : Derivation}

/-! ## Nesting and depth -/

/-- A message, or something without messages inside it. -/
def Flat (d : Derivation) : Prop :=
  d.From (.rule .messageDef) ∨ d.nesting = 0 ∧ d.label? ≠ some .messageDef

theorem From.flat {r : Rule} (h : d.From (.rule r)) (file : r ≠ .protoFile) : d.Flat := by
  by_cases message : r = .messageDef
  · exact .inl (message ▸ h)
  · refine .inr ⟨h.nesting_eq_zero (by simp [file]) (by simp [message]), ?_⟩
    simp [h.label?_eq, message]

theorem flat_token (t : Token) : Flat (.token t) :=
  .inr ⟨rfl, nofun⟩

theorem From.parts_flat {parts : List Derivation}
    (h : (node (.rule .messageDef) parts).From (.rule .messageDef)) : ∀ d ∈ parts, d.Flat := by
  obtain ⟨first, word, left, es, right, same, -, hword, -, elements, -⟩ := from_messageDef.mp h
  obtain rfl := (node.inj same).2
  have name : (ofToken .ident word).From (.rule .ident) := from_ident.mpr ⟨word, hword, rfl⟩
  have element : ∀ d ∈ es, d.Flat := by
    intro d hd
    obtain (⟨h, -⟩ | h | h | h) | ⟨t, -, rfl⟩ := elements d hd
    · exact h.flat (by decide)
    · exact h.flat (by decide)
    · exact h.flat (by decide)
    · exact h.flat (by decide)
    · exact flat_token t
  simpa [flat_token, or_imp, forall_and, name.flat] using element

mutual
/-- As many messages are inside each other in a derivation as in the message that it declares. -/
theorem nesting_eq_depth (d : Derivation) (h : d.From (.rule .messageDef)) :
    d.nesting = d.message.depth := by
  cases d with
  | token t => obtain ⟨_, ⟨⟩⟩ := h.rooted
  | node x parts =>
      obtain ⟨_, ⟨⟩⟩ := h.rooted
      exact congrArg (· + 1) (nestingList_eq_depth parts h.parts_flat)

theorem nestingList_eq_depth (ds : List Derivation) (h : ∀ d ∈ ds, d.Flat) :
    nestingList ds = Message.depthList (messages ds) := by
  cases ds with
  | nil => rfl
  | cons d ds =>
      obtain ⟨head, tail⟩ := List.forall_mem_cons.mp h
      rw [nestingList, messages, nestingList_eq_depth ds tail]
      obtain message | ⟨flat, other⟩ := head
      · have label : d.label? = some .messageDef := message.label?_eq
        rw [if_pos label, Message.depthList, nesting_eq_depth d message]
      · rw [if_neg other, flat, Nat.zero_max]
end

theorem Statement.flat (h : d.Statement) : d.Flat := by
  obtain h | h | h | h | h | h | h := h
  all_goals exact h.flat (by decide)

theorem Derives.nesting_eq_depth {tokens : List Token} (h : Derives tokens d) :
    d.nesting = d.schema.depth := by
  obtain ⟨ds, last, rfl, parts, -⟩ := from_protoFile.mp h.1
  have flat : ∀ d ∈ ds ++ [.token last], d.Flat := by
    simpa [or_imp, forall_and, flat_token] using fun d hd => (parts.statements d hd).flat
  exact nestingList_eq_depth _ flat

end Derivation

/-! ## Higher limits -/

namespace Parser

/-- The first parser finds messages nested too deeply or does what the second one does. -/
def Deepens (p q : Parser α) : Prop :=
  ∀ s tokens, p s tokens = .error .tooDeep ∨ p s tokens = q s tokens

namespace Deepens

variable {p q : Parser α}

theorem refl (p : Parser α) : Deepens p p :=
  fun _ _ => .inr rfl

theorem tooDeep (q : Parser α) : Deepens Parser.tooDeep q :=
  fun _ _ => .inl rfl

theorem bind {f g : α → Parser β} (first : Deepens p q) (rest : ∀ a, Deepens (f a) (g a)) :
    Deepens (p >>= f) (q >>= g) := by
  intro s tokens
  obtain deep | same := first s tokens
  · exact .inl (bind_error deep f)
  · cases read : q s tokens with
    | error failure =>
        rw [bind_error read, bind_error (same.trans read)]
        exact .inr rfl
    | ok result =>
        rw [bind_ok read, bind_ok (same.trans read)]
        exact rest result.1 s result.2

theorem ite {c : Prop} [Decidable c] {p' q' : Parser α} (h : Deepens p q) (h' : Deepens p' q') :
    Deepens (if c then p else p') (if c then q else q') := by
  split
  · exact h
  · exact h'

theorem many {more : Token → Bool} (h : Deepens p q) :
    Deepens (Parser.many more p) (Parser.many more q) := by
  have upTo (bound : Nat) : Deepens (manyUpTo more p bound) (manyUpTo more q bound) := by
    induction bound with
    | zero => exact refl _
    | succ bound ih =>
        exact (refl peek).bind fun _ => ite (h.bind fun _ => ih.bind fun _ => refl _) (refl _)
  exact fun s tokens => upTo (tokens.length + 1) s tokens

variable {item item' : Parser Node}

theorem block (h : Deepens item item') : Deepens (Grammar.block item) (Grammar.block item') :=
  many ((refl peek).bind fun _ => ite (refl _) (h.bind fun _ => refl _)) |>.bind fun _ => refl _

theorem definition (word : String) (rule : Rule) (h : Deepens item item') :
    Deepens (Grammar.definition word rule item) (Grammar.definition word rule item') :=
  (refl _).bind fun _ => (refl _).bind fun _ => (refl _).bind fun _ => h.block.bind fun _ => refl _

theorem messageElement (h : Deepens item item') :
    Deepens (Grammar.messageElement item) (Grammar.messageElement item') :=
  (refl _).bind fun _ => (refl _).bind fun _ => ite h (refl _)

variable {limit limit' : Nat}

theorem messageDef (le : limit ≤ limit') :
    Deepens (Grammar.messageDef limit) (Grammar.messageDef limit') := by
  induction limit generalizing limit' with
  | zero => exact tooDeep _
  | succ limit ih =>
      cases limit' with
      | zero => exact absurd le (Nat.not_succ_le_zero limit)
      | succ limit' =>
          exact definition _ _ (messageElement (ih (Nat.le_of_succ_le_succ le)))

theorem statements (le : limit ≤ limit') :
    Deepens (Grammar.statements limit) (Grammar.statements limit') := by
  have topLevel : Deepens (Grammar.topLevel limit) (Grammar.topLevel limit') :=
    (refl peek).bind fun _ => ite (messageDef le) (refl _)
  exact (refl _).bind fun _ => (refl _).bind fun _ => (refl _).bind fun _ =>
    topLevel.many.bind fun _ => refl _

end Deepens

end Parser

variable {limit limit' : Nat}

/-- The tokens of a text are nested too deeply or have the same tree with any higher limit. -/
theorem Node.ofText_deepens (le : limit ≤ limit') (source : List Char) :
    Node.ofText limit source = .error (.parse .tooDeep) ∨
      Node.ofText limit source = Node.ofText limit' source := by
  cases scanned : Token.scan source with
  | error e => exact .inr (by simp only [ofText, scanned])
  | ok tokens =>
      rw [ofText_scanned scanned, ofText_scanned scanned]
      obtain deep | same := Parser.Deepens.statements le (.whole source) tokens
      · exact .inl (by rw [deep])
      · exact .inr (by rw [same])

namespace Schema

variable {source : List Char} {p : Schema} {ws : List Warning}

theorem ofText_deepens (le : limit ≤ limit') (source : List Char) :
    ofText limit source = .error (.tree (.parse .tooDeep)) ∨
      ofText limit source = ofText limit' source := by
  obtain deep | same := Node.ofText_deepens le source
  · exact .inl (ofText_eq_error.mpr ⟨_, deep, rfl⟩)
  · exact .inr (by rw [ofText, same, ofText])

/-- A text that is read has no more messages inside each other than the limit. -/
theorem ofText_depth (h : ofText limit source = .ok (p, ws)) : p.depth ≤ limit := by
  obtain ⟨_, d, -, derives, shallow, rfl, -⟩ := ofText_eq_ok.mp h
  exact derives.nesting_eq_depth ▸ shallow

/-- A text that is read with some limit is read with just those that its messages keep to. -/
theorem ofText_limits (h : ofText limit source = .ok (p, ws)) (limit' : Nat) :
    ofText limit' source =
      if p.depth ≤ limit' then .ok (p, ws) else .error (.tree (.parse .tooDeep)) := by
  split
  · next shallow =>
      obtain ⟨tokens, d, scanned, derives, -, rfl, rfl⟩ := ofText_eq_ok.mp h
      rw [← derives.nesting_eq_depth] at shallow
      exact ofText_eq_ok.mpr ⟨tokens, d, scanned, derives, shallow, rfl, rfl⟩
  · next deep =>
      have lower : limit' ≤ limit := Nat.le_of_not_le fun le => deep ((ofText_depth h).trans le)
      exact (ofText_deepens lower source).resolve_right
        fun same => deep (ofText_depth (same.trans h))

end Schema

end ProtoSchema
