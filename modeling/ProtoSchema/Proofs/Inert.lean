import ProtoSchema.Proofs.Blanking
import ProtoSchema.Proofs.Spans
import ProtoSchema.Proofs.Thinning

/-! # Options and empty statements are inert

A text with a space in place of an option, of a block of options or of an empty statement has the
same schema.
-/

namespace ProtoSchema

theorem Symbol.rule_label_of_frames {x : Symbol} (h : x ∈ frames) : x = .rule x.label := by
  obtain r | _ := x
  · rfl
  · exact absurd h (by decide)

namespace Derivation

variable {x : Symbol} {d e : Derivation} {left right new : List Derivation}
  {front back : List Token} {r : Rule} {t : Token}

/-! ## The meaning -/

theorem Inert.label?_ne (h : e.Inert) (hr : r ∉ [.optionDecl, .fieldOptions]) :
    e.label? ≠ some r := by
  obtain ⟨_, rfl⟩ | ⟨_, rfl⟩ | ⟨t, -, rfl⟩ := h
  all_goals rintro ⟨⟩
  all_goals simp at hr

theorem Thins.having_map {α : Type} {g : Derivation → α} (h : Thins e new)
    (hr : r ∉ [.optionDecl, .fieldOptions]) (hg : ∀ d d', Alike d d' → g d' = g d) :
    (having r (left ++ (new ++ right))).map g = (having r (left ++ e :: right)).map g := by
  cases h with
  | drop inert =>
      simp only [having_append, List.nil_append, having_cons, if_neg (inert.label?_ne hr)]
  | swap frame root root' head alike =>
      simp only [having_append, List.singleton_append, root.having_cons, root'.having_cons]
      split
      · simp only [List.map_append, List.map_cons, hg _ _ alike]
      · rfl

/-- The parts with a rule stay when a part is thinned, unless they may have something inert below
them. -/
theorem Thins.having_eq (h : Thins e new) (hr : .rule r ∉ .rule .optionDecl :: Symbol.frames) :
    having r (left ++ (new ++ right)) = having r (left ++ e :: right) := by
  cases h with
  | drop inert =>
      have plain : r ∉ [.optionDecl, .fieldOptions] := by
        simp_all [Symbol.frames, Symbol.rows]
      simp only [having_append, List.nil_append, having_cons, if_neg (inert.label?_ne plain)]
  | @swap y d d' frame root root' head alike =>
      have other : y.label ≠ r := by
        rintro rfl
        exact hr (Symbol.rule_label_of_frames frame ▸ List.mem_cons_of_mem _ frame)
      simp only [having_append, List.singleton_append, root.having_cons, root'.having_cons,
        if_neg other]

theorem Thins.nestingList_le (h : Thins e new) :
    nestingList (left ++ (new ++ right)) ≤ nestingList (left ++ e :: right) := by
  have whole := Derivation.nestingList_le.mp (Nat.le_refl (nestingList (left ++ e :: right)))
  refine Derivation.nestingList_le.mpr fun d hd => ?_
  obtain hd | hd | hd := by simpa only [List.mem_append] using hd
  · exact whole d (by simp [hd])
  · cases h with
    | drop inert => simp at hd
    | swap frame root root' head alike =>
        obtain rfl := List.mem_singleton.mp hd
        exact alike.nesting.trans (whole _ (by simp))
  · exact whole d (by simp [hd])

theorem Thins.alike (h : Thins e new) (x : Symbol) :
    Alike (node x (left ++ e :: right)) (node x (left ++ (new ++ right))) := by
  have words (r : Rule) (hr : .rule r ∉ .rule .optionDecl :: Symbol.frames) :
      (node x (left ++ (new ++ right))).words r = (node x (left ++ e :: right)).words r :=
    congrArg yieldList (h.having_eq hr)
  have name := words .ident (by decide)
  have messages : messages (left ++ (new ++ right)) = messages (left ++ e :: right) := by
    rw [messages_eq_map, messages_eq_map]
    exact h.having_map (by decide) fun _ _ a => a.message
  have enums : (having .enumDef (left ++ (new ++ right))).map Derivation.enumDef =
      (having .enumDef (left ++ e :: right)).map Derivation.enumDef :=
    h.having_map (by decide) fun _ _ a => a.enumDef
  refine ⟨?_, ?_, ?_, ?_, ?_, ?_, ?_, ?_⟩
  · simp only [Derivation.field, name, words .typeName (by decide), words .number (by decide),
      words .fieldRule (by decide)]
  · simp only [Derivation.enumValue, name, words .number (by decide)]
  · simp only [Derivation.enumDef, name, parts]
    rw [h.having_map (by decide) fun _ _ a => a.enumValue]
  · simp only [method, name, parts, h.having_eq (r := .messageType) (by decide)]
  · simp only [service, name, parts]
    rw [h.having_map (by decide) fun _ _ a => a.method]
  · simp only [message, name, messages, enums]
    rw [h.having_map (by decide) fun _ _ a => a.field]
  · simp only [schema, parts, messages, enums, h.having_eq (r := .syntaxDecl) (by decide),
      h.having_eq (r := .packageDecl) (by decide), h.having_eq (r := .importDecl) (by decide)]
    rw [h.having_map (by decide) fun _ _ a => a.service]
  · by_cases nested : x = .rule .messageDef
    · subst nested
      exact Nat.succ_le_succ h.nestingList_le
    · rw [nesting_node nested, nesting_node nested]
      exact h.nestingList_le

/-! ## Leaving a part out -/

theorem From.field_head (h : (node (.rule .field) (left ++ e :: right)).From (.rule .field))
    (thins : Thins e new) :
    (yieldList (left ++ (new ++ right))).head? = (yieldList (left ++ e :: right)).head? := by
  cases left with
  | cons first left =>
      obtain _ | ⟨-, valid⟩ := h.valid
      have wide := (valid first (by simp)).yield_ne_nil
      simp only [List.cons_append, yieldList_cons, List.head?_append_of_ne_nil _ wide]
  | nil =>
      obtain ⟨y, root, plain⟩ : ∃ y, e.Rooted y ∧ y ∉ .rule .optionDecl :: Symbol.frames := by
        obtain ⟨word, type, name, equals, tag, options, last, same, -, htype, -⟩ := from_field.mp h
        cases word with
        | none =>
            obtain ⟨rfl, -⟩ : e = type ∧ _ := by simpa using same
            exact ⟨_, htype.rooted, by decide⟩
        | some t =>
            obtain ⟨rfl, -⟩ : e = ofToken .fieldRule t ∧ _ := by simpa using same
            exact ⟨.rule .fieldRule, ⟨_, rfl⟩, by decide⟩
      obtain ⟨rfl | rfl, -⟩ | ⟨-, -, -, frame, -⟩ := thins.of_rooted root
      · exact absurd (by decide) plain
      · exact absurd (by decide) plain
      · exact absurd (List.mem_cons_of_mem _ frame) plain

/-- Something inert may be left out of a derivation, and a semicolon may if it is an empty
statement. -/
theorem Occurs.removed (h : e.Occurs front d back) (inert : e.Inert)
    (opener : ∀ t, e = .token t → ∀ u ∈ front.getLast?, u.kind ∈ Token.openers) (hd : d.From x) :
    (e = d ∧ front = [] ∧ back = []) ∨ x ∈ Symbol.frames ∧ ∃ d' : Derivation, d'.From x ∧
      d'.yield = front ++ back ∧ (x = .rule .field → d'.yield.head? = d.yield.head?) ∧
        Alike d d' := by
  induction h generalizing x with
  | here => exact .inl ⟨rfl, rfl, rfl⟩
  | @inside y d front back left right h ih =>
      obtain ⟨_, ⟨⟩⟩ := hd.rooted
      obtain _ | ⟨-, valid⟩ := hd.valid
      -- The token before an empty statement may stand outside the part that the statement is in;
      -- then the induction hypothesis asks for nothing.
      have inner : ∀ t, e = .token t → ∀ u ∈ front.getLast?, u.kind ∈ Token.openers :=
        fun t ht u hu => opener t ht u (by simp_all)
      obtain ⟨new, thins, valids, yield⟩ : ∃ new, Thins d new ∧ (∀ d' ∈ new, d'.Valid) ∧
          yieldList new = front ++ back := by
        cases d with
        | token t =>
            cases h
            exact ⟨[], .drop inert, by simp, rfl⟩
        | node z parts =>
            obtain ⟨rfl, rfl, rfl⟩ | ⟨frame, d', root, yield, head, alike⟩ :=
              ih inner ⟨⟨parts, rfl⟩, valid _ (by simp)⟩
            · exact ⟨[], .drop inert, by simp, rfl⟩
            · exact ⟨[d'], .swap frame ⟨parts, rfl⟩ root.rooted head alike,
                by simpa using root.valid, by simpa using yield⟩
      obtain ⟨frame, form⟩ := thins.production hd fun t ht u hu => by
        subst ht
        cases h
        exact opener t rfl u (by simpa using hu)
      refine .inr ⟨frame, node y (left ++ (new ++ right)),
        ⟨⟨_, rfl⟩, .node form fun p hp => ?_⟩, ?_, ?_, thins.alike y⟩
      · obtain hp | hp | hp := by simpa only [List.mem_append] using hp
        · exact valid p (by simp [hp])
        · exact valids p hp
        · exact valid p (by simp [hp])
      · simp [yield]
      · rintro rfl
        exact hd.field_head thins

mutual
theorem occurs_of_yield {front back : List Token} (d : Derivation)
    (h : d.yield = front ++ t :: back) : (Derivation.token t).Occurs front d back := by
  cases d with
  | token u =>
      obtain ⟨rfl, rfl, rfl⟩ : front = [] ∧ u = t ∧ back = [] := by
        cases front <;> simp_all
      exact .here
  | node x parts =>
      obtain ⟨left, d, right, front, back, rfl, rfl, rfl, occurs⟩ := occurs_of_yieldList parts h
      exact .inside left right occurs

theorem occurs_of_yieldList {front back : List Token} (ds : List Derivation)
    (h : yieldList ds = front ++ t :: back) :
    ∃ left d right front' back', ds = left ++ d :: right ∧ front = yieldList left ++ front' ∧
      back = back' ++ yieldList right ∧ (Derivation.token t).Occurs front' d back' := by
  cases ds with
  | nil => simp at h
  | cons d ds =>
      obtain ⟨more, same, rfl⟩ | ⟨more, rfl, same⟩ := append_cons_cases h
      · exact ⟨[], d, ds, front, more, rfl, rfl, rfl, occurs_of_yield d same⟩
      · obtain ⟨left, e, right, front', back', rfl, rfl, rfl, occurs⟩ := occurs_of_yieldList ds same
        exact ⟨d :: left, e, right, front', back', rfl, by simp, rfl, occurs⟩
end

theorem Inert.kind_ne_eof (h : e.Inert) (valid : e.Valid) : ∀ t ∈ e.yield, t.kind ≠ .eof := by
  obtain root | root | ⟨t, semicolon, rfl⟩ := h
  · exact From.kind_ne_eof ⟨root, valid⟩ (by decide)
  · exact From.kind_ne_eof ⟨root, valid⟩ (by decide)
  · simp [semicolon]

end Derivation

open ProtoSchema.Derivation

namespace Schema

variable {limit : Nat} {source : List Char} {tokens front back : List Token} {d e : Derivation}

/-- A text keeps its schema when something inert in it is blanked out. -/
theorem ofText_without (scanned : Token.scan source = .ok tokens) (derives : Derives tokens d)
    (shallow : d.nesting ≤ limit) (occurs : e.Occurs front d back) (inert : e.Inert)
    (opener : ∀ t, e = .token t → ∀ u ∈ front.getLast?, u.kind ∈ Token.openers)
    {first last : Token} (head : e.yield.head? = some first)
    (final : e.yield.getLast? = some last) :
    ∃ ws, ofText limit (blank source first.start last.stop) = .ok (d.schema, ws) := by
  obtain ⟨file, rfl⟩ := derives
  have inner := inert.kind_ne_eof (occurs.valid file.valid)
  rw [occurs.yield_eq] at scanned
  obtain ⟨tokens, scanned, same⟩ := Token.scan_blank scanned head final
    (inner _ (List.mem_of_head? head)) (inner _ (List.mem_of_getLast? final))
  obtain ⟨rfl, -⟩ | ⟨-, d', file', yield, -, alike⟩ := occurs.removed inert opener file
  · obtain ⟨_, rfl⟩ := file.rooted
    obtain ⟨_, ⟨⟩⟩ | ⟨_, ⟨⟩⟩ | ⟨_, -, ⟨⟩⟩ := inert
  · have derives : Derives (tokens.map Token.bare) d'.bare :=
      same ▸ Derives.bare ⟨file', yield⟩
    rw [← alike.schema, ← schema_bare d']
    obtain ⟨f, -, -, read, -⟩ := ofText_declared scanned derives
      ((nesting_bare d').trans_le (alike.nesting.trans shallow))
    exact ⟨_, read⟩

/-- A text with a schema keeps it when an option, a block of options or an empty statement in it is
blanked out. -/
theorem ofText_blank (limit : Nat) (source : List Char) (p : Schema) (ws : List Warning)
    (h : ofText limit source = .ok (p, ws)) :
    ∃ tree tokens, Node.ofText limit source = .ok tree ∧ Token.scan source = .ok tokens ∧
      (∀ n : Node, n.Within tree → n.rule ∈ [.optionDecl, .fieldOptions] →
        ∃ ws', ofText limit (blank source n.start n.stop) = .ok (p, ws')) ∧
      ∀ front u t back, tokens = front ++ u :: t :: back →
        u.kind ∈ [.lbrace, .rbrace, .semicolon] → t.kind = .semicolon →
        ∃ ws', ofText limit (blank source t.start t.stop) = .ok (p, ws') := by
  obtain ⟨tokens, d, scanned, derives, shallow, rfl, rfl⟩ := ofText_eq_ok.mp h
  refine ⟨_, tokens, Node.ofText_eq_ok.mpr ⟨tokens, d, scanned, derives, shallow, rfl⟩, scanned, ?_,
    ?_⟩
  · intro n hn rule
    cases hn with
    | root =>
        obtain ⟨parts, rfl⟩ := derives.1.rooted
        simp [Derivation.tree, Node.root] at rule
    | inside hc hn =>
        obtain ⟨front, e, back, x, occurs, made, from_x, label, -⟩ := derives.1.part_of_within hc hn
        obtain ⟨first, last, head, final, start, stop⟩ := from_x.valid.spans made
        have inert : e.Inert := by
          obtain r | _ := x
          · obtain rfl | rfl : r = .optionDecl ∨ r = .fieldOptions := by simpa [← label] using rule
            · exact .inl from_x.rooted
            · exact .inr (.inl from_x.rooted)
          · simp [← label] at rule
        rw [start, stop]
        exact ofText_without scanned derives shallow occurs inert (by
          rintro t rfl
          simp at made) head final
  · rintro front u t back rfl opener semicolon
    have occurs : (Derivation.token t).Occurs (front ++ [u]) d back :=
      occurs_of_yield d (by simp [derives.2])
    exact ofText_without scanned derives shallow occurs (.inr (.inr ⟨t, semicolon, rfl⟩))
      (by simpa [Token.openers] using opener) rfl rfl

/-- A message with an option, an empty statement and a field with a block of options. -/
theorem ofText_blank_message :
    let limit := 1
    let source := "message A\x7boption x=1;;int32 a=1[b=2];\x7d".toList
    let p : Schema := ⟨"proto3", none, [], [⟨"A", [⟨"a", "int32", 1, false⟩], [], []⟩], [], []⟩
    ofText limit source = .ok (p, []) ∧
      (∃ ws, ofText limit "message A\x7b ;int32 a=1[b=2];\x7d".toList = .ok (p, ws)) ∧
      (∃ ws, ofText limit "message A\x7boption x=1;;int32 a=1 ;\x7d".toList = .ok (p, ws)) ∧
      ∃ ws, ofText limit "message A\x7boption x=1; int32 a=1[b=2];\x7d".toList = .ok (p, ws) := by
  intro limit source p
  have first : blank source 10 21 = "message A\x7b ;int32 a=1[b=2];\x7d".toList := by decide +kernel
  have second : blank source 31 36 = "message A\x7boption x=1;;int32 a=1 ;\x7d".toList := by
    decide +kernel
  have third : blank source 21 22 = "message A\x7boption x=1; int32 a=1[b=2];\x7d".toList := by
    decide +kernel
  rw [← first, ← second, ← third]
  have read : ofText limit source = .ok (p, []) := by decide +kernel
  obtain ⟨tree, tokens, parsed, scanned, nodes, empty⟩ := ofText_blank limit source p [] read
  have option : (Node.ofText limit source).map (fun tree =>
      ((tree.children.flatMap (·.children)).filter (·.rule = .optionDecl)).map
        fun n => (n.start, n.stop)) = .ok [(10, 21)] := by decide +kernel
  rw [parsed, Except.map, Except.ok.injEq, List.map_eq_singleton_iff] at option
  refine ⟨read, ?_, ?_, ?_⟩
  · obtain ⟨n, found, place⟩ := option
    have member := found ▸ List.mem_singleton_self n
    obtain ⟨⟨c, hc, hn⟩, rule⟩ : (∃ c ∈ tree.children, n ∈ c.children) ∧ n.rule = .optionDecl := by
      simpa using member
    obtain ⟨start, stop⟩ := Prod.mk.inj place
    have blanked := nodes n (.inside hc (.inside hn .root)) (by simp [rule])
    rw [start, stop] at blanked
    exact blanked
  · have block : (Node.ofText limit source).map (fun tree =>
        ((tree.children.flatMap fun c => c.children.flatMap (·.children)).filter
          (·.rule = .fieldOptions)).map fun n => (n.start, n.stop)) = .ok [(31, 36)] := by
      decide +kernel
    rw [parsed, Except.map, Except.ok.injEq, List.map_eq_singleton_iff] at block
    obtain ⟨n, found, place⟩ := block
    have member := found ▸ List.mem_singleton_self n
    obtain ⟨⟨c, hc, m, hm, hn⟩, rule⟩ :
        (∃ c ∈ tree.children, ∃ m ∈ c.children, n ∈ m.children) ∧ n.rule = .fieldOptions := by
      simpa using member
    obtain ⟨start, stop⟩ := Prod.mk.inj place
    have blanked := nodes n (.inside hc (.inside hm (.inside hn .root))) (by simp [rule])
    rw [start, stop] at blanked
    exact blanked
  · have twice : (Token.scan source).map (fun tokens => (tokens.drop 7).take 2) =
        .ok [⟨.semicolon, ";", 1, 21, 20, 21⟩, ⟨.semicolon, ";", 1, 22, 21, 22⟩] := by
      decide +kernel
    rw [scanned, Except.map, Except.ok.injEq] at twice
    have whole : tokens = tokens.take 7 ++ ((tokens.drop 7).take 2 ++ (tokens.drop 7).drop 2) := by
      rw [List.take_append_drop, List.take_append_drop]
    rw [twice] at whole
    have blanked := empty _ _ _ _ whole (by decide) rfl
    exact blanked

end Schema

end ProtoSchema
