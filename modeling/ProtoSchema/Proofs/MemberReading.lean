import ProtoSchema.Proofs.RuleReading

/-! # Reading the members of definitions

Fields and enum values may end in a block of options, whose tokens are free except that brackets
match. Words that are keywords in one place and names in another are told apart by the tokens after
them, which the shape of a derivation determines.
-/

namespace ProtoSchema

open Computability

namespace Derivation

/-! ## Blocks of options -/

/-- What stands between two brackets that match. -/
inductive Inside : List Derivation → Prop where
  | nil : Inside []
  | skip {t : Token} {ds : List Derivation} (kind : t.kind ∉ [.lbracket, .rbracket, .eof])
      (tail : Inside ds) : Inside (.token t :: ds)
  | block {left right : Token} {inner ds : List Derivation} (opens : left.kind = .lbracket)
      (closes : right.kind = .rbracket) (inside : Inside inner) (tail : Inside ds) :
      Inside (.node (.rule .fieldOptions) (.token left :: inner ++ [.token right]) :: ds)

theorem fits_insides {ds : List Derivation} : Fits (rule .fieldOptions + loose)∗ ds ↔
    ∀ d ∈ ds, d.From (.rule .fieldOptions) ∨
      ∃ t : Token, t.kind ∉ [.lbracket, .rbracket, .eof] ∧ d = .token t := by
  rw [fits_kstar_singles]
  · simp only [fits_add, fits_rule, fits_loose, List.cons_eq_cons, and_true, exists_eq_right']
  · intro ds h
    obtain ⟨d, -, rfl⟩ | ⟨t, -, rfl⟩ := by
      simpa only [fits_add, fits_rule, fits_loose] using h
    · exact ⟨d, rfl⟩
    · exact ⟨_, rfl⟩

theorem Inside.fits {ds : List Derivation} (h : Inside ds) :
    Fits (rule .fieldOptions + loose)∗ ds := by
  induction h with
  | nil => exact fits_insides.mpr (by simp)
  | skip kind tail ih =>
      exact fits_insides.mpr (List.forall_mem_cons.mpr ⟨.inr ⟨_, kind, rfl⟩, fits_insides.mp ih⟩)
  | @block left right inner ds opens closes inside tail ihInside ih =>
      refine fits_insides.mpr (List.forall_mem_cons.mpr ⟨.inl ?_, fits_insides.mp ih⟩)
      refine from_iff.mpr ⟨_, rfl, ?_⟩
      simp only [production, form, fits_mul, fits_kind]
      exact ⟨_, ⟨_, ⟨left, opens, rfl⟩, inner, ihInside, rfl⟩, _, ⟨right, closes, rfl⟩, rfl⟩

theorem from_fieldOptions {d : Derivation} : d.From (.rule .fieldOptions) ↔
    ∃ left inner right, d = .node (.rule .fieldOptions) (.token left :: inner ++ [.token right]) ∧
      left.kind = .lbracket ∧ Inside inner ∧ right.kind = .rbracket := by
  constructor
  · rintro ⟨root, valid⟩
    induction valid with
    | token t => obtain ⟨_, ⟨⟩⟩ := root
    | @node x parts form valid ih =>
        obtain ⟨_, ⟨⟩⟩ := root
        have fits : Fits (production (.rule .fieldOptions)) parts := ⟨form, valid⟩
        simp only [production, Derivation.form, fits_mul, fits_kind] at fits
        obtain ⟨_, ⟨_, ⟨left, opens, rfl⟩,
          inner, hinner, rfl⟩, _, ⟨right, closes, rfl⟩, rfl⟩ := fits
        refine ⟨left, inner, right, rfl, opens, ?_, closes⟩
        rw [fits_insides] at hinner
        clear form valid
        induction inner with
        | nil => exact .nil
        | cons d ds tail =>
            obtain ⟨hd, hds⟩ := List.forall_mem_cons.mp hinner
            have rest := tail hds fun e he => ih e (by simp at he ⊢; tauto)
            obtain hd | ⟨t, ht, rfl⟩ := hd
            · obtain ⟨left, inner, right, rfl, opens, inside, closes⟩ := ih d (by simp) hd.rooted
              exact .block opens closes inside rest
            · exact .skip ht rest
  · rintro ⟨left, inner, right, rfl, opens, inside, closes⟩
    have := (Inside.block opens closes inside .nil).fits
    rw [fits_insides] at this
    simpa using this

theorem fits_options {ds : List Derivation} : Fits (1 + rule .fieldOptions) ds ↔
    ∃ options : Option Derivation, (∀ d ∈ options, d.From (.rule .fieldOptions)) ∧
      ds = options.toList.map id :=
  fits_optional fun _ => fits_rule

/-! ## Members -/

theorem fits_fieldRule {ds : List Derivation} : Fits (1 + rule .fieldRule) ds ↔
    ∃ word : Option Token, (∀ t ∈ word, t.kind = .ident ∧ t.text ∈ Grammar.fieldRules) ∧
      ds = word.toList.map (ofToken .fieldRule) :=
  fits_optional (by simp)

theorem from_field {d : Derivation} : d.From (.rule .field) ↔
    ∃ (word : Option Token) (type : Derivation) (name equals tag : Token)
      (options : Option Derivation) (last : Token), d = .node (.rule .field)
        (word.toList.map (ofToken .fieldRule) ++ type :: ofToken .ident name :: .token equals ::
          ofToken .number tag :: (options.toList ++ [.token last])) ∧
      (∀ t ∈ word, t.kind = .ident ∧ t.text ∈ Grammar.fieldRules) ∧ type.From (.rule .typeName) ∧
        name.kind = .ident ∧ equals.kind = .equals ∧ tag.kind = .number ∧
          (∀ d ∈ options, d.From (.rule .fieldOptions)) ∧ last.kind = .semicolon := by
  rw [from_iff]
  simp only [production, form, fits_mul, fits_fieldRule, fits_options, fits_kind, fits_rule,
    from_ident, from_number]
  simp [and_assoc]
  constructor
  · rintro ⟨last, options, equals, tag, word, type, name, h⟩
    exact ⟨word, type, name, equals, tag, options, last, h⟩
  · rintro ⟨word, type, name, equals, tag, options, last, h⟩
    exact ⟨last, options, equals, tag, word, type, name, h⟩

theorem from_enumValue {d : Derivation} : d.From (.rule .enumValue) ↔
    ∃ (name equals number : Token) (options : Option Derivation) (last : Token),
      d = .node (.rule .enumValue)
        (ofToken .ident name :: .token equals :: ofToken .number number ::
          (options.toList ++ [.token last])) ∧
      name.kind = .ident ∧ equals.kind = .equals ∧ number.kind = .number ∧
        (∀ d ∈ options, d.From (.rule .fieldOptions)) ∧ last.kind = .semicolon := by
  rw [from_iff]
  simp only [production, form, fits_mul, fits_options, fits_kind, fits_rule, from_ident,
    from_number]
  simp [and_assoc]
  constructor
  · rintro ⟨last, options, equals, number, name, h⟩
    exact ⟨name, equals, number, options, last, h⟩
  · rintro ⟨name, equals, number, options, last, h⟩
    exact ⟨last, options, equals, number, name, h⟩

theorem fits_stream {ds : List Derivation} : Fits (1 + rule .stream) ds ↔
    ∃ word : Option Token, (∀ t ∈ word, t.isWord "stream") ∧
      ds = word.toList.map (ofToken .stream) :=
  fits_optional (by simp)

theorem from_messageType {d : Derivation} : d.From (.rule .messageType) ↔
    ∃ (word : Option Token) (path : Derivation),
      d = .node (.rule .messageType) (word.toList.map (ofToken .stream) ++ [path]) ∧
      (∀ t ∈ word, t.isWord "stream") ∧ path.From (.rule .fullIdent) := by
  rw [from_iff]
  simp only [production, form, fits_mul, fits_stream, fits_rule]
  simp

theorem From.fullIdent_yield {d : Derivation} (h : d.From (.rule .fullIdent)) :
    ∃ first pairs, d.yield = first :: pairs.flatMap (fun p => [p.1, p.2]) ∧ first.kind = .ident ∧
      Dotted pairs := by
  obtain ⟨first, pairs, rfl, hfirst, hp⟩ := from_fullIdent.mp h
  exact ⟨first, pairs, by simp [yieldList_dotted], hfirst, hp⟩

theorem From.typeName_yield {d : Derivation} (h : d.From (.rule .typeName)) :
    ∃ first pairs, d.yield = first :: pairs.flatMap (fun p => [p.1, p.2]) ∧ first.kind = .ident ∧
      Dotted pairs := by
  obtain ⟨_, rfl, ⟨t, ht, -, rfl⟩ | ⟨hpath, -⟩⟩ := from_typeName.mp h
  · exact ⟨t, [], rfl, ht, by simp [Dotted]⟩
  · simpa using hpath.fullIdent_yield

end Derivation

namespace Parser

open ProtoSchema.Derivation Grammar

variable {s : Scope} {n : Nat} {t : Token} {ts rest : List Token}

theorem closeBrackets_skip (h : t.kind ∉ [.lbracket, .rbracket, .eof]) :
    closeBrackets n s (t :: ts) = closeBrackets n s ts := by
  cases hk : t.kind <;> simp_all [closeBrackets]

theorem closeBrackets_open (h : t.kind = .lbracket) :
    closeBrackets n s (t :: ts) = closeBrackets (n + 1) s ts := by
  simp [closeBrackets, h]

theorem closeBrackets_close (h : t.kind = .rbracket) :
    closeBrackets (n + 1) s (t :: ts) = closeBrackets n s ts := by
  simp [closeBrackets, h]

theorem closeBrackets_last (h : t.kind = .rbracket) :
    closeBrackets 0 s (t :: ts) = .ok (t, ts) := by
  simp [closeBrackets, h]

/-- Tokens in which all brackets match are passed over at any depth. -/
theorem closeBrackets_inside {ds : List Derivation} (h : Inside ds) :
    closeBrackets n s (yieldList ds ++ ts) = closeBrackets n s ts := by
  induction h generalizing n ts with
  | nil => rfl
  | skip kind tail ih =>
      rw [yieldList_cons, yield_token, List.append_assoc, List.singleton_append,
        closeBrackets_skip kind, ih]
  | block opens closes inside tail ihInside ih =>
      simp only [yieldList_cons, yield_node, yieldList_append, yield_token, yieldList_nil,
        List.append_assoc, List.append_nil, List.nil_append, List.cons_append]
      rw [closeBrackets_open opens, ihInside, closeBrackets_close closes, ih]

/-- Tokens that close all open brackets start with tokens in which brackets match, up to the first
bracket that closes an outer one. -/
theorem closeBrackets_split (h : closeBrackets n s ts = .ok (t, rest)) :
    ∃ inner right after, Inside inner ∧ right.kind = .rbracket ∧
      ts = yieldList inner ++ right :: after ∧
        closeBrackets n s (right :: after) = .ok (t, rest) := by
  induction hn : ts.length using Nat.strong_induction_on generalizing n ts with
  | h length ih =>
  subst hn
  cases ts with
  | nil =>
      rw [closeBrackets] at h
      split at h <;> cases h
  | cons u us =>
      by_cases hu : u.kind ∉ [.lbracket, .rbracket, .eof]
      · rw [closeBrackets_skip hu] at h
        obtain ⟨inner, right, after, inside, closes, rfl, stop⟩ := ih _ (by simp) h rfl
        exact ⟨.token u :: inner, right, after, .skip hu inside, closes, rfl, stop⟩
      simp only [List.mem_cons, List.not_mem_nil, or_false, not_not] at hu
      obtain hu | hu | hu := hu
      · rw [closeBrackets_open hu] at h
        obtain ⟨inner, right, after, inside, closes, rfl, closed⟩ := ih _ (by simp) h rfl
        rw [closeBrackets_close closes] at closed
        obtain ⟨outer, last, left, inside', closes', rfl, stop⟩ := ih _ (by simp; omega) closed rfl
        exact ⟨_ :: outer, last, left, .block hu closes inside inside', closes', by simp, stop⟩
      · exact ⟨[], u, us, .nil, hu, rfl, h⟩
      · simp [closeBrackets, hu] at h

theorem inside_unique {ds es : List Derivation} (hd : Inside ds) (he : Inside es)
    {right last : Token} (closes : right.kind = .rbracket) (closes' : last.kind = .rbracket)
    {after left : List Token}
    (same : yieldList ds ++ right :: after = yieldList es ++ last :: left) :
    ds = es ∧ right :: after = last :: left := by
  induction hd generalizing es right after last left with
  | nil =>
      cases he with
      | nil => simp_all
      | skip kind tail => simp_all
      | block => simp_all
  | skip kind tail ih =>
      cases he with
      | nil => simp_all
      | skip kind' tail' =>
          simp only [yieldList_cons, yield_token, List.cons_append, List.nil_append,
            List.cons.injEq] at same
          obtain ⟨rfl, same⟩ := same
          obtain ⟨rfl, last⟩ := ih tail' closes closes' same
          exact ⟨rfl, last⟩
      | block => simp_all
  | block opens closed inside tail ihInside ih =>
      cases he with
      | nil => simp_all
      | skip kind' tail' => simp_all
      | block opens' closed' inside' tail' =>
          simp only [yieldList_cons, yield_node, yieldList_append, yield_token, yieldList_nil,
            List.append_assoc, List.append_nil, List.nil_append, List.cons_append,
            List.cons.injEq] at same
          obtain ⟨rfl, same⟩ := same
          obtain ⟨rfl, next⟩ := ihInside inside' closed closed' same
          rw [List.cons.injEq] at next
          obtain ⟨rfl, next⟩ := next
          obtain ⟨rfl, last⟩ := ih tail' closes closes' next
          exact ⟨rfl, last⟩

namespace Reads

theorem closeBrackets : Reads s (closeBrackets 0)
    fun t ds _ => ∃ inner, Inside inner ∧ t.kind = .rbracket ∧ ds = inner ++ [.token t] where
  ok_iff := by
    intro ts t rest
    constructor
    · intro h
      obtain ⟨inner, right, after, inside, closes, rfl, stop⟩ := closeBrackets_split h
      rw [closeBrackets_last closes] at stop
      cases stop
      exact ⟨_, ⟨inner, inside, closes, rfl⟩, by simp⟩
    · rintro ⟨_, ⟨inner, inside, closes, rfl⟩, rfl⟩
      rw [yieldList_append, List.append_assoc, closeBrackets_inside inside]
      exact closeBrackets_last closes
  unique := by
    rintro t _ _ rest ⟨inner, inside, closes, rfl⟩ ⟨inner', inside', -, rfl⟩ same
    simp only [yieldList_append, yieldList_cons, yield_token, yieldList_nil,
      List.append_nil] at same
    rw [(inside_unique inside inside' closes closes same).1]

theorem fieldOptions : Reads s Grammar.fieldOptions (Derived s (.rule .fieldOptions)) := by
  refine (((expect ..).bind fun first => closeBrackets.bind fun last => node ..).below
    (.rule .fieldOptions)).congr ?_
  intro n ds rest
  simp [Derived, from_fieldOptions, List.getLast?_cons]
  constructor
  · rintro ⟨left, right, inner, rfl, opens, ⟨inside, closes⟩, rfl⟩
    exact ⟨left, inner, right, rfl, ⟨opens, inside, closes⟩, rfl⟩
  · rintro ⟨left, inner, right, rfl, ⟨opens, inside, closes⟩, rfl⟩
    exact ⟨left, right, inner, rfl, opens, ⟨inside, closes⟩, rfl⟩

theorem closeWithOptions (context : String) : Reads s (Grammar.closeWithOptions context)
    fun r ds _ => ∃ options : Option Derivation, (∀ d ∈ options, d.From (.rule .fieldOptions)) ∧
      r.2.kind = .semicolon ∧ r.1 = nodesList s options.toList ∧
        ds = options.toList ++ [.token r.2] := by
  refine (peek.bind fun _ => ite
    (fun _ => fieldOptions.bind fun options => (expect ..).bind fun last => pure ([options], last))
      fun _ => (expect ..).bind fun last => pure ([], last)).congr ?_
  rintro ⟨ns, last⟩ ds rest
  simp [Derived]
  constructor
  · rintro (⟨-, n, d, rfl, ⟨hd, hn⟩, hlast, rfl⟩ | ⟨-, rfl, hlast, rfl⟩)
    · exact ⟨some d, by simpa using hd, hlast, by simpa using hn, rfl⟩
    · exact ⟨none, by simp, hlast, rfl, rfl⟩
  · rintro ⟨_ | d, hd, hlast, rfl, rfl⟩
    · exact .inr ⟨by simp [hlast], rfl, hlast, rfl⟩
    · obtain ⟨left, inner, right, hleft⟩ := from_fieldOptions.mp (hd d rfl)
      obtain ⟨n, hn⟩ := (hd d rfl).nodes_eq s
      exact .inl ⟨by simp [hleft], n, d, rfl, ⟨hd d rfl, hn.symm⟩, hlast, by simp [hn]⟩

theorem enumValue : Reads s Grammar.enumValue (Derived s (.rule .enumValue)) := by
  refine ((peek.bind fun first => (leaf ..).bind fun name => (expect ..).bind fun _ =>
    (leaf ..).bind fun number => (closeWithOptions ..).bind fun close => node ..).below
      (.rule .enumValue)).congr ?_
  intro n ds rest
  simp [Derived, from_enumValue, and_assoc, List.getLast?_cons, List.getLast?_append]
  constructor
  · rintro ⟨name, equals, number, last, options, h⟩
    exact ⟨name, equals, number, options, last, h⟩
  · rintro ⟨name, equals, number, options, last, h⟩
    exact ⟨name, equals, number, last, options, h⟩

/-- A word before a type counts only if a type and a name still follow it. -/
theorem fieldRule : Reads s Grammar.fieldRule fun ns ds rest => ∃ word : Option Token,
    (∀ t ∈ word, t.kind = .ident ∧ t.text ∈ Grammar.fieldRules ∧ (s.next rest).kind = .ident ∧
      (rest[1]?.getD s.last).kind ≠ .equals) ∧
    (word = none → (s.next rest).text ∈ Grammar.fieldRules →
      (rest[1]?.getD s.last).kind = .ident → (rest[2]?.getD s.last).kind = .equals) ∧
    ds = word.toList.map (ofToken .fieldRule) ∧ ns = word.toList.map (s.leaf .fieldRule) := by
  refine (peek.bind fun _ => (peekAt 1).bind fun _ => (peekAt 2).bind fun _ => ite
    (fun _ => (leaf ..).bind fun n => pure [n]) fun _ => pure []).congr ?_
  intro ns ds rest
  simp
  constructor
  · rintro (⟨⟨⟨hword, hnext⟩, hafter⟩, t, rfl, ht, rfl⟩ | ⟨h, rfl, rfl⟩)
    · refine ⟨some t, ?_, by simp, rfl, rfl⟩
      rintro _ ⟨rfl⟩
      exact ⟨ht, by simpa using hword, by simpa [Scope.next] using hnext, by simpa using hafter⟩
    · exact ⟨none, by simp, by simpa using h, rfl, rfl⟩
  · rintro ⟨_ | t, h, h', rfl, rfl⟩
    · exact .inr ⟨by simpa using h', rfl, rfl⟩
    · obtain ⟨ht, hword, hnext, hafter⟩ := h t rfl
      exact .inl ⟨⟨⟨by simpa using hword, by simpa [Scope.next] using hnext⟩,
            by simpa using hafter⟩,
        t, rfl, ht, rfl⟩

theorem field : Reads s Grammar.field (Derived s (.rule .field)) := by
  refine ((peek.bind fun first => fieldRule.bind fun rule => typeName.bind fun type =>
    (leaf ..).bind fun name => (expect ..).bind fun _ => (leaf ..).bind fun tag =>
      (closeWithOptions ..).bind fun close => node ..).below (.rule .field)).congr ?_
  intro n ds rest
  simp [Derived, DerivedToDot, from_field, and_assoc, List.getLast?_cons, List.getLast?_append]
  constructor
  · rintro ⟨word, m, name, equals, tag, last, options, type, rfl, hword, -, htype, hm, -, hname,
      hequals, htag, hoptions, hlast, rfl⟩
    refine ⟨word, type, name, equals, tag, options, last, rfl, ?_, htype, hname, hequals, htag,
      hoptions, hlast, ?_⟩
    · intro t ht
      exact ⟨(hword t ht).1, (hword t ht).2.1⟩
    · obtain ⟨first, pairs, hy, -, -⟩ := htype.typeName_yield
      cases word <;> simp [hy, ← hm]
  · rintro ⟨word, type, name, equals, tag, options, last, rfl, hword, htype, hname, hequals, htag,
      hoptions, hlast, rfl⟩
    obtain ⟨m, hm⟩ := htype.nodes_eq s
    obtain ⟨first, pairs, hy, hfirst, hp⟩ := htype.typeName_yield
    refine ⟨word, m, name, equals, tag, last, options, type, rfl, ?_, ?_, htype, hm.symm,
      by simp [hname], hname, hequals, htag, hoptions, hlast, ?_⟩
    · intro t ht
      refine ⟨(hword t ht).1, (hword t ht).2, by simp [hy, hfirst], ?_⟩
      cases pairs with
      | nil => simp [hy, hname]
      | cons p pairs => simp [hy, (hp p List.mem_cons_self).1]
    · rintro - -
      cases pairs with
      | nil => simp [hy, hequals]
      | cons p pairs => simp [hy, (hp p List.mem_cons_self).1]
    · cases word <;> simp [hy, hm]

/-- The request or response type of a method. The streaming word counts only if another word
follows it, so a type that is named like it ends before no word. -/
theorem messageType : ∃ R : Reading Node, Reads s Grammar.messageType R ∧
    (∀ {n ds rest}, R n ds rest → Derived s (.rule .messageType) n ds rest) ∧
      ∀ {n ds rest}, Derived s (.rule .messageType) n ds rest →
        (s.next rest).kind = .rparen → R n ds rest := by
  refine ⟨_, (peek.bind fun first => (peekAt 1).bind fun second => ite
    (fun _ => (leaf ..).bind fun marker => ((word ..).bind fun head => (dottedTail ..).bind
      fun more => (leaves ..).bind fun words => (node ..).bind fun path => node ..).below
        (.rule .fullIdent))
    fun _ => (fullIdent ..).bind fun n => pure (n.wrap .messageType)).below
      (.rule .messageType), ?_, ?_⟩
  · intro n ds rest
    simp [Derived, DerivedToDot, from_messageType, and_assoc]
    rintro _ rfl (⟨hstream, -, marker, first, pairs, rfl, hmarker, hfirst, -, hp, rfl⟩ |
      ⟨-, m, ⟨path, rfl, hpath, hm⟩, -, rfl⟩)
    · refine ⟨some marker, _, rfl, by simpa [Token.isWord, hmarker] using hstream,
        from_fullIdent.mpr ⟨first, pairs, rfl, hfirst, hp⟩, ?_⟩
      simp [List.getLast?_cons]
    · exact ⟨none, path, rfl, by simp, hpath, by simpa using hpath.wrap_eq hm _⟩
  · intro n ds rest
    simp [Derived, DerivedToDot, from_messageType, and_assoc]
    rintro (_ | marker) path rfl hmarker hpath rfl stop
    · obtain ⟨m, hm⟩ := hpath.nodes_eq s
      refine ⟨_, rfl, .inr ⟨?_, m, ⟨path, rfl, hpath, hm.symm⟩, by simp [stop], ?_⟩⟩
      · obtain ⟨first, _ | ⟨p, pairs⟩, hy, hfirst, hp⟩ := hpath.fullIdent_yield
        · have : (rest[0]?.getD s.last).kind = .rparen := stop
          simp [hy, this]
        · simp [hy, (hp p List.mem_cons_self).1]
      · rw [hpath.wrap_eq hm.symm]
        simp
    · obtain ⟨first, pairs, rfl, hfirst, hp⟩ := from_fullIdent.mp hpath
      have := hmarker marker rfl
      simp only [Token.isWord, Bool.and_eq_true, beq_iff_eq] at this
      refine ⟨_, rfl, .inl ⟨by simp [this], by simp [hfirst], marker, first, pairs, rfl, this.1,
        hfirst, by simp [stop], hp, ?_⟩⟩
      simp [List.getLast?_cons]

end Reads

end Parser

end ProtoSchema
