import ProtoSchema.Proofs.MemberReading

/-! # Reading definitions

Definitions share one shape: a keyword, a name, and a body of elements and semicolons. What their
parser reads is put together from what the parser of an element reads, provided that an element
starts with a word.
-/

namespace ProtoSchema

open Computability

namespace Derivation

theorem isWord_other {t : Token} {w v : String} (h : t.isWord w) (ne : w ≠ v) :
    t.isWord v = false := by
  simp only [Token.isWord, Bool.and_eq_true, beq_iff_eq] at h
  simp [Token.isWord, h, ne]

/-- The first token passes `p`. -/
def StartsWith (p : Token → Prop) (d : Derivation) : Prop :=
  ∃ t ts, d.yield = t :: ts ∧ p t

theorem StartsWith.imp {p q : Token → Prop} {d : Derivation} (h : d.StartsWith p)
    (imp : ∀ t, p t → q t) : d.StartsWith q := by
  obtain ⟨t, ts, hy, ht⟩ := h
  exact ⟨t, ts, hy, imp t ht⟩

/-- A node over tokens that start with a word. -/
def WordFirst (d : Derivation) : Prop :=
  (∃ x, d.Rooted x) ∧ d.StartsWith (·.kind = .ident)

/-- A definition by the word `w` with elements that pass `P`. -/
def Defines (r : Rule) (w : String) (P : Derivation → Prop) (d : Derivation) : Prop :=
  ∃ (first name left : Token) (elements : List Derivation) (right : Token),
    d = .node (.rule r) (.token first :: ofToken .ident name :: .token left ::
      (elements ++ [.token right])) ∧
    first.isWord w ∧ name.kind = .ident ∧ left.kind = .lbrace ∧
      (∀ d ∈ elements, d.Element P) ∧ right.kind = .rbrace

theorem from_definition {r : Rule} {w : String} {E : Language Derivation} {P : Derivation → Prop}
    (shape : form r = word w * rule .ident * body E)
    (elements : ∀ ds, Fits E ds ↔ ∃ d, P d ∧ ds = [d])
    {d : Derivation} : d.From (.rule r) ↔ Defines r w P d := by
  rw [from_iff]
  simp only [production, shape, fits_mul, fits_word, fits_rule, from_ident, fits_body elements]
  constructor
  · rintro ⟨_, rfl, _, ⟨_, ⟨first, hfirst, rfl⟩, _, ⟨_, ⟨name, hname, rfl⟩, rfl⟩, rfl⟩, _,
      ⟨left, es, right, hleft, he, hright, rfl⟩, rfl⟩
    exact ⟨first, name, left, es, right, rfl, hfirst, hname, hleft, he, hright⟩
  · rintro ⟨first, name, left, es, right, rfl, hfirst, hname, hleft, he, hright⟩
    exact ⟨_, rfl, _, ⟨_, ⟨first, hfirst, rfl⟩, _, ⟨_, ⟨name, hname, rfl⟩, rfl⟩, rfl⟩, _,
      ⟨left, es, right, hleft, he, hright, rfl⟩, rfl⟩

theorem from_enumDef {d : Derivation} : d.From (.rule .enumDef) ↔
    Defines .enumDef "enum" (fun e => e.From (.rule .enumValue) ∨ e.From (.rule .optionDecl)) d :=
  from_definition rfl fun ds => by
    simp only [fits_add, fits_rule, or_and_right, exists_or]

theorem from_serviceDef {d : Derivation} : d.From (.rule .serviceDef) ↔
    Defines .serviceDef "service"
    (fun e => e.From (.rule .rpcDef) ∨ e.From (.rule .optionDecl)) d :=
  from_definition rfl fun ds => by
    simp only [fits_add, fits_rule, or_and_right, exists_or]

/-- An element of a message whose nested messages pass `P`. -/
def MessageElement (P : Derivation → Prop) (d : Derivation) : Prop :=
  (d.From (.rule .field) ∧ ∀ t ∈ d.yield.head?, ¬t.isWord "option") ∨ P d ∨
    d.From (.rule .enumDef) ∨ d.From (.rule .optionDecl)

theorem from_messageDef {d : Derivation} : d.From (.rule .messageDef) ↔
    Defines .messageDef "message" (MessageElement (·.From (.rule .messageDef))) d :=
  from_definition rfl fun ds => by
    simp only [fits_add, fits_rule, fits_symbolWhere, MessageElement, or_and_right, exists_or,
      and_assoc, or_assoc]

/-- A message with at most `limit` messages inside each other. -/
def MessageUpTo (limit : Nat) (d : Derivation) : Prop :=
  d.From (.rule .messageDef) ∧ d.nesting ≤ limit

theorem messageUpTo_zero {d : Derivation} : ¬d.MessageUpTo 0 := by
  rintro ⟨⟨⟨parts, rfl⟩, -⟩, shallow⟩
  exact Nat.not_succ_le_zero _ shallow

theorem messageUpTo_succ {limit : Nat} {d : Derivation} : d.MessageUpTo (limit + 1) ↔
    Defines .messageDef "message" (MessageElement (MessageUpTo limit)) d := by
  have element {e : Derivation} : e.Element (MessageElement (MessageUpTo limit)) ↔
      e.Element (MessageElement (·.From (.rule .messageDef))) ∧ e.nesting ≤ limit := by
    constructor
    · rintro ((⟨hf, hw⟩ | ⟨hm, shallow⟩ | he | ho) | ⟨t, ht, rfl⟩)
      · exact ⟨.inl (.inl ⟨hf, hw⟩), by simp [hf.nesting_eq_zero]⟩
      · exact ⟨.inl (.inr (.inl hm)), shallow⟩
      · exact ⟨.inl (.inr (.inr (.inl he))), by simp [he.nesting_eq_zero]⟩
      · exact ⟨.inl (.inr (.inr (.inr ho))), by simp [ho.nesting_eq_zero]⟩
      · exact ⟨.inr ⟨t, ht, rfl⟩, Nat.zero_le _⟩
    · rintro ⟨(hf | hm | he | ho) | ht, shallow⟩
      · exact .inl (.inl hf)
      · exact .inl (.inr (.inl ⟨hm, shallow⟩))
      · exact .inl (.inr (.inr (.inl he)))
      · exact .inl (.inr (.inr (.inr ho)))
      · exact .inr ht
  rw [MessageUpTo, from_messageDef]
  constructor
  · rintro ⟨⟨first, name, left, es, right, rfl, hfirst, hname, hleft, he, hright⟩, shallow⟩
    refine ⟨first, name, left, es, right, rfl, hfirst, hname, hleft, ?_, hright⟩
    have shallow := nestingList_le.mp (Nat.le_of_succ_le_succ shallow)
    exact fun e h => element.mpr ⟨he e h, shallow e (by simp [h])⟩
  · rintro ⟨first, name, left, es, right, rfl, hfirst, hname, hleft, he, hright⟩
    refine ⟨⟨first, name, left, es, right, rfl, hfirst, hname, hleft,
      fun e h => (element.mp (he e h)).1, hright⟩, Nat.succ_le_succ (nestingList_le.mpr ?_)⟩
    intro e h
    simp only [List.mem_cons, List.mem_append, List.not_mem_nil, or_false] at h
    obtain rfl | rfl | rfl | h | rfl := h
    all_goals first | exact Nat.zero_le _ | exact (element.mp (he e h)).2

/-- The end of a method. -/
def MethodEnd (ds : List Derivation) : Prop :=
  (∃ last : Token, last.kind = .semicolon ∧ ds = [.token last]) ∨
    ∃ (left : Token) (elements : List Derivation) (right : Token), left.kind = .lbrace ∧
      (∀ d ∈ elements, d.Element (·.From (.rule .optionDecl))) ∧ right.kind = .rbrace ∧
        ds = .token left :: (elements ++ [.token right])

theorem from_rpcDef {d : Derivation} : d.From (.rule .rpcDef) ↔
    ∃ (first name left : Token) (request : Derivation) (right returns open' : Token)
      (response : Derivation) (close : Token) (ends : List Derivation),
      d = .node (.rule .rpcDef) (.token first :: ofToken .ident name :: .token left :: request ::
        .token right :: .token returns :: .token open' :: response :: .token close :: ends) ∧
      first.isWord "rpc" ∧ name.kind = .ident ∧ left.kind = .lparen ∧
        request.From (.rule .messageType) ∧ right.kind = .rparen ∧ returns.isWord "returns" ∧
          open'.kind = .lparen ∧ response.From (.rule .messageType) ∧ close.kind = .rparen ∧
            MethodEnd ends := by
  have ends (ds) : Fits (kind .semicolon + body (rule .optionDecl)) ds ↔ MethodEnd ds := by
    rw [fits_add, fits_kind, fits_body fun _ => fits_rule]
    rfl
  rw [from_iff]
  simp only [production, form, fits_mul, ends, fits_word, fits_kind, fits_rule, from_ident]
  simp [and_assoc]
  constructor
  · rintro ⟨ends, close, response, open', returns, right, request, left, first, name, h⟩
    exact ⟨first, name, left, request, right, returns, open', response, close, ends, h⟩
  · rintro ⟨first, name, left, request, right, returns, open', response, close, ends, h⟩
    exact ⟨ends, close, response, open', returns, right, request, left, first, name, h⟩

theorem Defines.startsWith {r : Rule} {w : String} {P : Derivation → Prop} {d : Derivation}
    (h : Defines r w P d) : d.StartsWith (·.isWord w) := by
  obtain ⟨first, name, left, es, right, rfl, hfirst, -⟩ := h
  exact ⟨first, _, rfl, hfirst⟩

/-- A definition is told from a field by its first three tokens. -/
theorem Defines.yield_eq {r : Rule} {w : String} {P : Derivation → Prop} {d : Derivation}
    (h : Defines r w P d) : ∃ first second third more, d.yield = first :: second :: third :: more ∧
      first.isWord w ∧ second.kind = .ident ∧ third.kind = .lbrace := by
  obtain ⟨first, name, left, es, right, rfl, hfirst, hname, hleft, -⟩ := h
  exact ⟨first, name, left, _, rfl, hfirst, hname, hleft⟩

theorem From.optionDecl_startsWith {d : Derivation} (h : d.From (.rule .optionDecl)) :
    d.StartsWith (·.isWord "option") := by
  obtain ⟨first, name, equals, value, last, rfl, hfirst, -⟩ := from_optionDecl.mp h
  exact ⟨first, _, rfl, hfirst⟩

/-- What follows the option keyword is no equals sign, unlike what follows the name of a value. -/
theorem From.optionDecl_yield {d : Derivation} (h : d.From (.rule .optionDecl)) :
    ∃ first second more, d.yield = first :: second :: more ∧ first.isWord "option" ∧
      second.kind ≠ .equals := by
  obtain ⟨first, name, equals, value, last, rfl, hfirst, hname, -⟩ := from_optionDecl.mp h
  obtain ⟨_, rfl, ⟨word, pairs, hword, -, rfl⟩ | ⟨left, path, right, pairs, hleft, -, -, -, rfl⟩⟩ :=
    from_optionName.mp hname
  · exact ⟨first, word, _, rfl, hfirst, by simp [hword]⟩
  · exact ⟨first, left, _, rfl, hfirst, by simp [hleft]⟩

theorem From.importDecl_startsWith {d : Derivation} (h : d.From (.rule .importDecl)) :
    d.StartsWith (·.isWord "import") := by
  obtain ⟨first, _, path, last, rfl, hfirst, -⟩ := from_importDecl.mp h
  exact ⟨first, _, rfl, hfirst⟩

theorem From.rpcDef_startsWith {d : Derivation} (h : d.From (.rule .rpcDef)) :
    d.StartsWith (·.isWord "rpc") := by
  obtain ⟨first, _, _, _, _, _, _, _, _, _, rfl, hfirst, -⟩ := from_rpcDef.mp h
  exact ⟨first, _, rfl, hfirst⟩

theorem From.enumValue_startsWith {d : Derivation} (h : d.From (.rule .enumValue)) :
    d.StartsWith (·.kind = .ident) := by
  obtain ⟨name, _, _, _, _, rfl, hname, -⟩ := from_enumValue.mp h
  exact ⟨name, _, rfl, hname⟩

/-- A field is no definition: its third token opens no body. -/
theorem From.field_yield {d : Derivation} (h : d.From (.rule .field)) :
    ∃ first second third more, d.yield = first :: second :: third :: more ∧ first.kind = .ident ∧
      third.kind ≠ .lbrace := by
  obtain ⟨word, type, name, equals, tag, options, last, rfl, hword, htype, hname, hequals, -⟩ :=
    from_field.mp h
  obtain ⟨first, _ | ⟨p, pairs⟩, hy, hfirst, hp⟩ := htype.typeName_yield
  · cases word with
    | none => exact ⟨first, name, equals, _, by simp [hy]; rfl, hfirst, by simp [hequals]⟩
    | some t => exact ⟨t, first, name, _, by simp [hy]; rfl, (hword t rfl).1, by simp [hname]⟩
  · obtain ⟨hdot, hw⟩ := hp p List.mem_cons_self
    cases word with
    | none => exact ⟨first, p.1, p.2, _, by simp [hy]; rfl, hfirst, by simp [hw]⟩
    | some t => exact ⟨t, first, p.1, _, by simp [hy]; rfl, (hword t rfl).1, by simp [hdot]⟩

theorem From.wordFirst {x : Symbol} {d : Derivation} {w : String} (h : d.From x)
    (starts : d.StartsWith (·.isWord w)) : d.WordFirst :=
  ⟨⟨x, h.rooted⟩, starts.imp fun t ht => by simp_all [Token.isWord]⟩

theorem enumElement_wordFirst {d : Derivation}
    (h : d.From (.rule .enumValue) ∨ d.From (.rule .optionDecl)) : d.WordFirst := by
  obtain h | h := h
  · exact ⟨⟨_, h.rooted⟩, h.enumValue_startsWith⟩
  · exact h.wordFirst h.optionDecl_startsWith

theorem serviceElement_wordFirst {d : Derivation}
    (h : d.From (.rule .rpcDef) ∨ d.From (.rule .optionDecl)) : d.WordFirst := by
  obtain h | h := h
  · exact h.wordFirst h.rpcDef_startsWith
  · exact h.wordFirst h.optionDecl_startsWith

theorem MessageElement.wordFirst {P : Derivation → Prop} {d : Derivation}
    (message : ∀ d, P d → d.From (.rule .messageDef)) (h : d.MessageElement P) : d.WordFirst := by
  obtain ⟨hf, -⟩ | hm | he | ho := h
  · obtain ⟨first, _, _, _, hy, hfirst, -⟩ := hf.field_yield
    exact ⟨⟨_, hf.rooted⟩, first, _, hy, hfirst⟩
  · have h := message d hm
    exact h.wordFirst (from_messageDef.mp h).startsWith
  · exact he.wordFirst (from_enumDef.mp he).startsWith
  · exact ho.wordFirst ho.optionDecl_startsWith

end Derivation

namespace Parser

open ProtoSchema.Derivation

/-- The reading of a single derivation that passes `P`, and its node. -/
def Single (s : Scope) (P : Derivation → Prop) : Reading Node := fun n ds _ =>
  ∃ d, ds = [d] ∧ P d ∧ [n] = nodes s d

variable {s : Scope} {P Q : Derivation → Prop}

theorem repeats_iff {more : Token → Bool} {f : α → List Node} {as : List α} {ds : List Derivation}
    {rest : List Token} (starts : ∀ d, P d → d.StartsWith (more ·)) :
    Repeats s more (fun a ds _ => ∃ d, ds = [d] ∧ P d ∧ f a = nodes s d) as ds rest ↔
      (∀ d ∈ ds, P d) ∧ as.map f = ds.map (nodes s) ∧ more (s.next rest) = false := by
  constructor
  · intro h
    induction h with
    | nil stop => exact ⟨by simp, rfl, stop⟩
    | cons go head tail ih =>
        obtain ⟨d, rfl, hd, hn⟩ := head
        exact ⟨List.forall_mem_cons.mpr ⟨hd, ih.1⟩, by simp [hn, ih.2.1], ih.2.2⟩
  · rintro ⟨h, same, stop⟩
    induction ds generalizing as with
    | nil =>
        obtain rfl : as = [] := by simpa using same
        exact .nil stop
    | cons d ds ih =>
        obtain ⟨a, as, rfl⟩ : ∃ a as', as = a :: as' := by
          cases as with
          | nil => simp at same
          | cons a as => exact ⟨a, as, rfl⟩
        rw [List.map_cons, List.map_cons, List.cons_eq_cons] at same
        obtain ⟨hd, hds⟩ := List.forall_mem_cons.mp h
        obtain ⟨t, ts, hy, ht⟩ := starts d hd
        rw [← List.singleton_append]
        exact .cons (by simpa [hy] using ht) ⟨d, rfl, hd, same.1⟩ (ih hds same.2)

namespace Reads

theorem manySingles {more : Token → Bool} {f : α → List Node} {item : Parser α}
    (h : Reads s item fun a ds _ => ∃ d, ds = [d] ∧ P d ∧ f a = nodes s d)
    (starts : ∀ d, P d → d.StartsWith (more ·)) : Reads s (Parser.many more item) fun as ds rest =>
      (∀ d ∈ ds, P d) ∧ as.map f = ds.map (nodes s) ∧ more (s.next rest) = false := by
  refine (many h ?_).congr fun as ds rest => repeats_iff starts
  rintro a _ rest ⟨d, rfl, hd, -⟩
  obtain ⟨t, ts, hy, -⟩ := starts d hd
  simp [hy]

theorem block {element : Parser Node} (h : Reads s element (Single s P))
    (words : ∀ d, P d → d.WordFirst) : Reads s (Grammar.block element)
      fun r ds _ => ∃ elements, (∀ d ∈ elements, d.Element P) ∧ r.2.kind = .rbrace ∧
        ds = elements ++ [.token r.2] ∧ r.1 = nodesList s elements := by
  have item : Reads s (do
      if (← Parser.peek).kind = .semicolon then
        let _ ← Parser.advance
        return []
      else
        return [← element]) fun ns ds _ => ∃ d, ds = [d] ∧ d.Element P ∧ id ns = nodes s d := by
    refine (peek.bind fun _ => ite (fun _ => advance.bind fun _ => pure [])
      fun _ => h.bind fun n => pure [n]).congr ?_
    intro ns ds rest
    simp [Single, Element]
    constructor
    · rintro (⟨hk, ⟨t, rfl⟩, rfl⟩ | ⟨-, n, ⟨d, rfl, hd, hn⟩, rfl⟩)
      · exact ⟨_, rfl, .inr ⟨t, by simpa using hk, rfl⟩, rfl⟩
      · exact ⟨d, rfl, .inl hd, hn⟩
    · rintro ⟨d, rfl, hd | ⟨t, ht, rfl⟩, rfl⟩
      · obtain ⟨⟨x, root⟩, t, ts, hy, ht⟩ := words d hd
        obtain ⟨n, hn⟩ := root.nodes_eq s
        exact .inr ⟨by simp [hy, ht], n, ⟨d, rfl, hd, hn.symm⟩, hn⟩
      · exact .inl ⟨by simpa using ht, ⟨t, rfl⟩, rfl⟩
  refine ((manySingles item ?_).bind fun elements => advance.bind fun last =>
    pure (elements.flatten, last)).congr ?_
  · rintro d (hd | ⟨t, ht, rfl⟩)
    · exact (words d hd).2.imp fun t ht => by simp [ht]
    · exact ⟨t, [], rfl, by simp [ht]⟩
  · rintro ⟨ns, last⟩ ds rest
    simp [nodesList_eq_flatMap, ← List.flatMap_def]
    constructor
    · rintro ⟨elements, rfl, ⟨he, hlast⟩, rfl⟩
      exact ⟨elements, he, hlast, rfl, rfl⟩
    · rintro ⟨elements, he, hlast, rfl, rfl⟩
      exact ⟨elements, rfl, ⟨he, hlast⟩, rfl⟩

theorem definition {r : Rule} {w : String} {element : Parser Node}
    (hr : (Symbol.rule r).isSpan = false) (h : Reads s element (Single s P))
    (words : ∀ d, P d → d.WordFirst) :
    Reads s (Grammar.definition w r element) (Single s (Defines r w P)) := by
  refine (((keyword ..).bind fun first => (leaf ..).bind fun name => (expect ..).bind fun _ =>
    (block h words).bind fun body => node ..).below (.rule r)).congr ?_
  intro n ds rest
  simp [Single, Defines, and_assoc, List.getLast?_cons, List.getLast?_append] at hr ⊢
  simp [hr]
  constructor
  · rintro ⟨first, name, left, right, elements, h⟩
    exact ⟨first, name, left, elements, right, h⟩
  · rintro ⟨first, name, left, elements, right, h⟩
    exact ⟨first, name, left, right, elements, h⟩

theorem enumElement : Reads s Grammar.enumElement
    (Single s fun d => d.From (.rule .enumValue) ∨ d.From (.rule .optionDecl)) := by
  refine (peek.bind fun _ => (peekAt 1).bind fun _ => ite (fun _ => optionDecl) fun _ => ite
    (fun _ => enumValue) fun _ => mismatch).congr ?_
  intro n ds rest
  simp [Single, Derived]
  constructor
  · rintro (⟨-, d, rfl, hd, hn⟩ | ⟨-, -, d, rfl, hd, hn⟩)
    · exact ⟨d, rfl, .inr hd, hn⟩
    · exact ⟨d, rfl, .inl hd, hn⟩
  · rintro ⟨d, rfl, hd | hd, hn⟩
    · obtain ⟨name, equals, number, options, last, rfl, hname, hequals, -⟩ := from_enumValue.mp hd
      exact .inr ⟨fun _ => by simp [hequals], by simp [hname], _, rfl, hd, hn⟩
    · obtain ⟨first, second, more, hy, hfirst, hsecond⟩ := hd.optionDecl_yield
      exact .inl ⟨⟨by simpa [hy] using hfirst, by simpa [hy] using hsecond⟩, d, rfl, hd, hn⟩

theorem enumDef : Reads s Grammar.enumDef (Derived s (.rule .enumDef)) := by
  refine (definition rfl enumElement fun _ => enumElement_wordFirst).congr ?_
  intro n ds rest
  simp only [Single, Derived, from_enumDef]

theorem rpcElement : Reads s Grammar.rpcElement (Derived s (.rule .optionDecl)) := by
  refine (peek.bind fun _ => ite (fun _ => optionDecl) fun _ => mismatch).congr ?_
  intro n ds rest
  simp [Derived]
  rintro d rfl hd -
  obtain ⟨t, ts, hy, ht⟩ := hd.optionDecl_startsWith
  simpa [hy] using ht

theorem rpcBody : Reads s Grammar.rpcBody fun r ds _ =>
    MethodEnd ds ∧ r.1 = nodesList s ds ∧ (yieldList ds).getLast? = some r.2 := by
  refine (peek.bind fun _ => ite (fun _ => advance.bind fun _ => block rpcElement fun d hd =>
    hd.wordFirst hd.optionDecl_startsWith)
      fun _ => (expectAs ..).bind fun last => pure ([], last)).congr ?_
  rintro ⟨ns, last⟩ ds rest
  simp [MethodEnd]
  constructor
  · rintro (⟨hk, left, elements, rfl, he, hlast, rfl⟩ | ⟨-, rfl, hlast, rfl⟩)
    · exact ⟨.inr ⟨left, by simpa using hk, elements, he, last, hlast, rfl⟩, by simp,
        by simp [List.getLast?_cons]⟩
    · exact ⟨.inl ⟨last, hlast, rfl⟩, rfl, rfl⟩
  · rintro ⟨⟨t, ht, rfl⟩ | ⟨left, hleft, elements, he, right, hright, rfl⟩, rfl, hlast⟩
    · obtain rfl : t = last := by simpa using hlast
      exact .inr ⟨by simp [ht], rfl, ht, rfl⟩
    · obtain rfl : right = last := by simpa [List.getLast?_cons] using hlast
      exact .inl ⟨by simp [hleft], left, elements, rfl, he, hright, by simp⟩

theorem rpcDef : Reads s Grammar.rpcDef (Derived s (.rule .rpcDef)) := by
  obtain ⟨R, reads, sound, complete⟩ := messageType (s := s)
  refine (((keyword ..).bind fun first => (leaf ..).bind fun name => (expect ..).bind fun _ =>
    reads.bind fun request => (expect ..).bind fun _ => (keyword ..).bind fun _ => (expect ..).bind
      fun _ => reads.bind fun response => (expect ..).bind fun _ => rpcBody.bind fun ends =>
        node ..).below (.rule .rpcDef)).congr ?_
  intro n ds rest
  simp [Derived, from_rpcDef, and_assoc, List.getLast?_cons, List.getLast?_append]
  constructor
  · rintro ⟨first, name, left, m, ds, right, returns, open', m', es, close, last, ends, rfl, hfirst,
      hname, hleft, hR, hright, hreturns, hopen, hR', hclose, hends, hlast, rfl⟩
    obtain ⟨request, rfl, hrequest, hm⟩ := sound hR
    obtain ⟨response, rfl, hresponse, hm'⟩ := sound hR'
    exact ⟨first, name, left, request, right, returns, open', response, close, ends, rfl, hfirst,
      hname, hleft, hrequest, hright, hreturns, hopen, hresponse, hclose, hends,
      by simp [hlast, ← hm, ← hm']⟩
  · rintro ⟨first, name, left, request, right, returns, open', response, close, ends, rfl, hfirst,
      hname, hleft, hrequest, hright, hreturns, hopen, hresponse, hclose, hends, rfl⟩
    obtain ⟨m, hm⟩ := hrequest.nodes_eq s
    obtain ⟨m', hm'⟩ := hresponse.nodes_eq s
    obtain ⟨last, hlast⟩ : ∃ last, (yieldList ends).getLast? = some last := by
      obtain ⟨last, -, rfl⟩ | ⟨left, elements, right, -, -, -, rfl⟩ := hends
      · exact ⟨last, rfl⟩
      · exact ⟨right, by simp [List.getLast?_cons]⟩
    exact ⟨first, name, left, m, [request], right, returns, open', m', [response], close,
      last, ends, rfl, hfirst, hname, hleft,
      complete ⟨request, rfl, hrequest, hm.symm⟩ hright, hright, hreturns, hopen,
      complete ⟨response, rfl, hresponse, hm'.symm⟩ hclose, hclose, hends, hlast,
      by simp [hlast, hm, hm']⟩

theorem serviceElement : Reads s Grammar.serviceElement
    (Single s fun d => d.From (.rule .rpcDef) ∨ d.From (.rule .optionDecl)) := by
  refine (peek.bind fun _ => ite (fun _ => rpcDef) fun _ => ite (fun _ => optionDecl)
    fun _ => mismatch).congr ?_
  intro n ds rest
  simp [Single, Derived]
  constructor
  · rintro (⟨-, d, rfl, hd, hn⟩ | ⟨-, -, d, rfl, hd, hn⟩)
    · exact ⟨d, rfl, .inl hd, hn⟩
    · exact ⟨d, rfl, .inr hd, hn⟩
  · rintro ⟨d, rfl, hd | hd, hn⟩
    · obtain ⟨t, ts, hy, ht⟩ := hd.rpcDef_startsWith
      exact .inl ⟨by simpa [hy] using ht, d, rfl, hd, hn⟩
    · obtain ⟨t, ts, hy, ht⟩ := hd.optionDecl_startsWith
      exact .inr ⟨by simpa [hy] using isWord_other ht (by decide), by simpa [hy] using ht,
            d, rfl, hd,
        hn⟩

theorem serviceDef : Reads s Grammar.serviceDef (Derived s (.rule .serviceDef)) := by
  refine (definition rfl serviceElement fun _ => serviceElement_wordFirst).congr ?_
  intro n ds rest
  simp only [Single, Derived, from_serviceDef]

theorem atDefinition (w : String) : Reads s (Grammar.atDefinition w) fun b ds rest =>
    b = ((s.next rest).isWord w && (rest[1]?.getD s.last).kind == .ident &&
      (rest[2]?.getD s.last).kind == .lbrace) ∧ ds = [] := by
  refine (peek.bind fun _ => (peekAt 1).bind fun _ => (peekAt 2).bind fun _ => pure _).congr ?_
  intro b ds rest
  simp [and_comm]

theorem messageElement {nested : Parser Node} {P : Derivation → Prop}
    (h : Reads s nested (Single s P)) (message : ∀ d, P d → d.From (.rule .messageDef)) :
    Reads s (Grammar.messageElement nested) (Single s (MessageElement P)) := by
  refine (peek.bind fun _ => (atDefinition "message").bind fun _ => ite (fun _ => h) fun _ =>
    (atDefinition "enum").bind fun _ => ite (fun _ => enumDef) fun _ => ite (fun _ => optionDecl)
      fun _ => ite (fun _ => field) fun _ => mismatch).congr ?_
  intro n ds rest
  simp [Single, Derived, MessageElement, and_assoc]
  constructor
  · rintro (⟨-, -, -, d, rfl, hd, hn⟩ | ⟨-, ⟨-, -, -, d, rfl, hd, hn⟩ | ⟨-, ⟨-, d, rfl, hd, hn⟩ |
      ⟨hw, -, d, rfl, hd, hn⟩⟩⟩)
    · exact ⟨d, rfl, .inr (.inl hd), hn⟩
    · exact ⟨d, rfl, .inr (.inr (.inl hd)), hn⟩
    · exact ⟨d, rfl, .inr (.inr (.inr hd)), hn⟩
    · obtain ⟨first, second, third, more, hy, -⟩ := hd.field_yield
      exact ⟨d, rfl, .inl ⟨hd, by simpa [hy] using hw⟩, hn⟩
  · rintro ⟨d, rfl, ⟨hd, hw⟩ | hd | hd | hd, hn⟩
    · obtain ⟨first, second, third, more, hy, hfirst, hthird⟩ := hd.field_yield
      simp only [yieldList_cons, yieldList_nil, List.append_nil, hy] at hw ⊢
      exact .inr ⟨fun _ _ => hthird, .inr ⟨fun _ _ => hthird,
        .inr ⟨hw _ rfl, hfirst, d, rfl, hd, hn⟩⟩⟩
    · obtain ⟨first, second, third, more, hy, hfirst, hsecond, hthird⟩ :=
        (from_messageDef.mp (message d hd)).yield_eq
      simp only [yieldList_cons, yieldList_nil, List.append_nil, hy]
      exact .inl ⟨hfirst, hsecond, hthird, d, rfl, hd, hn⟩
    · obtain ⟨first, second, third, more, hy, hfirst, hsecond, hthird⟩ :=
        (from_enumDef.mp hd).yield_eq
      simp only [yieldList_cons, yieldList_nil, List.append_nil, hy]
      exact .inr ⟨by simp [isWord_other hfirst], .inl ⟨hfirst, hsecond, hthird, d, rfl, hd, hn⟩⟩
    · obtain ⟨first, more, hy, hfirst⟩ := hd.optionDecl_startsWith
      simp only [yieldList_cons, yieldList_nil, List.append_nil, hy]
      exact .inr ⟨by simp [isWord_other hfirst], .inr ⟨by simp [isWord_other hfirst],
        .inl ⟨hfirst, d, rfl, hd, hn⟩⟩⟩

theorem messageDef (limit : Nat) :
    Reads s (Grammar.messageDef limit) (Single s (MessageUpTo limit)) := by
  induction limit with
  | zero => exact failed.congr (by simp [Single, messageUpTo_zero])
  | succ limit ih =>
      have message (d : Derivation) (h : MessageUpTo limit d) : d.From (.rule .messageDef) := h.1
      refine (definition rfl (messageElement ih message) fun _ =>
        MessageElement.wordFirst message).congr ?_
      intro n ds rest
      simp only [Single, messageUpTo_succ]

end Reads

end Parser

end ProtoSchema
