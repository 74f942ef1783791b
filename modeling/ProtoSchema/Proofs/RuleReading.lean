import ProtoSchema.Proofs.Reading

/-! # Reading names, types and statements

Each parser of a rule reads exactly the valid derivations of that rule. A rule that ends in a loop
over dots takes all of them, so it reads a derivation only where no further dot follows.
-/

namespace ProtoSchema

open Computability

namespace Derivation

/-- A single token below a rule. -/
def ofToken (r : Rule) (t : Token) : Derivation :=
  .node (.rule r) [.token t]

@[simp] theorem yield_ofToken (r : Rule) (t : Token) : yield (ofToken r t) = [t] := rfl

@[simp] theorem nodes_ofToken (s : Parser.Scope) (r : Rule) (t : Token) :
    nodes s (ofToken r t) = [s.leaf r t] := by
  simp [ofToken, Parser.Scope.leaf]

@[simp] theorem yieldList_ofTokens (r : Rule) (ts : List Token) :
    yieldList (ts.map (ofToken r)) = ts := by
  induction ts with
  | nil => rfl
  | cons t ts ih => simp [ih]

@[simp] theorem nodesList_ofTokens (s : Parser.Scope) (r : Rule) (ts : List Token) :
    nodesList s (ts.map (ofToken r)) = ts.map (s.leaf r) := by
  induction ts with
  | nil => rfl
  | cons t ts ih => simp [ih]

theorem from_letter {r : Rule} {p : Token → Prop} (h : form r = letter p) {d : Derivation} :
    d.From (.rule r) ↔ ∃ t, p t ∧ d = ofToken r t := by
  simp only [from_iff, production, h, fits_letter]
  constructor
  · rintro ⟨_, rfl, t, ht, rfl⟩
    exact ⟨t, ht, rfl⟩
  · rintro ⟨t, ht, rfl⟩
    exact ⟨_, rfl, t, ht, rfl⟩

@[simp] theorem from_ident {d : Derivation} :
    d.From (.rule .ident) ↔ ∃ t : Token, t.kind = .ident ∧ d = ofToken .ident t :=
  from_letter rfl

@[simp] theorem from_number {d : Derivation} :
    d.From (.rule .number) ↔ ∃ t : Token, t.kind = .number ∧ d = ofToken .number t :=
  from_letter rfl

@[simp] theorem from_stringLit {d : Derivation} :
    d.From (.rule .stringLit) ↔ ∃ t : Token, t.kind = .stringLit ∧ d = ofToken .stringLit t :=
  from_letter rfl

@[simp] theorem from_stream {d : Derivation} :
    d.From (.rule .stream) ↔ ∃ t : Token, t.isWord "stream" ∧ d = ofToken .stream t :=
  from_letter rfl

@[simp] theorem from_fieldRule {d : Derivation} : d.From (.rule .fieldRule) ↔
    ∃ t : Token, (t.kind = .ident ∧ t.text ∈ Grammar.fieldRules) ∧ d = ofToken .fieldRule t :=
  from_letter rfl

@[simp] theorem from_primitiveType {d : Derivation} : d.From (.rule .primitiveType) ↔
    ∃ t : Token, (t.kind = .ident ∧ t.text ∈ Grammar.primitives) ∧ d = ofToken .primitiveType t :=
  from_letter rfl

/-! ## Dotted names -/

/-- Dots, each with a word after it. -/
def dotted (pairs : List (Token × Token)) : List Derivation :=
  pairs.flatMap fun p => [.token p.1, ofToken .ident p.2]

@[simp] theorem dotted_nil : dotted [] = [] := rfl

@[simp] theorem dotted_cons (p : Token × Token) (pairs : List (Token × Token)) :
    dotted (p :: pairs) = .token p.1 :: ofToken .ident p.2 :: dotted pairs := rfl

@[simp] theorem nodesList_dotted (s : Parser.Scope) (pairs : List (Token × Token)) :
    nodesList s (dotted pairs) = (pairs.map (·.2)).map (s.leaf .ident) := by
  induction pairs with
  | nil => rfl
  | cons p pairs ih => simp [ih]

theorem yieldList_dotted (pairs : List (Token × Token)) :
    yieldList (dotted pairs) = pairs.flatMap fun p => [p.1, p.2] := by
  induction pairs with
  | nil => rfl
  | cons p pairs ih => simp [ih]

@[simp] theorem getLast?_dotted (pairs : List (Token × Token)) :
    (yieldList (dotted pairs)).getLast? = (pairs.map (·.2)).getLast? := by
  induction pairs with
  | nil => rfl
  | cons p pairs ih => simp [List.getLast?_cons, ih]

/-- Each pair is a dot and a word. -/
def Dotted (pairs : List (Token × Token)) : Prop :=
  ∀ p ∈ pairs, p.1.kind = .dot ∧ p.2.kind = .ident

@[simp] theorem fits_dotted {ds : List Derivation} :
    Fits (kind .dot * rule .ident)∗ ds ↔ ∃ pairs, Dotted pairs ∧ ds = dotted pairs := by
  constructor
  · rintro ⟨⟨rounds, rfl, h⟩, valid⟩
    induction rounds with
    | nil => exact ⟨[], by simp [Dotted], rfl⟩
    | cons ds rounds ih =>
        simp only [List.flatten_cons, List.mem_append, or_imp, forall_and] at valid
        obtain ⟨pairs, hp, same⟩ := ih (fun y hy => h y (List.mem_cons_of_mem _ hy)) valid.2
        have round : Fits (kind .dot * rule .ident) ds := ⟨h ds List.mem_cons_self, valid.1⟩
        simp only [fits_mul, fits_kind, fits_rule, from_ident] at round
        obtain ⟨_, ⟨dot, hdot, rfl⟩, _, ⟨_, ⟨w, hw, rfl⟩, rfl⟩, rfl⟩ := round
        refine ⟨(dot, w) :: pairs, ?_, by rw [List.flatten_cons, same]; rfl⟩
        exact List.forall_mem_cons.mpr ⟨⟨hdot, hw⟩, hp⟩
  · rintro ⟨pairs, h, rfl⟩
    have round : ∀ p ∈ pairs,
        Fits (kind .dot * rule .ident) [.token p.1, ofToken .ident p.2] := by
      intro p hp
      simp only [fits_mul, fits_kind, fits_rule, from_ident]
      exact ⟨_, ⟨p.1, (h p hp).1, rfl⟩, _, ⟨_, ⟨p.2, (h p hp).2, rfl⟩, rfl⟩, rfl⟩
    refine ⟨⟨pairs.map fun p => [.token p.1, ofToken .ident p.2], rfl, ?_⟩, ?_⟩
    · intro es hes
      obtain ⟨p, hp, rfl⟩ := List.mem_map.mp hes
      exact (round p hp).1
    · intro d hd
      obtain ⟨p, hp, hd⟩ := List.mem_flatMap.mp hd
      exact (round p hp).2 d hd

theorem from_fullIdent {d : Derivation} : d.From (.rule .fullIdent) ↔
    ∃ first pairs, d = .node (.rule .fullIdent) (ofToken .ident first :: dotted pairs) ∧
      first.kind = .ident ∧ Dotted pairs := by
  rw [from_iff]
  simp [production, form]

/-! ## Statements -/

theorem from_syntaxDecl {d : Derivation} : d.From (.rule .syntaxDecl) ↔
    ∃ first equals version last, d = .node (.rule .syntaxDecl)
        [.token first, .token equals, ofToken .stringLit version, .token last] ∧
      first.isWord "syntax" ∧ equals.kind = .equals ∧ version.kind = .stringLit ∧
        last.kind = .semicolon := by
  rw [from_iff]
  simp [production, form, and_assoc]

theorem from_packageDecl {d : Derivation} : d.From (.rule .packageDecl) ↔
    ∃ first path last, d = .node (.rule .packageDecl) [.token first, path, .token last] ∧
      first.isWord "package" ∧ path.From (.rule .fullIdent) ∧ last.kind = .semicolon := by
  rw [from_iff]
  simp [production, form, and_assoc]

theorem from_importDecl {d : Derivation} : d.From (.rule .importDecl) ↔
    ∃ first, ∃ visibility : Option Token, ∃ path last, d = .node (.rule .importDecl)
        (.token first :: visibility.toList.map .token ++
          [ofToken .stringLit path, .token last]) ∧
      first.isWord "import" ∧ (∀ t ∈ visibility, t.isWord "public" ∨ t.isWord "weak") ∧
        path.kind = .stringLit ∧ last.kind = .semicolon := by
  rw [from_iff]
  simp only [production, form, fits_mul, fits_add, fits_word, fits_one, fits_rule, fits_kind,
    from_stringLit]
  constructor
  · rintro ⟨_, rfl, _, ⟨_, ⟨_, ⟨first, hfirst, rfl⟩, vs, hv, rfl⟩, _, ⟨_, ⟨path, hpath, rfl⟩, rfl⟩,
      rfl⟩, _, ⟨last, hlast, rfl⟩, rfl⟩
    obtain (rfl | ⟨v, hv, rfl⟩) | ⟨v, hv, rfl⟩ := hv
    · exact ⟨first, none, path, last, rfl, hfirst, by simp, hpath, hlast⟩
    · exact ⟨first, some v, path, last, rfl, hfirst, by simp [hv], hpath, hlast⟩
    · exact ⟨first, some v, path, last, rfl, hfirst, by simp [hv], hpath, hlast⟩
  · rintro ⟨first, visibility, path, last, rfl, hfirst, hv, hpath, hlast⟩
    refine ⟨_, rfl, _, ⟨_, ⟨_, ⟨first, hfirst, rfl⟩, _, ?_, rfl⟩, _, ⟨_, ⟨path, hpath, rfl⟩, rfl⟩,
      rfl⟩, _, ⟨last, hlast, rfl⟩, by simp; rfl⟩
    cases visibility with
    | none => exact .inl (.inl rfl)
    | some v =>
        obtain hv | hv := hv v rfl
        · exact .inl (.inr ⟨v, hv, rfl⟩)
        · exact .inr ⟨v, hv, rfl⟩

theorem from_optionName {d : Derivation} : d.From .optionName ↔
    ∃ parts, d = .node .optionName parts ∧
      ((∃ first pairs, first.kind = .ident ∧ Dotted pairs ∧
          parts = ofToken .ident first :: dotted pairs) ∨
        ∃ left path right pairs, left.kind = .lparen ∧ path.From (.rule .fullIdent) ∧
          right.kind = .rparen ∧ Dotted pairs ∧
            parts = .token left :: path :: .token right :: dotted pairs) := by
  rw [from_iff]
  simp [production, or_and_right, exists_or, and_assoc]

/-- A minus sign, if anything. -/
def Sign (sign : Option Token) : Prop :=
  ∀ t ∈ sign, t.kind = .minus

/-- A dot and a number after it, if anything. -/
def Fraction (fraction : Option (Token × Token)) : Prop :=
  ∀ p ∈ fraction, p.1.kind = .dot ∧ p.2.kind = .number

def fractionParts (fraction : Option (Token × Token)) : List Derivation :=
  fraction.elim [] fun p => [.token p.1, ofToken .number p.2]

theorem fits_sign {ds : List Derivation} : Fits (1 + kind .minus) ds ↔
    ∃ sign, Sign sign ∧ ds = sign.toList.map .token :=
  fits_optional fun _ => fits_kind

theorem fits_fraction {ds : List Derivation} : Fits (1 + kind .dot * rule .number) ds ↔
    ∃ fraction, Fraction fraction ∧ ds = fractionParts fraction := by
  simp only [fits_add, fits_one, fits_mul, fits_kind, fits_rule, from_number]
  constructor
  · rintro (rfl | ⟨_, ⟨dot, hdot, rfl⟩, _, ⟨_, ⟨t, ht, rfl⟩, rfl⟩, rfl⟩)
    · exact ⟨none, by simp [Fraction], rfl⟩
    · exact ⟨some (dot, t), by simp [Fraction, hdot, ht], rfl⟩
  · rintro ⟨_ | p, h, rfl⟩
    · exact .inl rfl
    · obtain ⟨hdot, ht⟩ := h p rfl
      exact .inr ⟨_, ⟨p.1, hdot, rfl⟩, _, ⟨_, ⟨p.2, ht, rfl⟩, rfl⟩, rfl⟩

theorem from_constant {d : Derivation} : d.From (.rule .constant) ↔
    ∃ parts, d = .node (.rule .constant) parts ∧
      ((∃ t, t.kind = .stringLit ∧ parts = [ofToken .stringLit t]) ∨
        (∃ path, path.From (.rule .fullIdent) ∧ parts = [path]) ∨
        (∃ minus w, minus.kind = .minus ∧ w.kind = .ident ∧
          parts = [.token minus, ofToken .ident w]) ∨
        ∃ sign whole fraction, Sign sign ∧ whole.kind = .number ∧ Fraction fraction ∧
          parts = sign.toList.map .token ++ ofToken .number whole :: fractionParts fraction) := by
  rw [from_iff]
  simp only [production, form, fits_add (L := _ + _), fits_mul, fits_kind, fits_rule, fits_sign,
    fits_fraction]
  simp [and_assoc, or_assoc]

theorem from_optionDecl {d : Derivation} : d.From (.rule .optionDecl) ↔
    ∃ first name equals value last, d = .node (.rule .optionDecl)
        [.token first, name, .token equals, value, .token last] ∧
      first.isWord "option" ∧ name.From .optionName ∧ equals.kind = .equals ∧
        value.From (.rule .constant) ∧ last.kind = .semicolon := by
  rw [from_iff]
  simp [production, form, and_assoc]

theorem from_typeName {d : Derivation} : d.From (.rule .typeName) ↔
    ∃ part, d = .node (.rule .typeName) [part] ∧
      ((∃ t, t.kind = .ident ∧ t.text ∈ Grammar.primitives ∧ part = ofToken .primitiveType t) ∨
        part.From (.rule .fullIdent) ∧ ∀ t, part.yield = [t] → t.text ∉ Grammar.primitives) := by
  rw [from_iff]
  simp only [production, form, fits_add, fits_rule, fits_symbolWhere, from_primitiveType]
  constructor
  · rintro ⟨_, rfl, ⟨_, ⟨t, ⟨hk, ht⟩, rfl⟩, rfl⟩ | ⟨path, hpath, single, rfl⟩⟩
    · exact ⟨_, rfl, .inl ⟨t, hk, ht, rfl⟩⟩
    · exact ⟨_, rfl, .inr ⟨hpath, single⟩⟩
  · rintro ⟨_, rfl, ⟨t, hk, ht, rfl⟩ | ⟨hpath, single⟩⟩
    · exact ⟨_, rfl, .inl ⟨_, ⟨t, ⟨hk, ht⟩, rfl⟩, rfl⟩⟩
    · exact ⟨_, rfl, .inr ⟨_, hpath, single, rfl⟩⟩

theorem Rooted.nodes_eq {x : Symbol} {d : Derivation} (h : d.Rooted x) (s : Parser.Scope) :
    ∃ n, nodes s d = [n] := by
  obtain ⟨parts, rfl⟩ := h
  exact ⟨_, nodes_node s x parts⟩

theorem From.nodes_eq {x : Symbol} {d : Derivation} (h : d.From x) (s : Parser.Scope) :
    ∃ n, nodes s d = [n] :=
  h.rooted.nodes_eq s

theorem From.wrap_eq {x : Symbol} {d : Derivation} (h : d.From x) {s : Parser.Scope} {n : Node}
    (hn : [n] = nodes s d) (r : Rule) : n.wrap r =
      s.node r (d.yield.head?.getD s.last) (d.yield.getLast?.getD s.last) (nodes s d) := by
  obtain ⟨parts, rfl⟩ := h.rooted
  rw [← hn]
  rw [nodes_node, List.cons_eq_cons] at hn
  obtain ⟨rfl, -⟩ := hn
  simp [Node.wrap, Parser.Scope.node]

end Derivation

namespace Parser

open ProtoSchema.Derivation

/-- The reading of a symbol: a valid derivation from it, and its node. -/
def Derived (s : Scope) (x : Symbol) : Reading Node := fun n ds _ =>
  ∃ d, ds = [d] ∧ d.From x ∧ [n] = nodes s d

/-- The same where no dot follows. -/
def DerivedToDot (s : Scope) (x : Symbol) : Reading Node := fun n ds rest =>
  Derived s x n ds rest ∧ (s.next rest).kind ≠ .dot

namespace Reads

variable {s : Scope}

theorem leaf (k : Token.Kind) (r : Rule) (context : String) :
    Reads s (Parser.leaf k r context)
      fun n ds _ => ∃ t : Token, t.kind = k ∧ ds = [ofToken r t] ∧ n = s.leaf r t := by
  refine (((expectAs ..).bind fun t => node ..).below (.rule r)).congr ?_
  intro n ds rest
  constructor
  · rintro ⟨_, rfl, t, _, _, rfl, ⟨h, rfl⟩, rfl, rfl⟩
    exact ⟨t, h, rfl, rfl⟩
  · rintro ⟨t, h, rfl, rfl⟩
    exact ⟨_, rfl, t, [.token t], [], rfl, ⟨h, rfl⟩, rfl, rfl⟩

theorem word (context : String) : Reads s (Grammar.word context)
    fun t ds _ => t.kind = .ident ∧ ds = [ofToken .ident t] := by
  refine ((expectAs ..).below (.rule .ident)).congr ?_
  intro t ds rest
  constructor
  · rintro ⟨_, rfl, h, rfl⟩
    exact ⟨h, rfl⟩
  · rintro ⟨h, rfl⟩
    exact ⟨_, rfl, h, rfl⟩

theorem dottedTail (context : String) : Reads s (Grammar.dottedTail context)
    fun ws ds rest => (s.next rest).kind ≠ .dot ∧
      ∃ pairs, Dotted pairs ∧ ds = dotted pairs ∧ ws = pairs.map (·.2) := by
  refine (many (advance.bind fun _ => word context) ?_).congr ?_
  · rintro a ds rest ⟨_, _, _, rfl, rfl, -, rfl⟩
    simp
  intro ws ds rest
  constructor
  · intro h
    induction h with
    | nil stop => exact ⟨by simpa using stop, [], by simp [Dotted], rfl, rfl⟩
    | cons go head tail ih =>
        obtain ⟨stop, pairs, hp, rfl, rfl⟩ := ih
        obtain ⟨dot, _, _, rfl, rfl, hw, rfl⟩ := head
        refine ⟨stop, (dot, _) :: pairs, ?_, rfl, rfl⟩
        exact List.forall_mem_cons.mpr ⟨⟨by simpa using go, hw⟩, hp⟩
  · rintro ⟨stop, pairs, hp, rfl, rfl⟩
    induction pairs with
    | nil => exact .nil (by simpa using stop)
    | cons p pairs ih =>
        obtain ⟨h, hp⟩ := List.forall_mem_cons.mp hp
        change Repeats _ _ _ _ ([.token p.1, ofToken .ident p.2] ++ dotted pairs) rest
        exact .cons (by simpa using h.1)
          ⟨p.1, [_], [_], rfl, rfl, h.2, rfl⟩ (ih hp)

theorem fullIdentParts (context : String) : Reads s (Grammar.fullIdent context)
    fun n ds rest => (s.next rest).kind ≠ .dot ∧ ∃ first pairs, first.kind = .ident ∧
      Dotted pairs ∧ ds = ofToken .ident first :: dotted pairs ∧
        n = s.node .fullIdent first ((pairs.map (·.2)).getLastD first)
          ((first :: pairs.map (·.2)).map (s.leaf .ident)) := by
  refine ((word context).bind fun first => (dottedTail context).bind fun more =>
    (leaves ..).bind fun _ => node ..).congr ?_
  intro n ds rest
  constructor
  · rintro ⟨first, _, _, rfl, ⟨hfirst, rfl⟩, _, _, _, rfl, ⟨stop, pairs, hp, rfl, rfl⟩, _, _,
      _, rfl, ⟨rfl, rfl⟩, rfl, rfl⟩
    exact ⟨stop, first, pairs, hfirst, hp, by simp, rfl⟩
  · rintro ⟨stop, first, pairs, hfirst, hp, rfl, rfl⟩
    exact ⟨first, [_], _, rfl, ⟨hfirst, rfl⟩, _, _, [], (List.append_nil _).symm,
      ⟨stop, pairs, hp, rfl, rfl⟩, _, [], [], rfl, ⟨rfl, rfl⟩, rfl, rfl⟩

theorem fullIdent (context : String) : Reads s (Grammar.fullIdent context)
    (DerivedToDot s (.rule .fullIdent)) := by
  refine ((fullIdentParts context).below (.rule .fullIdent)).congr ?_
  intro n ds rest
  simp only [DerivedToDot, Derived, from_fullIdent]
  constructor
  · rintro ⟨_, rfl, stop, first, pairs, hfirst, hp, rfl, rfl⟩
    refine ⟨⟨_, rfl, ⟨first, pairs, rfl, hfirst, hp⟩, ?_⟩, stop⟩
    simp [List.getLast?_cons]
  · rintro ⟨⟨_, rfl, ⟨first, pairs, rfl, hfirst, hp⟩, hn⟩, stop⟩
    refine ⟨_, rfl, stop, first, pairs, hfirst, hp, rfl, ?_⟩
    simpa [List.getLast?_cons] using hn

theorem syntaxDecl : Reads s Grammar.syntaxDecl (Derived s (.rule .syntaxDecl)) := by
  refine (((keyword ..).bind fun first => (expect ..).bind fun _ => (leaf ..).bind fun version =>
    (expect ..).bind fun last => node ..).below (.rule .syntaxDecl)).congr ?_
  intro n ds rest
  simp [Derived, from_syntaxDecl, and_assoc]

theorem packageDecl : Reads s Grammar.packageDecl (Derived s (.rule .packageDecl)) := by
  refine (((keyword ..).bind fun first => (fullIdent ..).bind fun path =>
    (expect ..).bind fun last => node ..).below (.rule .packageDecl)).congr ?_
  intro n ds rest
  simp [Derived, DerivedToDot, from_packageDecl, List.getLast?_cons, and_assoc]
  constructor
  · rintro ⟨first, m, last, path, rfl, hfirst, hpath, hm, -, hlast, rfl⟩
    exact ⟨first, path, last, rfl, hfirst, hpath, hlast, by rw [hm]⟩
  · rintro ⟨first, path, last, rfl, hfirst, hpath, hlast, rfl⟩
    obtain ⟨m, hm⟩ := hpath.nodes_eq s
    exact ⟨first, m, last, path, rfl, hfirst, hpath, hm.symm, by simp [hlast], hlast, by rw [hm]⟩

theorem importDecl : Reads s Grammar.importDecl (Derived s (.rule .importDecl)) := by
  have statement (first : Token) := (leaf (s := s) .stringLit .stringLit Rule.importDecl.name).bind
    fun path => (expect .semicolon Rule.importDecl.name).bind fun last =>
      node .importDecl first last [path]
  refine (((keyword ..).bind fun first => peek.bind fun next =>
    ite (fun _ => advance.bind fun _ => statement first) fun _ => statement first).below
      (.rule .importDecl)).congr ?_
  intro n ds rest
  simp [Derived, from_importDecl, and_assoc]
  constructor
  · rintro ⟨first, _, rfl, hfirst, ⟨hv, v, path, last, rfl, hpath, hlast, rfl⟩ |
      ⟨-, -, path, last, rfl, hpath, hlast, rfl⟩⟩
    · exact ⟨first, some v, path, last, rfl, hfirst, by simpa using hv, hpath, hlast,
        by simp⟩
    · exact ⟨first, none, path, last, rfl, hfirst, by simp, hpath, hlast, by simp⟩
  · rintro ⟨first, _ | v, path, last, rfl, hfirst, hv, hpath, hlast, rfl⟩
    · refine ⟨first, _, rfl, hfirst, .inr ⟨?_, ?_, path, last, rfl, hpath, hlast, ?_⟩⟩
      · simp [Token.isWord, hpath]
      · simp [Token.isWord, hpath]
      · simp
    · exact ⟨first, _, rfl, hfirst, .inl ⟨by simpa using hv v rfl, v, path, last, rfl, hpath,
        hlast, by simp⟩⟩

theorem optionName : Reads s Grammar.optionName (DerivedToDot s .optionName) := by
  refine ((peek.bind fun first => ite (fun _ =>
    advance.bind fun _ => (fullIdent ..).bind fun path =>
    (expect ..).bind fun close => (dottedTail ..).bind fun more => (leaves ..).bind fun _ =>
      node ..) fun _ => fullIdentParts ..).below .optionName).congr ?_
  intro n ds rest
  simp [Derived, DerivedToDot, from_optionName, and_assoc]
  constructor
  · rintro ⟨parts, rfl, ⟨hleft, left, m, right, pairs, path, rfl, hpath, hm, -, hright, stop, hp,
      rfl⟩ | ⟨-, stop, first, hfirst, pairs, hp, rfl, rfl⟩⟩
    · refine ⟨⟨_, rfl, .inr ⟨left, hleft, path, hpath, right, hright, pairs, hp, rfl⟩, ?_⟩, stop⟩
      simp [List.getLast?_cons, ← hm]
    · refine ⟨⟨_, rfl, .inl ⟨first, hfirst, pairs, hp, rfl⟩, ?_⟩, stop⟩
      simp [List.getLast?_cons]
  · rintro ⟨⟨parts, rfl, ⟨first, hfirst, pairs, hp, rfl⟩ | ⟨left, hleft, path, hpath, right, hright,
      pairs, hp, rfl⟩, hn⟩, stop⟩
    · refine ⟨_, rfl, .inr ⟨by simp [hfirst], stop, first, hfirst, pairs, hp, rfl, ?_⟩⟩
      simpa [List.getLast?_cons] using hn
    · obtain ⟨m, hm⟩ := hpath.nodes_eq s
      refine ⟨_, rfl, .inl ⟨by simpa using hleft, left, m, right, pairs, path, rfl, hpath,
        hm.symm, by simp [hright], hright, stop, hp, ?_⟩⟩
      simpa [List.getLast?_cons, hm] using hn

theorem decimal : Reads s Grammar.decimal fun t ds rest =>
    ∃ whole fraction, whole.kind = .number ∧ Fraction fraction ∧
      (fraction = none → (s.next rest).kind ≠ .dot) ∧ t = fraction.elim whole (·.2) ∧
        ds = ofToken .number whole :: fractionParts fraction := by
  refine (((expect ..).below (.rule .number)).bind fun whole => peek.bind fun next =>
    ite (fun _ => advance.bind fun _ => (expect ..).below (.rule .number))
      fun _ => pure whole).congr ?_
  intro t ds rest
  simp [Fraction, fractionParts]
  constructor
  · rintro ⟨whole, _, rfl, hwhole, ⟨hdot, ⟨dot, rfl⟩, ht⟩ | ⟨hdot, rfl, rfl⟩⟩
    · exact ⟨whole, hwhole, some (dot, t), by simpa [ht] using hdot, by simp, rfl, rfl⟩
    · exact ⟨_, hwhole, none, by simp, by simpa using hdot, rfl, rfl⟩
  · rintro ⟨whole, hwhole, fraction, hf, stop, ht, rfl⟩
    cases fraction with
    | none =>
        obtain rfl : t = whole := ht
        exact ⟨_, [], rfl, hwhole, .inr ⟨by simpa using stop, rfl, rfl⟩⟩
    | some p =>
        obtain rfl : t = p.2 := ht
        obtain ⟨hdot, hlast⟩ := hf p.1 p.2 rfl
        exact ⟨whole, _, rfl, hwhole, .inl ⟨by simpa using hdot, ⟨p.1, rfl⟩, hlast⟩⟩

/-- The token that it returns is the last one. Where a constant stands, a word without a sign is a
name instead. -/
theorem signedConstant : Reads s Grammar.signedConstant fun t ds rest =>
    (∃ sign, Sign sign ∧ t.kind = .ident ∧ ds = sign.toList.map .token ++ [ofToken .ident t]) ∨
    ∃ sign whole fraction, Sign sign ∧ whole.kind = .number ∧ Fraction fraction ∧
      (fraction = none → (s.next rest).kind ≠ .dot) ∧
        t = fraction.elim whole (·.2) ∧
          ds = sign.toList.map .token ++ ofToken .number whole :: fractionParts fraction := by
  have value := peek.bind (s := s) fun next =>
    ite (c := next.kind = .ident) (fun _ => advance.below (.rule .ident)) fun _ => decimal
  refine (peek.bind fun first => ite (fun _ => advance.bind fun _ => value)
    fun _ => value).congr ?_
  intro t ds rest
  simp [Sign]
  constructor
  · rintro (⟨hminus, minus, back, rfl, ⟨hid, rfl⟩ |
        ⟨hid, whole, hwhole, fraction, hf, stop, rfl, rfl⟩⟩ |
      ⟨hminus, ⟨hid, rfl⟩ | ⟨hid, whole, hwhole, fraction, hf, stop, rfl, rfl⟩⟩)
    · exact .inl ⟨some minus, by simpa using hminus, by simpa using hid, rfl⟩
    · exact .inr ⟨some minus, by simpa using hminus, whole, hwhole, fraction, hf, stop, rfl, rfl⟩
    · exact .inl ⟨none, by simp, by simpa using hid, rfl⟩
    · exact .inr ⟨none, by simp, whole, hwhole, fraction, hf, stop, rfl, rfl⟩
  · rintro (⟨_ | minus, hminus, hid, rfl⟩ |
      ⟨_ | minus, hminus, whole, hwhole, fraction, hf, stop, rfl, rfl⟩)
    · exact .inr ⟨by simp [hid], .inl ⟨by simp [hid], rfl⟩⟩
    · exact .inl ⟨by simpa using hminus, minus, _, rfl, .inl ⟨by simp [hid], rfl⟩⟩
    · exact .inr ⟨by simp [hwhole],
        .inr ⟨by simp [hwhole], whole, hwhole, fraction, hf, stop, rfl, rfl⟩⟩
    · exact .inl ⟨by simpa using hminus, minus, _, rfl,
        .inr ⟨by simp [hwhole], whole, hwhole, fraction, hf, stop, rfl, rfl⟩⟩

/-- A constant that ends in a name or in a number without a fraction ends before no dot. -/
theorem constant : ∃ R : Reading Node, Reads s Grammar.constant R ∧
    (∀ {n ds rest}, R n ds rest → Derived s (.rule .constant) n ds rest) ∧
      ∀ {n ds rest}, DerivedToDot s (.rule .constant) n ds rest → R n ds rest := by
  refine ⟨_, (peek.bind fun first => ite
    (fun _ => (advance.below (.rule .stringLit)).bind fun _ => node ..) fun _ => ite
      (fun _ => ((word ..).bind fun head => (dottedTail ..).bind fun more => node ..).below
        (.rule .fullIdent))
      fun _ => signedConstant.bind fun last => node ..).below (.rule .constant), ?_, ?_⟩
  · intro n ds rest
    simp [Derived, from_constant]
    rintro parts rfl (⟨hk, ⟨t, rfl⟩, rfl⟩ | ⟨-, ⟨-, first, pairs, rfl, hfirst, ⟨-, hp⟩, rfl⟩ |
      ⟨hk, last,
        ⟨_ | minus, hs, hlast, rfl⟩ | ⟨_ | minus, hs, whole, hwhole, _ | p, hf, -, hlast, rfl⟩,
        rfl⟩⟩)
    · exact ⟨_, rfl, .inl ⟨t, by simpa using hk, rfl⟩,
        by simp⟩
    · exact ⟨_, rfl, .inr (.inl ⟨_, from_fullIdent.mpr ⟨first, pairs, rfl, hfirst, hp⟩, rfl⟩),
        by simp [List.getLast?_cons]⟩
    · simp [hlast] at hk
    · exact ⟨_, rfl, .inr (.inr (.inl ⟨minus, by simpa [Sign] using hs, last, hlast, rfl⟩)),
        by simp⟩
    all_goals
      exact ⟨_, rfl, .inr (.inr (.inr ⟨_, hs, whole, hwhole, _, hf, rfl⟩)),
        by simp [hlast, fractionParts]⟩
  · intro n ds rest
    simp [Derived, DerivedToDot, from_constant]
    rintro parts rfl (⟨t, ht, rfl⟩ | ⟨path, hpath, rfl⟩ | ⟨minus, hminus, w, hw, rfl⟩ |
      ⟨sign, hs, whole, hwhole, fraction, hf, rfl⟩) hn stop
    · exact ⟨_, rfl, .inl ⟨by simpa using ht, ⟨t, rfl⟩,
        by simpa using hn⟩⟩
    · obtain ⟨first, pairs, rfl, hfirst, hp⟩ := from_fullIdent.mp hpath
      refine ⟨_, rfl, .inr ⟨by simp [hfirst], .inl ⟨by simp [hfirst], first, pairs, rfl,
        hfirst, ⟨stop, hp⟩, ?_⟩⟩⟩
      simpa [List.getLast?_cons] using hn
    · exact ⟨_, rfl, .inr ⟨by simp [hminus], .inr ⟨by simp [hminus], w,
        .inl ⟨some minus, by simpa [Sign] using hminus, hw, rfl⟩,
          by simpa using hn⟩⟩⟩
    · have head : ∀ k ∈ [Token.Kind.stringLit, .ident], (s.next (yieldList
          (sign.toList.map .token ++ ofToken .number whole :: fractionParts fraction) ++
            rest)).kind ≠
          k := by
        cases sign with
        | none => simp [hwhole]
        | some minus => simp [hs minus rfl]
      refine ⟨_, rfl, .inr ⟨head _ (by simp), .inr ⟨head _ (by simp), _, .inr ⟨sign, hs, whole,
        hwhole, fraction, hf, fun _ => stop, rfl, rfl⟩, ?_⟩⟩⟩
      cases sign <;> cases fraction <;>
        simpa [fractionParts] using hn

theorem optionDecl : Reads s Grammar.optionDecl (Derived s (.rule .optionDecl)) := by
  obtain ⟨R, reads, sound, complete⟩ := constant (s := s)
  refine (((keyword ..).bind fun first => optionName.bind fun name => (expect ..).bind fun _ =>
    reads.bind fun value => (expect ..).bind fun last => node ..).below
      (.rule .optionDecl)).congr ?_
  intro n ds rest
  simp [DerivedToDot, Derived, from_optionDecl, and_assoc]
  constructor
  · rintro ⟨first, m, equals, v, ds, last, name, rfl, hfirst, hname, hm, -, hequals, hR, hlast, rfl⟩
    obtain ⟨value, rfl, hvalue, hv⟩ := sound hR
    exact ⟨first, name, equals, value, last, rfl, hfirst, hname, hequals, hvalue, hlast,
      by simp [List.getLast?_cons, ← hm, ← hv]⟩
  · rintro ⟨first, name, equals, value, last, rfl, hfirst, hname, hequals, hvalue, hlast, hn⟩
    obtain ⟨m, hm⟩ := hname.nodes_eq s
    obtain ⟨v, hv⟩ := hvalue.nodes_eq s
    refine ⟨first, m, equals, v, _, last, name, rfl, hfirst, hname, hm.symm, by simp [hequals],
      hequals, complete ⟨⟨value, rfl, hvalue, hv.symm⟩, by simp [hlast]⟩, hlast, ?_⟩
    simpa [List.getLast?_cons, hm, hv] using hn

theorem typeName : Reads s Grammar.typeName (DerivedToDot s (.rule .typeName)) := by
  refine ((peek.bind fun first => (peekAt 1).bind fun second => ite
    (fun _ => (leaf ..).bind fun n => pure (n.wrap .typeName))
      fun _ => (fullIdent ..).bind fun n => pure (n.wrap .typeName)).below
        (.rule .typeName)).congr ?_
  intro n ds rest
  simp [DerivedToDot, Derived, from_typeName, and_assoc]
  constructor
  · rintro ⟨_, rfl, ⟨-, hprim, hdot, t, rfl, ht, rfl⟩ | ⟨long, m, ⟨path, rfl, hpath, hm⟩,
      stop, rfl⟩⟩
    · exact ⟨⟨_, rfl, .inl ⟨t, ht, by simpa using hprim, rfl⟩,
          by simp [Node.wrap, Scope.leaf, Scope.node]⟩,
        by simpa [Scope.next] using hdot⟩
    · refine ⟨⟨_, rfl, .inr ⟨hpath, ?_⟩, by simpa using hpath.wrap_eq hm _⟩, stop⟩
      intro t ht hprim
      obtain ⟨first, _ | ⟨p, pairs⟩, rfl, hfirst, hp⟩ := from_fullIdent.mp hpath
      · obtain rfl : first = t := by simpa using ht
        exact stop (by simpa [Scope.next] using long (by simpa) (by simpa))
      · simp at ht
  · rintro ⟨⟨_, rfl, ⟨t, ht, hprim, rfl⟩ | ⟨hpath, single⟩, hn⟩, stop⟩
    · refine ⟨_, rfl, .inl ⟨by simpa using ht, by simpa using hprim,
        by simpa [Scope.next] using stop, t, rfl, ht, ?_⟩⟩
      simpa [Node.wrap, Scope.leaf, Scope.node] using hn
    · obtain ⟨m, hm⟩ := hpath.nodes_eq s
      refine ⟨_, rfl, .inr ⟨?_, m, ⟨_, rfl, hpath, hm.symm⟩, stop, ?_⟩⟩
      · obtain ⟨first, _ | ⟨p, pairs⟩, rfl, hfirst, hp⟩ := from_fullIdent.mp hpath
        · intro _ hprim
          exact absurd (by simpa using hprim) (single first rfl)
        · simp [(hp p List.mem_cons_self).1]
      · rw [hpath.wrap_eq hm.symm]
        simpa using hn

end Reads

end Parser

end ProtoSchema
