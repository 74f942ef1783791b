import ProtoSchema.Proofs.JsonRoundTrip
import ProtoSchema.Proofs.Offences

/-! # The layouts differ in blanks only

A scan of a document tells the characters of its strings from those that stand outside, and counts
the brackets that are open. A written value leaves the scan at the depth where it was, whatever its
strings hold. So both layouts leave the same text when the blanks outside of strings are taken away,
and in the indented one each line starts at the depth that the scan has reached.
-/

namespace ProtoSchema.Json

/-- Whether a character opens a list or an object. -/
def opens (c : Char) : Bool :=
  c = '[' || c = '\x7b'

/-- Whether a character closes a list or an object. -/
def closes (c : Char) : Bool :=
  c = ']' || c = '\x7d'

/-- A place in a document, inside as many brackets as its depth. -/
inductive Place where
  /-- Not in a string. -/
  | outside (depth : Nat)
  /-- In a string. -/
  | inside (depth : Nat)
  /-- In a string, after a backslash. -/
  | escaped (depth : Nat)

namespace Place

/-- The place after one more character. -/
def next : Place → Char → Place
  | .outside depth, c =>
    if c = '"' then .inside depth
    else if opens c then .outside (depth + 1)
    else if closes c then .outside (depth - 1)
    else .outside depth
  | .inside depth, c =>
    if c = '"' then .outside depth
    else if c = '\\' then .escaped depth
    else .inside depth
  | .escaped depth, _ => .inside depth

/-- The place after a text. -/
def after (p : Place) (cs : List Char) : Place :=
  cs.foldl next p

/-- Whether a character that stands here is a space or a line end outside of strings. -/
def skips : Place → Char → Bool
  | .outside _, c => c = ' ' || c = '\n'
  | .inside _, _ | .escaped _, _ => false

/-- A text that starts here, without the spaces and line ends outside of its strings. -/
def strip : Place → List Char → List Char
  | _, [] => []
  | p, c :: cs => if p.skips c then strip (p.next c) cs else c :: strip (p.next c) cs

@[simp] theorem after_nil (p : Place) : p.after [] = p := rfl

@[simp] theorem after_cons (p : Place) (c : Char) (cs : List Char) :
    p.after (c :: cs) = (p.next c).after cs := rfl

@[simp] theorem after_append (p : Place) (as bs : List Char) :
    p.after (as ++ bs) = (p.after as).after bs :=
  List.foldl_append

@[simp] theorem strip_append (p : Place) (as bs : List Char) :
    p.strip (as ++ bs) = p.strip as ++ (p.after as).strip bs := by
  induction as generalizing p with
  | nil => rfl
  | cons c as ih =>
      rw [List.cons_append, strip, strip, ih]
      split <;> rfl

/-! ## Parts of a document -/

section

variable (depth : Nat)

theorem after_blanks {cs : List Char} (h : ∀ c ∈ cs, c = ' ' ∨ c = '\n') :
    (outside depth).after cs = outside depth := by
  induction cs with
  | nil => rfl
  | cons c cs ih =>
      obtain rfl | rfl := h c List.mem_cons_self
      all_goals exact ih fun c mem => h c (List.mem_cons_of_mem _ mem)

theorem strip_blanks {cs : List Char} (h : ∀ c ∈ cs, c = ' ' ∨ c = '\n') :
    (outside depth).strip cs = [] := by
  induction cs with
  | nil => rfl
  | cons c cs ih =>
      obtain rfl | rfl := h c List.mem_cons_self
      all_goals exact ih fun c mem => h c (List.mem_cons_of_mem _ mem)

theorem blanks_newline (k : Nat) : ∀ c ∈ Layout.newline k, c = ' ' ∨ c = '\n' := by
  intro c mem
  obtain rfl | mem := List.mem_cons.mp mem
  · exact .inr rfl
  · exact .inl (List.eq_of_mem_replicate mem)

@[simp] theorem after_newline (k : Nat) :
    (outside depth).after (Layout.newline k) = outside depth :=
  after_blanks depth (blanks_newline k)

@[simp] theorem strip_newline (k : Nat) : (outside depth).strip (Layout.newline k) = [] :=
  strip_blanks depth (blanks_newline k)

@[simp] theorem after_opening (l : Layout) (k : Nat) :
    (outside depth).after (l.opening k) = outside depth := by
  cases l <;> simp [Layout.opening]

@[simp] theorem strip_opening (l : Layout) (k : Nat) :
    (outside depth).strip (l.opening k) = [] := by
  cases l <;> simp [Layout.opening, strip]

@[simp] theorem after_separator (l : Layout) (k : Nat) :
    (outside depth).after (l.separator k) = outside depth := by
  cases l <;> simp [Layout.separator, next, opens, closes]

@[simp] theorem strip_separator (l : Layout) (k : Nat) :
    (outside depth).strip (l.separator k) = [','] := by
  cases l <;> simp [Layout.separator, strip, skips, next, opens, closes]

@[simp] theorem after_closing (l : Layout) (k : Nat) :
    (outside depth).after (l.closing k) = outside depth :=
  after_opening depth l k

@[simp] theorem strip_closing (l : Layout) (k : Nat) : (outside depth).strip (l.closing k) = [] :=
  strip_opening depth l k

theorem next_digitChar {n : Nat} (h : n < 16) :
    (inside depth).next (Nat.digitChar n) = inside depth := by
  have plain : Nat.digitChar n ≠ '"' ∧ Nat.digitChar n ≠ '\\' := by
    decide +revert
  rw [next, if_neg plain.1, if_neg plain.2]

theorem after_escape (c : Char) : (inside depth).after (escape c) = inside depth := by
  unfold escape
  split
  · rfl
  split
  · rfl
  split
  · rfl
  split
  · rfl
  split
  · rfl
  split
  · rfl
  split
  · next control =>
      change ((inside depth).next (Nat.digitChar (c.toNat / 16))).next
        (Nat.digitChar (c.toNat % 16)) = _
      rw [next_digitChar depth (by omega), next_digitChar depth (by omega)]
  · next special _ _ _ _ _ _ =>
      obtain ⟨quote, backslash⟩ : c ≠ '"' ∧ c ≠ '\\' := by simpa using special
      rw [after_cons, after_nil, next, if_neg quote, if_neg backslash]

theorem after_escaped (s : List Char) :
    (inside depth).after (s.flatMap escape) = inside depth := by
  induction s with
  | nil => rfl
  | cons c s ih => rw [List.flatMap_cons, after_append, after_escape, ih]

@[simp] theorem after_quote (s : String) : (outside depth).after (quote s) = outside depth := by
  have ends : (inside depth).after (s.toList.flatMap escape ++ ['"']) = outside depth := by
    rw [after_append, after_escaped]
    rfl
  exact ends

theorem next_digit {c : Char} (h : c.isDigit ∨ c = '-') :
    (outside depth).next c = outside depth := by
  have ⟨_, others⟩ := Reader.number_head h
  simp_all [next, opens, closes]

@[simp] theorem after_decimal (n : Int) : (outside depth).after (decimal n) = outside depth := by
  have digits : ∀ n, (outside depth).after (Nat.toDigits 10 n) = outside depth := by
    intro n
    have all : ∀ c ∈ Nat.toDigits 10 n, c.isDigit := fun c =>
      Nat.isDigit_of_mem_toDigits (by decide) (by decide)
    generalize Nat.toDigits 10 n = cs at all
    induction cs with
    | nil => rfl
    | cons c cs ih =>
        rw [after_cons, next_digit depth (.inl (all c List.mem_cons_self)),
          ih fun c mem => all c (List.mem_cons_of_mem _ mem)]
  cases n with
  | ofNat n => exact digits n
  | negSucc n => exact digits (n + 1)

end

/-! ## Values -/

section

variable (l l' : Layout)

mutual
@[simp] theorem after_write (depth k : Nat) : (v : Value) →
    (outside depth).after (v.write l k) = outside depth
  | .null | .bool true | .bool false | .foreign _ => rfl
  | .int n => after_decimal depth n
  | .str s => after_quote depth s
  | .list [] | .object [] => rfl
  | .list (v :: vs) => by
    simp [Value.write, next, opens, closes, after_write (depth + 1) (k + 1) v,
      after_writeItems (depth + 1) (k + 1) vs]
  | .object ((key, v) :: members) => by
    simp [Value.write, next, opens, closes, after_write (depth + 1) (k + 1) v,
      after_writeMembers (depth + 1) (k + 1) members]

theorem after_writeItems (depth k : Nat) : (vs : List Value) →
    (outside depth).after (Value.writeItems l k vs) = outside depth
  | [] => rfl
  | v :: vs => by
    simp [Value.writeItems, after_write depth k v, after_writeItems depth k vs]

theorem after_writeMembers (depth k : Nat) : (members : List (String × Value)) →
    (outside depth).after (Value.writeMembers l k members) = outside depth
  | [] => rfl
  | (key, v) :: members => by
    simp [Value.writeMembers, next, opens, closes, after_write depth k v,
      after_writeMembers depth k members]
end

mutual
/-- Without its blanks, a value is written the same way in every layout and at every depth. -/
theorem strip_write (depth k k' : Nat) : (v : Value) →
    (outside depth).strip (v.write l k) = (outside depth).strip (v.write l' k')
  | .null | .bool true | .bool false | .int _ | .str _ | .foreign _ => rfl
  | .list [] | .object [] => rfl
  | .list (v :: vs) => by
    simp [Value.write, strip, skips, next, opens, after_writeItems,
      strip_write (depth + 1) (k + 1) (k' + 1) v, strip_writeItems (depth + 1) (k + 1) (k' + 1) vs]
  | .object ((key, v) :: members) => by
    simp [Value.write, strip, skips, next, opens, closes, after_writeMembers,
      strip_write (depth + 1) (k + 1) (k' + 1) v,
      strip_writeMembers (depth + 1) (k + 1) (k' + 1) members]

theorem strip_writeItems (depth k k' : Nat) : (vs : List Value) →
    (outside depth).strip (Value.writeItems l k vs) =
      (outside depth).strip (Value.writeItems l' k' vs)
  | [] => rfl
  | v :: vs => by
    simp [Value.writeItems, strip_write depth k k' v, strip_writeItems depth k k' vs]

theorem strip_writeMembers (depth k k' : Nat) : (members : List (String × Value)) →
    (outside depth).strip (Value.writeMembers l k members) =
      (outside depth).strip (Value.writeMembers l' k' members)
  | [] => rfl
  | (key, v) :: members => by
    simp [Value.writeMembers, strip, skips, next, opens, closes, strip_write depth k k' v,
      strip_writeMembers depth k k' members]
end

end

end Place

/-! ## Control characters -/

/-- A text without control characters: its characters are all on one line. -/
def OneLine (cs : List Char) : Prop :=
  ∀ c ∈ cs, 0x20 ≤ c.toNat

namespace OneLine

instance (cs : List Char) : Decidable (OneLine cs) :=
  inferInstanceAs (Decidable (∀ c ∈ cs, 0x20 ≤ c.toNat))

@[simp] theorem nil : OneLine [] := nofun

@[simp] theorem cons {c : Char} {cs : List Char} :
    OneLine (c :: cs) ↔ 0x20 ≤ c.toNat ∧ OneLine cs :=
  List.forall_mem_cons

@[simp] theorem append {as bs : List Char} : OneLine (as ++ bs) ↔ OneLine as ∧ OneLine bs :=
  List.forall_mem_append

theorem digitChar {n : Nat} (h : n < 16) : 0x20 ≤ (Nat.digitChar n).toNat := by
  decide +revert

theorem escape (c : Char) : OneLine (escape c) := by
  unfold Json.escape
  split
  · next special =>
      obtain rfl | rfl : c = '"' ∨ c = '\\' := by simpa using special
      all_goals simp
  iterate 5
    split
    · simp
  split
  · next control =>
      have high := digitChar (n := c.toNat / 16) (by omega)
      have low := digitChar (n := c.toNat % 16) (by omega)
      simp [escapeCode, high, low]
  · next control => simpa using control

@[simp] theorem quote (s : String) : OneLine (quote s) := by
  have inside : OneLine (s.toList.flatMap Json.escape) :=
    List.forall_mem_flatMap.mpr fun c _ => escape c
  simp [Json.quote, inside]

@[simp] theorem decimal (n : Int) : OneLine (decimal n) := by
  have digits : ∀ n, OneLine (Nat.toDigits 10 n) := by
    intro n c mem
    have digit : c.isDigit := Nat.isDigit_of_mem_toDigits (by decide) (by decide) mem
    have bounds : 48 ≤ c.toNat ∧ c.toNat ≤ 57 := by
      simpa [Char.isDigit, UInt32.le_iff_toNat_le] using digit
    exact Nat.le_trans (by decide) bounds.1
  cases n with
  | ofNat n => exact digits n
  | negSucc n => exact cons.mpr ⟨by decide, digits (n + 1)⟩

mutual
theorem write (k : Nat) : (v : Value) → OneLine (v.write .compact k)
  | .null | .bool true | .bool false | .foreign _ => by simp [Value.write]
  | .int n => decimal n
  | .str s => quote s
  | .list [] | .object [] => by simp [Value.write]
  | .list (v :: vs) => by
    simp [Value.write, Layout.opening, Layout.closing, write (k + 1) v, writeItems (k + 1) vs]
  | .object ((key, v) :: members) => by
    simp [Value.write, Layout.opening, Layout.closing, write (k + 1) v,
      writeMembers (k + 1) members]

theorem writeItems (k : Nat) : (vs : List Value) → OneLine (Value.writeItems .compact k vs)
  | [] => nil
  | v :: vs => by
    simp [Value.writeItems, Layout.separator, write k v, writeItems k vs]

theorem writeMembers (k : Nat) : (members : List (String × Value)) →
    OneLine (Value.writeMembers .compact k members)
  | [] => nil
  | (key, v) :: members => by
    simp [Value.writeMembers, Layout.separator, write k v, writeMembers k members]
end

end OneLine

/-! ## Indentation -/

/-- The start of a line inside `depth` brackets: two blanks for each, but one bracket less if a
bracket is closed here. -/
def LineStart (depth : Nat) (line : List Char) : Prop :=
  ∃ k c rest, line = List.replicate (2 * k) ' ' ++ c :: rest ∧ c ≠ ' ' ∧
    depth = if closes c then k + 1 else k

/-- Every line end stands outside of strings, and a line follows that is indented by its depth. -/
def Indented (p : Place) (cs : List Char) : Prop :=
  ∀ before after, cs = before ++ '\n' :: after →
    ∃ depth, p.after before = .outside depth ∧ LineStart depth after

namespace Indented

variable {p : Place} {depth : Nat} {cs : List Char}

theorem nil (p : Place) : Indented p [] := by
  intro before after same
  cases before <;> cases same

theorem cons {c : Char} (other : c ≠ '\n') (h : Indented (p.next c) cs) : Indented p (c :: cs) := by
  intro before after same
  cases before with
  | nil => exact absurd (List.cons_eq_cons.mp same).1 other
  | cons b before =>
      obtain ⟨rfl, rfl⟩ := List.cons_eq_cons.mp same
      exact h before after rfl

theorem lineEnd (start : LineStart depth cs) (h : Indented (.outside depth) cs) :
    Indented (.outside depth) ('\n' :: cs) := by
  intro before after same
  cases before with
  | nil =>
      obtain ⟨-, rfl⟩ := List.cons_eq_cons.mp same
      exact ⟨depth, rfl, start⟩
  | cons b before =>
      obtain ⟨rfl, rfl⟩ := List.cons_eq_cons.mp same
      exact h before after rfl

theorem append {as : List Char} (one : OneLine as) (h : Indented (p.after as) cs) :
    Indented p (as ++ cs) := by
  induction as generalizing p with
  | nil => exact h
  | cons c as ih =>
      obtain ⟨visible, one⟩ := OneLine.cons.mp one
      refine cons ?_ (ih one h)
      rintro rfl
      exact absurd visible (by decide)

theorem newline {k : Nat} {c : Char} {rest : List Char}
    (same : depth = if closes c then k + 1 else k)
    (blank : c ≠ ' ') (h : Indented (.outside depth) (c :: rest)) :
    Indented (.outside depth) (Layout.newline k ++ c :: rest) := by
  have spaces : ∀ c ∈ List.replicate (Layout.indent * k) ' ', c = ' ' ∨ c = '\n' :=
    fun c mem => .inl (List.eq_of_mem_replicate mem)
  refine lineEnd ⟨k, c, rest, rfl, blank, same⟩ (append ?_ ?_)
  · intro c mem
    rw [List.eq_of_mem_replicate mem]
    decide
  · rwa [Place.after_blanks depth spaces]

variable {rest : List Char}

theorem lineOfValue {v : Value} (writable : v.fault? = none)
    (h : Indented (.outside depth) (v.write .indented depth ++ rest)) :
    Indented (.outside depth) (Layout.newline depth ++ (v.write .indented depth ++ rest)) := by
  obtain ⟨c, cs, same, notBlank, bracket, brace⟩ := Reader.write_head .indented depth writable
  rw [same, List.cons_append] at h ⊢
  refine newline ?_ ?_ h
  · simp [closes, bracket, brace]
  · rintro rfl
    cases notBlank

theorem lineOfBracket {c : Char} (bracket : c = ']' ∨ c = '\x7d')
    (h : Indented (.outside depth) rest) :
    Indented (.outside (depth + 1)) (Layout.newline depth ++ c :: rest) := by
  obtain rfl | rfl := bracket
  all_goals exact newline rfl (by decide) (cons (by decide) h)

theorem member {key : String} (h : Indented (.outside depth) cs) :
    Indented (.outside depth) (quote key ++ ':' :: ' ' :: cs) := by
  refine append (OneLine.quote key) ?_
  rw [Place.after_quote]
  exact cons (by decide) (cons (by decide) h)

mutual
/-- Inside as many brackets as its depth, a value keeps what follows it indented. -/
theorem write (depth : Nat) {rest : List Char} : (v : Value) → v.fault? = none →
    Indented (.outside depth) rest → Indented (.outside depth) (v.write .indented depth ++ rest)
  | .null | .bool true | .bool false | .int _ | .str _ | .foreign _ | .list [] | .object [] =>
    fun _ h => append (by simp [Value.write]) (by rwa [Place.after_write])
  | .list (v :: vs) => by
    intro writable h
    obtain ⟨first, others⟩ := List.forall_mem_cons.mp (Value.fault?_list.mp writable)
    simp only [Value.write, List.cons_append, List.append_assoc, List.nil_append]
    refine cons (by decide) (lineOfValue first (write (depth + 1) v first ?_))
    exact writeItems (depth + 1) vs others (lineOfBracket (.inl rfl) h)
  | .object ((key, v) :: members) => by
    intro writable h
    obtain ⟨first, others⟩ := List.forall_mem_cons.mp (Value.fault?_object.mp writable)
    simp only [Value.write, List.cons_append, List.append_assoc, List.nil_append]
    refine cons (by decide) (newline rfl (by decide) (member (write (depth + 1) v first ?_)))
    exact writeMembers (depth + 1) members others (lineOfBracket (.inr rfl) h)

theorem writeItems (depth : Nat) {rest : List Char} : (vs : List Value) →
    (∀ v ∈ vs, v.fault? = none) → Indented (.outside depth) rest →
    Indented (.outside depth) (Value.writeItems .indented depth vs ++ rest)
  | [] => fun _ h => h
  | v :: vs => by
    intro writable h
    obtain ⟨first, others⟩ := List.forall_mem_cons.mp writable
    simp only [Value.writeItems, Layout.separator, List.cons_append, List.append_assoc]
    refine cons (by decide) (lineOfValue first (write depth v first ?_))
    exact writeItems depth vs others h

theorem writeMembers (depth : Nat) {rest : List Char} : (members : List (String × Value)) →
    (∀ m ∈ members, m.2.fault? = none) → Indented (.outside depth) rest →
    Indented (.outside depth) (Value.writeMembers .indented depth members ++ rest)
  | [] => fun _ h => h
  | (key, v) :: members => by
    intro writable h
    obtain ⟨first, others⟩ := List.forall_mem_cons.mp writable
    simp only [Value.writeMembers, Layout.separator, List.cons_append, List.append_assoc]
    refine cons (by decide) (newline rfl (by decide) (member (write depth v first ?_)))
    exact writeMembers depth members others h
end

end Indented

/-- Two forms of one document: the one on a single line, and the one with a line for each item. -/
structure SameButLayout (compact indented : List Char) : Prop where
  /-- They differ in spaces and line ends outside of strings only. -/
  stripped : (Place.outside 0).strip compact = (Place.outside 0).strip indented
  /-- The first has one line. -/
  oneLine : OneLine compact
  /-- The second is indented by depth. -/
  indented : Indented (.outside 0) indented

theorem Value.sameButLayout {v : Value} (h : v.fault? = none) :
    SameButLayout (v.write .compact 0) (v.write .indented 0) where
  stripped := Place.strip_write .compact .indented 0 0 0 v
  oneLine := OneLine.write 0 v
  indented := by simpa using Indented.write 0 v h (Indented.nil _)

end ProtoSchema.Json

namespace ProtoSchema.SchemaOf

open Json

variable {p : SchemaOf Value Value Value Value Value}

theorem fault?_toJson_plain (plain : ∀ v ∈ p.scalars, v.offence? = none) :
    p.toJson.fault? = none := by
  rw [Value.fault?_eq, scalars_toJson]
  exact List.findSome?_eq_none_iff.mpr plain

/-- A schema whose values have written forms, at any depth of a list, and which there is room to
copy has a document in each layout. The two differ in spaces and line ends outside of strings only;
the compact one has one line, and in the indented one each line starts with two blanks for each
bracket that is open around its first item, or around the value that its first bracket ends. -/
theorem render_layouts {room : Nat} (fits : p.toJson.calls ≤ room)
    (plain : ∀ v ∈ p.scalars, v.offence? = none) :
    ∃ compact indented, p.render room .compact = .ok compact ∧
      p.render room .indented = .ok indented ∧ SameButLayout compact.toList indented.toList := by
  have writable := fault?_toJson_plain plain
  have written (l : Layout) := (render_of_fault? writable room l).trans (if_pos fits)
  refine ⟨_, _, written .compact, written .indented, ?_⟩
  simpa using Value.sameButLayout writable

/-- A schema with brackets, quotes and line ends in a string, and with a list inside a list. -/
theorem render_layouts_list :
    let m : Message Value Value Value :=
      ⟨.str "A", [⟨.str "x", .str "T", .int (-1), .bool true⟩], [], []⟩
    let p : SchemaOf Value Value Value Value Value :=
      ⟨.str " [\"\n\x7b", .null, .list [.list [], .list [.int 12]], [m], [], []⟩
    (p.toJson.calls ≤ 10 ∧ ∀ v ∈ p.scalars, v.offence? = none) ∧
      ∃ compact indented, p.render 10 .compact = .ok compact ∧
        p.render 10 .indented = .ok indented ∧
        SameButLayout compact.toList indented.toList := by
  intro m p
  have fits : p.toJson.calls ≤ 10 := by decide
  have plain : ∀ v ∈ p.scalars, v.offence? = none := by decide
  exact ⟨⟨fits, plain⟩, render_layouts fits plain⟩

end ProtoSchema.SchemaOf

namespace ProtoSchema

open Json

/-- Not every schema whose values have written forms has a document: one with six hundred messages
inside each other has none. -/
theorem SchemaOf.render_layouts_nested :
    let room := Limits.usual.calls
    (towering (.str "proto3") 599).render room .indented = .error .tooDeep ∧
      ¬∀ p : SchemaOf Value Value Value Value Value, (∀ v ∈ p.scalars, v.offence? = none) →
        ∃ compact indented, p.render room .compact = .ok compact ∧
          p.render room .indented = .ok indented ∧
            SameButLayout compact.toList indented.toList := by
  intro room
  have unwritten : (towering (.str "proto3") 599).render room .indented = .error .tooDeep :=
    render_towering (by simp [Value.Copied, Value.scalars, Value.refusal?]) (by decide) _
  have plain : ∀ v ∈ (towering (.str "proto3") 599).scalars, v.offence? = none := by
    intro v mem
    obtain inside | rfl | rfl := mem_scalars_towering mem
    · obtain rfl : v = .str "proto3" := by simpa [Value.scalars] using inside
      rfl
    · rfl
    · rfl
  refine ⟨unwritten, fun h => ?_⟩
  obtain ⟨_, _, -, written, -⟩ := h _ plain
  cases unwritten.symm.trans written

end ProtoSchema
