import Mathlib.Data.List.TakeWhile
import Mathlib.Data.Nat.Digits.Defs
import ProtoSchema.Log

/-! # Spellings of numbers

An integer is spelled with blanks around it, at most one sign, and digits of any script, some of
which have an underscore between them. A text makes a tag or an enum number if and only if it is
such a spelling of an integer with 32 bits and has not too many digits. Every other text is logged.
-/

namespace ProtoSchema

namespace Text

/-! ## Digits of every script -/

/-- A decimal digit: the code point of the zero in its script, and its value. -/
structure Digit where
  script : Nat
  value : Nat
  mem_zeros : script ∈ zeros
  value_lt : value < 10

theorem zeros_apart : ∀ a ∈ zeros, ∀ b ∈ zeros, a = b ∨ a + 10 ≤ b ∨ b + 10 ≤ a := by
  decide +kernel

theorem zeros_isValidChar : ∀ a ∈ zeros, ∀ n < 10, (a + n).isValidChar := by
  decide +kernel

theorem zeros_not_blank : ∀ a ∈ zeros, ∀ range ∈ blankRanges, a + 10 ≤ range.1 ∨ range.2 < a := by
  decide +kernel

namespace Digit

/-- The character of a digit. -/
def char (d : Digit) : Char :=
  Char.ofNat (d.script + d.value)

theorem toNat_char (d : Digit) : d.char.toNat = d.script + d.value := by
  rw [char, Char.ofNat, dif_pos (zeros_isValidChar _ d.mem_zeros _ d.value_lt)]
  rfl

@[simp] theorem isBlank_char (d : Digit) : isBlank d.char = false := by
  rw [isBlank, List.any_eq_false]
  intro range mem
  have apart := zeros_not_blank _ d.mem_zeros range mem
  have small := d.value_lt
  rw [toNat_char]
  simp only [Bool.and_eq_true, decide_eq_true_eq]
  omega

@[simp] theorem digitValue?_char (d : Digit) : digitValue? d.char = some d.value := by
  have small := d.value_lt
  rw [digitValue?, toNat_char]
  generalize hn : d.script + d.value = n
  cases found : zeros.find? fun first => first ≤ n && n < first + 10 with
  | none =>
      have outside := List.find?_eq_none.mp found d.script d.mem_zeros
      simp only [Bool.and_eq_true, decide_eq_true_eq] at outside
      omega
  | some first =>
      -- The script that is found is that of the digit, since no two scripts share one.
      have apart := zeros_apart _ (List.mem_of_find?_eq_some found) _ d.mem_zeros
      have inside := List.find?_some found
      simp only [Bool.and_eq_true, decide_eq_true_eq] at inside
      rw [Option.map_some, Option.some_inj]
      omega

theorem char_ne (d : Digit) {c : Char} (h : digitValue? c = none) : d.char ≠ c := by
  rintro rfl
  simp at h

end Digit

theorem exists_digit {c : Char} {n : Nat} (h : digitValue? c = some n) :
    ∃ d : Digit, d.char = c := by
  rw [digitValue?, Option.map_eq_some_iff] at h
  obtain ⟨first, found, rfl⟩ := h
  have inside := List.find?_some found
  simp only [Bool.and_eq_true, decide_eq_true_eq] at inside
  refine ⟨⟨first, c.toNat - first, List.mem_of_find?_eq_some found, by omega⟩, ?_⟩
  rw [Digit.char, Nat.add_sub_cancel' inside.1, Char.ofNat_toNat]

/-! ## Blanks -/

theorem trim_append {before cs after : List Char} (leading : ∀ c ∈ before, isBlank c)
    (trailing : ∀ c ∈ after, isBlank c) (ne : cs ≠ []) (first : ∀ c ∈ cs.head?, isBlank c = false)
    (last : ∀ c ∈ cs.getLast?, isBlank c = false) : trim (before ++ (cs ++ after)) = cs := by
  have stop {cs : List Char} (rest : List Char) (ne : cs ≠ [])
      (first : ∀ c ∈ cs.head?, isBlank c = false) :
      (cs ++ rest).dropWhile isBlank = cs ++ rest := by
    obtain ⟨c, cs, rfl⟩ := List.exists_cons_of_ne_nil ne
    exact List.dropWhile_cons_of_neg (by simp [first c rfl])
  have back : cs.reverse.dropWhile isBlank = cs.reverse := by
    simpa using stop [] (List.reverse_eq_nil_iff.not.mpr ne) (by rwa [List.head?_reverse])
  rw [trim, List.dropWhile_append_of_pos leading, stop after ne first, List.reverse_append,
    List.dropWhile_append_of_pos (by simpa using trailing), back, List.reverse_reverse]

theorem exists_append_trim (cs : List Char) : ∃ before after, (∀ c ∈ before, isBlank c) ∧
    (∀ c ∈ after, isBlank c) ∧ before ++ (trim cs ++ after) = cs := by
  refine ⟨cs.takeWhile isBlank, ((cs.dropWhile isBlank).reverse.takeWhile isBlank).reverse,
    fun c hc => List.mem_takeWhile_imp hc,
    fun c hc => List.mem_takeWhile_imp (List.mem_reverse.mp hc), ?_⟩
  rw [trim, ← List.reverse_append, List.takeWhile_append_dropWhile, List.reverse_reverse,
    List.takeWhile_append_dropWhile]

end Text

namespace Number

/-! ## Spellings -/

/-- Digits, some of which have a single underscore between them. -/
inductive Digits where
  /-- The last digit. -/
  | last (d : Text.Digit)
  /-- A digit and those after it. -/
  | beside (d : Text.Digit) (ds : Digits)
  /-- A digit, an underscore, and the digits after it. -/
  | apart (d : Text.Digit) (ds : Digits)

namespace Digits

/-- The characters of some digits, with the underscores between them. -/
def chars : Digits → List Char
  | last d => [d.char]
  | beside d ds => d.char :: ds.chars
  | apart d ds => d.char :: '_' :: ds.chars

/-- The values of some digits, also of the zeros before the others. -/
def values : Digits → List Nat
  | last d => [d.value]
  | beside d ds => d.value :: ds.values
  | apart d ds => d.value :: ds.values

/-- The number that some digits have as a decimal. -/
def magnitude (ds : Digits) : Nat :=
  Nat.ofDigits 10 ds.values.reverse

theorem chars_head? (ds : Digits) : ∃ d : Text.Digit, ds.chars.head? = some d.char := by
  cases ds with
  | last d | beside d | apart d => exact ⟨d, rfl⟩

theorem chars_getLast? (ds : Digits) : ∃ d : Text.Digit, ds.chars.getLast? = some d.char := by
  induction ds with
  | last d => exact ⟨d, rfl⟩
  | beside _ _ ih | apart _ _ ih =>
      obtain ⟨d, last⟩ := ih
      exact ⟨d, by simp [chars, List.getLast?_cons, last]⟩

@[simp] theorem chars_ne_nil (ds : Digits) : ds.chars ≠ [] := by
  cases ds with
  | last | beside | apart => exact List.cons_ne_nil _ _

theorem chars_ne_cons (ds : Digits) {c : Char} (h : Text.digitValue? c = none) (cs : List Char) :
    ds.chars ≠ c :: cs := by
  intro same
  obtain ⟨d, first⟩ := ds.chars_head?
  rw [same] at first
  exact d.char_ne h (Option.some.inj first).symm

end Digits

/-- The sign before a number. -/
inductive Sign where
  /-- No sign. -/
  | none
  /-- The sign of a number that is not below zero. -/
  | plus
  /-- The sign of a number that is not above zero. -/
  | minus

namespace Sign

/-- The characters of a sign. -/
def chars : Sign → List Char
  | none => []
  | plus => ['+']
  | minus => ['-']

/-- The integer of a magnitude with a sign. -/
def apply : Sign → Nat → Int
  | none, n => n
  | plus, n => n
  | minus, n => -n

end Sign

/-- A text that spells an integer. -/
structure Spelling where
  before : List Char
  sign : Sign
  digits : Digits
  after : List Char
  before_blank : ∀ c ∈ before, Text.isBlank c
  after_blank : ∀ c ∈ after, Text.isBlank c

namespace Spelling

/-- The characters of a spelling. -/
def chars (s : Spelling) : List Char :=
  s.before ++ (s.sign.chars ++ s.digits.chars ++ s.after)

/-- The text of a spelling. -/
def text (s : Spelling) : String :=
  String.ofList s.chars

/-- The integer that is spelled. -/
def value (s : Spelling) : Int :=
  s.sign.apply s.digits.magnitude

/-- The digits are those of `n` in decimal, with any number of zeros before them, and the sign is
one that `n` may have. -/
def Writes (s : Spelling) (n : Int) : Prop :=
  (∃ zeros, s.digits.values = List.replicate zeros 0 ++ (Nat.digits 10 n.natAbs).reverse) ∧
    match s.sign with
    | .minus => n ≤ 0
    | _ => 0 ≤ n

theorem Writes.value_eq {s : Spelling} {n : Int} (h : s.Writes n) : s.value = n := by
  obtain ⟨⟨zeros, values⟩, sign⟩ := h
  have magnitude : s.digits.magnitude = n.natAbs := by
    rw [Digits.magnitude, values, List.reverse_append, List.reverse_reverse, List.reverse_replicate,
      Nat.ofDigits_append_replicate_zero, Nat.ofDigits_digits]
  rw [value, magnitude]
  cases same : s.sign with
  | none | plus | minus =>
      simp only [same] at sign
      simp only [Sign.apply]
      omega

end Spelling

/-! ## Reading spellings -/

theorem digits?_chars (ds : Digits) : digits? ds.chars = some ds.values := by
  induction ds with
  | last d => simp [Digits.chars, digits?, Digits.values]
  | beside d ds ih =>
      have other (cs : List Char) : ds.chars ≠ '_' :: cs := ds.chars_ne_cons (by decide) cs
      rw [Digits.chars, digits?.eq_4 _ _ ds.chars_ne_nil other, d.digitValue?_char, ih]
      rfl
  | apart d ds ih =>
      rw [Digits.chars, digits?, d.digitValue?_char, ih]
      rfl

theorem ofDigits_values (ds : Digits) : ofDigits ds.values = ds.magnitude := by
  rw [ofDigits, Digits.magnitude, Nat.ofDigits_eq_foldr, List.foldr_reverse]
  simp [Nat.add_comm]

theorem magnitude?_chars (ds : Digits) : magnitude? ds.chars =
    if ds.values.length ≤ digitLimit then some ds.magnitude else none := by
  rw [magnitude?, digits?_chars, ← ofDigits_values]
  rfl

theorem signed?_chars (sign : Sign) (ds : Digits) : signed? (sign.chars ++ ds.chars) =
    if ds.values.length ≤ digitLimit then some (sign.apply ds.magnitude) else none := by
  cases sign with
  | none =>
      -- The first digit is not taken for a sign.
      rw [Sign.chars, List.nil_append, signed?.eq_3 _ (ds.chars_ne_cons (by decide))
        (ds.chars_ne_cons (by decide)), magnitude?_chars]
      split <;> rfl
  | plus | minus =>
      rw [Sign.chars, List.singleton_append, signed?, magnitude?_chars]
      split <;> rfl

/-- A spelling is read as the integer that it spells, unless it has too many digits. -/
theorem read?_chars (s : Spelling) : read? s.chars =
    if s.digits.values.length ≤ digitLimit then some s.value else none := by
  have first : ∀ c ∈ (s.sign.chars ++ s.digits.chars).head?, Text.isBlank c = false := by
    obtain ⟨d, head⟩ := s.digits.chars_head?
    cases s.sign with
    | none => simp [Sign.chars, head]
    | plus | minus => rintro _ ⟨⟩; rfl
  have last : ∀ c ∈ (s.sign.chars ++ s.digits.chars).getLast?, Text.isBlank c = false := by
    obtain ⟨d, last⟩ := s.digits.chars_getLast?
    simp [List.getLast?_append, last]
  rw [read?, Spelling.chars, Text.trim_append s.before_blank s.after_blank
    (by simp) first last, signed?_chars]
  rfl

/-! ## Texts that are read -/

theorem exists_digits {cs : List Char} {vs : List Nat} (h : digits? cs = some vs) :
    ∃ ds : Digits, ds.chars = cs := by
  induction cs using digits?.induct generalizing vs with
  | case1 => simp [digits?] at h
  | case2 c =>
      obtain ⟨v, digit, -⟩ := by simpa [digits?] using h
      obtain ⟨d, rfl⟩ := Text.exists_digit digit
      exact ⟨.last d, rfl⟩
  | case3 c cs ih =>
      rw [digits?] at h
      obtain ⟨v, digit, h⟩ := Option.bind_eq_some_iff.mp h
      obtain ⟨us, rest, -⟩ := Option.bind_eq_some_iff.mp h
      obtain ⟨d, rfl⟩ := Text.exists_digit digit
      obtain ⟨ds, rfl⟩ := ih rest
      exact ⟨.apart d ds, rfl⟩
  | case4 c cs more other ih =>
      rw [digits?.eq_4 c cs more other] at h
      obtain ⟨v, digit, h⟩ := Option.bind_eq_some_iff.mp h
      obtain ⟨us, rest, -⟩ := Option.bind_eq_some_iff.mp h
      obtain ⟨d, rfl⟩ := Text.exists_digit digit
      obtain ⟨ds, rfl⟩ := ih rest
      exact ⟨.beside d ds, rfl⟩

theorem exists_magnitude {cs : List Char} {n : Nat} (h : magnitude? cs = some n) :
    ∃ ds : Digits, ds.chars = cs := by
  obtain ⟨vs, digits, -⟩ := Option.bind_eq_some_iff.mp h
  exact exists_digits digits

theorem exists_signed {cs : List Char} {n : Int} (h : signed? cs = some n) :
    ∃ (sign : Sign) (ds : Digits), sign.chars ++ ds.chars = cs := by
  unfold signed? at h
  split at h
  all_goals
    obtain ⟨m, converted, -⟩ := Option.map_eq_some_iff.mp h
    obtain ⟨k, magnitude, -⟩ := Option.bind_eq_some_iff.mp converted
    obtain ⟨ds, rfl⟩ := exists_magnitude magnitude
  · exact ⟨.minus, ds, rfl⟩
  · exact ⟨.plus, ds, rfl⟩
  · exact ⟨.none, ds, rfl⟩

/-- Just the spellings without too many digits are read, as the integers that they spell. -/
theorem read?_eq_some {cs : List Char} {n : Int} : read? cs = some n ↔
    ∃ s : Spelling, s.chars = cs ∧ s.digits.values.length ≤ digitLimit ∧ s.value = n := by
  constructor
  · intro h
    obtain ⟨before, after, leading, trailing, same⟩ := Text.exists_append_trim cs
    obtain ⟨sign, ds, trimmed⟩ := exists_signed h
    -- What is cut off at the ends is blank, and what is left spells the integer.
    let s : Spelling := ⟨before, sign, ds, after, leading, trailing⟩
    have chars : s.chars = cs := by rw [← same, ← trimmed]; rfl
    rw [← chars, read?_chars, Option.ite_none_right_eq_some, Option.some_inj] at h
    exact ⟨s, chars, h⟩
  · rintro ⟨s, rfl, short, rfl⟩
    rw [read?_chars, if_pos short]

theorem ofText?_eq_some {text : String} {n : Int} : ofText? text = some n ↔
    ∃ s : Spelling, s.text = text ∧ s.digits.values.length ≤ 4300 ∧ s.value = n ∧
      -2147483648 ≤ n ∧ n ≤ 2147483647 := by
  rw [ofText?, Option.filter_eq_some_iff, read?_eq_some, Bool.and_eq_true, decide_eq_true_eq,
    decide_eq_true_eq]
  constructor
  · rintro ⟨⟨s, chars, short, value⟩, range⟩
    exact ⟨s, by rw [Spelling.text, chars, String.ofList_toList], short, value, range⟩
  · rintro ⟨s, rfl, short, value, range⟩
    exact ⟨⟨s, by rw [Spelling.text, String.toList_ofList], short, value⟩, range⟩

end Number

open Number

namespace Node

theorem buildNumber_eq (node : Node) : node.buildNumber =
    match ofText? node.text with
    | some n => .ok (n, [])
    | none => .ok (0, [⟨node.text, node.line, node.col⟩]) := by
  unfold buildNumber
  cases ofText? node.text <;> rfl

/-- A node is built without a warning if and only if its text spells an integer with 32 bits with
not too many digits, and then as that integer, however it is spelled. Any other text counts as zero
and is logged once. -/
theorem buildNumber_spelling (node : Node) :
    (∀ n, node.buildNumber = .ok (n, []) ↔
      ∃ s : Spelling, s.text = node.text ∧ s.digits.values.length ≤ 4300 ∧ s.value = n ∧
        -2147483648 ≤ n ∧ n ≤ 2147483647) ∧
    ((¬∃ s : Spelling, s.text = node.text ∧ s.digits.values.length ≤ 4300 ∧
        -2147483648 ≤ s.value ∧ s.value ≤ 2147483647) →
      ∃ w, node.buildNumber = .ok (0, [w]) ∧ w.entry = ⟨.warning, "number_out_of_range",
        [("lexeme", .text node.text), ("line", .int node.line), ("col", .int node.col),
          ("fallback", .int 0)]⟩) ∧
    ∀ n (s : Spelling), -2147483648 ≤ n → n ≤ 2147483647 → s.Writes n →
      s.digits.values.length ≤ 4300 → s.text = node.text → node.buildNumber = .ok (n, []) := by
  have quiet (n : Int) : node.buildNumber = .ok (n, []) ↔ ofText? node.text = some n := by
    rw [buildNumber_eq]
    cases ofText? node.text with
    | none => exact ⟨nofun, nofun⟩
    | some m => exact ⟨by rintro ⟨⟩; rfl, by rintro ⟨⟩; rfl⟩
  refine ⟨fun n => (quiet n).trans ofText?_eq_some, fun unspelled => ?_,
    fun n s low high writes short text => ?_⟩
  · have unread : ofText? node.text = none := by
      refine Option.eq_none_iff_forall_ne_some.mpr fun n read => unspelled ?_
      obtain ⟨s, text, short, rfl, range⟩ := ofText?_eq_some.mp read
      exact ⟨s, text, short, range⟩
    exact ⟨⟨node.text, node.line, node.col⟩, by rw [buildNumber_eq, unread], rfl⟩
  · exact (quiet n).mpr (ofText?_eq_some.mpr ⟨s, text, short, writes.value_eq, low, high⟩)

/-- The least number with digits of three scripts, a zero before them and some underscores; and a
text with two underscores side by side. -/
theorem buildNumber_spelling_scripts :
    let ascii (n : Fin 10) : Text.Digit := ⟨0x30, n, by decide, n.isLt⟩
    let arabic (n : Fin 10) : Text.Digit := ⟨0x660, n, by decide, n.isLt⟩
    let wide (n : Fin 10) : Text.Digit := ⟨0xff10, n, by decide, n.isLt⟩
    let digits : Digits := .apart (ascii 0) (.beside (arabic 2) (.beside (wide 1) (.apart (ascii 4)
      (.beside (ascii 7) (.beside (arabic 4) (.beside (arabic 8) (.beside (wide 3) (.apart (wide 6)
        (.apart (ascii 4) (.last (arabic 8)))))))))))
    let s : Spelling := ⟨['\u3000', ' '], .minus, digits, ['\n'], List.all_eq_true.mp rfl,
      List.all_eq_true.mp rfl⟩
    let node : Node := ⟨.number, s.text, 0, 18, 1, 1, []⟩
    let doubled : Node := ⟨.number, "1__2", 5, 9, 1, 6, []⟩
    (s.text = "\u3000 -0_\u0662\uff114_7\u0664\u0668\uff13\uff16_4_\u0668\n" ∧
      s.Writes (-2147483648) ∧ node.buildNumber = .ok (-2147483648, [])) ∧
    (¬∃ s : Spelling, s.text = doubled.text ∧ s.digits.values.length ≤ 4300 ∧
        -2147483648 ≤ s.value ∧ s.value ≤ 2147483647) ∧
      ∃ w, doubled.buildNumber = .ok (0, [w]) ∧ w.entry = ⟨.warning, "number_out_of_range",
        [("lexeme", .text "1__2"), ("line", .int 1), ("col", .int 6), ("fallback", .int 0)]⟩ := by
  intro ascii arabic wide digits s node doubled
  have writes : s.Writes (-2147483648) := ⟨⟨1, by decide +kernel⟩, by decide⟩
  have unspelled : ¬∃ s : Spelling, s.text = doubled.text ∧ s.digits.values.length ≤ 4300 ∧
      -2147483648 ≤ s.value ∧ s.value ≤ 2147483647 := by
    rintro ⟨s, text, short, range⟩
    have unread : ofText? doubled.text = none := by decide +kernel
    simp [ofText?_eq_some.mpr ⟨s, text, short, rfl, range⟩] at unread
  have built : node.buildNumber = .ok (-2147483648, []) :=
    (buildNumber_spelling node).2.2 _ s (by decide) (by decide) writes (by decide) rfl
  exact ⟨⟨by decide +kernel, writes, built⟩, unspelled,
    (buildNumber_spelling doubled).2.1 unspelled⟩

end Node

end ProtoSchema
