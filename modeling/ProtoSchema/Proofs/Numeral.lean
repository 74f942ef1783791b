import ProtoSchema.Proofs.Spelling

/-! # Numerals

A number that is written in decimal, with zeros before it, is read back.
-/

namespace ProtoSchema.Number

theorem exists_run {cs : List Char} (h : ∀ c ∈ cs, c.isDigit) (ne : cs ≠ []) :
    ∃ ds : Digits, ds.chars = cs ∧ ds.values = cs.map (·.toNat - 48) := by
  have digit {c : Char} (h : c.isDigit) :
      ∃ d : Text.Digit, d.char = c ∧ d.value = c.toNat - 48 := by
    have range : 48 ≤ c.toNat ∧ c.toNat ≤ 57 := by
      simpa [Char.isDigit, UInt32.le_iff_toNat_le] using h
    refine ⟨⟨48, c.toNat - 48, by decide, by omega⟩, ?_, rfl⟩
    rw [Text.Digit.char, Nat.add_sub_cancel' range.1, Char.ofNat_toNat]
  induction cs with
  | nil => exact absurd rfl ne
  | cons c cs ih =>
      obtain ⟨hc, hcs⟩ := List.forall_mem_cons.mp h
      obtain ⟨d, rfl, value⟩ := digit hc
      cases cs with
      | nil => exact ⟨.last d, rfl, congrArg ([·]) value⟩
      | cons c cs =>
          obtain ⟨ds, chars, values⟩ := ih hcs (List.cons_ne_nil c cs)
          exact ⟨.beside d ds, congrArg (d.char :: ·) chars, congrArg₂ List.cons value values⟩

/-- Digits spell the number that they have as a decimal, if they are not too many. -/
theorem read?_run {cs : List Char} (h : ∀ c ∈ cs, c.isDigit) (ne : cs ≠ []) : read? cs =
    if cs.length ≤ digitLimit then some (Nat.ofDigitChars 10 cs 0 : Int) else none := by
  obtain ⟨ds, chars, values⟩ := exists_run h ne
  have magnitude : ds.magnitude = Nat.ofDigitChars 10 cs 0 := by
    rw [← ofDigits_values, values]
    simp [ofDigits, Nat.ofDigitChars_eq_foldl, List.foldl_map]
  let s : Spelling := ⟨[], .none, ds, [], List.forall_mem_nil _, List.forall_mem_nil _⟩
  have text : s.chars = cs := by simp [s, Spelling.chars, Sign.chars, chars]
  have number : s.value = Nat.ofDigitChars 10 cs 0 := congrArg Nat.cast magnitude
  rw [← text, read?_chars, number, text, show s.digits = ds from rfl, values, List.length_map]

theorem ofText?_digits {text : String} (h : ∀ c ∈ text.toList, c.isDigit) (ne : text.toList ≠ []) :
    ofText? text =
      if text.length ≤ 4300 ∧ Nat.ofDigitChars 10 text.toList 0 ≤ 2147483647 then
        some (Nat.ofDigitChars 10 text.toList 0 : Int)
      else none := by
  rw [ofText?, read?_run h ne, String.length_toList]
  unfold digitLimit least greatest
  by_cases short : text.length ≤ 4300
  · rw [if_pos short, Option.filter_some]
    simp only [short, true_and]
    congr 1
    simp only [Bool.and_eq_true, decide_eq_true_eq, eq_iff_iff]
    omega
  · simp [short]

/-- A tag or enum number in decimal, with zeros before it. -/
def numeral (zeros n : Nat) : String :=
  String.ofList (List.replicate zeros '0' ++ Nat.toDigits 10 n)

theorem ofText?_numeral {zeros n : Nat} (fits : n ≤ 2147483647)
    (short : zeros + (Nat.toDigits 10 n).length ≤ 4300) :
    ofText? (numeral zeros n) = some (n : Int) := by
  have digits : ∀ c ∈ List.replicate zeros '0' ++ Nat.toDigits 10 n, c.isDigit := by
    intro c hc
    obtain hc | hc := List.mem_append.mp hc
    · rw [List.eq_of_mem_replicate hc]
      rfl
    · exact Nat.isDigit_of_mem_toDigits (by omega) (by omega) hc
  have value : Nat.ofDigitChars 10 (List.replicate zeros '0' ++ Nat.toDigits 10 n) 0 = n := by
    rw [Nat.ofDigitChars_append, Nat.ofDigitChars_replicate_zero, Nat.mul_zero,
      Nat.ofDigitChars_ten_toDigits]
  have length : (List.replicate zeros '0' ++ Nat.toDigits 10 n).length ≤ 4300 :=
      by simpa using short
  rw [numeral, ofText?_digits (by simpa using digits) (by simp [Nat.toDigits_ne_nil])]
  simp only [String.toList_ofList, String.length_ofList, value]
  rw [if_pos ⟨length, fits⟩]

end ProtoSchema.Number
