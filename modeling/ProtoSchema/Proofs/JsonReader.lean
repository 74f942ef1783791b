import ProtoSchema.Json.Value

/-! # Reading JSON

A reader of JSON texts, apart from the writer: blanks may stand between any two parts, every escape
is known, and a text is read as a whole or not at all. Members keep their order. A number with a
fraction or an exponent is refused, because no value stands for it.
-/

namespace ProtoSchema.Json

namespace Reader

/-- A character that may stand between two parts of a text. -/
def isBlank (c : Char) : Bool :=
  c == ' ' || c == '\t' || c == '\n' || c == '\r'

/-- What follows the blanks at the front. -/
def skip (cs : List Char) : List Char :=
  cs.dropWhile isBlank

/-! ## Strings -/

/-- The value of a hexadecimal digit in either case. -/
def hexValue? (c : Char) : Option Nat :=
  if c.isDigit then some (c.toNat - '0'.toNat)
  else if 'a' ≤ c ∧ c ≤ 'f' then some (c.toNat - 'a'.toNat + 10)
  else if 'A' ≤ c ∧ c ≤ 'F' then some (c.toNat - 'A'.toNat + 10)
  else none

/-- The code unit that four hexadecimal digits make. -/
def codeUnit? : List Char → Option (Nat × List Char)
  | a :: b :: c :: d :: rest => do
    let a ← hexValue? a
    let b ← hexValue? b
    let c ← hexValue? c
    let d ← hexValue? d
    return (((a * 16 + b) * 16 + c) * 16 + d, rest)
  | _ => none

/-- The character that two surrogates make together. -/
def surrogates (high low : Nat) : Char :=
  Char.ofNat (0x10000 + (high - 0xd800) * 0x400 + (low - 0xdc00))

/-- The character after a backslash and `u`: one code unit, or two surrogates in their order. -/
def unicode? (cs : List Char) : Option (Char × List Char) := do
  let (first, rest) ← codeUnit? cs
  if first < 0xd800 || 0xe000 ≤ first then some (Char.ofNat first, rest)
  else if 0xdc00 ≤ first then none
  else
    match rest with
    | '\\' :: 'u' :: rest => do
      let (second, rest) ← codeUnit? rest
      if 0xdc00 ≤ second && second < 0xe000 then some (surrogates first second, rest) else none
    | _ => none

/-- The character that a letter after a backslash stands for. -/
def named? (c : Char) : Option Char :=
  if c = '"' || c = '\\' || c = '/' then some c
  else if c = 'n' then some '\n'
  else if c = 'r' then some '\r'
  else if c = 't' then some '\t'
  else if c = 'f' then some '\x0c'
  else if c = 'b' then some '\x08'
  else none

/-- The character that stands after a backslash. -/
def escaped? : List Char → Option (Char × List Char)
  | [] => none
  | c :: rest => if c = 'u' then unicode? rest else (named? c).map fun found => (found, rest)

theorem codeUnit?_shorter {cs rest : List Char} {n : Nat} (h : codeUnit? cs = some (n, rest)) :
    rest.length < cs.length := by
  unfold codeUnit? at h
  split at h
  · simp only [Option.bind_eq_bind, Option.bind_eq_some_iff, Option.pure_def, Option.some.injEq,
      Prod.mk.injEq] at h
    obtain ⟨_, -, _, -, _, -, _, -, -, rfl⟩ := h
    simp only [List.length_cons]
    omega
  · cases h

theorem unicode?_shorter {cs rest : List Char} {c : Char} (h : unicode? cs = some (c, rest)) :
    rest.length < cs.length := by
  simp only [unicode?, Option.bind_eq_bind, Option.bind_eq_some_iff] at h
  obtain ⟨⟨first, more⟩, unit, h⟩ := h
  have shorter := codeUnit?_shorter unit
  dsimp only at h
  split at h
  · obtain ⟨-, rfl⟩ := Prod.mk.inj (Option.some.inj h)
    exact shorter
  split at h
  · cases h
  split at h
  · simp only [Option.bind_eq_some_iff] at h
    obtain ⟨⟨second, last⟩, unit', h⟩ := h
    have shorter' := codeUnit?_shorter unit'
    dsimp only at h
    split at h
    · obtain ⟨-, rfl⟩ := Prod.mk.inj (Option.some.inj h)
      simp only [List.length_cons] at shorter
      omega
    · cases h
  · cases h

theorem escaped?_shorter {cs rest : List Char} {c : Char} (h : escaped? cs = some (c, rest)) :
    rest.length < cs.length := by
  cases cs with
  | nil => cases h
  | cons d cs =>
      rw [escaped?] at h
      split at h
      · exact Nat.lt_succ_of_lt (unicode?_shorter h)
      · simp only [Option.map_eq_some_iff, Prod.mk.injEq] at h
        obtain ⟨_, -, -, rfl⟩ := h
        exact Nat.lt_succ_self _

/-- The characters up to the next quote, and what follows the quote. -/
def string? : List Char → Option (List Char × List Char)
  | [] => none
  | c :: rest =>
    if c = '"' then some ([], rest)
    else if c = '\\' then
      match _h : escaped? rest with
      | none => none
      | some (d, more) => (string? more).map fun (ds, last) => (d :: ds, last)
    else if c.toNat < 0x20 then none
    else (string? rest).map fun (cs, last) => (c :: cs, last)
termination_by cs => cs.length
decreasing_by
  · exact Nat.lt_succ_of_lt (escaped?_shorter _h)
  · exact Nat.lt_succ_self _

/-! ## Scalars -/

/-- Whether a number goes on with a fraction or an exponent. -/
def goesOn (c : Char) : Bool :=
  c == '.' || c == 'e' || c == 'E'

/-- The number in decimal at the front. A zero stands at the front of no other number. -/
def natural? (cs : List Char) : Option (Nat × List Char) :=
  let digits := cs.takeWhile (·.isDigit)
  let rest := cs.dropWhile (·.isDigit)
  if digits = [] || (digits.head? = some '0' && digits ≠ ['0']) || rest.head?.any goesOn then none
  else some (Nat.ofDigitChars 10 digits 0, rest)

/-- The integer at the front, with a sign if it is negative. -/
def integer? : List Char → Option (Int × List Char)
  | '-' :: cs => (natural? cs).map fun (n, rest) => (-(n : Int), rest)
  | cs => (natural? cs).map fun (n, rest) => ((n : Int), rest)

/-- The value without parts at the front: a name or a number. -/
def scalar? : List Char → Option (Value × List Char)
  | 'n' :: 'u' :: 'l' :: 'l' :: rest => some (.null, rest)
  | 't' :: 'r' :: 'u' :: 'e' :: rest => some (.bool true, rest)
  | 'f' :: 'a' :: 'l' :: 's' :: 'e' :: rest => some (.bool false, rest)
  | cs => (integer? cs).map fun (n, rest) => (.int n, rest)

/-! ## Lists and objects -/

section

variable (item : List Char → Option (α × List Char)) (close : Char)

/-- Items with commas between them up to the bracket `close`, at most `bound` of them. -/
def itemsUpTo? : Nat → List Char → Option (List α × List Char)
  | 0, _ => none
  | bound + 1, cs => do
    let (a, rest) ← item cs
    match skip rest with
    | [] => none
    | c :: rest =>
      if c = close then some ([a], rest)
      else if c = ',' then do
        let (as, rest) ← itemsUpTo? bound rest
        return (a :: as, rest)
      else none

/-- The items of a bracket that has just been opened. Each of them takes a character, so there are
no more items than characters. -/
def items? (cs : List Char) : Option (List α × List Char) :=
  match skip cs with
  | [] => none
  | c :: rest => if c = close then some ([], rest) else itemsUpTo? item close cs.length cs

end

/-- A member of an object: a string, a colon and a value. -/
def member? (value : List Char → Option (Value × List Char)) (cs : List Char) :
    Option ((String × Value) × List Char) :=
  match skip cs with
  | '"' :: rest => do
    let (key, rest) ← string? rest
    match skip rest with
    | ':' :: rest => do
      let (v, rest) ← value rest
      return ((String.ofList key, v), rest)
    | _ => none
  | _ => none

/-- The value at the front, with at most `depth` values inside each other. -/
def value? : Nat → List Char → Option (Value × List Char)
  | 0, _ => none
  | depth + 1, cs =>
    match skip cs with
    | '"' :: rest => (string? rest).map fun (s, rest) => (.str (String.ofList s), rest)
    | '[' :: rest => (items? (value? depth) ']' rest).map fun (vs, rest) => (.list vs, rest)
    | '\x7b' :: rest =>
      (items? (member? (value? depth)) '\x7d' rest).map fun (ms, rest) => (.object ms, rest)
    | rest => scalar? rest

end Reader

open Reader

/-- The value of a whole text. Values inside each other take a character each, so their depth is
no more than the number of characters. -/
def read (text : String) : Option Value := do
  let (v, rest) ← value? (text.length + 1) text.toList
  if skip rest = [] then some v else none

example : read " [ -1 , true,[]]\n" = some (.list [.int (-1), .bool true, .list []]) := rfl

example : read "[1,]" = none := rfl

end ProtoSchema.Json
