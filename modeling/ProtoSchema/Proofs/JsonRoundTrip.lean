import ProtoSchema.Json.Writer
import ProtoSchema.Proofs.JsonReader
import ProtoSchema.Proofs.Writable

/-! # Documents are read back

Reading what was written gives the value that was written, in both layouts. The induction is on the
depth that the reader allows: what a value has inside is shorter than the value.
-/

namespace ProtoSchema.Json

namespace Reader

theorem isBlank_iff {c : Char} : isBlank c ↔ c = ' ' ∨ c = '\t' ∨ c = '\n' ∨ c = '\r' := by
  simp [isBlank, or_assoc]

/-- Only characters that may stand between two parts. -/
def Blank (cs : List Char) : Prop :=
  ∀ c ∈ cs, isBlank c

theorem Blank.nil : Blank [] := by
  intro c h
  cases h

theorem Blank.space : Blank [' '] := by
  intro c h
  obtain rfl := List.mem_singleton.mp h
  rfl

theorem skip_append {b : List Char} (h : Blank b) (cs : List Char) : skip (b ++ cs) = skip cs :=
  List.dropWhile_append_of_pos h

theorem skip_cons {c : Char} (h : isBlank c = false) (cs : List Char) : skip (c :: cs) = c :: cs :=
  List.dropWhile_cons_of_neg (by simp [h])

/-- What may follow a value: nothing that would make a number longer. -/
def Ends (rest : List Char) : Prop :=
  ∀ c ∈ rest.head?, c.isDigit = false ∧ goesOn c = false

theorem Ends.cons {c : Char} (digit : c.isDigit = false) (more : goesOn c = false)
    (cs : List Char) : Ends (c :: cs) := by
  intro d h
  obtain rfl := Option.some.inj h
  exact ⟨digit, more⟩

theorem Ends.nil : Ends [] := by
  intro c h
  cases h

theorem Ends.blank {b cs : List Char} (h : Blank b) (ends : Ends cs) : Ends (b ++ cs) := by
  cases b with
  | nil => exact ends
  | cons c b =>
      obtain rfl | rfl | rfl | rfl := isBlank_iff.mp (h c List.mem_cons_self)
      all_goals exact .cons rfl rfl _

/-! ## Blanks of the layouts -/

theorem newline_blank (depth : Nat) : Blank (Layout.newline depth) := by
  intro c h
  obtain rfl | h := List.mem_cons.mp h
  · rfl
  · rw [List.eq_of_mem_replicate h]
    rfl

theorem opening_blank (l : Layout) (depth : Nat) : Blank (l.opening depth) := by
  cases l with
  | compact => exact .nil
  | indented => exact newline_blank depth

theorem closing_blank (l : Layout) (depth : Nat) : Blank (l.closing depth) :=
  opening_blank l depth

theorem separator_eq (l : Layout) (depth : Nat) :
    ∃ b, Blank b ∧ l.separator depth = ',' :: b := by
  cases l with
  | compact => exact ⟨_, .space, rfl⟩
  | indented => exact ⟨_, newline_blank depth, rfl⟩

/-! ## Strings -/

theorem string?_backslash {cs more : List Char} {c : Char} (h : escaped? cs = some (c, more)) :
    string? ('\\' :: cs) = (string? more).map fun (s, rest) => (c :: s, rest) := by
  rw [string?, if_neg (by decide), if_pos rfl]
  split
  · next none => cases none.symm.trans h
  · next d last found =>
      cases found.symm.trans h
      rfl

theorem string?_plain {c : Char} (quote : c ≠ '"') (backslash : c ≠ '\\') (control : 0x20 ≤ c.toNat)
    (cs : List Char) :
    string? (c :: cs) = (string? cs).map fun (s, rest) => (c :: s, rest) := by
  rw [string?, if_neg quote, if_neg backslash, if_neg (Nat.not_lt_of_le control)]

theorem hexValue?_digitChar {n : Nat} (h : n < 16) : hexValue? (Nat.digitChar n) = some n := by
  decide +revert

theorem escaped?_code {c : Char} (control : c.toNat < 0x20) (cs : List Char) :
    escaped? ('u' :: '0' :: '0' :: Nat.digitChar (c.toNat / 16) :: Nat.digitChar (c.toNat % 16) ::
      cs) = some (c, cs) := by
  have unit : codeUnit? ('0' :: '0' :: Nat.digitChar (c.toNat / 16) ::
      Nat.digitChar (c.toNat % 16) :: cs) = some (c.toNat, cs) := by
    have zero : hexValue? '0' = some 0 := rfl
    have value : ((0 * 16 + 0) * 16 + c.toNat / 16) * 16 + c.toNat % 16 = c.toNat := by omega
    simp only [codeUnit?, zero, hexValue?_digitChar (show c.toNat / 16 < 16 by omega),
      hexValue?_digitChar (show c.toNat % 16 < 16 by omega), Option.bind_eq_bind, Option.bind_some,
      value, Option.pure_def]
  have below : (decide (c.toNat < 0xd800) || decide (0xe000 ≤ c.toNat)) = true := by
    simp only [Bool.or_eq_true, decide_eq_true_eq]
    omega
  simp only [escaped?, if_true, unicode?, unit, Option.bind_eq_bind, Option.bind_some, below,
    Char.ofNat_toNat]

theorem string?_escape (c : Char) (cs : List Char) :
    string? (escape c ++ cs) = (string? cs).map fun (s, rest) => (c :: s, rest) := by
  unfold escape
  split
  · next h =>
      refine string?_backslash ?_
      obtain rfl | rfl : c = '"' ∨ c = '\\' := by simpa using h
      all_goals rfl
  split
  · next h => exact h ▸ string?_backslash rfl
  split
  · next h => exact h ▸ string?_backslash rfl
  split
  · next h => exact h ▸ string?_backslash rfl
  split
  · next h => exact h ▸ string?_backslash rfl
  split
  · next h => exact h ▸ string?_backslash rfl
  split
  · next control => exact string?_backslash (escaped?_code control cs)
  · next special _ _ _ _ _ control =>
      obtain ⟨quote, backslash⟩ : c ≠ '"' ∧ c ≠ '\\' := by simpa using special
      exact string?_plain quote backslash (Nat.le_of_not_lt control) cs

theorem string?_escaped (s rest : List Char) :
    string? (s.flatMap escape ++ '"' :: rest) = some (s, rest) := by
  induction s with
  | nil => rw [List.flatMap_nil, List.nil_append, string?, if_pos rfl]
  | cons c s ih => rw [List.flatMap_cons, List.append_assoc, string?_escape, ih, Option.map_some]

theorem string?_quote (s : String) (rest : List Char) : ∃ cs, quote s ++ rest = '"' :: cs ∧
    string? cs = some (s.toList, rest) := by
  refine ⟨s.toList.flatMap escape ++ '"' :: rest, ?_, string?_escaped _ _⟩
  simp [quote]

/-! ## Integers -/

theorem toDigits_cons (n : Nat) : ∃ c cs, Nat.toDigits 10 n = c :: cs ∧ c.isDigit := by
  obtain ⟨c, cs, front⟩ := List.exists_cons_of_ne_nil (Nat.toDigits_ne_nil (n := n) (b := 10))
  have mem : c ∈ Nat.toDigits 10 n := front ▸ List.mem_cons_self
  exact ⟨c, cs, front, Nat.isDigit_of_mem_toDigits (by decide) (by decide) mem⟩

theorem toDigits_head {n : Nat} (h : (Nat.toDigits 10 n).head? = some '0') : n = 0 := by
  induction n using Nat.strongRecOn with
  | ind n ih =>
      by_cases small : n < 10
      · rw [Nat.toDigits_of_lt_base small] at h
        have digit := congrArg Char.toNat (Option.some.inj h)
        rw [Nat.toNat_digitChar_of_lt_ten small] at digit
        exact Nat.add_left_cancel digit
      · rw [Nat.toDigits_of_base_le (by decide) (Nat.le_of_not_lt small)] at h
        obtain ⟨c, cs, front, -⟩ := toDigits_cons (n / 10)
        rw [front] at h
        have zero := ih (n / 10) (by omega) (front ▸ h)
        omega

theorem natural?_toDigits (n : Nat) {rest : List Char} (ends : Ends rest) :
    natural? (Nat.toDigits 10 n ++ rest) = some (n, rest) := by
  have digits : ∀ c ∈ Nat.toDigits 10 n, c.isDigit := fun c =>
    Nat.isDigit_of_mem_toDigits (by decide) (by decide)
  have front : (Nat.toDigits 10 n ++ rest).takeWhile (·.isDigit) = Nat.toDigits 10 n := by
    rw [List.takeWhile_append_of_pos digits]
    cases rest with
    | nil => exact List.append_nil _
    | cons c rest => rw [List.takeWhile_cons_of_neg (by simp [(ends c rfl).1]), List.append_nil]
  have back : (Nat.toDigits 10 n ++ rest).dropWhile (·.isDigit) = rest := by
    rw [List.dropWhile_append_of_pos digits]
    cases rest with
    | nil => rfl
    | cons c rest => exact List.dropWhile_cons_of_neg (by simp [(ends c rfl).1])
  have stop : rest.head?.any goesOn = false := by
    cases rest with
    | nil => rfl
    | cons c rest => exact (ends c rfl).2
  have zero : ((Nat.toDigits 10 n).head? = some '0' && Nat.toDigits 10 n ≠ ['0']) = false := by
    by_cases head : (Nat.toDigits 10 n).head? = some '0'
    · obtain rfl := toDigits_head head
      rfl
    · simp [head]
  simp only [natural?, front, back, stop, zero, Nat.toDigits_ne_nil, Nat.ofDigitChars_ten_toDigits,
    decide_false, Bool.or_false, Bool.false_eq_true, if_false]

theorem integer?_decimal (n : Int) {rest : List Char} (ends : Ends rest) :
    integer? (decimal n ++ rest) = some (n, rest) := by
  cases n with
  | ofNat n =>
      have unsigned : integer? (Nat.toDigits 10 n ++ rest) =
          (natural? (Nat.toDigits 10 n ++ rest)).map fun r => ((r.1 : Int), r.2) := by
        unfold integer?
        split
        · next cs minus =>
            obtain ⟨c, ds, front, digit⟩ := toDigits_cons n
            rw [front] at minus
            obtain rfl := (List.cons_eq_cons.mp minus).1
            cases digit
        · rfl
      exact unsigned.trans (congrArg (Option.map _) (natural?_toDigits n ends))
  | negSucc n =>
      exact congrArg (Option.map fun r => (-(r.1 : Int), r.2)) (natural?_toDigits (n + 1) ends)

/-! ## Lists and objects -/

/-- A character that closes a bracket. -/
structure Closing (close : Char) : Prop where
  notBlank : isBlank close = false
  notComma : ',' ≠ close
  notDigit : close.isDigit = false
  ends : goesOn close = false

theorem closing_bracket : Closing ']' := by
  constructor <;> decide

theorem closing_brace : Closing '\x7d' := by
  constructor <;> decide

section

variable {item : List Char → Option (α × List Char)} {close : Char} {cs mid rest : List Char}
  {a : α} {as : List α} {bound : Nat}

theorem itemsUpTo?_last (first : item cs = some (a, mid)) (stop : skip mid = close :: rest) :
    itemsUpTo? item close (bound + 1) cs = some ([a], rest) := by
  simp only [itemsUpTo?, first, stop, Option.bind_eq_bind, Option.bind_some, if_true]

theorem itemsUpTo?_comma {more : List Char} (first : item cs = some (a, mid))
    (comma : skip mid = ',' :: more) (hclose : Closing close)
    (others : itemsUpTo? item close bound more = some (as, rest)) :
    itemsUpTo? item close (bound + 1) cs = some (a :: as, rest) := by
  simp only [itemsUpTo?, first, comma, others, hclose.notComma, Option.bind_eq_bind,
    Option.bind_some, Option.pure_def, if_true, if_false]

/-- The reader of items reads `a` from its text, wherever the text stands. -/
def ReadsFrom (item : List Char → Option (α × List Char)) (text : List Char) (a : α) : Prop :=
  ∀ b rest, Blank b → Ends rest → item (b ++ (text ++ rest)) = some (a, rest)

variable {text : α → List Char} {stop : List Char}

theorem itemsUpTo?_row (l : Layout) (depth : Nat) (hstop : Blank stop) (hclose : Closing close)
    (rest : List Char) : ∀ {as a b bound}, Blank b → as.length < bound →
      (∀ a' ∈ a :: as, ReadsFrom item (text a') a') →
      itemsUpTo? item close bound (b ++ (text a ++
        (as.flatMap (fun a' => l.separator depth ++ text a') ++ (stop ++ close :: rest)))) =
          some (a :: as, rest)
  | [], a, b, bound + 1, hb, _, reads => by
      have ends : Ends (stop ++ close :: rest) :=
        .blank hstop (.cons hclose.notDigit hclose.ends rest)
      refine itemsUpTo?_last (reads a List.mem_cons_self b _ hb ends) ?_
      rw [List.flatMap_nil, List.nil_append, skip_append hstop, skip_cons hclose.notBlank]
  | a' :: as, a, b, bound + 1, hb, hbound, reads => by
      obtain ⟨sep, hsep, same⟩ := separator_eq l depth
      have others := itemsUpTo?_row l depth hstop hclose rest hsep (Nat.lt_of_succ_lt_succ hbound)
        fun x mem => reads x (List.mem_cons_of_mem a mem)
      rw [List.flatMap_cons]
      generalize as.flatMap (fun x => l.separator depth ++ text x) = back at others ⊢
      simp only [same, List.cons_append, List.append_assoc] at others ⊢
      exact itemsUpTo?_comma (reads a List.mem_cons_self b _ hb (.cons rfl rfl _)) (skip_cons rfl _)
        hclose others

/-- The items of a bracket are read from a row of them, whatever opens it. -/
theorem items?_row (l : Layout) (depth : Nat) {start : List Char} (hstart : Blank start)
    (hstop : Blank stop) (hclose : Closing close) {a : α} {as : List α} {c : Char}
    {more : List Char} (first : text a = c :: more) (notBlank : isBlank c = false)
    (notClose : c ≠ close) (reads : ∀ a' ∈ a :: as, ReadsFrom item (text a') a')
    (rest : List Char) :
    items? item close (start ++ (text a ++
      (as.flatMap (fun a' => l.separator depth ++ text a') ++ (stop ++ close :: rest)))) =
        some (a :: as, rest) := by
  -- every item after the first brings its separator
  have count : as.length ≤ (as.flatMap fun a' => l.separator depth ++ text a').length := by
    obtain ⟨sep, -, same⟩ := separator_eq l depth
    clear reads
    induction as with
    | nil => exact Nat.zero_le _
    | cons a' as ih =>
        simp only [List.flatMap_cons, List.length_append, List.length_cons, same] at ih ⊢
        omega
  have head : skip (start ++ (text a ++ (as.flatMap (fun a' => l.separator depth ++ text a') ++
      (stop ++ close :: rest)))) = c :: (more ++
        (as.flatMap (fun a' => l.separator depth ++ text a') ++ (stop ++ close :: rest))) := by
    rw [skip_append hstart, first, List.cons_append, skip_cons notBlank]
  rw [items?, head]
  dsimp only
  rw [if_neg notClose]
  refine itemsUpTo?_row l depth hstop hclose rest hstart ?_ reads
  simp only [List.length_append, List.length_cons]
  omega

end

theorem member?_write {value : List Char → Option (Value × List Char)} {v : Value}
    {text : List Char} (reads : ReadsFrom value text v) (key : String) :
    ReadsFrom (member? value) (quote key ++ (':' :: ' ' :: text)) (key, v) := by
  intro b rest hb ends
  obtain ⟨cs, quoted, string⟩ := string?_quote key (':' :: ' ' :: (text ++ rest))
  have head : skip (b ++ (quote key ++ (':' :: ' ' :: text) ++ rest)) = '"' :: cs := by
    rw [skip_append hb, List.append_assoc, List.cons_append, List.cons_append, quoted,
      skip_cons rfl]
  have value := reads [' '] rest .space ends
  rw [member?, head]
  simp only [string, skip_cons (c := ':') rfl, Option.bind_eq_bind, Option.bind_some]
  rw [show ' ' :: (text ++ rest) = [' '] ++ (text ++ rest) from rfl, value]
  simp only [Option.bind_some, Option.pure_def, String.ofList_toList]

/-! ## Values -/

theorem writeItems_eq (l : Layout) (depth : Nat) (vs : List Value) :
    Value.writeItems l depth vs = vs.flatMap fun v => l.separator depth ++ v.write l depth := by
  induction vs with
  | nil => rfl
  | cons v vs ih => rw [Value.writeItems, ih, List.flatMap_cons, List.append_assoc]

theorem write_list (l : Layout) (depth : Nat) (v : Value) (vs : List Value) :
    Value.write l depth (.list (v :: vs)) = '[' :: (l.opening (depth + 1) ++
      (v.write l (depth + 1) ++
        (vs.flatMap (fun v => l.separator (depth + 1) ++ v.write l (depth + 1)) ++
          (l.closing depth ++ [']'])))) := by
  rw [Value.write, writeItems_eq]

/-- A member as it is written. -/
def memberText (l : Layout) (depth : Nat) (m : String × Value) : List Char :=
  quote m.1 ++ (':' :: ' ' :: m.2.write l depth)

theorem writeMembers_eq (l : Layout) (depth : Nat) (ms : List (String × Value)) :
    Value.writeMembers l depth ms = ms.flatMap fun m =>
      l.separator depth ++ memberText l depth m := by
  induction ms with
  | nil => rfl
  | cons m ms ih =>
      rw [Value.writeMembers, ih, List.flatMap_cons, memberText]
      simp only [List.append_assoc, List.cons_append]

theorem write_object (l : Layout) (depth : Nat) (m : String × Value) (ms : List (String × Value)) :
    Value.write l depth (.object (m :: ms)) = '\x7b' :: (l.opening (depth + 1) ++
      (memberText l (depth + 1) m ++
        (ms.flatMap (fun m => l.separator (depth + 1) ++ memberText l (depth + 1) m) ++
          (l.closing depth ++ ['\x7d'])))) := by
  rw [Value.write, writeMembers_eq]
  simp only [memberText, List.append_assoc, List.cons_append]

theorem number_head {c : Char} (h : c.isDigit ∨ c = '-') :
    isBlank c = false ∧ c ∉ ['"', '[', ']', '\x7b', '\x7d'] := by
  constructor
  · rw [Bool.eq_false_iff]
    intro blank
    obtain rfl | rfl | rfl | rfl := isBlank_iff.mp blank
    all_goals exact absurd h (by decide)
  · intro mem
    simp only [List.mem_cons, List.not_mem_nil, or_false] at mem
    obtain rfl | rfl | rfl | rfl | rfl := mem
    all_goals exact absurd h (by decide)

theorem decimal_head (n : Int) : ∃ c cs, decimal n = c :: cs ∧ (c.isDigit ∨ c = '-') := by
  cases n with
  | ofNat n =>
      obtain ⟨c, cs, front, digit⟩ := toDigits_cons n
      exact ⟨c, cs, front, .inl digit⟩
  | negSucc n => exact ⟨_, _, rfl, .inr rfl⟩

/-- A written value starts with a character of its own. -/
theorem write_head (l : Layout) (depth : Nat) {v : Value} (h : v.fault? = none) :
    ∃ c cs, v.write l depth = c :: cs ∧ isBlank c = false ∧ c ≠ ']' ∧ c ≠ '\x7d' := by
  cases v with
  | null => exact ⟨_, _, rfl, rfl, by decide⟩
  | bool b => cases b <;> exact ⟨_, _, rfl, rfl, by decide⟩
  | int n =>
      obtain ⟨c, cs, same, number⟩ := decimal_head n
      obtain ⟨notBlank, others⟩ := number_head number
      exact ⟨c, cs, same, notBlank, by simp_all⟩
  | str s => exact ⟨_, _, rfl, rfl, by decide⟩
  | list vs => cases vs <;> exact ⟨_, _, rfl, rfl, by decide⟩
  | object ms => cases ms <;> exact ⟨_, _, rfl, rfl, by decide⟩
  | foreign typeName => cases h

theorem length_le_row (text : α → List Char) (sep : List Char) {a a' : α} {as : List α}
    (mem : a' ∈ a :: as) :
    (text a').length ≤ (text a).length + (as.flatMap fun x => sep ++ text x).length := by
  induction as generalizing a with
  | nil =>
      obtain rfl := List.mem_singleton.mp mem
      exact Nat.le_add_right _ _
  | cons b as ih =>
      simp only [List.flatMap_cons, List.length_append]
      obtain rfl | mem := List.mem_cons.mp mem
      · exact Nat.le_add_right _ _
      · have := ih mem
        omega

theorem scalar?_integer {c : Char} {more : List Char} (h : c.isDigit ∨ c = '-') :
    scalar? (c :: more) = (integer? (c :: more)).map fun (n, rest) => (.int n, rest) := by
  unfold scalar?
  split
  all_goals simp_all

section

variable (l : Layout) {fuel depth : Nat}

theorem readsFrom_scalar {v : Value} {c : Char} {more : List Char} (notBlank : isBlank c = false)
    (other : c ∉ ['"', '[', '\x7b'])
    (found : ∀ rest, Ends rest → scalar? (c :: (more ++ rest)) = some (v, rest)) :
    ReadsFrom (value? (fuel + 1)) (c :: more) v := by
  intro b rest hb ends
  rw [value?, skip_append hb, List.cons_append, skip_cons notBlank]
  split
  · exact absurd other (by simp_all)
  · exact absurd other (by simp_all)
  · exact absurd other (by simp_all)
  · exact found rest ends

theorem readsFrom_int (n : Int) : ReadsFrom (value? (fuel + 1)) (decimal n) (.int n) := by
  obtain ⟨c, cs, same, number⟩ := decimal_head n
  obtain ⟨notBlank, others⟩ := number_head number
  rw [same]
  refine readsFrom_scalar notBlank (by simp_all) fun rest ends => ?_
  have integer := integer?_decimal n ends
  rw [same, List.cons_append] at integer
  rw [scalar?_integer number, integer]
  rfl

theorem readsFrom_str (s : String) : ReadsFrom (value? (fuel + 1)) (quote s) (.str s) := by
  intro b rest hb ends
  obtain ⟨cs, quoted, string⟩ := string?_quote s rest
  rw [value?, skip_append hb, quoted, skip_cons rfl]
  simp only [string, Option.map_some, String.ofList_toList]

theorem readsFrom_list {vs : List Value} (writable : ∀ v ∈ vs, v.fault? = none)
    (reads : ∀ v ∈ vs, ReadsFrom (value? fuel) (v.write l (depth + 1)) v) :
    ReadsFrom (value? (fuel + 1)) ((Value.list vs).write l depth) (.list vs) := by
  intro b rest hb ends
  rw [value?, skip_append hb]
  cases vs with
  | nil => rfl
  | cons v vs =>
      obtain ⟨c, more, first, notBlank, notClose, -⟩ :=
        write_head l (depth + 1) (writable v List.mem_cons_self)
      have row := items?_row l (depth + 1) (opening_blank l (depth + 1)) (closing_blank l depth)
        closing_bracket first notBlank notClose reads rest
      rw [write_list]
      simp only [List.cons_append, List.append_assoc, List.nil_append, skip_cons (c := '[') rfl,
        row]
      rfl

theorem readsFrom_object {ms : List (String × Value)}
    (reads : ∀ m ∈ ms, ReadsFrom (value? fuel) (m.2.write l (depth + 1)) m.2) :
    ReadsFrom (value? (fuel + 1)) ((Value.object ms).write l depth) (.object ms) := by
  intro b rest hb ends
  rw [value?, skip_append hb]
  cases ms with
  | nil => rfl
  | cons m ms =>
      have first : memberText l (depth + 1) m = '"' :: _ := rfl
      have row := items?_row l (depth + 1) (opening_blank l (depth + 1)) (closing_blank l depth)
        closing_brace first rfl (by decide)
        (fun m' mem => member?_write (reads m' mem) m'.1) rest
      rw [write_object]
      simp only [List.cons_append, List.append_assoc, List.nil_append, skip_cons (c := '\x7b') rfl,
        row]
      rfl

theorem length_item {v : Value} {vs : List Value} (mem : v ∈ vs) :
    (v.write l (depth + 1)).length < ((Value.list vs).write l depth).length := by
  obtain ⟨first, others, rfl⟩ := List.exists_cons_of_ne_nil (List.ne_nil_of_mem mem)
  have part := length_le_row (Value.write l (depth + 1)) (l.separator (depth + 1)) mem
  simp only [write_list, List.length_cons, List.length_append]
  omega

theorem length_member {m : String × Value} {ms : List (String × Value)} (mem : m ∈ ms) :
    (m.2.write l (depth + 1)).length < ((Value.object ms).write l depth).length := by
  obtain ⟨first, others, rfl⟩ := List.exists_cons_of_ne_nil (List.ne_nil_of_mem mem)
  have part := length_le_row (memberText l (depth + 1)) (l.separator (depth + 1)) mem
  have value : (m.2.write l (depth + 1)).length ≤ (memberText l (depth + 1) m).length := by
    simp only [memberText, List.length_append, List.length_cons]
    omega
  simp only [write_object, List.length_cons, List.length_append]
  omega

theorem readsFrom_write {v : Value} (h : v.fault? = none)
    (short : (v.write l depth).length ≤ fuel) : ReadsFrom (value? fuel) (v.write l depth) v := by
  induction fuel generalizing v depth with
  | zero =>
      obtain ⟨c, cs, same, -⟩ := write_head l depth h
      simp [same] at short
  | succ fuel ih =>
      cases v with
      | null => exact readsFrom_scalar rfl (by decide) fun _ _ => rfl
      | bool value =>
          cases value
          all_goals exact readsFrom_scalar rfl (by decide) fun _ _ => rfl
      | int n => exact readsFrom_int n
      | str s => exact readsFrom_str s
      | list vs =>
          have writable := Value.fault?_list.mp h
          refine readsFrom_list l writable fun v mem => ih (writable v mem) ?_
          exact Nat.le_of_lt_succ (Nat.lt_of_lt_of_le (length_item l mem) short)
      | object ms =>
          refine readsFrom_object l fun m mem => ih (Value.fault?_object.mp h m mem) ?_
          exact Nat.le_of_lt_succ (Nat.lt_of_lt_of_le (length_member l mem) short)
      | foreign typeName => cases h

end

end Reader

/-- A value that can be written is read back from its text. -/
theorem read_write (l : Layout) {v : Value} (h : v.fault? = none) :
    read (String.ofList (v.write l 0)) = some v := by
  have whole := Reader.readsFrom_write l h (Nat.le_succ (v.write l 0).length) [] []
    Reader.Blank.nil Reader.Ends.nil
  rw [List.nil_append, List.append_nil] at whole
  rw [read, String.length_ofList, String.toList_ofList, whole]
  rfl

end ProtoSchema.Json
