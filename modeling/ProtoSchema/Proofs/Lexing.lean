import Mathlib.Data.List.TakeWhile
import ProtoSchema.Lexer

/-! # What the lexer accepts

A text has tokens if and only if it is a row of lexemes each of which ends where the next one may
start, and the tokens are those of the row. Otherwise such a row leads up to a character at which
no lexeme starts. The rules for lexemes look at characters only.
-/

namespace ProtoSchema

namespace Lexeme

/-- The characters of a lexeme. -/
def chars : Lexeme → List Char
  | gap cs => cs
  | token _ cs => cs

/-- What is left of a string literal after its opening quote. A backslash escapes any character,
also a line feed. -/
inductive Quoted : List Char → Prop where
  | close : Quoted ['"']
  | escape (c : Char) (rest : Quoted cs) : Quoted ('\\' :: c :: cs)
  | plain (quote : c ≠ '"') (backslash : c ≠ '\\') (feed : c ≠ '\n') (rest : Quoted cs) :
      Quoted (c :: cs)

/-- The lexeme may end where `rest` follows. -/
inductive Precedes : Lexeme → List Char → Prop where
  | blank (blank : isBlank c) : Precedes (.gap [c]) rest
  | line (inside : '\n' ∉ body) (stop : ∀ c ∈ rest.head?, c = '\n') :
      Precedes (.gap ('/' :: '/' :: body)) rest
  | block (inside : ¬['*', '/'] <:+: body) :
      Precedes (.gap ('/' :: '*' :: (body ++ ['*', '/']))) rest
  | string (inside : Quoted body) : Precedes (.token .stringLit ('"' :: body)) rest
  | number (first : isDigit c) (inside : ∀ d ∈ body, isDigit d)
      (stop : ∀ d ∈ rest.head?, ¬isDigit d) : Precedes (.token .number (c :: body)) rest
  | ident (first : isLetter c) (inside : ∀ d ∈ body, isWordChar d)
      (stop : ∀ d ∈ rest.head?, ¬isWordChar d) : Precedes (.token .ident (c :: body)) rest
  | delimiter (kind : Token.Kind.ofDelimiter? c = some k) : Precedes (.token k [c]) rest

/-- No lexeme starts with the character where `rest` follows, for the given reason. -/
inductive Stuck : Char → List Char → ScanError.Cause → Prop where
  | comment (unclosed : ¬['*', '/'] <:+: body) : Stuck '/' ('*' :: body) .unterminatedComment
  | string (unclosed : closeString rest = none) : Stuck '"' rest .unterminatedString
  | slash (other : ∀ c ∈ rest.head?, c ≠ '/' ∧ c ≠ '*') : Stuck '/' rest (.unexpected '/')
  | unexpected (blank : ¬isBlank c) (slash : c ≠ '/') (quote : c ≠ '"') (digit : ¬isDigit c)
      (letter : ¬isLetter c) (delimiter : Token.Kind.ofDelimiter? c = none) :
      Stuck c rest (.unexpected c)

/-! ## Single lexemes -/

theorem closeString_iff {cs body rest : List Char} :
    closeString cs = some (body, rest) ↔ Quoted body ∧ body ++ rest = cs := by
  constructor
  · intro h
    induction cs using closeString.induct generalizing body with
    | case1 => simp [closeString] at h
    | case2 cs =>
        obtain ⟨rfl, rfl⟩ := by simpa [closeString] using h
        exact ⟨.close, rfl⟩
    | case3 cs => simp [closeString] at h
    | case4 => simp [closeString] at h
    | case5 c cs ih =>
        obtain ⟨b, hb, rfl⟩ := by simpa [closeString] using h
        obtain ⟨quoted, rfl⟩ := ih hb
        exact ⟨.escape c quoted, rfl⟩
    | case6 c cs quote feed single escape ih =>
        rw [closeString.eq_6 c cs quote feed single escape] at h
        obtain ⟨b, hb, rfl⟩ := by simpa using h
        obtain ⟨quoted, rfl⟩ := ih hb
        refine ⟨.plain quote ?_ feed quoted, rfl⟩
        rintro rfl
        cases hcs : b ++ rest with
        | nil => exact single rfl hcs
        | cons d ds => exact escape d ds rfl hcs
  · rintro ⟨quoted, rfl⟩
    induction quoted with
    | close => rfl
    | escape c _ ih => simp [closeString, ih]
    | plain quote backslash feed _ ih => simp [closeString, ih, backslash]

theorem closeComment_iff {cs body rest : List Char} :
    closeComment cs = some (body, rest) ↔
      ∃ inside, ¬['*', '/'] <:+: inside ∧ body = inside ++ ['*', '/'] ∧ body ++ rest = cs := by
  constructor
  · intro h
    induction cs using closeComment.induct generalizing body with
    | case1 cs =>
        obtain ⟨rfl, rfl⟩ := by simpa [closeComment] using h
        exact ⟨[], by simp, rfl, rfl⟩
    | case2 => simp [closeComment] at h
    | case3 c cs more ih =>
        rw [closeComment.eq_3 c cs more] at h
        obtain ⟨b, hb, rfl⟩ := by simpa using h
        obtain ⟨inside, free, rfl, rfl⟩ := ih hb
        refine ⟨c :: inside, ?_, rfl, rfl⟩
        rw [List.infix_cons_iff, not_or]
        refine ⟨?_, free⟩
        rintro ⟨tail, same⟩
        obtain ⟨rfl, rfl⟩ := List.cons_eq_cons.mp same
        exact more _ rfl rfl
  · rintro ⟨inside, free, rfl, rfl⟩
    induction inside with
    | nil => rfl
    | cons c cs ih =>
        rw [List.infix_cons_iff, not_or] at free
        rw [List.cons_append, List.cons_append, closeComment.eq_3, ih free.2]
        · rfl
        · rintro tail rfl same
          cases cs with
          | nil => simp at same
          | cons d cs =>
              obtain ⟨rfl, -⟩ := List.cons_eq_cons.mp same
              exact free.1 ⟨cs, rfl⟩

theorem closeComment_eq_none {cs : List Char} :
    closeComment cs = none ↔ ¬['*', '/'] <:+: cs := by
  induction cs using closeComment.induct with
  | case1 cs => simp [closeComment, List.infix_cons_iff, List.cons_prefix_cons]
  | case2 => simp [closeComment]
  | case3 c cs more ih =>
      have here : ¬['*', '/'] <+: c :: cs := by
        rintro ⟨tail, same⟩
        obtain ⟨rfl, rfl⟩ := List.cons_eq_cons.mp same
        exact more _ rfl rfl
      rw [closeComment.eq_3 c cs more, Option.map_eq_none_iff, ih, List.infix_cons_iff, not_or]
      exact (and_iff_right here).symm

theorem run_spec (p : Char → Bool) (cs : List Char) :
    (∀ c ∈ (run p cs).1, p c) ∧ (∀ c ∈ (run p cs).2.head?, ¬p c) ∧
      (run p cs).1 ++ (run p cs).2 = cs := by
  refine ⟨fun c hc => List.mem_takeWhile_imp hc, fun c hc => ?_, List.takeWhile_append_dropWhile⟩
  have := List.head?_dropWhile_not p cs
  rw [show (cs.dropWhile p).head? = some c from hc] at this
  simpa using this

theorem run_append {p : Char → Bool} {body rest : List Char} (inside : ∀ c ∈ body, p c)
    (stop : ∀ c ∈ rest.head?, ¬p c) : run p (body ++ rest) = (body, rest) := by
  rw [run, List.takeWhile_append_of_pos inside, List.dropWhile_append_of_pos inside]
  cases rest with
  | nil => simp
  | cons d ds => simp [stop d rfl]

theorem isDigit_plain {c : Char} (h : isDigit c) : ¬isBlank c ∧ c ≠ '/' ∧ c ≠ '"' := by
  refine ⟨fun blank => ?_, ?_, ?_⟩
  · obtain ((rfl | rfl) | rfl) | rfl := by simpa [isBlank] using blank
    all_goals exact absurd h (by decide)
  · rintro rfl
    exact absurd h (by decide)
  · rintro rfl
    exact absurd h (by decide)

theorem isLetter_plain {c : Char} (h : isLetter c) :
    ¬isBlank c ∧ c ≠ '/' ∧ c ≠ '"' ∧ ¬isDigit c := by
  refine ⟨fun blank => ?_, ?_, ?_, fun digit => ?_⟩
  · obtain ((rfl | rfl) | rfl) | rfl := by simpa [isBlank] using blank
    all_goals exact absurd h (by decide)
  · rintro rfl
    exact absurd h (by decide)
  · rintro rfl
    exact absurd h (by decide)
  · simp only [isLetter, isDigit, Bool.or_eq_true, Bool.and_eq_true, decide_eq_true_eq,
      Char.le_def, UInt32.le_iff_toNat_le] at h digit
    simp at h digit
    omega

theorem ofDelimiter?_plain {c : Char} {k : Token.Kind} (h : Token.Kind.ofDelimiter? c = some k) :
    ¬isBlank c ∧ c ≠ '/' ∧ c ≠ '"' ∧ ¬isDigit c ∧ ¬isLetter c := by
  unfold Token.Kind.ofDelimiter? at h
  split at h
  all_goals first | decide | cases h

theorem ofDelimiter?_kind {c : Char} {k : Token.Kind} (h : Token.Kind.ofDelimiter? c = some k) :
    k ∉ [.ident, .number, .stringLit, .eof] := by
  unfold Token.Kind.ofDelimiter? at h
  split at h
  all_goals cases h <;> decide

theorem ofDelimiter?_inj {c d : Char} {k : Token.Kind} (h : Token.Kind.ofDelimiter? c = some k)
    (h' : Token.Kind.ofDelimiter? d = some k) : c = d := by
  unfold Token.Kind.ofDelimiter? at h h'
  split at h
  all_goals cases h <;> split at h' <;> cases h' <;> rfl

theorem closed_ok {make : List Char → Lexeme} {cause : ScanError.Cause} {opening rest : List Char}
    {split : Option (List Char × List Char)} {x : Lexeme}
    (h : closed make cause opening split = .ok (x, rest)) :
    ∃ body, split = some (body, rest) ∧ x = make (opening ++ body) := by
  unfold closed at h
  split at h
  · next body tail =>
      obtain ⟨rfl, rfl⟩ := by simpa using h
      exact ⟨body, rfl, rfl⟩
  · cases h

theorem closed_error {make : List Char → Lexeme} {cause cause' : ScanError.Cause}
    {opening : List Char} {split : Option (List Char × List Char)} :
    closed make cause opening split = .error cause' ↔ split = none ∧ cause = cause' := by
  cases split <;> simp [closed]

theorem read_line (cs : List Char) : read '/' ('/' :: cs) =
    .ok (.gap ('/' :: '/' :: (run (· ≠ '\n') cs).1), (run (· ≠ '\n') cs).2) := rfl

theorem read_block (cs : List Char) : read '/' ('*' :: cs) =
    closed .gap .unterminatedComment ['/', '*'] (closeComment cs) := rfl

theorem read_string (cs : List Char) : read '"' cs =
    closed (.token .stringLit) .unterminatedString ['"'] (closeString cs) := rfl

theorem precedes_of_read {c : Char} {cs rest : List Char} {x : Lexeme}
    (h : read c cs = .ok (x, rest)) : x.Precedes rest ∧ x.chars ++ rest = c :: cs := by
  unfold read at h
  split at h
  · next blank =>
      obtain ⟨rfl, rfl⟩ := by simpa using h
      exact ⟨.blank blank, rfl⟩
  split at h
  · next slash =>
      subst slash
      split at h
      · next cs =>
          obtain ⟨rfl, rfl⟩ := by simpa only [Except.ok.injEq, Prod.mk.injEq] using h
          obtain ⟨inside, stop, same⟩ := run_spec (· ≠ '\n') cs
          refine ⟨.line (fun feed => ?_) fun c hc => ?_, ?_⟩
          · simpa using inside _ feed
          · simpa using stop c hc
          · exact congrArg ('/' :: '/' :: ·) same
      · next cs =>
          obtain ⟨body, closed, rfl⟩ := closed_ok h
          obtain ⟨inside, free, rfl, rfl⟩ := closeComment_iff.mp closed
          exact ⟨.block free, by simp [chars]⟩
      · cases h
  split at h
  · next quote =>
      subst quote
      obtain ⟨body, closed, rfl⟩ := closed_ok h
      obtain ⟨quoted, rfl⟩ := closeString_iff.mp closed
      exact ⟨.string quoted, rfl⟩
  split at h
  · next digit =>
      obtain ⟨rfl, rfl⟩ := by simpa only [Except.ok.injEq, Prod.mk.injEq] using h
      obtain ⟨inside, stop, same⟩ := run_spec isDigit cs
      exact ⟨.number digit inside stop, congrArg (c :: ·) same⟩
  split at h
  · next letter =>
      obtain ⟨rfl, rfl⟩ := by simpa only [Except.ok.injEq, Prod.mk.injEq] using h
      obtain ⟨inside, stop, same⟩ := run_spec isWordChar cs
      exact ⟨.ident letter inside stop, congrArg (c :: ·) same⟩
  split at h
  · next kind =>
      obtain ⟨rfl, rfl⟩ := by simpa using h
      exact ⟨.delimiter kind, rfl⟩
  · cases h

theorem read_of_precedes {c : Char} {cs rest : List Char} {x : Lexeme} (precedes : x.Precedes rest)
    (same : x.chars ++ rest = c :: cs) : read c cs = .ok (x, rest) := by
  cases precedes with
  | blank blank =>
      obtain ⟨rfl, rfl⟩ := List.cons_eq_cons.mp same
      simp [read, blank]
  | line inside stop =>
      obtain ⟨rfl, rfl⟩ := List.cons_eq_cons.mp same
      rename_i body
      have free : ∀ c ∈ body, decide (c ≠ '\n') := by
        rintro c hc
        exact decide_eq_true fun feed => inside (feed ▸ hc)
      have whole : run (· ≠ '\n') (body ++ rest) = (body, rest) :=
        run_append free fun c hc => by simpa using stop c hc
      exact (read_line (body ++ rest)).trans (by rw [whole])
  | block inside =>
      rename_i body
      obtain ⟨rfl, rfl⟩ := List.cons_eq_cons.mp same
      have split : closeComment (body ++ ['*', '/'] ++ rest) = some (body ++ ['*', '/'], rest) :=
        closeComment_iff.mpr ⟨body, inside, rfl, rfl⟩
      exact (read_block (body ++ ['*', '/'] ++ rest)).trans (by rw [split, closed]; rfl)
  | string inside =>
      rename_i body
      obtain ⟨rfl, rfl⟩ := List.cons_eq_cons.mp same
      have split : closeString (body ++ rest) = some (body, rest) :=
        closeString_iff.mpr ⟨inside, rfl⟩
      exact (read_string (body ++ rest)).trans (by rw [split, closed]; rfl)
  | number first inside stop =>
      obtain ⟨rfl, rfl⟩ := List.cons_eq_cons.mp same
      obtain ⟨blank, slash, quote⟩ := isDigit_plain first
      simp [read, blank, slash, quote, first, run_append inside stop]
  | ident first inside stop =>
      obtain ⟨rfl, rfl⟩ := List.cons_eq_cons.mp same
      obtain ⟨blank, slash, quote, digit⟩ := isLetter_plain first
      simp [read, blank, slash, quote, digit, first, run_append inside stop]
  | delimiter kind =>
      obtain ⟨rfl, rfl⟩ := List.cons_eq_cons.mp same
      obtain ⟨blank, slash, quote, digit, letter⟩ := ofDelimiter?_plain kind
      simp [read, blank, slash, quote, digit, letter, kind]

/-- A step of the lexer takes a lexeme that may end where the rest follows, and nothing else. -/
theorem read_iff {c : Char} {cs rest : List Char} {x : Lexeme} :
    read c cs = .ok (x, rest) ↔ x.Precedes rest ∧ x.chars ++ rest = c :: cs :=
  ⟨precedes_of_read, fun h => read_of_precedes h.1 h.2⟩

theorem read_error_iff {c : Char} {rest : List Char} {cause : ScanError.Cause} :
    read c rest = .error cause ↔ Stuck c rest cause := by
  constructor
  · intro h
    unfold read at h
    split at h
    · cases h
    next blank =>
    split at h
    · next slash =>
        subst slash
        split at h
        · cases h
        · next body =>
            obtain ⟨unclosed, rfl⟩ := closed_error.mp h
            exact .comment (closeComment_eq_none.mp unclosed)
        · next line block =>
            cases h
            refine .slash ?_
            rintro c hc
            cases rest with
            | nil => cases hc
            | cons d ds =>
                cases hc
                exact ⟨fun same => line ds (by rw [same]), fun same => block ds (by rw [same])⟩
    next slash =>
    split at h
    · next quote =>
        subst quote
        obtain ⟨unclosed, rfl⟩ := closed_error.mp h
        exact .string unclosed
    next quote =>
    split at h
    · cases h
    next digit =>
    split at h
    · cases h
    next letter =>
    split at h
    · cases h
    next delimiter =>
      cases h
      exact .unexpected blank slash quote digit letter delimiter
  · intro stuck
    cases stuck with
    | comment unclosed => exact closed_error.mpr ⟨closeComment_eq_none.mpr unclosed, rfl⟩
    | string unclosed => exact closed_error.mpr ⟨unclosed, rfl⟩
    | slash other =>
        cases rest with
        | nil => rfl
        | cons d ds =>
            obtain ⟨line, block⟩ := other d rfl
            simp [read, line, block, show isBlank '/' = false from rfl]
    | unexpected blank slash quote digit letter delimiter =>
        simp [read, blank, slash, quote, digit, letter, delimiter]

theorem Precedes.chars_ne_nil {x : Lexeme} {rest : List Char} (h : x.Precedes rest) :
    x.chars ≠ [] := by
  cases h <;> simp [chars]

theorem Precedes.length_le {x : Lexeme} {c : Char} {cs rest : List Char} {bound : Nat}
    (h : x.Precedes rest) (same : x.chars ++ rest = c :: cs) (fits : (c :: cs).length ≤ bound + 1) :
    rest.length ≤ bound := by
  have := List.length_pos_iff.mpr h.chars_ne_nil
  rw [← same, List.length_append] at fits
  omega

theorem Precedes.kind_ne_eof {k : Token.Kind} {cs rest : List Char}
    (h : (token k cs).Precedes rest) : k ≠ .eof := by
  rintro rfl
  cases h with
  | delimiter kind => simpa using ofDelimiter?_kind kind

/-! ## Rows of lexemes -/

/-- The text of a row of lexemes. -/
def text (xs : List Lexeme) : List Char :=
  xs.flatMap chars

@[simp] theorem text_nil : text [] = [] := rfl

@[simp] theorem text_cons (x : Lexeme) (xs : List Lexeme) : text (x :: xs) = x.chars ++ text xs :=
  rfl

@[simp] theorem text_append (xs ys : List Lexeme) : text (xs ++ ys) = text xs ++ text ys :=
  List.flatMap_append

/-- Each lexeme may end where the next one starts. -/
def Separate : List Lexeme → Prop
  | [] => True
  | x :: xs => x.Precedes (text xs) ∧ Separate xs

/-- Each lexeme may end where the next one starts, and the last one where `rest` starts. -/
def SeparateBefore (rest : List Char) : List Lexeme → Prop
  | [] => True
  | x :: xs => x.Precedes (text xs ++ rest) ∧ SeparateBefore rest xs

theorem separateBefore_nil {xs : List Lexeme} : SeparateBefore [] xs ↔ Separate xs := by
  induction xs with
  | nil => exact Iff.rfl
  | cons x xs ih => rw [SeparateBefore, Separate, ih, List.append_nil]

/-- The tokens of a row of lexemes that starts at `p`. -/
def tokensAt (p : Position) : List Lexeme → List Token
  | [] => [.eof p]
  | .gap cs :: xs => tokensAt (p.after cs) xs
  | .token k cs :: xs => .spanning k cs p :: tokensAt (p.after cs) xs

/-- The token of a lexeme that starts at `p`, if it is one. -/
def tokenAt (p : Position) : Lexeme → List Token
  | .gap _ => []
  | .token k cs => [.spanning k cs p]

theorem tokensAt_cons (p : Position) (x : Lexeme) (xs : List Lexeme) :
    tokensAt p (x :: xs) = x.tokenAt p ++ tokensAt (p.after x.chars) xs := by
  cases x <;> rfl

/-- The kind and the text of a token, for a lexeme that is one. -/
def word? : Lexeme → Option (Token.Kind × String)
  | gap _ => none
  | token k cs => some (k, String.ofList cs)

/-- The kinds and the texts of the tokens among some lexemes. -/
def words (xs : List Lexeme) : List (Token.Kind × String) :=
  xs.filterMap word?

end Lexeme

/-- What a token says, without its place. -/
def Token.word (t : Token) : Token.Kind × String :=
  (t.kind, t.text)

namespace Lexeme

/-- Only the last token of a row ends the text, and the others say what the lexemes say. -/
theorem tokensAt_eq {xs : List Lexeme} (h : Separate xs) (p : Position) :
    ∃ body, tokensAt p xs = body ++ [.eof (p.after (text xs))] ∧
      body.map Token.word = words xs ∧ ∀ t ∈ body, t.kind ≠ .eof := by
  induction xs generalizing p with
  | nil => exact ⟨[], rfl, rfl, by simp⟩
  | cons x xs ih =>
      obtain ⟨precedes, separate⟩ := h
      obtain ⟨body, same, said, inner⟩ := ih separate (p.after x.chars)
      rw [text_cons, Position.after_append]
      cases x with
      | gap skipped => exact ⟨body, same, said, inner⟩
      | token k v =>
          refine ⟨.spanning k v p :: body, congrArg _ same, ?_, ?_⟩
          · exact congrArg ((k, String.ofList v) :: ·) said
          · exact List.forall_mem_cons.mpr ⟨precedes.kind_ne_eof, inner⟩

end Lexeme

open Lexeme

namespace Token

section

variable {bound : Nat} {p : Position} {c : Char} {cs rest : List Char} {x : Lexeme}
  {ts : List Token} {e : ScanError}

theorem scanFrom_ok_of_read (first : read c cs = .ok (x, rest)) :
    scanFrom (bound + 1) p (c :: cs) = .ok ts ↔
      ∃ us, scanFrom bound (p.after x.chars) rest = .ok us ∧ x.tokenAt p ++ us = ts := by
  cases x with
  | gap skipped => simp [scanFrom, first, chars, tokenAt]
  | token kind v =>
      simp only [scanFrom, first, chars, tokenAt]
      cases scanFrom bound (p.after v) rest <;> simp

theorem scanFrom_error_of_read (first : read c cs = .ok (x, rest)) :
    scanFrom (bound + 1) p (c :: cs) = .error e ↔
      scanFrom bound (p.after x.chars) rest = .error e := by
  cases x with
  | gap skipped => simp [scanFrom, first, chars]
  | token kind v =>
      simp only [scanFrom, first, chars]
      cases scanFrom bound (p.after v) rest <;> simp

end

theorem scanFrom_ok_iff {bound : Nat} {p : Position} {cs : List Char} {ts : List Token}
    (h : cs.length ≤ bound) : scanFrom bound p cs = .ok ts ↔
      ∃ xs, Separate xs ∧ Lexeme.text xs = cs ∧ tokensAt p xs = ts := by
  constructor
  · intro ok
    induction bound generalizing p cs ts with
    | zero =>
        obtain rfl := List.eq_nil_of_length_eq_zero (Nat.le_zero.mp h)
        obtain rfl := by simpa [scanFrom] using ok
        exact ⟨[], trivial, rfl, rfl⟩
    | succ bound ih =>
        cases cs with
        | nil =>
            obtain rfl := by simpa [scanFrom] using ok
            exact ⟨[], trivial, rfl, rfl⟩
        | cons c cs =>
            cases first : read c cs with
            | error cause => simp [scanFrom, first] at ok
            | ok taken =>
                obtain ⟨x, rest⟩ := taken
                obtain ⟨precedes, same⟩ := read_iff.mp first
                obtain ⟨us, scanned, rfl⟩ := (scanFrom_ok_of_read first).mp ok
                obtain ⟨xs, separate, rfl, rfl⟩ := ih (precedes.length_le same h) scanned
                exact ⟨x :: xs, ⟨precedes, separate⟩, same, tokensAt_cons p x xs⟩
  · rintro ⟨xs, separate, rfl, rfl⟩
    induction xs generalizing bound p with
    | nil => cases bound <;> rfl
    | cons x xs ih =>
        obtain ⟨precedes, separate⟩ := separate
        obtain ⟨c, cs, same⟩ := List.exists_cons_of_ne_nil precedes.chars_ne_nil
        have whole := congrArg (· ++ Lexeme.text xs) same
        rw [text_cons, same, List.cons_append] at h ⊢
        cases bound with
        | zero => cases h
        | succ bound =>
            rw [tokensAt_cons]
            exact (scanFrom_ok_of_read (read_iff.mpr ⟨precedes, whole⟩)).mpr
              ⟨_, ih separate (precedes.length_le whole h), rfl⟩

/-- The tokens of a text are those of a row of lexemes that the text is put together from. -/
theorem scan_ok_iff {cs : List Char} {ts : List Token} : scan cs = .ok ts ↔
    ∃ xs, Separate xs ∧ Lexeme.text xs = cs ∧ tokensAt .start xs = ts :=
  scanFrom_ok_iff (Nat.le_refl _)

/-- The lexer fails at a character to which a row of lexemes leads up and at which none starts. -/
theorem scanFrom_error_iff {bound : Nat} {p : Position} {cs : List Char} {e : ScanError}
    (h : cs.length ≤ bound) : scanFrom bound p cs = .error e ↔
      ∃ xs c rest, SeparateBefore (c :: rest) xs ∧ Lexeme.text xs ++ c :: rest = cs ∧
        read c rest = .error e.cause ∧ e.position = p.after (Lexeme.text xs) := by
  constructor
  · intro failed
    induction bound generalizing p cs with
    | zero => cases failed
    | succ bound ih =>
        cases cs with
        | nil => cases failed
        | cons c cs =>
            cases first : read c cs with
            | error cause =>
                obtain rfl := by simpa [scanFrom, first] using failed
                exact ⟨[], c, cs, trivial, rfl, first, rfl⟩
            | ok taken =>
                obtain ⟨x, rest⟩ := taken
                obtain ⟨precedes, same⟩ := read_iff.mp first
                obtain ⟨xs, d, ds, separate, rfl, unread, place⟩ :=
                  ih (precedes.length_le same h) ((scanFrom_error_of_read first).mp failed)
                refine ⟨x :: xs, d, ds, ⟨precedes, separate⟩, ?_, unread, ?_⟩
                · rw [← same, text_cons, List.append_assoc]
                · rw [place, text_cons, Position.after_append]
  · rintro ⟨xs, d, ds, separate, rfl, unread, place⟩
    induction xs generalizing bound p with
    | nil =>
        cases bound with
        | zero => cases h
        | succ bound =>
            obtain ⟨cause, position⟩ := e
            obtain rfl : position = p := place
            rw [text_nil, List.nil_append, scanFrom, unread]
    | cons x xs ih =>
        obtain ⟨precedes, separate⟩ := separate
        obtain ⟨c, cs, same⟩ := List.exists_cons_of_ne_nil precedes.chars_ne_nil
        have whole := congrArg (· ++ (Lexeme.text xs ++ d :: ds)) same
        rw [text_cons, Position.after_append] at place
        rw [text_cons, same, List.append_assoc, List.cons_append] at h ⊢
        cases bound with
        | zero => cases h
        | succ bound =>
            exact (scanFrom_error_of_read (read_iff.mpr ⟨precedes, whole⟩)).mpr
              (ih separate (precedes.length_le whole h) place)

theorem scan_error_iff {cs : List Char} {e : ScanError} : scan cs = .error e ↔
    ∃ xs c rest, SeparateBefore (c :: rest) xs ∧ Lexeme.text xs ++ c :: rest = cs ∧
      read c rest = .error e.cause ∧ e.position = Position.start.after (Lexeme.text xs) :=
  scanFrom_error_iff (Nat.le_refl _)

end Token

end ProtoSchema
