import ProtoSchema.Proofs.Formatting
import ProtoSchema.Proofs.Stacking

/-! # Where the lexer fails

The lexer fails at one place only: what stands before it has tokens, and what follows it starts
with a string literal or a comment that is not closed, or with a character that starts no token. The
other way round, where such a thing stands between two tokens, the lexer gets there and fails.
-/

namespace ProtoSchema

namespace Lexeme

/-! ## What starts no lexeme -/

/-- Where a backslash skips the character after it, the end of the text or a line feed comes before
a double quote. -/
inductive Unclosed : List Char → Prop where
  | ended : Unclosed []
  | feed (rest : List Char) : Unclosed ('\n' :: rest)
  | backslash : Unclosed ['\\']
  | escape (c : Char) (rest : Unclosed cs) : Unclosed ('\\' :: c :: cs)
  | plain (quote : c ≠ '"') (backslash : c ≠ '\\') (feed : c ≠ '\n') (rest : Unclosed cs) :
      Unclosed (c :: cs)

variable {x : Lexeme} {xs : List Lexeme} {c : Char} {cs rest : List Char}

/-- What is wrong, as it shows in the text that follows. -/
def Impossible (rest : List Char) : ScanError.Cause → Prop
  | .unterminatedString => ∃ cs, rest = '"' :: cs ∧ Unclosed cs
  | .unterminatedComment => ∃ cs, rest = '/' :: '*' :: cs ∧ ¬['*', '/'] <:+: cs
  | .unexpected c => rest.head? = some c ∧ ¬isBlank c ∧ Token.Kind.ofDelimiter? c = none ∧
      c ≠ '"' ∧ ¬isDigit c ∧ ¬isLetter c ∧ ¬['/', '/'] <+: rest ∧ ¬['/', '*'] <+: rest

theorem closeString_eq_none : closeString cs = none ↔ Unclosed cs := by
  constructor
  · intro h
    induction cs using closeString.induct with
    | case1 => exact .ended
    | case2 cs => cases h
    | case3 cs => exact .feed cs
    | case4 => exact .backslash
    | case5 c cs ih => exact .escape c (ih (by simpa [closeString] using h))
    | case6 c cs quote feed single escape ih =>
        rw [closeString.eq_6 c cs quote feed single escape, Option.map_eq_none_iff] at h
        refine .plain quote ?_ feed (ih h)
        rintro rfl
        cases cs with
        | nil => exact single rfl rfl
        | cons d ds => exact escape d ds rfl rfl
  · intro unclosed
    induction unclosed with
    | ended | feed | backslash => rfl
    | escape c _ ih => simp [closeString, ih]
    | plain quote backslash feed _ ih => simp [closeString, ih, backslash]

theorem slash_alone (rest : List Char) : (∀ c ∈ rest.head?, c ≠ '/' ∧ c ≠ '*') ↔
    ¬['/', '/'] <+: '/' :: rest ∧ ¬['/', '*'] <+: '/' :: rest := by
  cases rest with
  | nil => simp
  | cons d ds => simp [eq_comm]

theorem impossible_iff {cause : ScanError.Cause} :
    Impossible (c :: cs) cause ↔ Stuck c cs cause := by
  constructor
  · intro impossible
    cases cause with
    | unterminatedString =>
        obtain ⟨_, ⟨rfl, rfl⟩, unclosed⟩ := impossible
        exact .string (closeString_eq_none.mpr unclosed)
    | unterminatedComment =>
        obtain ⟨_, ⟨rfl, rfl⟩, unclosed⟩ := impossible
        exact .comment unclosed
    | unexpected d =>
        obtain ⟨⟨rfl⟩, blank, delimiter, quote, digit, letter, line, block⟩ := impossible
        by_cases slash : c = '/'
        · subst slash
          exact .slash ((slash_alone cs).mpr ⟨line, block⟩)
        · exact .unexpected blank slash quote digit letter delimiter
  · intro stuck
    cases stuck with
    | comment unclosed => exact ⟨_, rfl, unclosed⟩
    | string unclosed => exact ⟨_, rfl, closeString_eq_none.mp unclosed⟩
    | slash other =>
        exact ⟨rfl, by decide, rfl, by decide, by decide, by decide, (slash_alone cs).mp other⟩
    | unexpected blank slash quote digit letter delimiter =>
        have other : ∀ d, ¬['/', d] <+: c :: cs := fun d h =>
          slash (List.cons_prefix_cons.mp h).1.symm
        exact ⟨rfl, blank, delimiter, quote, digit, letter, other '/', other '*'⟩

theorem Impossible.ne_nil {cause : ScanError.Cause} (h : Impossible rest cause) : rest ≠ [] := by
  rintro rfl
  cases cause with
  | unterminatedString | unterminatedComment =>
      obtain ⟨_, same, _⟩ := h
      cases same
  | unexpected c => cases h.1

/-! ## Rows that lead up to a place -/

theorem separateBefore_iff : SeparateBefore rest xs ↔
    Separate xs ∧ ∀ x ∈ xs.getLast?, x.Precedes rest := by
  induction xs with
  | nil => simp [SeparateBefore, Separate]
  | cons x xs ih =>
      rw [SeparateBefore, Separate, ih]
      cases xs with
      | nil =>
          refine ⟨fun h => ⟨⟨h.1.alone, trivial⟩, ?_⟩, fun h => ⟨h.2 x rfl, trivial, by simp⟩⟩
          rintro _ ⟨⟩
          exact h.1
      | cons y ys =>
          rw [List.getLast?_cons_cons]
          -- Whether the first lexeme may end is decided by the characters of the second.
          have inner (separate : Separate (y :: ys)) :
              x.Precedes (text (y :: ys) ++ rest) ↔ x.Precedes (text (y :: ys)) := by
            obtain ⟨d, ds, wide⟩ := List.exists_cons_of_ne_nil separate.1.chars_ne_nil
            have same : (text (y :: ys) ++ rest).head? = (text (y :: ys)).head? := by
              simp [wide]
            exact ⟨fun h => h.congr same.symm, fun h => h.congr same⟩
          constructor
          · rintro ⟨first, separate, final⟩
            exact ⟨⟨(inner separate).mp first, separate⟩, final⟩
          · rintro ⟨⟨first, separate⟩, final⟩
            exact ⟨(inner separate).mpr first, separate, final⟩

theorem Separate.left {ys : List Lexeme} (h : Separate (xs ++ ys)) : Separate xs := by
  induction xs with
  | nil => trivial
  | cons x xs ih =>
      refine ⟨?_, ih h.2⟩
      cases xs with
      | nil => exact h.1.alone
      | cons y xs =>
          obtain ⟨d, ds, wide⟩ := List.exists_cons_of_ne_nil h.2.1.chars_ne_nil
          exact h.1.congr (by simp [wide])

end Lexeme

open Lexeme

namespace Token

variable {source : List Char} {e : ScanError}

/-- The text ends in a comment that goes on to the end of the line. -/
def EndsInComment (cs : List Char) : Prop :=
  ∃ front body tokens, cs = front ++ '/' :: '/' :: body ∧ '\n' ∉ body ∧ scan front = .ok tokens

/-- The token is a word or a number that the character belongs to. -/
def Continues (t : Token) (c : Char) : Prop :=
  t.kind = .ident ∧ isWordChar c ∨ t.kind = .number ∧ isDigit c

/-- The text stops between two lexemes: `rest` continues neither a comment nor a token. -/
structure Stops (cs : List Char) (tokens : List Token) (rest : List Char) : Prop where
  comment : ¬EndsInComment cs
  token : ∀ t ∈ tokens, t.stop = cs.length → ∀ c ∈ rest.head?, ¬t.Continues c

theorem Stops.precedes {xs : List Lexeme} {x : Lexeme} {rest : List Char}
    (h : Stops (Lexeme.text (xs ++ [x])) (tokensAt .start (xs ++ [x])) rest)
    (separate : Separate (xs ++ [x])) : x.Precedes rest := by
  have final : x.Precedes [] := separate.of_append.1
  have token (k : Kind) (cs : List Char) (same : x = .token k cs) :
      ∀ c ∈ rest.head?,
        ¬(Token.spanning k cs (Position.start.after (Lexeme.text xs))).Continues c := by
    subst same
    refine h.token _ ?_ ?_
    · rw [tokensAt_append]
      exact List.mem_append_right _ (List.mem_cons_self ..)
    · simp [Token.spanning, ← Position.after_append, Position.offset_after, Position.start, chars]
  cases final with
  | blank blank => exact .blank blank
  | block inside => exact .block inside
  | string inside => exact .string inside
  | delimiter kind => exact .delimiter kind
  | @line body _ inside stop =>
      refine absurd ⟨Lexeme.text xs, body, tokensAt .start xs, ?_, inside, ?_⟩ h.comment
      · simp [chars]
      · exact scan_ok_iff.mpr ⟨xs, separate.left, rfl, rfl⟩
  | number first inside stop =>
      exact .number first inside fun c hc digit => token _ _ rfl c hc (.inr ⟨rfl, digit⟩)
  | ident first inside stop =>
      exact .ident first inside fun c hc inner => token _ _ rfl c hc (.inl ⟨rfl, inner⟩)

/-- Up to the place where the lexer fails there are tokens, and there it sees what is wrong. -/
theorem scan_error_impossible (h : scan source = .error e) :
    (∃ tokens, scan (source.take e.position.offset) = .ok tokens) ∧
      ∀ cause, Impossible (source.drop e.position.offset) cause ↔ cause = e.cause := by
  obtain ⟨xs, c, rest, separate, rfl, unread, place⟩ := scan_error_iff.mp h
  have offset : e.position.offset = (Lexeme.text xs).length := by
    simp [place, Position.offset_after, Position.start]
  rw [offset, List.take_left, List.drop_left]
  refine ⟨⟨_, scan_ok_iff.mpr ⟨xs, (separateBefore_iff.mp separate).1, rfl, rfl⟩⟩, fun cause => ?_⟩
  rw [impossible_iff, ← read_error_iff, unread, Except.error.injEq, eq_comm]

/-- Where something impossible follows a text that stops between two lexemes, the lexer fails. -/
theorem scan_append_impossible {front rest : List Char} {tokens : List Token}
    {cause : ScanError.Cause} (scanned : scan front = .ok tokens) (stops : Stops front tokens rest)
    (impossible : Impossible rest cause) :
    scan (front ++ rest) = .error ⟨cause, Position.start.after front⟩ := by
  obtain ⟨xs, separate, rfl, rfl⟩ := scan_ok_iff.mp scanned
  obtain ⟨c, cs, rfl⟩ := List.exists_cons_of_ne_nil impossible.ne_nil
  refine scan_error_iff.mpr ⟨xs, c, cs, separateBefore_iff.mpr ⟨separate, fun x hx => ?_⟩, rfl,
    read_error_iff.mpr (impossible_iff.mp impossible), rfl⟩
  obtain ⟨init, rfl⟩ := List.getLast?_eq_some_iff.mp hx
  exact stops.precedes separate

/-- The failures of the lexer are exact. Up to the offset of a failure there are tokens, and what
follows is wrong in the one way that is reported. The other way round, where a text stops between
two lexemes and something wrong follows, it is reported with that offset. -/
theorem scan_error_exact (source : List Char) :
    (∀ e, scan source = .error e →
      (∃ tokens, scan (source.take e.position.offset) = .ok tokens) ∧
        ∀ cause, Impossible (source.drop e.position.offset) cause ↔ cause = e.cause) ∧
      ∀ offset tokens cause, scan (source.take offset) = .ok tokens →
        Stops (source.take offset) tokens (source.drop offset) →
          Impossible (source.drop offset) cause →
            scan source = .error ⟨cause, Position.start.after (source.take offset)⟩ ∧
              (Position.start.after (source.take offset)).offset = offset := by
  refine ⟨fun e h => scan_error_impossible h, ?_⟩
  intro offset tokens cause scanned stops impossible
  have inside : offset < source.length :=
    not_le.mp fun beyond => impossible.ne_nil (List.drop_eq_nil_of_le beyond)
  have failed := scan_append_impossible scanned stops impossible
  rw [List.take_append_drop] at failed
  exact ⟨failed, by simp [Position.offset_after, Position.start, inside.le]⟩

/-- After a block comment, a string literal whose only other quote is escaped. -/
theorem scan_error_exact_escaped :
    let source := "a\n/*/*/\"x\\\"".toList
    Stops (source.take 7) [⟨.ident, "a", 1, 1, 0, 1⟩, ⟨.eof, "", 2, 6, 7, 7⟩] (source.drop 7) ∧
      Impossible (source.drop 7) .unterminatedString ∧
      scan source = .error ⟨.unterminatedString, ⟨2, 6, 7⟩⟩ ∧
      (∃ tokens, scan (source.take 7) = .ok tokens) ∧
      ∀ cause, Impossible (source.drop 7) cause ↔ cause = .unterminatedString := by
  intro source
  obtain ⟨failures, places⟩ := scan_error_exact source
  have scanned : scan (source.take 7) =
      .ok [⟨.ident, "a", 1, 1, 0, 1⟩, ⟨.eof, "", 2, 6, 7, 7⟩] := by decide +kernel
  have outside : ¬EndsInComment (source.take 7) := by
    rintro ⟨front, body, tokens, same, -, -⟩
    have none : ¬['/', '/'] <:+: source.take 7 := by decide +kernel
    exact none (same ▸ ⟨front, body, by simp⟩)
  have length : (source.take 7).length = 7 := by decide +kernel
  have stops : Stops (source.take 7) [⟨.ident, "a", 1, 1, 0, 1⟩, ⟨.eof, "", 2, 6, 7, 7⟩]
      (source.drop 7) := ⟨outside, by simp [length, Continues]⟩
  have escaped : Impossible (source.drop 7) .unterminatedString :=
    ⟨['x', '\\', '"'], rfl, .plain (by decide) (by decide) (by decide) (.escape '"' .ended)⟩
  obtain ⟨failed, -⟩ := places 7 _ _ scanned stops escaped
  obtain ⟨before, causes⟩ := failures _ failed
  exact ⟨stops, escaped, failed, before, causes⟩

end Token

end ProtoSchema
