import ProtoSchema.Proofs.Placement
import ProtoSchema.Proofs.RoundTrip

/-! # Texts with a part blanked out

Where a part of a text runs from the start of one token to the stop of another, a space in its place
leaves the tokens before and after the part, though their places change.
-/

namespace ProtoSchema

/-- The text with one space in place of what stands between two offsets. -/
def blank (source : List Char) (start stop : Int) : List Char :=
  source.take start.toNat ++ ' ' :: source.drop stop.toNat

namespace Lexeme

variable {x : Lexeme} {xs as bs cs : List Lexeme} {k : Token.Kind} {v rest : List Char}

/-- Whether a lexeme may end depends on the next character only. -/
theorem Precedes.congr {rest' : List Char} (h : x.Precedes rest) (same : rest'.head? = rest.head?) :
    x.Precedes rest' := by
  cases h with
  | blank h => exact .blank h
  | line inside stop => exact .line inside (same ▸ stop)
  | block inside => exact .block inside
  | string inside => exact .string inside
  | number first inside stop => exact .number first inside (same ▸ stop)
  | ident first inside stop => exact .ident first inside (same ▸ stop)
  | delimiter kind => exact .delimiter kind

theorem Precedes.head_ne_feed (h : (token k v).Precedes rest) : v.head? ≠ some '\n' := by
  cases h with
  | string inside => simp
  | number first inside stop =>
      rintro ⟨⟩
      exact absurd first (by decide)
  | ident first inside stop =>
      rintro ⟨⟩
      exact absurd first (by decide)
  | delimiter kind =>
      rintro ⟨⟩
      cases kind

theorem Precedes.space {rest' : List Char} (h : x.Precedes (v ++ rest))
    (next : (token k v).Precedes rest) : x.Precedes (' ' :: rest') := by
  cases h with
  | blank h => exact .blank h
  | line inside stop =>
      obtain ⟨c, cs, rfl⟩ := List.exists_cons_of_ne_nil next.chars_ne_nil
      exact absurd (congrArg some (stop c rfl)) next.head_ne_feed
  | block inside => exact .block inside
  | string inside => exact .string inside
  | number first inside stop => exact .number first inside (by rintro _ ⟨⟩; decide)
  | ident first inside stop => exact .ident first inside (by rintro _ ⟨⟩; decide)
  | delimiter kind => exact .delimiter kind

theorem Separate.of_append (h : Separate (as ++ bs)) : Separate bs := by
  induction as with
  | nil => exact h
  | cons x as ih => exact ih h.2

/-- A row may go on with a space wherever it goes on with a token. -/
theorem Separate.blank (h : Separate (as ++ token k v :: bs)) (hcs : Separate cs) :
    Separate (as ++ gap [' '] :: cs) := by
  induction as with
  | nil => exact ⟨.blank rfl, hcs⟩
  | cons x as ih =>
      obtain ⟨precedes, separate⟩ := h
      refine ⟨?_, ih separate⟩
      cases as with
      | nil => exact precedes.space separate.1
      | cons y as =>
          obtain ⟨c, cs, wide⟩ := List.exists_cons_of_ne_nil separate.1.chars_ne_nil
          exact precedes.congr (by simp [wide])

theorem words_append : words (as ++ bs) = words as ++ words bs :=
  List.filterMap_append

theorem tokensAt_split {p : Position} {front back : List Token} {t : Token}
    (h : tokensAt p xs = front ++ t :: back) (inner : t.kind ≠ .eof) :
    ∃ as v bs, xs = as ++ token t.kind v :: bs ∧ t.start = (p.after (text as)).offset ∧
      t.stop = (p.after (text as ++ v)).offset ∧ front.map Token.word = words as ∧
        ∃ q, tokensAt q bs = back := by
  induction xs generalizing p front with
  | nil =>
      obtain ⟨rfl, rfl, rfl⟩ : front = [] ∧ Token.eof p = t ∧ back = [] := by
        cases front <;> simp_all [tokensAt]
      exact absurd rfl inner
  | cons x xs ih =>
      cases x with
      | gap skipped =>
          obtain ⟨as, v, bs, rfl, start, stop, said, q, row⟩ := ih h
          refine ⟨gap skipped :: as, v, bs, rfl, ?_, ?_, said, q, row⟩
          · rwa [text_cons, Position.after_append]
          · rwa [text_cons, List.append_assoc, Position.after_append]
      | token k w =>
          cases front with
          | nil =>
              obtain ⟨rfl, row⟩ := List.cons_eq_cons.mp h
              exact ⟨[], w, xs, rfl, rfl, rfl, rfl, _, row⟩
          | cons u front =>
              obtain ⟨rfl, row⟩ := List.cons_eq_cons.mp h
              obtain ⟨as, v, bs, rfl, start, stop, said, q, row⟩ := ih row
              refine ⟨token k w :: as, v, bs, rfl, ?_, ?_, ?_, q, row⟩
              · rwa [text_cons, Position.after_append]
              · rwa [text_cons, List.append_assoc, Position.after_append]
              · rw [List.map_cons, said]
                rfl

end Lexeme

namespace Token

open Lexeme

theorem map_token_word (ts : List Token) : (ts.map word).map Word.token = ts.map bare := by
  rw [List.map_map]
  rfl

/-- Blanking out some tokens of a text leaves the others. -/
theorem scan_blank {source : List Char} {front ts back : List Token} {first last : Token}
    (scanned : scan source = .ok (front ++ (ts ++ back))) (head : ts.head? = some first)
    (final : ts.getLast? = some last) (inner : first.kind ≠ .eof) (inner' : last.kind ≠ .eof) :
    ∃ tokens, scan (blank source first.start last.stop) = .ok tokens ∧
      tokens.map bare = (front ++ back).map bare := by
  obtain ⟨xs, separate, rfl, row⟩ := scan_ok_iff.mp scanned
  obtain ⟨rest, rfl⟩ := List.head?_eq_some_iff.mp head
  obtain ⟨init, same⟩ := List.getLast?_eq_some_iff.mp final
  obtain ⟨as, v, bs, rfl, start, -, said, -⟩ := tokensAt_split row inner
  have row' : tokensAt .start (as ++ token first.kind v :: bs) =
      (front ++ init) ++ last :: back := by
    rw [row, same]
    simp
  obtain ⟨as', w, cs, split, -, stop, -, q, row'⟩ := tokensAt_split row' inner'
  have before : (Lexeme.text (as ++ token first.kind v :: bs)).take first.start.toNat =
      Lexeme.text as := by
    simp [start, Position.offset_after, Position.start]
  have after : (Lexeme.text (as ++ token first.kind v :: bs)).drop last.stop.toNat =
      Lexeme.text cs := by
    simp only [split, text_append, text_cons, chars, ← List.append_assoc, stop,
      Position.offset_after, Position.start, Nat.zero_add, Int.toNat_natCast, List.drop_left]
  refine ⟨_, scan_ok_iff.mpr ⟨as ++ gap [' '] :: cs, ?_, ?_, rfl⟩, ?_⟩
  · exact separate.blank (split ▸ separate : Separate (as' ++ token last.kind w :: cs)).of_append.2
  · rw [blank, before, after, text_append]
    rfl
  · rw [map_bare_tokensAt, words_append, ← said, List.map_append, map_token_word, List.append_assoc,
      List.map_append, ← row', map_bare_tokensAt]
    rfl

end Token

end ProtoSchema
