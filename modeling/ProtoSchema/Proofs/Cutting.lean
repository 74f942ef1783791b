import ProtoSchema.Proofs.Lexing

/-! # Tokens as a cut of the text

Here a token list is compared with the text by offsets only. The tokens cover parts of the text, one
after the other, each as long as it can be, and blanks and comments fill what lies between them.
The lexer finds such a cut if there is one, and there are no two.
-/

namespace ProtoSchema

open Lexeme

/-- The characters of a text from the offset `i` up to the offset `j`. -/
def slice (source : List Char) (i j : Nat) : List Char :=
  (source.drop i).take (j - i)

/-- Blanks and comments, one after the other, fill the text from one offset to another. -/
inductive Gap (source : List Char) : Nat → Nat → Prop where
  | nil : Gap source o o
  | cons (wide : o < m) (inside : m ≤ source.length)
      (first : (Lexeme.gap (slice source o m)).Precedes (source.drop m)) (more : Gap source m i) :
      Gap source o i

namespace Token

/-- The token is the lexeme from the offset `i` up to the offset `j`, and the text goes on with
nothing that would have made the lexeme longer. -/
structure Spans (source : List Char) (i j : Nat) (t : Token) : Prop where
  start : t.start = i
  stop : t.stop = j
  wide : i < j
  inside : j ≤ source.length
  text : t.text = String.ofList (slice source i j)
  lexeme : (Lexeme.token t.kind (slice source i j)).Precedes (source.drop j)
  inner : t.kind ≠ .eof

/-- The token is the end of the text and covers nothing. -/
structure Ends (source : List Char) (t : Token) : Prop where
  kind : t.kind = .eof
  text : t.text = ""
  start : t.start = source.length
  stop : t.stop = source.length

/-- The tokens cut the text from an offset on: gaps stand between them, and the last of them is the
only one that ends the text. -/
inductive Cuts (source : List Char) : Nat → List Token → Prop where
  | last (skipped : Gap source o source.length) (ends : t.Ends source) : Cuts source o [t]
  | token (skipped : Gap source o i) (spans : t.Spans source i j) (more : Cuts source j ts) :
      Cuts source o (t :: ts)

/-- What a cut says about a token: all but its line and its column. -/
def span (t : Token) : Kind × String × Int × Int :=
  (t.kind, t.text, t.start, t.stop)

end Token

/-! ## Rows of lexemes by offsets -/

section

variable {source : List Char} {i j o : Nat}

theorem slice_append_drop (order : i ≤ j) : slice source i j ++ source.drop j = source.drop i := by
  have rest : source.drop j = (source.drop i).drop (j - i) := by
    rw [List.drop_drop, Nat.add_sub_cancel' order]
  rw [slice, rest, List.take_append_drop]

theorem length_slice (order : i ≤ j) (inside : j ≤ source.length) :
    (slice source i j).length = j - i := by
  rw [slice, List.length_take, List.length_drop]
  omega

theorem slice_of_append {cs rest : List Char} (same : cs ++ rest = source.drop o) :
    slice source o (o + cs.length) = cs ∧ source.drop (o + cs.length) = rest := by
  rw [slice, Nat.add_sub_cancel_left, ← List.drop_drop, ← same]
  exact ⟨List.take_left, List.drop_left⟩

theorem length_of_append {cs rest : List Char} (wide : cs ≠ [])
    (same : cs ++ rest = source.drop o) : o < o + cs.length ∧ o + cs.length ≤ source.length := by
  have some := List.length_pos_iff.mpr wide
  have whole := congrArg List.length same
  rw [List.length_append, List.length_drop] at whole
  omega

end

namespace Token

variable {source : List Char}

theorem Cuts.skip {o m : Nat} {ts : List Token} (wide : o < m) (inside : m ≤ source.length)
    (first : (Lexeme.gap (slice source o m)).Precedes (source.drop m)) (h : Cuts source m ts) :
    Cuts source o ts := by
  cases h with
  | last skipped ends => exact .last (.cons wide inside first skipped) ends
  | token skipped spans more => exact .token (.cons wide inside first skipped) spans more

/-- Some row of lexemes makes up the text from an offset on, and its tokens are like those given. -/
def OfRow (source : List Char) (o : Nat) (ts : List Token) : Prop :=
  ∃ xs, Separate xs ∧ Lexeme.text xs = source.drop o ∧
    ∀ p : Position, p.offset = o → (tokensAt p xs).map span = ts.map span

theorem OfRow.skip {o i : Nat} {ts : List Token} (gap : Gap source o i) (h : OfRow source i ts) :
    OfRow source o ts := by
  induction gap with
  | nil => exact h
  | cons wide inside first _ ih =>
      obtain ⟨xs, separate, same, spans⟩ := ih h
      refine ⟨.gap _ :: xs, ⟨same ▸ first, separate⟩, ?_, fun p hp => ?_⟩
      · rw [text_cons, same]
        exact slice_append_drop wide.le
      · refine spans _ ?_
        rw [Position.offset_after, length_slice wide.le inside, hp]
        omega

theorem OfRow.cons {i j : Nat} {t : Token} {ts : List Token} (spans : t.Spans source i j)
    (h : OfRow source j ts) : OfRow source i (t :: ts) := by
  obtain ⟨xs, separate, same, more⟩ := h
  have order := spans.wide.le
  refine ⟨.token t.kind (slice source i j) :: xs, ⟨same ▸ spans.lexeme, separate⟩, ?_,
    fun p hp => ?_⟩
  · rw [text_cons, same]
    exact slice_append_drop order
  · have stop : (p.after (slice source i j)).offset = j := by
      rw [Position.offset_after, length_slice order spans.inside, hp]
      omega
    have first : span (.spanning t.kind (slice source i j) p) = span t := by
      simp only [span, spanning, hp, stop, spans.text, spans.start, spans.stop]
    simp only [tokensAt, List.map_cons, first, more _ stop]

theorem OfRow.last {t : Token} (ends : t.Ends source) : OfRow source source.length [t] := by
  refine ⟨[], trivial, by rw [List.drop_length, text_nil], fun p hp => ?_⟩
  simp only [tokensAt, eof, List.map_cons, List.map_nil, span, spanning, Position.after_nil, hp,
    ends.kind, ends.text, ends.start, ends.stop, String.ofList_nil]

theorem Cuts.ofRow {o : Nat} {ts : List Token} (h : Cuts source o ts) : OfRow source o ts := by
  induction h with
  | last skipped ends => exact (OfRow.last ends).skip skipped
  | token skipped spans _ ih => exact (ih.cons spans).skip skipped

/-- The tokens of a row of lexemes cut its text. -/
theorem cuts_tokensAt {o : Nat} {p : Position} {xs : List Lexeme} {ts : List Token}
    (separate : Separate xs) (same : Lexeme.text xs = source.drop o) (inside : o ≤ source.length)
    (hp : p.offset = o) (spans : (tokensAt p xs).map span = ts.map span) : Cuts source o ts := by
  induction xs generalizing o p ts with
  | nil =>
      have whole : source.length ≤ o := by
        rw [← List.drop_eq_nil_iff, ← same, text_nil]
      obtain rfl : o = source.length := by omega
      cases ts with
      | nil => cases spans
      | cons t ts =>
          obtain ⟨first, more⟩ := List.cons_eq_cons.mp spans
          obtain rfl := List.map_eq_nil_iff.mp more.symm
          simp only [eof, spanning, span, Position.after_nil, hp, Prod.mk.injEq] at first
          obtain ⟨kind, text, start, stop⟩ := first
          exact .last .nil ⟨kind.symm, text.symm, start.symm, stop.symm⟩
  | cons x xs ih =>
      obtain ⟨precedes, separate⟩ := separate
      rw [text_cons] at same
      obtain ⟨wide, inside⟩ := length_of_append precedes.chars_ne_nil same
      obtain ⟨whole, rest⟩ := slice_of_append same
      have after : (p.after x.chars).offset = o + x.chars.length := by
        rw [Position.offset_after, hp]
      rw [← rest] at precedes
      cases x with
      | gap cs =>
          refine (ih separate rest.symm inside after spans).skip wide inside ?_
          rwa [whole]
      | token k cs =>
          cases ts with
          | nil => cases spans
          | cons t ts =>
              obtain ⟨first, more⟩ := List.cons_eq_cons.mp spans
              simp only [spanning, span, Prod.mk.injEq] at first
              obtain ⟨rfl, text, start, stop⟩ := first
              refine .token .nil ⟨?_, ?_, wide, inside, ?_, ?_, precedes.kind_ne_eof⟩
                (ih separate rest.symm inside after more)
              · rw [← start, hp]
              · rw [← stop]
                exact congrArg _ after
              · rw [whole]
                exact text.symm
              · rwa [whole]

/-- The lexer succeeds exactly on the texts that have a cut, and what it returns is the cut. -/
theorem cuts_iff_scan {others : List Token} : Cuts source 0 others ↔
    ∃ tokens, scan source = .ok tokens ∧ tokens.map span = others.map span := by
  constructor
  · intro h
    obtain ⟨xs, separate, same, spans⟩ := h.ofRow
    exact ⟨_, scan_ok_iff.mpr ⟨xs, separate, same, rfl⟩, spans _ rfl⟩
  · rintro ⟨tokens, ok, spans⟩
    obtain ⟨xs, separate, same, rfl⟩ := scan_ok_iff.mp ok
    exact cuts_tokensAt separate same (Nat.zero_le _) rfl spans

end Token

end ProtoSchema
