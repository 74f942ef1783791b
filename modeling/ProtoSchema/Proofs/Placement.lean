import Mathlib.Data.List.Induction
import ProtoSchema.Parser
import ProtoSchema.Proofs.Lexing

/-! # Where tokens stand

A position is right if its line counts the line feeds before it and its column counts the
characters since the last of them. Every token of a text stands where it says, and the text between
its offsets is its own.
-/

namespace ProtoSchema

/-- The last line feed among the first `o` characters of a text has the index `i`. -/
def LastFeed (source : List Char) (o i : Nat) : Prop :=
  i < o ∧ source[i]? = some '\n' ∧ ∀ j, i < j → j < o → source[j]? ≠ some '\n'

/-- The line and the column of an offset in a text. -/
def Placed (source : List Char) (line col offset : Int) : Prop :=
  ∃ o : Nat, offset = o ∧ o ≤ source.length ∧ line = 1 + (source.take o).count '\n' ∧
    ((∃ i, LastFeed source o i ∧ col = o - i) ∨
      ((∀ j < o, source[j]? ≠ some '\n') ∧ col = o + 1))

namespace Position

theorem line_after (p : Position) (cs : List Char) :
    (p.after cs).line = p.line + cs.count '\n' := by
  induction cs generalizing p with
  | nil => rfl
  | cons c cs ih =>
      rw [after_cons, ih, List.count_cons, next]
      split <;> simp_all
      omega

/-- The column after a text counts from its last line feed. -/
theorem col_after (cs : List Char) :
    (∃ i, LastFeed cs cs.length i ∧ (start.after cs).col = cs.length - i) ∨
      ('\n' ∉ cs ∧ (start.after cs).col = cs.length + 1) := by
  induction cs using List.reverseRecOn with
  | nil => exact .inr ⟨by simp, rfl⟩
  | append_singleton cs c ih =>
      rw [after_append, after_cons, after_nil, next, List.length_append, List.length_singleton]
      split
      · next feed =>
          refine .inl ⟨cs.length, ⟨by omega, by simp [feed], fun j hj hj' => by omega⟩, by simp⟩
      · next other =>
          obtain ⟨i, ⟨hi, feed, last⟩, col⟩ | ⟨none, col⟩ := ih
          · refine .inl ⟨i, ⟨by omega, ?_, fun j hij hj => ?_⟩, by simp only [col]; omega⟩
            · rw [List.getElem?_append_left hi, feed]
            · by_cases h : j < cs.length
              · rw [List.getElem?_append_left h]
                exact last j hij h
              · obtain rfl : j = cs.length := by omega
                simpa using other
          · exact .inr ⟨by simpa [none] using Ne.symm other, by simp [col]⟩

theorem placed (front back : List Char) : Placed (front ++ back) (start.after front).line
    (start.after front).col (start.after front).offset := by
  refine ⟨front.length, ?_, by simp, ?_, ?_⟩
  · rw [offset_after]
    simp [start]
  · rw [line_after, List.take_left]
    simp [start]
  · obtain ⟨i, ⟨hi, feed, last⟩, col⟩ | ⟨none, col⟩ := col_after front
    · refine .inl ⟨i, ⟨hi, ?_, fun j hij hj => ?_⟩, by omega⟩
      · rw [List.getElem?_append_left hi, feed]
      · rw [List.getElem?_append_left hj]
        exact last j hij hj
    · refine .inr ⟨fun j hj feed => ?_, by omega⟩
      rw [List.getElem?_append_left hj] at feed
      exact none (List.mem_of_getElem? feed)

end Position

namespace Lexeme

theorem mem_tokensAt {p : Position} {xs : List Lexeme} {t : Token} (h : t ∈ tokensAt p xs) :
    ∃ front cs back, text xs = front ++ (cs ++ back) ∧ t = .spanning t.kind cs (p.after front) := by
  induction xs generalizing p with
  | nil =>
      obtain rfl := by simpa [tokensAt] using h
      exact ⟨[], [], [], rfl, rfl⟩
  | cons x xs ih =>
      cases x with
      | gap skipped =>
          obtain ⟨front, cs, back, same, eq⟩ := ih h
          exact ⟨skipped ++ front, cs, back, by simp [same, chars], by rwa [Position.after_append]⟩
      | token k v =>
          obtain rfl | h := List.mem_cons.mp h
          · exact ⟨[], v, text xs, rfl, rfl⟩
          · obtain ⟨front, cs, back, same, eq⟩ := ih h
            exact ⟨v ++ front, cs, back, by simp [same, chars], by rwa [Position.after_append]⟩

theorem mem_tokensAt_precedes {p : Position} {xs : List Lexeme} {t : Token} (separate : Separate xs)
    (h : t ∈ tokensAt p xs) (inner : t.kind ≠ .eof) :
    ∃ rest, (token t.kind t.text.toList).Precedes rest := by
  induction xs generalizing p with
  | nil =>
      obtain rfl := by simpa [tokensAt] using h
      exact absurd rfl inner
  | cons x xs ih =>
      obtain ⟨precedes, separate⟩ := separate
      cases x with
      | gap skipped => exact ih separate h
      | token k v =>
          obtain rfl | h := List.mem_cons.mp h
          · exact ⟨text xs, by simpa [Token.spanning] using precedes⟩
          · exact ih separate h

theorem tokensAt_sorted {p : Position} {xs : List Lexeme} (h : Separate xs) :
    (tokensAt p xs).Pairwise (fun t u => t.start < u.start) ∧
      ∀ t ∈ tokensAt p xs, (p.offset : Int) ≤ t.start := by
  induction xs generalizing p with
  | nil => exact ⟨List.pairwise_singleton _ _, by simp [tokensAt, Token.eof, Token.spanning]⟩
  | cons x xs ih =>
      obtain ⟨precedes, separate⟩ := h
      obtain ⟨sorted, later⟩ := ih (p := p.after x.chars) separate
      have wide := List.length_pos_iff.mpr precedes.chars_ne_nil
      rw [Position.offset_after] at later
      cases x with
      | gap cs => exact ⟨sorted, fun t ht => by have := later t ht; omega⟩
      | token k cs =>
          have start : (Token.spanning k cs p).start = p.offset := rfl
          refine ⟨List.pairwise_cons.mpr ⟨fun t ht => ?_, sorted⟩,
            List.forall_mem_cons.mpr ⟨by omega, fun t ht => ?_⟩⟩
          · have := later t ht
            omega
          · have := later t ht
            omega

theorem tokensAt_disjoint {p : Position} {xs : List Lexeme} (h : Separate xs) :
    (tokensAt p xs).Pairwise (·.stop ≤ ·.start) := by
  induction xs generalizing p with
  | nil => exact List.pairwise_singleton _ _
  | cons x xs ih =>
      obtain ⟨-, separate⟩ := h
      cases x with
      | gap cs => exact ih separate
      | token k cs =>
          exact List.pairwise_cons.mpr ⟨(tokensAt_sorted separate).2, ih separate⟩

end Lexeme

theorem Parser.Scope.place_natCast (s : Scope) (n : Nat) : s.place n = n := rfl

open Lexeme

namespace Token

variable {source : List Char} {tokens : List Token}

theorem scan_mem (h : scan source = .ok tokens) {t : Token} (ht : t ∈ tokens) :
    ∃ front cs back, source = front ++ (cs ++ back) ∧
      t = .spanning t.kind cs (Position.start.after front) := by
  obtain ⟨xs, -, rfl, rfl⟩ := scan_ok_iff.mp h
  exact mem_tokensAt ht

theorem scan_precedes (h : scan source = .ok tokens) {t : Token} (ht : t ∈ tokens)
    (inner : t.kind ≠ .eof) : ∃ rest, (Lexeme.token t.kind t.text.toList).Precedes rest := by
  obtain ⟨xs, separate, -, rfl⟩ := scan_ok_iff.mp h
  exact mem_tokensAt_precedes separate ht inner

theorem scan_placed (h : scan source = .ok tokens) :
    ∀ t ∈ tokens, Placed source t.line t.col t.start := by
  intro t ht
  obtain ⟨front, cs, back, rfl, eq⟩ := scan_mem h ht
  rw [eq]
  exact Position.placed front (cs ++ back)

theorem scan_sorted (h : scan source = .ok tokens) : tokens.Pairwise (·.start < ·.start) := by
  obtain ⟨xs, separate, -, rfl⟩ := scan_ok_iff.mp h
  exact (tokensAt_sorted separate).1

theorem scan_disjoint (h : scan source = .ok tokens) : tokens.Pairwise (·.stop ≤ ·.start) := by
  obtain ⟨xs, separate, -, rfl⟩ := scan_ok_iff.mp h
  exact tokensAt_disjoint separate

theorem scan_inside (h : scan source = .ok tokens) {t : Token} (ht : t ∈ tokens) :
    0 ≤ t.start ∧ t.stop ≤ source.length := by
  obtain ⟨front, cs, back, rfl, eq⟩ := scan_mem h ht
  rw [eq]
  simp only [spanning, Position.offset_after, Position.start, List.length_append]
  omega

theorem scan_wide (h : scan source = .ok tokens) {t : Token} (ht : t ∈ tokens)
    (inner : t.kind ≠ .eof) : t.start < t.stop := by
  obtain ⟨rest, precedes⟩ := scan_precedes h ht inner
  obtain ⟨front, cs, back, -, eq⟩ := scan_mem h ht
  have wide : 0 < cs.length := by
    rw [eq] at precedes
    simpa [spanning, chars] using List.length_pos_iff.mpr precedes.chars_ne_nil
  rw [eq]
  simp only [spanning, Position.offset_after]
  omega

theorem scan_nodup (h : scan source = .ok tokens) : tokens.Nodup := by
  refine (scan_sorted h).imp ?_
  rintro t _ earlier rfl
  omega

theorem scan_error_placed {e : ScanError} (h : scan source = .error e) :
    Placed source e.position.line e.position.col e.position.offset := by
  obtain ⟨xs, c, rest, -, rfl, -, place⟩ := scan_error_iff.mp h
  rw [place]
  exact Position.placed (Lexeme.text xs) (c :: rest)

/-- The text between the offsets of a token is the token's own. -/
theorem scan_slice (h : scan source = .ok tokens) (last : Token) :
    ∀ t ∈ tokens, (Parser.Scope.mk source last).slice t.start t.stop = t.text := by
  intro t ht
  obtain ⟨front, cs, back, rfl, eq⟩ := scan_mem h ht
  rw [eq]
  simp only [spanning, Parser.Scope.slice, Parser.Scope.place_natCast, Position.offset_after,
    Position.start, Nat.zero_add, List.drop_left, Nat.add_sub_cancel_left, List.take_left]

end Token

end ProtoSchema
