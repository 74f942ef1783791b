import ProtoSchema.Proofs.Depth
import ProtoSchema.Proofs.RoundTrip
import ProtoSchema.Proofs.SchemaDocument

/-! # Texts of messages inside each other

For any number of messages inside each other there is a text that writes them. It is read just up to
the limit on nesting.
-/

namespace ProtoSchema

/-- The text of `n + 1` messages inside each other. -/
def nestedText (n : Nat) : List Char :=
  (List.replicate (n + 1) "message A\x7b".toList).flatten ++ List.replicate (n + 1) '\x7d'

theorem nestedText_chars {n : Nat} {c : Char} (h : c ∈ nestedText n) :
    c ∈ "message A\x7b\x7d".toList := by
  obtain h | h := List.mem_append.mp h
  · obtain ⟨cs, hcs, h⟩ := List.mem_flatten.mp h
    rw [List.eq_of_mem_replicate hcs] at h
    have inside : "message A\x7b".toList.all (· ∈ "message A\x7b\x7d".toList) := by decide
    exact of_decide_eq_true (List.all_eq_true.mp inside c h)
  · rw [List.eq_of_mem_replicate h]
    decide

theorem not_mem_nestedText {c : Char} (h : c ∉ "message A\x7b\x7d".toList) (n : Nat) :
    c ∉ nestedText n :=
  mt nestedText_chars h

namespace Lexeme

/-- The start of a message. -/
def opening : List Lexeme :=
  [.token .ident "message".toList, .gap [' '], .token .ident ['A'], .token .lbrace ['\x7b']]

/-- The lexemes of `n + 1` messages inside each other, with others after them. -/
def nestedRow : Nat → List Lexeme → List Lexeme
  | 0, rest => opening ++ .token .rbrace ['\x7d'] :: rest
  | n + 1, rest => opening ++ nestedRow n (.token .rbrace ['\x7d'] :: rest)

theorem separate_opening {xs : List Lexeme} (h : Separate xs) : Separate (opening ++ xs) := by
  have word : (token .ident "message".toList).Precedes (' ' :: 'A' :: '\x7b' :: text xs) :=
    .ident (by decide) (List.all_eq_true.mp (by decide)) (by rintro _ ⟨⟩; decide)
  have name : (token .ident ['A']).Precedes ('\x7b' :: text xs) :=
    .ident (by decide) (by simp) (by rintro _ ⟨⟩; decide)
  exact ⟨word, .blank (by decide), name, .delimiter rfl, h⟩

theorem separate_nestedRow (n : Nat) {xs : List Lexeme} (h : Separate xs) :
    Separate (nestedRow n xs) := by
  induction n generalizing xs with
  | zero => exact separate_opening ⟨.delimiter rfl, h⟩
  | succ n ih => exact separate_opening (ih ⟨.delimiter rfl, h⟩)

theorem text_opening (xs : List Lexeme) :
    text (opening ++ xs) = "message A\x7b".toList ++ text xs := by
  have same : "message A\x7b".toList = "message".toList ++ [' ', 'A', '\x7b'] := by decide
  rw [same, text_append]
  rfl

theorem text_nestedRow (n : Nat) (xs : List Lexeme) :
    text (nestedRow n xs) = nestedText n ++ text xs := by
  unfold nestedText
  generalize front : "message A\x7b".toList = cs
  induction n generalizing xs with
  | zero =>
      rw [nestedRow, text_opening, front]
      simp [chars]
  | succ n ih =>
      have braces : List.replicate (n + 2) '\x7d' = List.replicate (n + 1) '\x7d' ++ ['\x7d'] :=
        List.replicate_succ'
      rw [nestedRow, text_opening, front, ih, braces, List.replicate_succ (n := n + 1)]
      simp [chars]

end Lexeme

open Word Lexeme

/-- The words of the body of a message with `n` messages inside each other. -/
def nestedBody : Nat → List Word
  | 0 => []
  | n + 1 => definition "message" "A" (nestedBody n)

theorem Lexeme.words_nestedRow (n : Nat) (xs : List Lexeme) :
    words (nestedRow n xs) = nestedBody (n + 1) ++ words xs := by
  induction n generalizing xs with
  | zero => rfl
  | succ n ih =>
      have opened (ys : List Lexeme) : words (opening ++ ys) =
          ident "message" :: ident "A" :: lbrace :: words ys := rfl
      have body : nestedBody (n + 2) = definition "message" "A" (nestedBody (n + 1)) := rfl
      rw [nestedRow, opened, ih, body, definition]
      simp [words, word?, rbrace]

namespace Message

theorem nested_name (n : Nat) : (nested n).name = "A" := by
  cases n <;> rfl

theorem nested_written (n : Nat) : (nested n).BodyWritten (nestedBody n) := by
  induction n with
  | zero => exact .nil "A"
  | succ n ih =>
      have written := BodyWritten.message ih (.nil "A")
      rwa [nested_name, List.append_nil] at written

end Message

namespace Schema

theorem nested_written (n : Nat) : (nested n).Written (nestedBody (n + 1)) := by
  have message : (Message.nested n).Written (nestedBody (n + 1)) :=
    ⟨_, Message.nested_written n, by rw [Message.nested_name]; rfl⟩
  exact ⟨[], [], [], _, .inl ⟨rfl, rfl⟩, rfl, .nil, .message message .nil, by simp⟩

variable {n limit : Nat}

theorem ofText_nestedText (h : n < limit) :
    ∃ ws, ofText limit (nestedText n) = .ok (nested n, ws) := by
  have separate : Separate (nestedRow n []) := separate_nestedRow n trivial
  have source : text (nestedRow n []) = nestedText n := by simp [text_nestedRow]
  have said : words (nestedRow n []) = nestedBody (n + 1) :=
    (words_nestedRow n []).trans (List.append_nil _)
  obtain ⟨d, derives, schema, -, within⟩ :=
    (said ▸ nested_written n).derived ⟨.eof, "", 0, 0, 0, 0⟩ rfl
  rw [depth_nested] at within
  obtain ⟨e, -, -, read, -⟩ := ofText_spelled separate derives (within.trans h)
  rw [source, schema] at read
  exact ⟨_, read⟩

theorem ofText_nestedText_tooDeep (h : limit ≤ n) :
    ofText limit (nestedText n) = .error (.tree (.parse .tooDeep)) := by
  obtain ⟨ws, read⟩ := ofText_nestedText (Nat.lt_succ_self n)
  rw [ofText_limits read limit, if_neg (by rw [depth_nested]; omega)]

end Schema

end ProtoSchema
