import ProtoSchema.Proofs.Encoding
import ProtoSchema.Proofs.Formatting
import ProtoSchema.Proofs.Positions
import ProtoSchema.Proofs.Reporting

/-! # Line endings

A text whose lines end in a carriage return and a line feed has the same tokens as the text whose
lines end in a line feed, at the same lines and columns. A carriage return is a blank between
tokens and belongs to a comment that it ends; no token goes on beyond one, because no string
literal has a line feed that is not escaped.
-/

namespace ProtoSchema

/-- The text with a carriage return before every line feed. -/
def Text.withReturns (cs : List Char) : List Char :=
  cs.flatMap fun c => if c = '\n' then ['\r', '\n'] else [c]

namespace Text

variable {c : Char} {cs ds : List Char}

@[simp] theorem withReturns_nil : withReturns [] = [] := rfl

@[simp] theorem withReturns_feed : withReturns ('\n' :: cs) = '\r' :: '\n' :: withReturns cs := rfl

theorem withReturns_cons (h : c ≠ '\n') : withReturns (c :: cs) = c :: withReturns cs := by
  rw [withReturns, List.flatMap_cons, if_neg h]
  rfl

@[simp] theorem withReturns_append : withReturns (cs ++ ds) = withReturns cs ++ withReturns ds :=
  List.flatMap_append

theorem withReturns_plain (h : '\n' ∉ cs) : withReturns cs = cs := by
  induction cs with
  | nil => rfl
  | cons c cs ih =>
      simp only [List.mem_cons, not_or] at h
      rw [withReturns_cons (Ne.symm h.1), ih h.2]

theorem withReturns_line (h : '\n' ∉ ds) (cs : List Char) :
    withReturns (ds ++ '\n' :: cs) = ds ++ '\r' :: '\n' :: withReturns cs := by
  rw [withReturns_append, withReturns_plain h, withReturns_feed]

theorem head?_withReturns (cs : List Char) :
    (withReturns cs).head? = if cs.head? = some '\n' then some '\r' else cs.head? := by
  cases cs with
  | nil => rfl
  | cons c cs =>
      by_cases feed : c = '\n'
      · subst feed
        rfl
      · rw [withReturns_cons feed]
        simp [feed]

theorem head_withReturns {p : Char → Prop} (h : ∀ c ∈ cs.head?, p c) (cr : p '\r') :
    ∀ c ∈ (withReturns cs).head?, p c := by
  rw [head?_withReturns]
  split
  · rintro _ ⟨⟩
    exact cr
  · exact h

/-- Files with either line ending are read alike. -/
theorem foldLineEndings_withReturns (h : '\r' ∉ cs) : foldLineEndings (withReturns cs) = cs := by
  induction cs with
  | nil => rfl
  | cons c cs ih =>
      simp only [List.mem_cons, not_or] at h
      by_cases feed : c = '\n'
      · subst feed
        rw [withReturns_feed, foldLineEndings, ih h.2]
      · rw [withReturns_cons feed, foldLineEndings, ih h.2]
        · rintro _ rfl
          exact absurd rfl h.1
        · rintro rfl
          exact absurd rfl h.1

/-- Returns stand between no two characters but a line feed and the one before it. -/
theorem infix_withReturns {a b : Char} (h : ∀ c ∈ [a, b], c ≠ '\r' ∧ c ≠ '\n') :
    [a, b] <:+: withReturns cs ↔ [a, b] <:+: cs := by
  obtain ⟨⟨ha, ha'⟩, hb, hb'⟩ : (a ≠ '\r' ∧ a ≠ '\n') ∧ b ≠ '\r' ∧ b ≠ '\n' := by
    simpa using h
  induction cs with
  | nil => rfl
  | cons c cs ih =>
      have next : [b] <+: withReturns cs ↔ [b] <+: cs := by
        cases cs with
        | nil => rfl
        | cons d ds =>
            by_cases feed : d = '\n'
            · subst feed
              simp [List.cons_prefix_cons, hb, hb']
            · simp [withReturns_cons feed, List.cons_prefix_cons]
      by_cases feed : c = '\n'
      · subst feed
        simp [List.infix_cons_iff, List.cons_prefix_cons, ha, ha', ih]
      · simp [withReturns_cons feed, List.infix_cons_iff, List.cons_prefix_cons, next, ih]

end Text

/-! ## Places without offsets -/

/-- The place by line and column only. -/
def Position.withoutOffset (p : Position) : Position :=
  { p with offset := 0 }

/-- The token with its place by line and column only. -/
def Token.withoutOffset (t : Token) : Token :=
  { t with start := 0, stop := 0 }

/-- The error with its place by line and column only. -/
def ScanError.withoutOffset (e : ScanError) : ScanError :=
  { e with position := e.position.withoutOffset }

open Text (withReturns)

variable {p q : Position}

theorem Position.withoutOffset_eq_iff :
    p.withoutOffset = q.withoutOffset ↔ p.line = q.line ∧ p.col = q.col := by
  simp [withoutOffset]

/-- Returns do not lead to another line, nor to another column on the next line. -/
theorem Position.withoutOffset_after (h : p.withoutOffset = q.withoutOffset) (cs : List Char) :
    (p.after cs).withoutOffset = (q.after (withReturns cs)).withoutOffset := by
  induction cs generalizing p q with
  | nil => exact h
  | cons c cs ih =>
      obtain ⟨line, col⟩ := withoutOffset_eq_iff.mp h
      by_cases feed : c = '\n'
      · subst feed
        rw [Text.withReturns_feed, after_cons, after_cons, after_cons]
        exact ih (withoutOffset_eq_iff.mpr (by simp [next, line]))
      · rw [Text.withReturns_cons feed, after_cons, after_cons]
        exact ih (withoutOffset_eq_iff.mpr (by simp [next, feed, line, col]))

theorem Token.withoutOffset_eq_iff {t u : Token} : t.withoutOffset = u.withoutOffset ↔
    t.kind = u.kind ∧ t.text = u.text ∧ t.line = u.line ∧ t.col = u.col := by
  simp [withoutOffset]

theorem Token.spanning_withoutOffset (h : p.withoutOffset = q.withoutOffset) (k : Kind)
    (cs : List Char) : (spanning k cs p).withoutOffset = (spanning k cs q).withoutOffset := by
  obtain ⟨line, col⟩ := Position.withoutOffset_eq_iff.mp h
  exact withoutOffset_eq_iff.mpr ⟨rfl, rfl, congrArg Int.ofNat line, congrArg Int.ofNat col⟩

namespace Lexeme

variable {c : Char} {cs rest : List Char} {x : Lexeme} {xs : List Lexeme}

/-! ## Single lexemes -/

theorem closeString_withReturns (unescaped : ¬['\\', '\n'] <:+: cs) (h : closeString cs = none) :
    closeString (withReturns cs) = none := by
  induction cs using closeString.induct with
  | case1 => rfl
  | case2 cs => simp [closeString] at h
  | case3 cs => rfl
  | case4 => rfl
  | case5 c cs ih =>
      have feed : c ≠ '\n' := by
        rintro rfl
        exact unescaped ⟨[], cs, rfl⟩
      have later : ¬['\\', '\n'] <:+: cs := by
        intro inside
        exact unescaped (List.infix_cons (List.infix_cons inside))
      rw [Text.withReturns_cons (by decide), Text.withReturns_cons feed, closeString,
        ih later (by simpa [closeString] using h)]
      rfl
  | case6 c cs quote feed single escape ih =>
      have backslash : c ≠ '\\' := by
        rintro rfl
        cases cs with
        | nil => exact single rfl rfl
        | cons d ds => exact escape d ds rfl rfl
      rw [closeString.eq_6 c cs quote feed single escape, Option.map_eq_none_iff] at h
      have later : ¬['\\', '\n'] <:+: cs := by
        intro inside
        exact unescaped (List.infix_cons inside)
      rw [Text.withReturns_cons feed, closeString.eq_6, ih later h]
      · rfl
      · exact quote
      · exact feed
      · exact fun same _ => absurd same backslash
      · exact fun _ _ same _ => absurd same backslash

theorem Stuck.withReturns {cause : ScanError.Cause} (h : Stuck c rest cause)
    (unescaped : ¬['\\', '\n'] <:+: rest) : Stuck c (withReturns rest) cause := by
  cases h with
  | comment unclosed =>
      rw [Text.withReturns_cons (by decide)]
      exact .comment (mt (Text.infix_withReturns (by simp)).mp unclosed)
  | string unclosed => exact .string (closeString_withReturns unescaped unclosed)
  | slash other => exact .slash (Text.head_withReturns other (by decide))
  | unexpected blank slash quote digit letter delimiter =>
      exact .unexpected blank slash quote digit letter delimiter

theorem Stuck.ne_feed {cause : ScanError.Cause} (h : Stuck c rest cause) : c ≠ '\n' := by
  cases h with
  | comment => decide
  | string => decide
  | slash => decide
  | unexpected blank =>
      rintro rfl
      exact blank rfl

/-- A string literal goes beyond a line feed only after a backslash. -/
theorem Quoted.feed_not_mem (h : Quoted cs) (unescaped : ¬['\\', '\n'] <:+: cs) : '\n' ∉ cs := by
  induction h with
  | close => decide
  | escape c _ ih =>
      rename_i cs _
      have feed : c ≠ '\n' := by
        rintro rfl
        exact unescaped ⟨[], cs, rfl⟩
      have later := ih fun inside => unescaped (List.infix_cons (List.infix_cons inside))
      simp [feed.symm, later]
  | plain quote backslash feed _ ih =>
      have later := ih fun inside => unescaped (List.infix_cons inside)
      simp [feed.symm, later]

theorem Precedes.feed_not_mem {k : Token.Kind} (h : (token k cs).Precedes rest)
    (unescaped : ¬['\\', '\n'] <:+: cs) : '\n' ∉ cs := by
  cases h with
  | string inside =>
      have later := inside.feed_not_mem fun found => unescaped (List.infix_cons found)
      simp [later]
  | number first inside stop =>
      intro found
      cases found with
      | head => exact absurd first (by decide)
      | tail _ found => exact absurd (inside _ found) (by decide)
  | ident first inside stop =>
      intro found
      cases found with
      | head => exact absurd first (by decide)
      | tail _ found => exact absurd (inside _ found) (by decide)
  | delimiter kind =>
      rw [List.mem_singleton]
      rintro rfl
      exact absurd kind (by simp [Token.Kind.ofDelimiter?])

theorem Precedes.eq_feed (h : x.Precedes rest) (feed : x.chars.head? = some '\n') :
    x = gap ['\n'] := by
  cases h with
  | blank => simpa [chars] using feed
  | line => simp [chars] at feed
  | block => simp [chars] at feed
  | string => simp [chars] at feed
  | number first =>
      obtain rfl := by simpa [chars] using feed
      exact absurd first (by decide)
  | ident first =>
      obtain rfl := by simpa [chars] using feed
      exact absurd first (by decide)
  | delimiter kind =>
      obtain rfl := by simpa [chars] using feed
      exact absurd kind (by simp [Token.Kind.ofDelimiter?])

theorem Precedes.token_withReturns {k : Token.Kind} (h : (token k cs).Precedes rest) :
    (token k cs).Precedes (withReturns rest) := by
  cases h with
  | string inside => exact .string inside
  | number first inside stop =>
      exact .number first inside (Text.head_withReturns stop (by decide))
  | ident first inside stop =>
      exact .ident first inside (Text.head_withReturns stop (by decide))
  | delimiter kind => exact .delimiter kind

/-- A gap ends before either line ending, unless it is a line feed or a comment ended by one. -/
theorem Precedes.gap_withReturns (h : (gap cs).Precedes rest) (feed : cs ≠ ['\n'])
    (comment : ∀ body, cs = '/' :: '/' :: body → rest.head? ≠ some '\n') :
    (gap (withReturns cs)).Precedes (withReturns rest) := by
  cases h with
  | @blank c _ blank =>
      rw [Text.withReturns_plain (by simpa using Ne.symm feed)]
      exact .blank blank
  | line inside stop =>
      obtain rfl : rest = [] := by
        cases rest with
        | nil => rfl
        | cons c rest => exact absurd (congrArg some (stop c rfl)) (comment _ rfl)
      rw [Text.withReturns_plain (by simpa using inside)]
      exact .line inside (by simp)
  | @block body _ inside =>
      have whole : withReturns ('/' :: '*' :: (body ++ ['*', '/'])) =
          '/' :: '*' :: (withReturns body ++ ['*', '/']) := by
        rw [Text.withReturns_cons (by decide), Text.withReturns_cons (by decide),
          Text.withReturns_append]
        rfl
      rw [whole]
      exact .block (mt (Text.infix_withReturns (by simp)).mp inside)

/-! ## Rows of lexemes -/

/-- The row of lexemes with a return before every line feed. A comment that a line feed ends has
the return, before any other line feed it is a blank of its own. -/
def returned : List Lexeme → List Lexeme
  | [] => []
  | .gap ('/' :: '/' :: body) :: .gap ['\n'] :: xs =>
    .gap ('/' :: '/' :: (body ++ ['\r'])) :: .gap ['\n'] :: returned xs
  | .gap ['\n'] :: xs => .gap ['\r'] :: .gap ['\n'] :: returned xs
  | .gap cs :: xs => .gap (withReturns cs) :: returned xs
  | .token k cs :: xs => .token k cs :: returned xs

/-- No token of a row has a line feed inside, unless it stands after a backslash. -/
theorem SeparateBefore.feed_not_mem (h : SeparateBefore rest xs)
    (unescaped : ¬['\\', '\n'] <:+: text xs) :
    ∀ k cs, token k cs ∈ xs → '\n' ∉ cs := by
  induction xs with
  | nil => simp
  | cons x xs ih =>
      obtain ⟨precedes, separate⟩ := h
      intro k cs hmem
      cases hmem with
      | head => exact precedes.feed_not_mem fun inside => unescaped (inside.trans ⟨[], _, rfl⟩)
      | tail _ hmem =>
          refine ih separate ?_ k cs hmem
          intro inside
          exact unescaped (List.infix_append_of_infix_right inside)

theorem SeparateBefore.returned (h : SeparateBefore rest xs)
    (unbroken : ∀ k cs, token k cs ∈ xs → '\n' ∉ cs) (feed : rest.head? ≠ some '\n') :
    text (returned xs) = withReturns (text xs) ∧
      SeparateBefore (withReturns rest) (returned xs) := by
  fun_induction Lexeme.returned xs with
  | case1 => exact ⟨rfl, trivial⟩
  | case2 body xs ih =>
      obtain ⟨precedes, -, separate⟩ := h
      obtain ⟨same, later⟩ := ih separate fun k cs h => unbroken k cs (.tail _ (.tail _ h))
      cases precedes with
      | line inside =>
          have line := Text.withReturns_line
            (show '\n' ∉ '/' :: '/' :: body by simpa using inside) (text xs)
          refine ⟨?_, .line (by simpa using inside) (by simp [chars]), .blank rfl, later⟩
          simpa [chars, same] using line.symm
  | case3 xs ih =>
      obtain ⟨-, separate⟩ := h
      obtain ⟨same, later⟩ := ih separate fun k cs h => unbroken k cs (.tail _ h)
      exact ⟨congrArg ('\r' :: '\n' :: ·) same, .blank rfl, .blank rfl, later⟩
  | case4 cs xs comment blank ih =>
      obtain ⟨precedes, separate⟩ := h
      obtain ⟨same, later⟩ := ih separate fun k cs h => unbroken k cs (.tail _ h)
      refine ⟨?_, ?_, later⟩
      · rw [text_cons, text_cons, same, Text.withReturns_append]
        rfl
      · rw [same, ← Text.withReturns_append]
        refine precedes.gap_withReturns (by simpa using blank) ?_
        rintro body rfl
        cases xs with
        | nil => exact feed
        | cons x xs =>
            intro first
            rw [text_cons, List.append_assoc,
              List.head?_append_of_ne_nil _ separate.1.chars_ne_nil] at first
            obtain rfl := separate.1.eq_feed first
            exact comment body xs rfl rfl
  | case5 k cs xs ih =>
      obtain ⟨precedes, separate⟩ := h
      obtain ⟨same, later⟩ := ih separate fun k cs h => unbroken k cs (.tail _ h)
      refine ⟨?_, ?_, later⟩
      · rw [text_cons, text_cons, same, Text.withReturns_append, chars,
          Text.withReturns_plain (unbroken k cs (.head _))]
      · rw [same, ← Text.withReturns_append]
        exact precedes.token_withReturns

/-- The tokens of both rows have the same lines and columns. -/
theorem SeparateBefore.tokensAt_returned (h : SeparateBefore rest xs)
    (unbroken : ∀ k cs, token k cs ∈ xs → '\n' ∉ cs) (level : p.withoutOffset = q.withoutOffset) :
    (tokensAt p xs).map Token.withoutOffset =
      (tokensAt q (Lexeme.returned xs)).map Token.withoutOffset := by
  fun_induction Lexeme.returned xs generalizing p q with
  | case1 => exact congrArg ([·]) (Token.spanning_withoutOffset level ..)
  | case2 body xs ih =>
      obtain ⟨precedes, -, separate⟩ := h
      cases precedes with
      | line inside =>
          have line := Text.withReturns_line
            (show '\n' ∉ '/' :: '/' :: body by simpa using inside) []
          refine ih separate (fun k cs h => unbroken k cs (.tail _ (.tail _ h))) ?_
          rw [← Position.after_append, ← Position.after_append, Position.withoutOffset_after level,
            line]
          simp
  | case3 xs ih =>
      exact ih h.2 (fun k cs h => unbroken k cs (.tail _ h))
        (Position.withoutOffset_after level ['\n'])
  | case4 cs xs _ _ ih =>
      exact ih h.2 (fun k cs h => unbroken k cs (.tail _ h))
        (Position.withoutOffset_after level cs)
  | case5 k cs xs ih =>
      have after := Position.withoutOffset_after level cs
      rw [Text.withReturns_plain (unbroken k cs (.head _))] at after
      have later := ih h.2 (fun k cs h => unbroken k cs (.tail _ h)) after
      rw [tokensAt, tokensAt, List.map_cons, List.map_cons, later,
        Token.spanning_withoutOffset level]

end Lexeme

open Lexeme

theorem Token.scan_withReturns_ok {cs : List Char} {ts : List Token}
    (unescaped : ¬['\\', '\n'] <:+: cs) (h : scan cs = .ok ts) :
    ∃ us, scan (withReturns cs) = .ok us ∧
      ts.map withoutOffset = us.map withoutOffset := by
  obtain ⟨xs, separate, rfl, rfl⟩ := scan_ok_iff.mp h
  have separate := separateBefore_nil.mpr separate
  have unbroken := separate.feed_not_mem unescaped
  obtain ⟨same, separate'⟩ := separate.returned unbroken (by simp)
  exact ⟨_, scan_ok_iff.mpr ⟨_, separateBefore_nil.mp separate', same, rfl⟩,
    separate.tokensAt_returned unbroken rfl⟩

theorem Token.scan_withReturns_error {cs : List Char} {e : ScanError}
    (unescaped : ¬['\\', '\n'] <:+: cs) (h : scan cs = .error e) :
    ∃ e', scan (withReturns cs) = .error e' ∧ e.withoutOffset = e'.withoutOffset := by
  obtain ⟨xs, c, rest, separate, rfl, stuck, place⟩ := scan_error_iff.mp h
  have stuck := read_error_iff.mp stuck
  have feed : (c :: rest).head? ≠ some '\n' := fun same => stuck.ne_feed (Option.some.inj same)
  have unbroken := separate.feed_not_mem fun inside => unescaped (inside.trans ⟨[], _, rfl⟩)
  obtain ⟨same, separate'⟩ := separate.returned unbroken feed
  have later : ¬['\\', '\n'] <:+: rest := by
    intro inside
    exact unescaped (inside.trans ⟨Lexeme.text xs ++ [c], [], by simp⟩)
  refine ⟨⟨e.cause, Position.start.after (Lexeme.text (returned xs))⟩, scan_error_iff.mpr
    ⟨returned xs, c, withReturns rest, ?_, ?_, ?_, rfl⟩, ?_⟩
  · rwa [Text.withReturns_cons stuck.ne_feed] at separate'
  · rw [same, Text.withReturns_append, Text.withReturns_cons stuck.ne_feed]
  · exact read_error_iff.mpr (stuck.withReturns later)
  · simp only [ScanError.withoutOffset, place, same]
    rw [Position.withoutOffset_after rfl]

/-! ## Outcomes -/

/-- The mistake with its place by line and column only. -/
def Diagnostic.withoutOffset (d : Diagnostic) : Diagnostic :=
  { d with offset := 0 }

namespace SchemaError

/-- The error with the place of a mistake by line and column only. -/
def withoutOffset : SchemaError → SchemaError
  | .tree (.scan e) => .tree (.scan e.withoutOffset)
  | .tree (.parse (.mismatch e)) =>
    .tree (.parse (.mismatch { e with found := e.found.withoutOffset }))
  | e => e

theorem report?_withoutOffset (e : SchemaError) : e.withoutOffset.report? = e.report? := by
  unfold withoutOffset
  split <;> rfl

theorem diagnostic?_withoutOffset (e : SchemaError) :
    e.withoutOffset.diagnostic? = e.diagnostic?.map Diagnostic.withoutOffset := by
  obtain (e | e | - | -) | e := e
  all_goals rfl

/-- Errors of the same kind that tell a reader the same, except for the offset of a mistake. -/
structure SameReport (e f : SchemaError) : Prop where
  error : e.withoutOffset = f.withoutOffset
  report : e.report? = f.report?
  diagnostic : e.diagnostic?.map Diagnostic.withoutOffset =
    f.diagnostic?.map Diagnostic.withoutOffset

theorem SameReport.of_error {e f : SchemaError} (h : e.withoutOffset = f.withoutOffset) :
    SameReport e f where
  error := h
  report := by rw [← report?_withoutOffset e, h, report?_withoutOffset]
  diagnostic := by rw [← diagnostic?_withoutOffset e, h, diagnostic?_withoutOffset]

end SchemaError

namespace Schema

/-- The same schema with the same warnings, or the same error except for an offset. -/
inductive SameOutcome : Except SchemaError (Schema × List Warning) →
    Except SchemaError (Schema × List Warning) → Prop where
  | ok (p : Schema) (ws : List Warning) : SameOutcome (.ok (p, ws)) (.ok (p, ws))
  | error {e f : SchemaError} (same : e.SameReport f) : SameOutcome (.error e) (.error f)

theorem SameOutcome.of_agree {x y : Except SchemaError (Schema × List Warning)}
    (h : Agree (fun t u => t.withoutOffset = u.withoutOffset) x y) : SameOutcome x y := by
  cases h with
  | @ok p ts us numbers =>
      have same : ts.flatMap (·.warnings) = us.flatMap (·.warnings) := by
        induction numbers with
        | nil => rfl
        | @cons t u ts us level _ ih =>
            obtain ⟨-, text, line, col⟩ := Token.withoutOffset_eq_iff.mp level
            have here : t.warnings = u.warnings := by
              rw [Token.warnings, Token.warnings, text, line, col]
            rw [List.flatMap_cons, List.flatMap_cons, ih, here]
      rw [same]
      exact .ok p _
  | mismatch found => exact .error (.of_error (by simp only [SchemaError.withoutOffset, found]))
  | outOfTokens => exact .error (.of_error rfl)
  | tooDeep => exact .error (.of_error rfl)

/-- A file with the bytes of a text has the outcome of the text with its line endings folded. -/
theorem ofContents_encode (limit : Nat) (source : List Char) :
    ofContents limit (.ok (Text.Utf8.encode (String.ofList source))) =
      (ofText (limit - 1) (Text.foldLineEndings source)).mapError .schema := by
  rw [ofContents, Text.Utf8.decode_encode]

/-- A text has the same outcome with either line ending, and so has a file with its bytes unless its
messages are too deep for the one level less that files have. This is so if the text has no return
of its own and no line feed after a backslash. -/
theorem ofText_withReturns {source : List Char} (plain : '\r' ∉ source)
    (unescaped : ¬['\\', '\n'] <:+: source) (limit : Nat) :
    SameOutcome (ofText limit source) (ofText limit (withReturns source)) ∧
      ∀ (fs : FileSystem) (path : String),
        fs.readText path = .ok (Text.Utf8.encode (String.ofList source)) ∨
          fs.readText path = .ok (Text.Utf8.encode (String.ofList (withReturns source))) →
        ofContents limit (fs.readText path) = (ofText (limit - 1) source).mapError .schema ∧
          (ofContents limit (fs.readText path) = .error (.schema (.tree (.parse .tooDeep))) ∨
            ofContents limit (fs.readText path) = (ofText limit source).mapError .schema) := by
  constructor
  · cases scanned : Token.scan source with
    | ok tokens =>
        obtain ⟨tokens', scanned', same⟩ := Token.scan_withReturns_ok unescaped scanned
        have level := Derivation.forall₂_map_eq.mpr same
        refine .of_agree (ofText_agree ?_ scanned scanned' level)
        intro t u level
        obtain ⟨kind, text, -⟩ := Token.withoutOffset_eq_iff.mp level
        exact ⟨kind, text⟩
    | error e =>
        obtain ⟨e', scanned', same⟩ := Token.scan_withReturns_error unescaped scanned
        rw [ofText_eq_error.mpr ⟨.scan e, by simp [Node.ofText, scanned], rfl⟩,
          ofText_eq_error.mpr ⟨.scan e', by simp [Node.ofText, scanned'], rfl⟩]
        exact .error (.of_error (by simp only [SchemaError.withoutOffset, same]))
  · intro fs path bytes
    have contents : ofContents limit (fs.readText path) =
        (ofText (limit - 1) source).mapError .schema := by
      obtain read | read := bytes
      · rw [read, ofContents_encode, Text.foldLineEndings_plain plain]
      · rw [read, ofContents_encode, Text.foldLineEndings_withReturns plain]
    refine ⟨contents, ?_⟩
    rw [contents]
    obtain deep | same := ofText_deepens (Nat.sub_le limit 1) source
    · exact .inl (by rw [deep, Except.mapError])
    · exact .inr (by rw [same])

/-- A number on a line of its own below a comment, and a file with a string literal that is not
closed on its line. -/
theorem ofText_withReturns_unclosed :
    let limit := 1
    let numbered := "//c\nenum E\x7bA\n=2147483648;\x7d".toList
    let unclosed := "import\n\"a\n;".toList
    let fs : FileSystem :=
      ⟨[(["a"], .file (Text.Utf8.encode (String.ofList (withReturns unclosed))))], []⟩
    SameOutcome (ofText limit numbered) (ofText limit (withReturns numbered)) ∧
      ofText limit numbered =
        .ok (⟨"proto3", none, [], [], [⟨"E", [⟨"A", 0⟩]⟩], []⟩, [⟨"2147483648", 3, 2⟩]) ∧
      SameOutcome (ofText limit unclosed) (ofText limit (withReturns unclosed)) ∧
      ofText limit (withReturns unclosed) =
        .error (.tree (.scan ⟨.unterminatedString, ⟨2, 1, 8⟩⟩)) ∧
      ofContents limit (fs.readText "a") =
        .error (.schema (.tree (.scan ⟨.unterminatedString, ⟨2, 1, 7⟩⟩))) := by
  intro limit numbered unclosed fs
  have outcome := (@ofText_withReturns numbered (by decide) (by decide) limit).1
  obtain ⟨same, files⟩ := @ofText_withReturns unclosed (by decide) (by decide) limit
  have failed : ofText (limit - 1) unclosed =
      .error (.tree (.scan ⟨.unterminatedString, ⟨2, 1, 7⟩⟩)) := by decide +kernel
  have contents (bytes : List UInt8) :
      (⟨[(["a"], .file bytes)], []⟩ : FileSystem).readText "a" = .ok bytes := rfl
  have read := (files fs "a" (.inr (contents _))).1
  exact ⟨outcome, by decide +kernel, same, by decide +kernel,
    read.trans (congrArg (Except.mapError DocumentError.schema) failed)⟩

/-- As many messages inside each other as a text may have are too many for a file. -/
theorem ofContents_nestedText :
    let limit := Limits.usual.nesting
    let source := nestedText 989
    let fs : FileSystem := ⟨[(["a"], .file (Text.Utf8.encode (String.ofList source)))], []⟩
    (∃ ws, ofText limit source = .ok (nested 989, ws)) ∧
      ofContents limit (fs.readText "a") = .error (.schema (.tree (.parse .tooDeep))) ∧
      ¬∀ source, '\r' ∉ source → ¬['\\', '\n'] <:+: source →
        ∀ (fs : FileSystem) (path : String),
          fs.readText path = .ok (Text.Utf8.encode (String.ofList source)) →
            ofContents limit (fs.readText path) = (ofText limit source).mapError .schema := by
  intro limit source fs
  have plain : '\r' ∉ source := not_mem_nestedText (by decide) 989
  have unescaped : ¬['\\', '\n'] <:+: source := fun h =>
    not_mem_nestedText (by decide) 989 (h.subset List.mem_cons_self)
  have bytes : fs.readText "a" = .ok (Text.Utf8.encode (String.ofList source)) := rfl
  obtain ⟨ws, read⟩ : ∃ ws, ofText limit source = .ok (nested 989, ws) :=
    ofText_nestedText (by decide)
  have deep : ofContents limit (fs.readText "a") = .error (.schema (.tree (.parse .tooDeep))) := by
    rw [bytes, ofContents_encode, Text.foldLineEndings_plain plain,
      ofText_nestedText_tooDeep (by decide), Except.mapError]
  refine ⟨⟨ws, read⟩, deep, fun agree => ?_⟩
  have same := agree source plain unescaped fs "a" bytes
  rw [deep, read] at same
  cases same

end Schema
end ProtoSchema
