import ProtoSchema.Proofs.Agreement
import ProtoSchema.Proofs.Bare
import ProtoSchema.Proofs.SchemaExact

/-! # Formatting

What stands between the tokens of a text does not matter. A text whose tokens are laid out anew,
with blanks and comments between them, has the same tokens except for their places. It has the same
schema, or it has no schema for the same reason at the same token.
-/

namespace ProtoSchema

/-- Blanks and comments, each comment on a line being ended by a line feed. -/
inductive Trivia : List Char → Prop where
  | nil : Trivia []
  | blank (blank : c ∈ [' ', '\t', '\r', '\n']) (rest : Trivia g) : Trivia (c :: g)
  | line (inside : '\n' ∉ body) (rest : Trivia g) : Trivia ('/' :: '/' :: (body ++ '\n' :: g))
  | block (inside : ¬['*', '/'] <:+: body) (rest : Trivia g) :
      Trivia ('/' :: '*' :: (body ++ '*' :: '/' :: g))

/-- The words with a gap after each of them and the gap `first` before them. -/
def layOut (first : List Char) (words gaps : List (List Char)) : List Char :=
  first ++ (List.zipWith (· ++ ·) words gaps).flatten

namespace Lexeme

theorem isBlank_iff {c : Char} : isBlank c ↔ c ∈ [' ', '\t', '\r', '\n'] := by
  simp [isBlank, or_assoc]

theorem Precedes.alone {x : Lexeme} {rest : List Char} (h : x.Precedes rest) : x.Precedes [] := by
  cases h with
  | blank blank => exact .blank blank
  | line inside stop => exact .line inside (by simp)
  | block inside => exact .block inside
  | string inside => exact .string inside
  | number first inside stop => exact .number first inside (by simp)
  | ident first inside stop => exact .ident first inside (by simp)
  | delimiter kind => exact .delimiter kind

theorem Precedes.before_trivia {k : Token.Kind} {cs g rest : List Char}
    (h : (token k cs).Precedes []) (trivia : Trivia g) (ne : g ≠ []) :
    (token k cs).Precedes (g ++ rest) := by
  have other : ∀ c ∈ (g ++ rest).head?, ¬isWordChar c ∧ ¬isDigit c := by
    cases trivia with
    | nil => exact absurd rfl ne
    | @blank c g blank rest =>
        simp only [List.mem_cons, List.not_mem_nil, or_false] at blank
        obtain rfl | rfl | rfl | rfl := blank
        all_goals rintro _ ⟨⟩; decide
    | line => rintro _ ⟨⟩; decide
    | block => rintro _ ⟨⟩; decide
  cases h with
  | string inside => exact .string inside
  | number first inside _ => exact .number first inside fun c hc => (other c hc).2
  | ident first inside _ => exact .ident first inside fun c hc => (other c hc).1
  | delimiter kind => exact .delimiter kind

theorem of_trivia {g : List Char} (h : Trivia g) {xs : List Lexeme} (separate : Separate xs) :
    ∃ ys, Separate ys ∧ text ys = g ++ text xs ∧ words ys = words xs := by
  induction h with
  | nil => exact ⟨xs, separate, rfl, rfl⟩
  | blank blank _ ih =>
      obtain ⟨ys, separate, same, said⟩ := ih
      exact ⟨.gap _ :: ys, ⟨.blank (isBlank_iff.mpr blank), separate⟩,
        congrArg (List.cons _) same, said⟩
  | @line body g inside _ ih =>
      obtain ⟨ys, separate, same, said⟩ := ih
      refine ⟨.gap ('/' :: '/' :: body) :: .gap ['\n'] :: ys, ⟨.line inside ?_, .blank rfl,
          separate⟩,
        ?_, said⟩
      · simp [chars]
      · simp [chars, same]
  | @block body g inside _ ih =>
      obtain ⟨ys, separate, same, said⟩ := ih
      refine ⟨.gap ('/' :: '*' :: (body ++ ['*', '/'])) :: ys, ⟨.block inside, separate⟩, ?_, said⟩
      simp [chars, same]

theorem Separate.alone {xs : List Lexeme} (h : Separate xs) :
    ∀ w ∈ words xs, (token w.1 w.2.toList).Precedes [] := by
  induction xs with
  | nil => simp [words]
  | cons x xs ih =>
      obtain ⟨precedes, separate⟩ := h
      cases x with
      | gap cs => exact ih separate
      | token k cs =>
          refine List.forall_mem_cons.mpr ⟨?_, ih separate⟩
          rw [String.toList_ofList]
          exact precedes.alone

/-- Words that are laid out are cut into themselves and gaps. -/
theorem of_layOut {ws : List (Token.Kind × String)}
    (alone : ∀ w ∈ ws, (token w.1 w.2.toList).Precedes []) {gaps : List (List Char)}
    (count : gaps.length = ws.length) (trivia : ∀ g ∈ gaps, Trivia g)
    (inner : ∀ g ∈ gaps.dropLast, g ≠ []) {first : List Char} (opening : Trivia first) :
    ∃ xs, Separate xs ∧ text xs = layOut first (ws.map (·.2.toList)) gaps ∧ words xs = ws := by
  induction ws generalizing first gaps with
  | nil =>
      obtain ⟨ys, separate, same, said⟩ := @of_trivia _ opening [] trivial
      exact ⟨ys, separate, by simpa [layOut] using same, said⟩
  | cons w ws ih =>
      obtain ⟨g, gaps, rfl⟩ := List.exists_cons_of_length_eq_add_one count
      obtain ⟨hw, hws⟩ := List.forall_mem_cons.mp alone
      obtain ⟨hg, hgaps⟩ := List.forall_mem_cons.mp trivia
      have count : gaps.length = ws.length := by simpa using count
      have inner' : ∀ g ∈ gaps.dropLast, g ≠ [] := by
        cases gaps with
        | nil => simp
        | cons g' gs => exact fun g'' h => inner g'' (List.mem_cons_of_mem _ h)
      obtain ⟨xs, separate, same, said⟩ := ih hws count hgaps inner' hg
      have precedes : (token w.1 w.2.toList).Precedes (text xs) := by
        rw [same, layOut]
        by_cases empty : g = []
        · cases gaps with
          | nil => simpa [empty] using hw
          | cons g' gs => exact absurd empty (inner g (by simp))
        · exact hw.before_trivia hg empty
      have separate : Separate (token w.1 w.2.toList :: xs) := ⟨precedes, separate⟩
      obtain ⟨ys, separate, same', said'⟩ := of_trivia opening separate
      refine ⟨ys, separate, ?_, ?_⟩
      · rw [same', text_cons, same]
        simp [layOut, chars]
      · rw [said', ← said]
        simp [words, word?]

end Lexeme

/-- The token `t` stands in a list at the index `i` and nowhere else. -/
def StandsAt (tokens : List Token) (t : Token) (i : Nat) : Prop :=
  ∀ j, tokens[j]? = some t ↔ j = i

/-- Two texts with the given tokens have the same result: the same schema with the same documents
and warnings about the same numbers, or a mistake at the same token that expects the same in the
same construct, or the same failure of another kind. -/
def SameResult (tokens tokens' : List Token) :
    Except SchemaError (Schema × List Warning) → Except SchemaError (Schema × List Warning) → Prop
  | .ok (p, ws), .ok (q, us) =>
    p = q ∧ (∀ l, p.render l = q.render l) ∧ ws.map (·.lexeme) = us.map (·.lexeme)
  | .error (.tree (.parse (.mismatch e))), .error (.tree (.parse (.mismatch f))) =>
    e.expected = f.expected ∧ e.context = f.context ∧
      ∃ i, StandsAt tokens e.found i ∧ StandsAt tokens' f.found i
  | .error e, .error f => e = f
  | _, _ => False

namespace Schema

variable {limit : Nat} {source source' : List Char} {tokens tokens' : List Token}

theorem standsAt (h : Token.scan source = .ok tokens) {t : Token} {i : Nat}
    (ht : tokens[i]? = some t) : StandsAt tokens t i := by
  intro j
  constructor
  · intro hj
    obtain ⟨bound, -⟩ := List.getElem?_eq_some_iff.mp hj
    exact (List.getElem?_inj bound (Token.scan_nodup h)).mp (hj.trans ht.symm)
  · rintro rfl
    exact ht

/-- The results of two texts with tokens related by `Q`: the same schema with warnings about
related numbers, or the same reason to have none, a mistake being at related tokens. -/
inductive Agree (Q : Token → Token → Prop) : Except SchemaError (Schema × List Warning) →
    Except SchemaError (Schema × List Warning) → Prop where
  | ok {p : Schema} {ts us : List Token} (numbers : List.Forall₂ Q ts us) :
      Agree Q (.ok (p, ts.flatMap (·.warnings))) (.ok (p, us.flatMap (·.warnings)))
  | mismatch {expected : List Expectation} {context : String} {t u : Token} (found : Q t u) :
      Agree Q (.error (.tree (.parse (.mismatch ⟨expected, context, t⟩))))
        (.error (.tree (.parse (.mismatch ⟨expected, context, u⟩))))
  | outOfTokens : Agree Q (.error (.tree (.parse .outOfTokens)))
      (.error (.tree (.parse .outOfTokens)))
  | tooDeep : Agree Q (.error (.tree (.parse .tooDeep))) (.error (.tree (.parse .tooDeep)))

/-- Texts with related tokens have results that agree. -/
theorem ofText_agree {Q : Token → Token → Prop} (alike : ∀ t u, Q t u → t.Alike u)
    (scanned : Token.scan source = .ok tokens) (scanned' : Token.scan source' = .ok tokens')
    (related : List.Forall₂ Q tokens tokens') :
    Agree Q (Schema.ofText limit source) (Schema.ofText limit source') := by
  have last : Q (Parser.Scope.whole source).last (Parser.Scope.whole source').last := by
    obtain ⟨body, rfl, -⟩ := Token.scan_body scanned
    obtain ⟨body', rfl, -⟩ := Token.scan_body scanned'
    have length : body.length = body'.length := by simpa using related.length_eq
    cases (Derivation.forall₂_append length related).2 with
    | cons last _ => exact last
  have agree := (Parser.Respects.statements alike limit).agree _ _ last _ _ related
  have tree : Node.ofText limit source = _ := Node.ofText_scanned scanned
  have tree' : Node.ofText limit source' = _ := Node.ofText_scanned scanned'
  generalize Grammar.statements limit (.whole source) tokens = result at agree tree
  generalize Grammar.statements limit (.whole source') tokens' = result' at agree tree'
  cases agree with
  | ok value rest =>
      obtain ⟨_, d, hs, derives, shallow, -⟩ := Node.ofText_eq_ok.mp tree
      obtain ⟨_, d', hs', derives', shallow', -⟩ := Node.ofText_eq_ok.mp tree'
      obtain rfl : tokens = _ := by simpa [scanned] using hs
      obtain rfl : tokens' = _ := by simpa [scanned'] using hs'
      have bare : tokens.map Token.bare = tokens'.map Token.bare := by
        refine Derivation.forall₂_map_eq.mp (related.imp fun t u h => ?_)
        rw [Token.bare, Token.bare, (alike t u h).kind, (alike t u h).text]
      have same : d.bare = d'.bare := derives.bare.unique (bare ▸ derives'.bare)
      rw [ofText_eq_ok.mpr ⟨_, d, scanned, derives, shallow, rfl, rfl⟩,
        ofText_eq_ok.mpr ⟨_, d', scanned', derives', shallow', rfl, rfl⟩,
        ← Derivation.schema_bare d, same, Derivation.schema_bare]
      refine .ok (Derivation.numbers_related same ?_)
      rwa [derives.2, derives'.2]
  | mismatch found =>
      rw [ofText_eq_error.mpr ⟨_, tree, rfl⟩, ofText_eq_error.mpr ⟨_, tree', rfl⟩]
      exact .mismatch found
  | outOfTokens =>
      rw [ofText_eq_error.mpr ⟨_, tree, rfl⟩, ofText_eq_error.mpr ⟨_, tree', rfl⟩]
      exact .outOfTokens
  | tooDeep =>
      rw [ofText_eq_error.mpr ⟨_, tree, rfl⟩, ofText_eq_error.mpr ⟨_, tree', rfl⟩]
      exact .tooDeep

/-- Texts whose tokens differ in places only have the same result. -/
theorem ofText_same (scanned : Token.scan source = .ok tokens)
    (scanned' : Token.scan source' = .ok tokens')
    (same : tokens.map Token.word = tokens'.map Token.word) :
    SameResult tokens tokens' (Schema.ofText limit source) (Schema.ofText limit source') := by
  let Both (t u : Token) : Prop := ∃ i : Nat, tokens[i]? = some t ∧ tokens'[i]? = some u
  have alike : ∀ t u, Both t u → t.Alike u := by
    rintro t u ⟨i, ht, hu⟩
    have words : (tokens.map Token.word)[i]? = (tokens'.map Token.word)[i]? := by rw [same]
    obtain ⟨kind, text⟩ : t.kind = u.kind ∧ t.text = u.text := by
      simpa [List.getElem?_map, ht, hu, Token.word] using words
    exact ⟨kind, text⟩
  have length : tokens.length = tokens'.length := by
    simpa using congrArg List.length same
  have related : List.Forall₂ Both tokens tokens' :=
    List.forall₂_iff_get.mpr ⟨length, fun i h h' => ⟨i, by simp, by simp⟩⟩
  have agree : Agree Both (Schema.ofText limit source) (Schema.ofText limit source') :=
    ofText_agree alike scanned scanned' related
  generalize Schema.ofText limit source = result at agree
  generalize Schema.ofText limit source' = result' at agree
  cases agree with
  | ok numbers =>
      have texts := numbers.imp fun t u h => (alike t u h).text
      exact ⟨rfl, fun _ => rfl, Token.lexemes_related texts⟩
  | mismatch found =>
      obtain ⟨i, ht, hu⟩ := found
      exact ⟨rfl, rfl, i, standsAt scanned ht, standsAt scanned' hu⟩
  | outOfTokens => rfl
  | tooDeep => rfl

/-- A text whose tokens are laid out anew has the same tokens except for their places, and the same
result. Only the last of the gaps after the tokens may be empty. -/
theorem ofText_layOut {last : Token} (scanned : Token.scan source = .ok (tokens ++ [last]))
    {first : List Char} {gaps : List (List Char)} (count : gaps.length = tokens.length)
    (trivia : ∀ g ∈ first :: gaps, Trivia g) (inner : ∀ g ∈ gaps.dropLast, g ≠ []) :
    let laidOut := layOut first (tokens.map (·.text.toList)) gaps
    ∃ tokens', Token.scan laidOut = .ok tokens' ∧
      tokens'.map Token.word = (tokens ++ [last]).map Token.word ∧
        SameResult (tokens ++ [last]) tokens' (Schema.ofText limit source)
          (Schema.ofText limit laidOut) := by
  intro laidOut
  obtain ⟨xs, separate, rfl, same⟩ := Token.scan_ok_iff.mp scanned
  obtain ⟨body, row, said, -⟩ := Lexeme.tokensAt_eq separate .start
  obtain ⟨rfl, last_eq⟩ := List.append_inj' (row.symm.trans same) rfl
  obtain ⟨hfirst, hgaps⟩ := List.forall_mem_cons.mp trivia
  obtain ⟨ys, separate', text, said'⟩ := Lexeme.of_layOut separate.alone
    (by rw [count, ← said, List.length_map]) hgaps inner hfirst
  obtain ⟨body', row', spoken, -⟩ := Lexeme.tokensAt_eq separate' .start
  have text : Lexeme.text ys = laidOut := by
    rw [text, ← said, List.map_map]
    rfl
  have scanned' : Token.scan laidOut = .ok (body' ++ [.eof (Position.start.after laidOut)]) :=
    Token.scan_ok_iff.mpr ⟨ys, separate', text, text ▸ row'⟩
  have words : (body' ++ [Token.eof (Position.start.after laidOut)]).map Token.word =
      (body ++ [last]).map Token.word := by
    obtain rfl : Token.eof _ = last := by simpa using last_eq
    rw [List.map_append, List.map_append, spoken, said', said]
    rfl
  exact ⟨_, scanned', words, ofText_same scanned scanned' words.symm⟩

/-- An import statement with comments around its path. -/
theorem ofText_layOut_import :
    let limit := 0
    let source := "import\"a\";".toList
    let laidOut := "//x\nimport /*y*/\"a\"\n;\t".toList
    let tokens : List Token := [⟨.ident, "import", 1, 1, 0, 6⟩, ⟨.stringLit, "\"a\"", 1, 7, 6, 9⟩,
      ⟨.semicolon, ";", 1, 10, 9, 10⟩]
    let last : Token := ⟨.eof, "", 1, 11, 10, 10⟩
    Token.scan source = .ok (tokens ++ [last]) ∧
      ∃ tokens', Token.scan laidOut = .ok tokens' ∧
        tokens'.map Token.word = (tokens ++ [last]).map Token.word ∧
          SameResult (tokens ++ [last]) tokens' (Schema.ofText limit source)
            (Schema.ofText limit laidOut) := by
  intro limit source laidOut tokens last
  have scanned : Token.scan source = .ok (tokens ++ [last]) := by decide +kernel
  have first : Trivia ('/' :: '/' :: (['x'] ++ ['\n'])) := .line (by decide) .nil
  have between : Trivia (' ' :: '/' :: '*' :: (['y'] ++ ['*', '/'])) :=
    .blank (by decide) (.block (by decide) .nil)
  have feed : Trivia ['\n'] := .blank (by decide) .nil
  have tab : Trivia ['\t'] := .blank (by decide) .nil
  have same : layOut ['/', '/', 'x', '\n'] (tokens.map (·.text.toList))
      [[' ', '/', '*', 'y', '*', '/'], ['\n'], ['\t']] = laidOut := by decide +kernel
  exact ⟨scanned, same ▸ ofText_layOut scanned rfl
    (by simpa using ⟨first, between, feed, tab⟩) (by decide)⟩

end Schema

end ProtoSchema
