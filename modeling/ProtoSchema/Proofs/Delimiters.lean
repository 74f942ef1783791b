import ProtoSchema.Proofs.Inert
import ProtoSchema.Proofs.Phases
import ProtoSchema.Proofs.TokenLists
import ProtoSchema.Proofs.Stages

/-! # Texts without one of their delimiters

Outside blocks of options every brace is needed, since braces match in every file. So is every
semicolon that ends a statement, unless another semicolon comes next, since no statement goes on
with a token that may follow it.
-/

namespace ProtoSchema

open ProtoSchema.Derivation

/-- The rules of statements and members that may end with a semicolon. -/
def Rule.closed : List Rule :=
  [.syntaxDecl, .packageDecl, .importDecl, .optionDecl, .field, .enumValue, .rpcDef]

/-- The token is not part of a block of options. -/
def Node.OutsideOptions (tree : Node) (t : Token) : Prop :=
  ∀ n : Node, n.Within tree → n.rule = .fieldOptions → t.stop ≤ n.start ∨ n.stop ≤ t.start

/-- The text has a mistake that some token shows. The limit on nesting may be reached first, but
no limit on nesting lets the text pass. -/
def Schema.Rejected (limit : Nat) (source : List Char) : Prop :=
  ((∃ e, Schema.ofText limit source = .error (.tree (.parse (.mismatch e)))) ∨
    Schema.ofText limit source = .error (.tree (.parse .tooDeep))) ∧
  ∃ tokens, Token.scan source = .ok tokens ∧
    ∀ limit > tokens.length, ∃ e, Node.ofTokens limit source tokens = .error (.mismatch e)

namespace Token

theorem brackets_map_bare (depth : Nat) (ts : List Token) :
    brackets depth (ts.map bare) = brackets depth ts :=
  List.foldl_map

theorem split_unique {ts us front back : List Token} {t u : Token}
    (order : (ts ++ t :: us).Pairwise (·.stop ≤ ·.start))
    (same : ts ++ t :: us = front ++ u :: back) (wide : t.start < t.stop)
    (wide' : u.start < u.stop) (stop : t.stop = u.stop) : ts = front ∧ t = u := by
  obtain ⟨more, rfl, rfl⟩ | ⟨more, rfl, rest⟩ := append_cons_cases same
  · have before := (List.pairwise_append.mp order).2.2 u (by simp) t List.mem_cons_self
    omega
  · cases more with
    | nil => exact ⟨by simp, (List.cons_eq_cons.mp rest).1⟩
    | cons v more =>
        obtain ⟨rfl, rfl⟩ := List.cons_eq_cons.mp rest
        have tail := (List.pairwise_append.mp order).2.1
        have after : t.stop ≤ u.start := List.rel_of_pairwise_cons tail (by simp)
        omega

end Token

namespace Derivation

variable {x : Symbol} {r : Rule} {d : Derivation} {n : Node} {t : Token} {tokens : List Token}
  {source : List Char} {front back : List Token}

theorem From.closing_token (h : d.From (.rule r)) (hr : r ∈ Rule.closed) :
    ∃ left last, d = node (.rule r) (left ++ [.token last]) := by
  obtain ⟨_, rfl, fits⟩ := from_iff.mp h
  cases r
  case rpcDef =>
    obtain ⟨front, -, back, ends, rfl⟩ := fits_mul.mp fits
    obtain last | ends := fits_add.mp ends
    · obtain ⟨t, -, rfl⟩ := fits_kind.mp last
      exact ⟨front, t, rfl⟩
    · obtain ⟨init, -, _, last, rfl⟩ := fits_mul.mp ends
      obtain ⟨t, -, rfl⟩ := fits_kind.mp last
      exact ⟨front ++ init, t, by simp⟩
  all_goals first
    | exact absurd hr (by decide)
    | obtain ⟨front, -, back, last, rfl⟩ := fits_mul.mp fits
      obtain ⟨t, -, rfl⟩ := fits_kind.mp last
      exact ⟨front, t, rfl⟩

/-- A semicolon that ends a statement does not stand behind another one, or behind a brace. -/
theorem From.closing_last {init : List Token} (h : d.From (.rule r)) (hr : r ∈ Rule.closed)
    (last : d.yield = init ++ [t]) (semicolon : t.kind = .semicolon) :
    ∃ u, init.getLast? = some u ∧ u.kind ∉ Token.openers := by
  obtain ⟨left, u, rfl⟩ := h.closing_token hr
  obtain ⟨rfl, rfl⟩ : yieldList left = init ∧ u = t := by
    simpa using last
  have rows : Symbol.rule r ∉ Symbol.rows := by
    cases r <;> simp_all [Rule.closed, Symbol.rows]
  obtain before | ⟨-, inner⟩ := h.closing_semicolon semicolon rows
  · exact before
  · exact absurd rfl inner

theorem Derives.closing_last (h : Derives tokens d) (scanned : Token.scan source = .ok tokens)
    (split : tokens = front ++ t :: back) (semicolon : t.kind = .semicolon)
    (within : n.Within (d.tree (.whole source))) (rule : n.rule ∈ Rule.closed)
    (stop : n.stop = t.stop) : ∃ u, front.getLast? = some u ∧ u.kind ∉ Token.openers := by
  cases within with
  | root =>
      obtain ⟨parts, rfl⟩ := h.1.rooted
      simp [Derivation.tree, Node.root, Rule.closed] at rule
  | inside hc hn =>
      obtain ⟨before, e, after, x, occurs, made, from_x, label, file⟩ := h.1.part_of_within hc hn
      obtain ⟨_, last, -, final, -, stop'⟩ := from_x.valid.spans made
      have inner := from_x.kind_ne_eof file
      obtain ⟨init, ends⟩ := List.getLast?_eq_some_iff.mp final
      have same : front ++ t :: back = (before ++ init) ++ last :: after := by
        rw [← split, ← h.2, occurs.yield_eq, ends]
        simp
      have wide : t.start < t.stop :=
        Token.scan_wide scanned (by simp [split]) (by simp [semicolon])
      have wide' : last.start < last.stop :=
        Token.scan_wide scanned (by simp [split, same]) (inner last (by simp [ends]))
      obtain ⟨rfl, rfl⟩ := Token.split_unique (split ▸ Token.scan_disjoint scanned) same wide wide'
        (stop.symm.trans stop')
      obtain r | _ := x
      · rw [← label] at rule
        obtain ⟨u, hu, other⟩ := from_x.closing_last rule ends semicolon
        exact ⟨u, by simp [hu], other⟩
      · simp [← label, Rule.closed] at rule

/-- Outside blocks of options no brackets are open. -/
theorem Derives.outside (h : Derives tokens d) (scanned : Token.scan source = .ok tokens)
    (split : tokens = front ++ t :: back)
    (outside : (d.tree (.whole source)).OutsideOptions t) : Token.brackets 0 front = 0 := by
  by_contra blocked
  have occurs : (token t).Occurs front d back := occurs_of_yield d (h.2.trans split)
  obtain ⟨m, hm, n, within, e, from_e, made, ht, sub⟩ :=
    occurs.in_options (s := .whole source) h.1.valid blocked
  have rule : n.rule = .fieldOptions := from_e.rooted.node_rule made
  have below : n.Within (d.tree (.whole source)) := by
    obtain ⟨parts, rfl⟩ := h.1.rooted
    obtain rfl := List.mem_singleton.mp hm
    cases within with
    | root => cases rule
    | inside hc hn => exact .inside hc hn
  have order : InOrder e.yield :=
    Node.inOrder_of_scan scanned (h.2 ▸ sub) (from_e.kind_ne_eof (by decide))
  have bounds := (from_e.valid.spans made).bounds order ht
  have wide := order.wide t ht
  have apart := outside n below rule
  omega

end Derivation

namespace Schema

variable {limit : Nat} {source : List Char} {p : Schema} {ws : List Warning}
  {tokens front back : List Token} {d : Derivation} {t u : Token}

/-- A text whose tokens are not derived is rejected. -/
theorem rejected_of_scan (scanned : Token.scan source = .ok tokens)
    (lost : ∀ e, ¬Derives tokens e) : Rejected limit source := by
  have failed (limit : Nat) : (∃ e, Node.ofTokens limit source tokens = .error (.mismatch e)) ∨
      Node.ofTokens limit source tokens = .error .tooDeep := by
    cases result : Node.ofTokens limit source tokens with
    | ok tree =>
        obtain ⟨body, rfl, inner⟩ := Token.scan_body scanned
        obtain ⟨e, derives, -⟩ := (Node.ofTokens_eq_ok inner rfl).mp result
        exact absurd derives (lost e)
    | error failure =>
        cases failure with
        | mismatch e => exact .inl ⟨e, rfl⟩
        | tooDeep => exact .inr rfl
        | outOfTokens => exact absurd result (ofTokens_ne_outOfTokens scanned _ _)
  refine ⟨?_, tokens, scanned, fun limit great => ?_⟩
  · simpa only [ofText_parse scanned] using failed limit
  · obtain mismatch | deep := failed limit
    · exact mismatch
    · exact absurd (Node.le_length_of_tooDeep deep) (Nat.not_le_of_lt great)

theorem rejected_of_blank (scanned : Token.scan source = .ok (front ++ t :: back))
    (inner : t.kind ≠ .eof) (lost : ∀ e, ¬Derives ((front ++ back).map Token.bare) e) :
    Rejected limit (blank source t.start t.stop) := by
  have row : Token.scan source = .ok (front ++ ([t] ++ back)) := scanned
  obtain ⟨tokens, blanked, same⟩ := Token.scan_blank row rfl rfl inner inner
  exact rejected_of_scan blanked fun e derives => lost e.bare (same ▸ derives.bare)

/-- A text with a schema is rejected without a brace, and without a semicolon that ends a statement
and that no other semicolon follows, outside blocks of options. -/
theorem ofText_without_delimiter (limit : Nat) (source : List Char) (p : Schema) (ws : List Warning)
    (h : ofText limit source = .ok (p, ws)) :
    ∃ tree tokens, Node.ofText limit source = .ok tree ∧ Token.scan source = .ok tokens ∧
      (∀ front t back, tokens = front ++ t :: back → tree.OutsideOptions t →
        t.kind ∈ [.lbrace, .rbrace] → Rejected limit (blank source t.start t.stop)) ∧
      ∀ front t u back, tokens = front ++ t :: u :: back → tree.OutsideOptions t →
        t.kind = .semicolon → u.kind ≠ .semicolon →
        (∃ n : Node, n.Within tree ∧ n.rule ∈ Rule.closed ∧ n.stop = t.stop) →
        Rejected limit (blank source t.start t.stop) := by
  obtain ⟨tokens, d, scanned, derives, shallow, rfl, rfl⟩ := ofText_eq_ok.mp h
  refine ⟨_, tokens, Node.ofText_eq_ok.mpr ⟨tokens, d, scanned, derives, shallow, rfl⟩, scanned, ?_,
    ?_⟩
  · rintro front t back rfl outside brace
    have inner : t.kind ≠ .eof := by
      rintro eof
      simp [eof] at brace
    have closed := derives.outside scanned rfl outside
    refine rejected_of_blank scanned inner fun e derives' => ?_
    have whole := derives.bare
    rw [List.map_append, List.map_cons] at whole
    rw [List.map_append] at derives'
    exact whole.without_brace brace (by rwa [Token.brackets_map_bare]) e derives'
  · rintro front t u back rfl outside semicolon other ⟨n, within, rule, stop⟩
    have inner : t.kind ≠ .eof := by simp [semicolon]
    have closed := derives.outside scanned rfl outside
    refine rejected_of_blank scanned inner fun e derives' => ?_
    have whole := derives.bare
    rw [List.map_append, List.map_cons, List.map_cons] at whole
    rw [List.map_append, List.map_cons] at derives'
    obtain ⟨v, last, opener⟩ := derives.closing_last scanned rfl semicolon within rule stop
    exact whole.without_semicolon (v := v.bare) semicolon (by rwa [Token.brackets_map_bare])
      (by simp [last]) opener other e derives'

/-- A statement without its semicolon, and a message without its opening brace. -/
theorem ofText_without_delimiter_message :
    let limit := 1
    let source := "syntax=\"proto3\";message A\x7b\x7d".toList
    let p : Schema := ⟨"proto3", none, [], [⟨"A", [], [], []⟩], [], []⟩
    ofText limit source = .ok (p, []) ∧
      Rejected limit "syntax=\"proto3\" message A\x7b\x7d".toList ∧
      Rejected limit "syntax=\"proto3\";message A \x7d".toList := by
  intro limit source p
  have first : blank source 15 16 = "syntax=\"proto3\" message A\x7b\x7d".toList := by
    decide +kernel
  have second : blank source 25 26 = "syntax=\"proto3\";message A \x7d".toList := by
    decide +kernel
  have read : ofText limit source = .ok (p, []) := by decide +kernel
  let front : List Token :=
    [⟨.ident, "syntax", 1, 1, 0, 6⟩, ⟨.equals, "=", 1, 7, 6, 7⟩,
      ⟨.stringLit, "\"proto3\"", 1, 8, 7, 15⟩]
  let close : Token := ⟨.semicolon, ";", 1, 16, 15, 16⟩
  let word : Token := ⟨.ident, "message", 1, 17, 16, 23⟩
  let name : Token := ⟨.ident, "A", 1, 25, 24, 25⟩
  let left : Token := ⟨.lbrace, "\x7b", 1, 26, 25, 26⟩
  let back : List Token := [⟨.rbrace, "\x7d", 1, 27, 26, 27⟩, ⟨.eof, "", 1, 28, 27, 27⟩]
  have row : Token.scan source = .ok (front ++ close :: word :: name :: left :: back) := by
    decide +kernel
  have shape : (Node.ofText limit source).map (fun tree => decide (tree.rule = .protoFile ∧
      (∀ c ∈ tree.children, c.rule ≠ .fieldOptions ∧
        ∀ n ∈ c.children, n.rule ≠ .fieldOptions ∧ n.children.isEmpty) ∧
      ∃ n ∈ tree.children, n.rule = .syntaxDecl ∧ n.stop = 16)) = .ok true := by decide +kernel
  obtain ⟨tree, tokens, parsed, scanned, brace, semicolon⟩ :=
    ofText_without_delimiter limit source p [] read
  obtain rfl := Except.ok.inj (scanned.symm.trans row)
  rw [parsed, Except.map, Except.ok.injEq, decide_eq_true_iff] at shape
  obtain ⟨root, plain, n, hn, rule, stop⟩ := shape
  have outside (t : Token) : tree.OutsideOptions t := by
    intro n hn rule
    cases hn with
    | root => simp [root] at rule
    | inside hc hn =>
        obtain ⟨other, leaves⟩ := plain _ hc
        cases hn with
        | root => exact absurd rule other
        | inside hc' hn =>
            obtain ⟨other, leaf⟩ := leaves _ hc'
            cases hn with
            | root => exact absurd rule other
            | inside hc hn => simp_all
  have closed := semicolon front close word (name :: left :: back) rfl (outside close) rfl
    (by decide) ⟨n, .inside hn .root, by simp [rule, Rule.closed], stop⟩
  have opened := brace (front ++ [close, word, name]) left back (by simp) (outside left) (by decide)
  rw [← first, ← second]
  exact ⟨read, closed, opened⟩

end Schema

end ProtoSchema
