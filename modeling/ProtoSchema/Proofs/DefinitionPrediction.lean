import ProtoSchema.Proofs.DefinitionReading
import ProtoSchema.Proofs.MemberPrediction

/-! # Definitions predict

A body is a loop over elements, so what a definition predicts comes from what its elements predict.
An element of a message that starts with the word of a definition is a field unless a name and a
brace follow, and it is both for no list that goes on in one of the two ways. For messages the pair
of parsers has a lower and a higher limit on nesting, and the induction is on the lower one.
-/

namespace ProtoSchema

namespace Grammar

open ProtoSchema.Parser

/-- An element of a body, or a semicolon. -/
def bodyItem (element : Parser Node) : Parser (List Node) := do
  if (← peek).kind = .semicolon then
    let _ ← advance
    return []
  else
    return [← element]

/-- The rest of a definition after its opening brace. -/
def bodyTail (rule : Rule) (first : Token) (name : Node) (element : Parser Node) :
    Parser Node := do
  let (elements, last) ← block element
  node rule first last (name :: elements)

end Grammar

namespace Expectation

theorem enumValue_of_names {t : Token} {ts : List Token} (h : (rule .enumValue).Names (t :: ts)) :
    t.kind = .ident := by
  obtain ⟨d, derived, same⟩ := h
  obtain ⟨u, us, hy, word⟩ := derived.enumValue_startsWith
  obtain ⟨rfl, -⟩ := List.cons_eq_cons.mp (hy.symm.trans same)
  exact word

theorem field_of_names {t : Token} {ts : List Token} (h : (rule .field).Names (t :: ts)) :
    t.kind = .ident := by
  obtain ⟨d, derived, same⟩ := h
  obtain ⟨u, _, _, _, hy, word, -⟩ := derived.field_yield
  obtain ⟨rfl, -⟩ := List.cons_eq_cons.mp (hy.symm.trans same)
  exact word

end Expectation

namespace Parser

/-- The elements of a body: they take tokens, and they ask for semicolons, for the brace that ends
the body, and for elements, which start with a word. -/
structure Elements (s : Scope) (wants : List Expectation) (element : Bool → Parser Node) :
    Prop where
  consumes : ∀ b, Consumes s (element b)
  run : ∀ ts, Ended ts → Predicts s False wants anyToken element ts
  offers : ∀ x ∈ wants, x = .kind .semicolon ∨ x = .kind .rbrace ∨
    (∀ t ts, x.Names (t :: ts) → t.kind = .ident) ∧ Offers s anyToken (element true) x []

theorem Ready.offers_rule {s : Scope} {r : Rule} {p q : Parser Node} {t : Token}
    (reads : Reads s q (Derived s (.rule r))) (h : Ready s anyToken q (some t))
    (agree : ∀ xs, p s (t :: xs) = q s (t :: xs)) : Offers s anyToken p (.rule r) [] := by
  obtain ⟨tail, n, inner, head, takes⟩ := h
  obtain ⟨tail, rfl⟩ := List.head?_eq_some_iff.mp head
  refine ⟨t :: tail, n, inner, fun v _ => ?_, fun v rest hv => (agree _).trans (takes v rest hv)⟩
  obtain ⟨_, ⟨d, rfl, derived, -⟩, same⟩ := reads.ok_iff.mp (takes v [] trivial)
  have names : (Expectation.rule r).Names (t :: tail) :=
    ⟨d, derived, List.append_cancel_right (by simpa using same)⟩
  exact names.starts [v]

namespace Predictive

variable {s : Scope} {P : Token → Prop} {wants : List Expectation}

/-! ## Bodies -/

theorem bodyItem_consumes {element : Parser Node} (h : Consumes s element) :
    Consumes s (Grammar.bodyItem element) := by
  intro ts a rest ok
  change (if (s.next ts).kind = .semicolon then
      Parser.advance >>= fun _ => Pure.pure []
    else element >>= fun n => Pure.pure [n]) s ts = .ok (a, rest) at ok
  split at ok
  · cases ts with
    | nil => cases ok
    | cons t ts =>
        obtain ⟨-, rfl⟩ := Prod.mk.inj (Except.ok.inj ok)
        exact Nat.lt_succ_self _
  · obtain ⟨n, mid, first, last⟩ := bind_eq_ok.mp ok
    obtain ⟨-, rfl⟩ := Prod.mk.inj (Except.ok.inj last)
    exact h ts n mid first

theorem bodyItem {element : Bool → Parser Node} (h : Elements s wants element) {t : Token}
    {more : List Token} (ended : Ended (t :: more)) :
    Predicts s False wants P (fun b => Grammar.bodyItem (element b)) (t :: more) := by
  refine .peek (.ite (fun semicolon => ?_) fun _ => ?_)
  · exact (pure []).after (List.cons_ne_nil t []) (.cons (by simp [semicolon]) .nil)
      (fun b xs => rfl) ended
  · exact ((h.run _ ended).bind ended (fun n rest ended' _ => (pure [n]).run rest ended')
      (fun _ n => (pure [n]).ready false) follows_any nofun (List.Subset.refl wants) nofun).imp
        And.left

theorem bodyItem_offers {element : Parser Node} {x : Expectation} (h : x = .kind .semicolon ∨
    (∀ t ts, x.Names (t :: ts) → t.kind = .ident) ∧ Offers s anyToken element x []) :
    Offers s anyToken (Grammar.bodyItem element) x [] := by
  obtain rfl | ⟨word, h⟩ := h
  · have names := Expectation.names_kind (t := .sample .semicolon ";") rfl
    exact ⟨[.sample .semicolon ";"], [], .cons (by decide) .nil, fun v _ => names.starts [v],
      fun v rest _ => rfl⟩
  · refine (h.bind_left (fun n => (pure [n]).ready true) follows_any).after ?_
    intro t ts names xs
    change (if t.kind = .semicolon then Parser.advance >>= fun _ => Pure.pure []
      else element >>= fun n => Pure.pure [n]) s (t :: xs) = _
    rw [if_neg (by simp [word t ts names])]

theorem elements {element : Bool → Parser Node} (h : Elements s wants element) :
    Predictive s none wants (·.kind = .rbrace)
      fun b => Parser.many (·.kind != .rbrace) (Grammar.bodyItem (element b)) := by
  have consumes (b : Bool) := bodyItem_consumes (h.consumes b)
  have stop : ∀ v : Token, v.kind = .rbrace → (v.kind != .rbrace) = false :=
    fun v hv => by simp [hv]
  refine many consumes (fun _ _ ended _ => bodyItem h ended) stop fun x mem => ?_
  obtain rfl | rfl | ⟨word, offers⟩ := h.offers x mem
  · refine (bodyItem_offers (.inl rfl)).many (consumes true) stop fun t ts names => ?_
    simp [Expectation.kind_of_names names]
  · exact .idle (many_stop (consumes true) stop) fun v hv => Expectation.names_kind hv
  · refine (bodyItem_offers (.inr ⟨word, offers⟩)).many (consumes true) stop fun t ts names => ?_
    simp [word t ts names]

theorem bodyTail_ready {element : Parser Node} (consumes : Consumes s element) (rule : Rule)
    (first : Token) (name : Node) :
    Ready s P (Grammar.bodyTail rule first name element) (some (.sample .rbrace "\x7d")) := by
  refine ⟨[.sample .rbrace "\x7d"], s.node rule first (.sample .rbrace "\x7d") [name],
    .cons (by decide) .nil, rfl, fun v rest _ => ?_⟩
  have none : Parser.many (·.kind != .rbrace) (Grammar.bodyItem element) s
      (.sample .rbrace "\x7d" :: v :: rest) = .ok ([], .sample .rbrace "\x7d" :: v :: rest) := by
    rw [many_eq (bodyItem_consumes consumes), Scope.next_cons]
    rfl
  have body : Grammar.block element s (.sample .rbrace "\x7d" :: v :: rest) =
      .ok (([], .sample .rbrace "\x7d"), v :: rest) := bind_ok none _
  exact bind_ok body _

theorem block {element : Bool → Parser Node} (h : Elements s wants element) :
    Predictive s (some (.sample .rbrace "\x7d")) wants P fun b => Grammar.block (element b) := by
  have elements := elements h
  have brace (es : List (List Node)) (b : Bool) : Ready s P (Parser.advance >>= fun last =>
      Pure.pure (es.flatten, last)) (some (.sample .rbrace "\x7d")) :=
    ⟨[.sample .rbrace "\x7d"], _, .cons (by decide) .nil, rfl, fun v rest _ => rfl⟩
  have follows : Follows (some (.sample .rbrace "\x7d")) [] P (·.kind = .rbrace) := .some rfl nofun
  refine ⟨fun ts ended => ?_, fun b => (elements.ready b).bind (fun es => brace es b) follows,
    fun x mem => (elements.offers x mem).bind_left (fun es => brace es true) follows⟩
  refine ((elements.run ts ended).bind ended (fun es rest ended' ok => ?_)
    (fun b es => brace es b) follows (fun _ mem => (List.not_mem_nil mem).elim)
    (List.Subset.refl wants) fun _ => List.nil_subset wants).imp And.right
  obtain ⟨u, more, rfl⟩ := ended'.exists_cons
  -- the loop has left the brace that ends it
  have stop : u.kind = .rbrace := by simpa using manyUpTo_stop ok
  refine Predicts.imp ?_ False.elim
  exact (pure (es.flatten, u)).after (List.cons_ne_nil u []) (.cons (by simp [stop]) .nil)
    (fun _ _ => rfl) ended'

theorem bodyTail {element : Bool → Parser Node} (h : Elements s wants element) (rule : Rule)
    (first : Token) (name : Node) : Predictive s (some (.sample .rbrace "\x7d")) wants P
      fun b => Grammar.bodyTail rule first name (element b) :=
  (block h).step fun _ => node ..

theorem definition {element : Bool → Parser Node} (h : Elements s wants element) (w : String)
    (rule : Rule) : Headed s w P fun b => Grammar.definition w rule (element b) :=
  (Headed.keyword _).step fun first => (ident _).step fun name =>
    (expect (t := .sample .lbrace "\x7b") rfl (by decide) _).step fun _ =>
      bodyTail h rule first name

theorem definition_cons {element : Parser Node} {w : String} {t u v : Token} (ht : t.isWord w)
    (hu : u.kind = .ident) (hv : v.kind = .lbrace) (rule : Rule) (xs : List Token) :
    Grammar.definition w rule element s (t :: u :: v :: xs) =
      Grammar.bodyTail rule t (s.leaf .ident u) element s xs :=
  (bind_ok (keyword_cons ht _ _) _).trans ((bind_ok (leaf_cons hu _ _ _) _).trans
    (bind_ok (expectAs_cons hv _ _ _) _))

theorem isWord_ident {t : Token} {w : String} (h : t.isWord w) : t.kind = .ident ∧ t.text = w := by
  simpa [Token.isWord] using h

theorem consumes_single {p : Parser Node} {Q : Derivation → Prop} (h : Reads s p (Single s Q))
    (starts : ∀ d, Q d → d.WordFirst) : Consumes s p := by
  refine h.consumes ?_
  rintro n _ rest ⟨d, rfl, hd, -⟩
  obtain ⟨-, t, ts, hy, -⟩ := starts d hd
  simp [hy]

/-! ## Enums and services -/

theorem enumElement_consumes : Consumes s Grammar.enumElement :=
  consumes_single Reads.enumElement fun _ => Derivation.enumElement_wordFirst

theorem enumElements : Elements s [.rule .enumValue, .kind .semicolon, .kind .rbrace]
    fun _ => Grammar.enumElement where
  consumes _ := enumElement_consumes
  run ts ended := by
    obtain ⟨t, more, rfl⟩ := ended.exists_cons
    exact enumElement ended
  offers x mem := by
    obtain rfl | rfl | rfl : x = .rule .enumValue ∨ x = .kind .semicolon ∨ x = .kind .rbrace := by
      simpa using mem
    · refine .inr (.inr ⟨fun t ts => Expectation.enumValue_of_names, ?_⟩)
      have value : Ready s anyToken Grammar.enumValue (some aWord) := by
        obtain ⟨tail, a, inner, -, takes⟩ :=
          (valueTail (s := s) (P := anyToken) aWord (s.leaf .ident aWord)).ready true
        exact ⟨aWord :: tail, a, .cons (by decide) inner, rfl, fun v rest hv =>
          (enumValue_cons rfl _).trans (takes v rest hv)⟩
      exact value.offers_rule Reads.enumValue fun xs => rfl
    · exact .inl rfl
    · exact .inr (.inl rfl)

theorem enumDef : Headed s "enum" P fun _ => Grammar.enumDef :=
  definition enumElements "enum" .enumDef

theorem headed_offers {p q : Parser Node} {w : String} (h : Offers s anyToken q (.word w) [])
    (agree : ∀ t : Token, t.isWord w → ∀ xs, p s (t :: xs) = q s (t :: xs)) :
    (∀ t ts, (Expectation.word w).Names (t :: ts) → t.kind = .ident) ∧
      Offers s anyToken p (.word w) [] := by
  refine ⟨fun t ts names => (isWord_ident (Expectation.isWord_of_names names)).1, ?_⟩
  exact h.after fun t ts names => agree t (Expectation.isWord_of_names names)

theorem rpcElements : Elements s [.word "option", .kind .semicolon, .kind .rbrace]
    fun _ => Grammar.rpcElement where
  consumes _ := consumes_single Reads.rpcElement fun _ hd => hd.wordFirst hd.optionDecl_startsWith
  run ts ended := by
    obtain ⟨t, more, rfl⟩ := ended.exists_cons
    exact .peek (.ite (fun word => optionDecl.run word ended) fun _ =>
      .refusal (List.cons_ne_nil _ _))
  offers x mem := by
    obtain rfl | rfl | rfl : x = .word "option" ∨ x = .kind .semicolon ∨ x = .kind .rbrace := by
      simpa using mem
    · refine .inr (.inr (headed_offers optionDecl.offers fun t word xs => ?_))
      change (if t.isWord "option" then Grammar.optionDecl else _) s (t :: xs) = _
      rw [if_pos word]
    · exact .inl rfl
    · exact .inr (.inl rfl)

theorem rpcBody : Predictive s (some (.sample .semicolon ";")) [.kind .semicolon, .kind .lbrace] P
    fun _ => Grammar.rpcBody := by
  have body := block (s := s) (P := P) rpcElements
  have ready : Ready s P Grammar.rpcBody (some (.sample .semicolon ";")) :=
    ⟨[.sample .semicolon ";"], ([], _), .cons (by decide) .nil, rfl, fun v rest _ => rfl⟩
  refine ⟨fun ts ended => ?_, fun _ => ready, fun x mem => ?_⟩
  · obtain ⟨t, more, rfl⟩ := ended.exists_cons
    refine Predicts.imp (.peek ?_) False.elim
    by_cases left : t.kind = .lbrace
    · rw [if_pos left]
      exact body.after (List.cons_ne_nil t []) (.cons (by simp [left]) .nil) (fun _ _ => rfl) ended
    rw [if_neg left]
    by_cases last : t.kind = .semicolon
    · exact (pure (([] : List Node), t)).after (List.cons_ne_nil t []) (.cons (by simp [last]) .nil)
        (fun _ xs => bind_ok (expectAs_cons last _ _ xs) _) ended
    · exact .refused fun _ xs => ⟨_, _, List.cons_ne_nil _ _, List.Subset.refl _,
        bind_error (expectAs_other last _ _ xs) _⟩
  · obtain rfl | rfl : x = .kind .semicolon ∨ x = .kind .lbrace := by simpa using mem
    · exact ready.offers (Expectation.names_kind rfl)
    · obtain ⟨tail, r, inner, -, takes⟩ := body.ready true
      have names := Expectation.names_kind (t := .sample .lbrace "\x7b") rfl
      exact ⟨.sample .lbrace "\x7b" :: tail, r, .cons (by decide) inner,
        fun v _ => names.starts (tail ++ [v]), takes⟩

theorem rpcDef : Headed s "rpc" P fun _ => Grammar.rpcDef := by
  have lparen := expect (s := s) (P := anyToken) (t := .sample .lparen "(") rfl (by decide)
    Rule.rpcDef.name
  have rparen := expect (s := s) (P := anyToken) (t := .sample .rparen ")") rfl (by decide)
    Rule.rpcDef.name
  have closes : ∀ v : Token, v.kind = .rparen → AfterMethodType v := fun v hv => by
    simp [AfterMethodType, hv]
  exact (Headed.keyword _).step fun _ => (ident _).step fun _ => lparen.step fun _ =>
    messageType.bind (fun _ => rparen.step fun _ =>
      (keyword (t := .sample .ident "returns") rfl _).step fun _ => lparen.step fun _ =>
        messageType.bind (fun _ => rparen.step fun _ => rpcBody.step fun _ => node ..)
          (.kind rfl closes)) (.kind rfl closes)

theorem serviceElements : Elements s
    [.word "rpc", .word "option", .kind .semicolon, .kind .rbrace]
    fun _ => Grammar.serviceElement where
  consumes _ := consumes_single Reads.serviceElement fun _ => Derivation.serviceElement_wordFirst
  run ts ended := by
    obtain ⟨t, more, rfl⟩ := ended.exists_cons
    exact .peek (.ite (fun word => rpcDef.run word ended) fun _ =>
      .ite (fun word => optionDecl.run word ended) fun _ => .refusal (List.cons_ne_nil _ _))
  offers x mem := by
    have choice (t : Token) (xs : List Token) : Grammar.serviceElement s (t :: xs) =
        (if t.isWord "rpc" then Grammar.rpcDef else if t.isWord "option" then Grammar.optionDecl
        else Parser.mismatch [.word "rpc", .word "option", .kind .semicolon, .kind .rbrace]
          Rule.serviceDef.name) s (t :: xs) := rfl
    obtain rfl | rfl | rfl | rfl : x = .word "rpc" ∨ x = .word "option" ∨ x = .kind .semicolon ∨
        x = .kind .rbrace := by
      simpa using mem
    · refine .inr (.inr (headed_offers rpcDef.offers fun t word xs => ?_))
      rw [choice, if_pos word]
    · refine .inr (.inr (headed_offers optionDecl.offers fun t word xs => ?_))
      rw [choice, if_neg (by simp [Derivation.isWord_other word]), if_pos word]
    · exact .inl rfl
    · exact .inr (.inl rfl)

theorem serviceDef : Headed s "service" P fun _ => Grammar.serviceDef :=
  definition serviceElements "service" .serviceDef

/-! ## Messages -/

/-- A definition by the word `w`, of which the first three tokens have been seen. -/
def Opens (s : Scope) (P : Token → Prop) (w : String) (d : Bool → Parser Node) : Prop :=
  ∀ (F : Bool → Parser Node) (t u v : Token) (more : List Token) (wants : List Expectation),
    Ended (t :: u :: v :: more) → t.isWord w → u.kind = .ident → v.kind = .lbrace →
      (∀ b xs, F b s (t :: u :: v :: xs) = d b s (t :: u :: v :: xs)) →
        Predicts s False wants P F (t :: u :: v :: more)

theorem inner_opening {t u v : Token} {w : String} (ht : t.isWord w) (hu : u.kind = .ident)
    (hv : v.kind = .lbrace) : Inner [t, u, v] :=
  .cons (by simp [(isWord_ident ht).1]) (.cons (by simp [hu]) (.cons (by simp [hv]) .nil))

theorem definition_opens {element : Bool → Parser Node} (h : Elements s wants element) (w : String)
    (rule : Rule) : Opens s P w fun b => Grammar.definition w rule (element b) := by
  intro F t u v more wants' ended ht hu hv agree
  exact (bodyTail h rule t (s.leaf .ident u)).after (List.cons_ne_nil t [u, v])
    (inner_opening ht hu hv) (fun b xs => (agree b xs).trans (definition_cons ht hu hv rule xs))
      ended

theorem wordElement {F d : Bool → Parser Node} {w : String} (opens : Opens s P w d)
    (plain : w ∉ Grammar.fieldRules) {t : Token} {more : List Token} (ht : t.isWord w)
    (agree : ∀ b xs, F b s (t :: xs) = (if (xs[0]?.getD s.last).kind == .ident &&
      (xs[1]?.getD s.last).kind == .lbrace then d b else Grammar.field) s (t :: xs))
    (ended : Ended (t :: more)) : Predicts s False wants P F (t :: more) := by
  obtain ⟨name, rfl⟩ := isWord_ident ht
  have inner : t.kind ≠ .eof := by simp [name]
  obtain ⟨u, more, rfl⟩ := (ended.tail inner).exists_cons
  by_cases hu : u.kind = .ident
  · have inner' : u.kind ≠ .eof := by simp [hu]
    obtain ⟨v, more, rfl⟩ := ((ended.tail inner).tail inner').exists_cons
    by_cases hv : v.kind = .lbrace
    · refine opens F t u v more wants ended ht hu hv fun b xs => ?_
      rw [agree, if_pos (by simp [hu, hv])]
    · obtain ⟨type, named⟩ := field_named (s := s) name hu
      refine (afterName t [] type (s.leaf .ident u)).afterIf (Q := (·.kind ≠ .lbrace))
        (.kind rfl fun v hv => by simp [hv]) (List.cons_ne_nil t [u])
        (.cons inner (.cons inner' .nil)) (fun b v xs hv => ?_) hv ended
      refine (agree b (u :: v :: xs)).trans ?_
      rw [if_neg (by simp [hv])]
      exact named v xs (by simp [plain])
  · refine field_short name (fun b => field_completes name fun v hv xs => ?_) (fun b xs => ?_) ended
    · rw [agree, if_neg (by simp [hv])]
    · rw [agree, if_neg (by simp [hu])]
      exact field_type name (by simp [plain])

theorem messageElement_cons (nested : Parser Node) (t : Token) (xs : List Token) :
    Grammar.messageElement nested s (t :: xs) =
      (if t.isWord "message" && (xs[0]?.getD s.last).kind == .ident &&
          (xs[1]?.getD s.last).kind == .lbrace then nested
      else if t.isWord "enum" && (xs[0]?.getD s.last).kind == .ident &&
          (xs[1]?.getD s.last).kind == .lbrace then Grammar.enumDef
      else if t.isWord "option" then Grammar.optionDecl
      else if t.kind = .ident then Grammar.field
      else Parser.mismatch [.rule .field, .word "message", .word "enum", .kind .semicolon,
        .kind .rbrace] Rule.messageDef.name) s (t :: xs) := by
  have ahead (w : String) : Grammar.atDefinition w s (t :: xs) =
      .ok (t.isWord w && (xs[0]?.getD s.last).kind == .ident &&
        (xs[1]?.getD s.last).kind == .lbrace, t :: xs) := rfl
  refine (bind_ok (show peek s (t :: xs) = .ok (t, t :: xs) from rfl) _).trans ?_
  refine (bind_ok (ahead "message") _).trans ?_
  split
  · rfl
  · refine (bind_ok (ahead "enum") _).trans ?_
    split <;> rfl

theorem messageElement_run {nested : Bool → Parser Node} (opens : Opens s P "message" nested)
    (ts : List Token) (ended : Ended ts) : Predicts s False
      [.rule .field, .word "message", .word "enum", .kind .semicolon, .kind .rbrace] P
        (fun b => Grammar.messageElement (nested b)) ts := by
  obtain ⟨t, more, rfl⟩ := ended.exists_cons
  by_cases name : t.kind = .ident
  · by_cases message : t.isWord "message"
    · refine wordElement opens (by decide) message (fun b xs => ?_) ended
      rw [messageElement_cons]
      simp [message, Derivation.isWord_other message, name]
    by_cases enum : t.isWord "enum"
    · refine wordElement (definition_opens enumElements "enum" .enumDef) (by decide) enum
        (fun b xs => ?_) ended
      rw [messageElement_cons]
      simp [message, enum, Derivation.isWord_other enum, name, Grammar.enumDef]
    by_cases option : t.isWord "option"
    · refine (optionDecl.run option ended).chosen fun b xs => ?_
      rw [messageElement_cons, if_neg (by simp [message]), if_neg (by simp [enum]), if_pos option]
    · refine (field name ended).chosen fun b xs => ?_
      rw [messageElement_cons, if_neg (by simp [message]), if_neg (by simp [enum]), if_neg option,
        if_pos name]
  · refine .refused fun b xs => ?_
    rw [messageElement_cons, if_neg (by simp [Token.isWord, name]),
      if_neg (by simp [Token.isWord, name]), if_neg (by simp [Token.isWord, name]), if_neg name]
    exact ⟨_, _, List.cons_ne_nil _ _, List.Subset.refl _, rfl⟩

/-- The word of a definition is the type of a field too. -/
theorem messageElement_word (nested : Parser Node) {w : String} (other : w ≠ "option") :
    (∀ t ts, (Expectation.word w).Names (t :: ts) → t.kind = .ident) ∧
      Offers s anyToken (Grammar.messageElement nested) (.word w) [] := by
  refine ⟨fun t ts names => (isWord_ident (Expectation.isWord_of_names names)).1, ?_⟩
  have word : (Token.sample .ident w).isWord w := by simp [Token.isWord, Token.sample]
  have completes : Completes s anyToken (Grammar.messageElement nested)
      ([.sample .ident w] ++ [aWord]) := by
    refine field_completes rfl fun v hv xs => ?_
    rw [messageElement_cons, if_neg (by simp [hv]), if_neg (by simp [hv]),
      if_neg (by simp [Derivation.isWord_other word other]), if_pos (isWord_ident word).1]
  have first : Completes s anyToken (Grammar.messageElement nested) ([] ++ [.sample .ident w]) :=
    completes.dropLast (by decide)
  exact first.offers (by simp [Token.sample]) (Expectation.names_word word)

theorem messageElements {nested : Bool → Parser Node} (opens : Opens s anyToken "message" nested)
    (consumes : ∀ b, Consumes s (Grammar.messageElement (nested b))) : Elements s
      [.rule .field, .word "message", .word "enum", .kind .semicolon, .kind .rbrace]
      fun b => Grammar.messageElement (nested b) where
  consumes := consumes
  run := messageElement_run opens
  offers x mem := by
    obtain rfl | rfl | rfl | rfl | rfl : x = .rule .field ∨ x = .word "message" ∨
        x = .word "enum" ∨ x = .kind .semicolon ∨ x = .kind .rbrace := by
      simpa using mem
    · refine .inr (.inr ⟨fun t ts => Expectation.field_of_names, ?_⟩)
      have field : Ready s anyToken Grammar.field (some aWord) := by
        obtain ⟨tail, a, inner, takes⟩ :=
          field_completes (s := s) (P := anyToken) (t := aWord) rfl fun _ _ _ => rfl
        exact ⟨aWord :: aWord :: tail, a, .cons (by decide) (.cons (by decide) inner), rfl, takes⟩
      exact field.offers_rule Reads.field fun xs => rfl
    · exact .inr (.inr (messageElement_word _ (by decide)))
    · exact .inr (.inr (messageElement_word _ (by decide)))
    · exact .inl rfl
    · exact .inr (.inl rfl)

theorem messageElement_consumes (limit : Nat) :
    Consumes s (Grammar.messageElement (Grammar.messageDef limit)) := by
  have message (d : Derivation) (h : Derivation.MessageUpTo limit d) : d.From (.rule .messageDef) :=
    h.1
  exact consumes_single (Reads.messageElement (Reads.messageDef limit) message) fun _ =>
    Derivation.MessageElement.wordFirst message

/-- A lower and a higher limit. -/
def limits (n m : Nat) (b : Bool) : Nat :=
  bif b then m else n

theorem messageDef_succ (n m : Nat) (b : Bool) : Grammar.messageDef (limits (n + 1) (m + 1) b) =
    Grammar.definition "message" .messageDef
      (Grammar.messageElement (Grammar.messageDef (limits n m b))) := by
  cases b <;> rfl

theorem messageDef_completes {t u v : Token} (ht : t.isWord "message") (hu : u.kind = .ident)
    (hv : v.kind = .lbrace) {F : Parser Node} {m : Nat}
    (agree : ∀ xs, F s (t :: u :: v :: xs) = Grammar.messageDef (m + 1) s (t :: u :: v :: xs)) :
    Completes s P F [t, u, v] := by
  obtain ⟨tail, a, inner, -, takes⟩ := bodyTail_ready (s := s) (P := P) (messageElement_consumes m)
    .messageDef t (s.leaf .ident u)
  exact ⟨tail, a, inner, fun w rest hw => (agree _).trans
    ((definition_cons ht hu hv .messageDef _).trans (takes w rest hw))⟩

theorem messageDef_word {t : Token} (ht : t.isWord "message") (m : Nat) :
    Completes s P (Grammar.messageDef (m + 1)) [t] := by
  obtain ⟨tail, a, inner, takes⟩ := messageDef_completes (s := s) (P := P) (m := m) ht
    (u := aWord) (v := .sample .lbrace "\x7b") rfl rfl fun _ => rfl
  exact ⟨aWord :: .sample .lbrace "\x7b" :: tail, a,
    .cons (by decide) (.cons (by decide) inner), takes⟩

theorem messageDef_opens {n m : Nat} (less : n < m) (P : Token → Prop) :
    Opens s P "message" fun b => Grammar.messageDef (limits n m b) := by
  induction n generalizing m P with
  | zero =>
      obtain ⟨m, rfl⟩ := Nat.exists_eq_add_of_lt less
      intro F t u v more wants ended ht hu hv agree
      refine .tooDeep [t, u, v] more rfl (List.cons_ne_nil t [u, v]) (inner_opening ht hu hv)
        (agree false more) (fun xs r ok => ?_) (messageDef_completes ht hu hv (agree true))
      cases (agree false xs).symm.trans ok
  | succ n ih =>
      obtain _ | m := m
      · cases less
      intro F t u v more wants ended ht hu hv agree
      have elements := messageElements (ih (Nat.lt_of_succ_lt_succ less) anyToken)
        fun b => messageElement_consumes (limits n m b)
      refine definition_opens elements "message" .messageDef F t u v more wants ended ht hu hv
        fun b xs => (agree b xs).trans ?_
      exact congrArg (fun p : Parser Node => p s _) (messageDef_succ n m b)

theorem messageDef {n m : Nat} (less : n < m) :
    Headed s "message" P fun b => Grammar.messageDef (limits n m b) := by
  obtain _ | m := m
  · cases less
  refine ⟨fun {t more wants} ht ended => ?_, ?_⟩
  · cases n with
    | zero =>
        have inner : t.kind ≠ .eof := by simp [(isWord_ident ht).1]
        exact .tooDeep [t] more rfl (List.cons_ne_nil t []) (.cons inner .nil) rfl
          (fun xs r ok => by cases ok) (messageDef_word ht m)
    | succ n =>
        have opens := messageDef_opens (s := s) (Nat.lt_of_succ_lt_succ less) anyToken
        have body := definition (s := s) (P := P) (messageElements opens fun b =>
          messageElement_consumes (limits n m b)) "message" .messageDef
        refine (body.run ht ended).chosen fun b xs => ?_
        rw [messageDef_succ]
  · have first : Completes s P (Grammar.messageDef (m + 1)) ([] ++ [.sample .ident "message"]) :=
      messageDef_word rfl m
    exact first.offers (by decide) (Expectation.names_word rfl)

end Predictive

end Parser

end ProtoSchema
