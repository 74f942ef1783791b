import ProtoSchema.Proofs.Brackets

/-! # Phases of a statement

A machine with a phase for each stretch of a statement reads the tokens of every file. It does not
see which body it is in, but it tells after which tokens a statement may end: in one phase only,
which takes no word, no closing brace and no end of the text.
-/

namespace ProtoSchema

open Computability Token ProtoSchema.Derivation

/-- Where in a statement a token stands. -/
inductive Phase where
  /-- Between statements. -/
  | fresh
  /-- After a first word, up to an equals sign, a string or a brace. -/
  | head
  /-- After the first word of a package or of a member that starts with the same word. -/
  | package
  /-- After the first word of a method or of a member that starts with the same word. -/
  | rpc
  /-- After the name of a method or of a member. -/
  | rpcName
  /-- In the parentheses of a request. -/
  | request
  /-- After these. -/
  | requested
  /-- In the parentheses of a response, and before them. -/
  | response
  /-- Where a word, a number or a string has to follow. -/
  | value
  /-- Where the statement may end. -/
  | closing
  /-- In a block of options with some blocks open inside it. -/
  | options (inside : Nat)
  /-- After the end of the text. -/
  | ended
deriving DecidableEq

namespace Phase

/-- The phase after a word. -/
def afterWord : Phase → String → Option Phase
  | .fresh, w => some (if w = "package" then .package else if w = "rpc" then .rpc else .head)
  | .head, _ => some .head
  | .rpc, _ => some .rpcName
  | .request, _ => some .request
  | .requested, _ | .response, _ => some .response
  | .package, _ | .value, _ => some .closing
  | .options n, _ => some (.options n)
  | .rpcName, _ | .closing, _ | .ended, _ => none

/-- The phase after a token in a block of options. -/
def afterInside (inside : Nat) : Kind → Option Phase
  | .lbracket => some (.options (inside + 1))
  | .rbracket => some (if inside = 0 then .closing else .options (inside - 1))
  | .ident | .eof => none
  | _ => some (.options inside)

/-- The phase after a token that is not a word. -/
def afterSign : Phase → Kind → Option Phase
  | .fresh, .semicolon | .fresh, .rbrace | .head, .lbrace | .closing, .semicolon
  | .closing, .lbrace => some .fresh
  | .fresh, .eof => some .ended
  | .head, .dot | .head, .lparen | .head, .rparen | .package, .dot | .rpc, .dot => some .head
  | .rpcName, .lparen | .request, .dot => some .request
  | .request, .rparen => some .requested
  | .response, .lparen | .response, .dot => some .response
  | .head, .equals | .package, .equals | .rpc, .equals | .rpcName, .equals | .closing, .equals
  | .closing, .dot | .value, .minus => some .value
  | .head, .stringLit | .value, .stringLit | .value, .number | .response, .rparen => some .closing
  | .closing, .lbracket => some (.options 0)
  | .options inside, k => afterInside inside k
  | _, _ => none

/-- The phase after a token, if the machine takes the token. -/
def next (q : Phase) (t : Token) : Option Phase :=
  if t.kind = .ident then q.afterWord t.text else q.afterSign t.kind

/-- The phase after some tokens. -/
def run (q : Phase) (ts : List Token) : Option Phase :=
  ts.foldlM next q

/-- How many brackets are open. -/
def depth : Phase → Nat
  | .options n => n + 1
  | _ => 0

variable {q q' : Phase} {t u : Token} {ts us : List Token} {P Q R : List Phase}
  {L M : Language Derivation}

@[simp] theorem run_nil : run q [] = some q := rfl

theorem run_cons : run q (t :: ts) = (next q t).bind (run · ts) :=
  List.foldlM_cons

theorem run_append : run q (ts ++ us) = (run q ts).bind (run · us) :=
  List.foldlM_append

theorem next_word (h : t.kind = .ident) : next q t = q.afterWord t.text :=
  if_pos h

theorem next_sign (h : t.kind ≠ .ident) : next q t = q.afterSign t.kind :=
  if_neg h

theorem next_of_afterSign (h : q.afterSign t.kind = some q') : next q t = some q' := by
  rw [next_sign, h]
  intro word
  rw [word] at h
  cases q <;> cases h

/-! ## Steps -/

theorem afterWord_depth {w : String} (h : q.afterWord w = some q') : q'.depth = q.depth := by
  unfold afterWord at h
  split at h
  all_goals cases h
  all_goals first
    | rfl
    | (split_ifs <;> rfl)

theorem afterSign_depth (h : q.afterSign t.kind = some q') :
    bracketsAfter q.depth t = q'.depth := by
  unfold bracketsAfter
  generalize t.kind = k at h
  cases q with
  | options inside => cases inside <;> cases k <;> cases h <;> rfl
  | _ => cases k <;> cases h <;> rfl

theorem next_depth (h : next q t = some q') : bracketsAfter q.depth t = q'.depth := by
  by_cases word : t.kind = .ident
  · rw [next_word word] at h
    rw [afterWord_depth h, bracketsAfter, word]
  · rw [next_sign word] at h
    exact afterSign_depth h

theorem run_depth (h : run q ts = some q') : brackets q.depth ts = q'.depth := by
  induction ts generalizing q with
  | nil =>
      cases h
      rfl
  | cons t ts ih =>
      rw [run_cons] at h
      obtain ⟨r, hr, h⟩ := Option.bind_eq_some_iff.mp h
      rw [brackets_cons, next_depth hr, ih h]

theorem opener_of_next_fresh (h : next q t = some .fresh) : t.kind ∈ openers := by
  by_cases word : t.kind = .ident
  · rw [next_word word] at h
    cases q with
    | fresh =>
        have moved : (if t.text = "package" then Phase.package
            else if t.text = "rpc" then .rpc else .head) ≠ .fresh := by
          split_ifs <;> decide
        exact absurd (Option.some.inj h) moved
    | _ => cases h
  · rw [next_sign word] at h
    generalize t.kind = k at h
    cases q with
    | options inside => cases inside <;> cases k <;> cases h
    | _ => cases k <;> cases h <;> decide

theorem kind_of_next_fresh (h : next .fresh t = some q) :
    t.kind ∈ [.ident, .semicolon, .rbrace, .eof] := by
  by_cases word : t.kind = .ident
  · simp [word]
  · rw [next_sign word] at h
    cases k : t.kind <;> simp_all [afterSign]

/-- A semicolon outside brackets stands between statements or ends one. -/
theorem next_semicolon (h : next q t = some q') (semicolon : t.kind = .semicolon)
    (outside : q.depth = 0) : (q = .fresh ∨ q = .closing) ∧ q' = .fresh := by
  rw [next_sign (by simp [semicolon]), semicolon] at h
  cases q <;> simp_all [afterSign, depth]

/-! ## Runs -/

/-- From each phase in `P` the machine takes the words of the language to a phase in `Q`. -/
def Moves (P : List Phase) (L : Language Derivation) (Q : List Phase) : Prop :=
  ∀ ds, Fits L ds → ∀ q ∈ P, ∃ q' ∈ Q, run q (yieldList ds) = some q'

theorem exists_word (w : String) :
    ∃ v ∈ ["package", "rpc", ""], ∀ q, afterWord q w = afterWord q v := by
  by_cases package : w = "package"
  · exact ⟨w, by simp [package], fun _ => rfl⟩
  by_cases rpc : w = "rpc"
  · exact ⟨w, by simp [rpc], fun _ => rfl⟩
  · refine ⟨"", by simp, fun q => ?_⟩
    cases q <;> simp [afterWord, package, rpc]

namespace Moves

theorem one (sub : P ⊆ Q) : Moves P 1 Q := by
  intro ds fits q hq
  obtain rfl := fits_one.mp fits
  exact ⟨q, sub hq, rfl⟩

theorem add (hL : Moves P L Q) (hM : Moves P M Q) : Moves P (L + M) Q :=
  fun ds fits => (fits_add.mp fits).elim (hL ds) (hM ds)

theorem mul (hL : Moves P L Q) (hM : Moves Q M R) : Moves P (L * M) R := by
  intro ds fits q hq
  obtain ⟨front, hfront, back, hback, rfl⟩ := fits_mul.mp fits
  obtain ⟨q', hq', before⟩ := hL front hfront q hq
  obtain ⟨r, hr, after⟩ := hM back hback q' hq'
  exact ⟨r, hr, by rw [yieldList_append, run_append, before, Option.bind_some, after]⟩

theorem kstar (hL : Moves P L P) : Moves P L∗ P := by
  rintro _ ⟨⟨rounds, rfl, h⟩, valid⟩ q hq
  induction rounds generalizing q with
  | nil => exact ⟨q, hq, rfl⟩
  | cons ds rounds ih =>
      rw [List.forall_mem_cons] at h
      rw [List.flatten_cons, List.forall_mem_append] at valid
      obtain ⟨q', hq', before⟩ := hL ds ⟨h.1, valid.1⟩ q hq
      obtain ⟨r, hr, after⟩ := ih h.2 valid.2 q' hq'
      exact ⟨r, hr, by
        rw [List.flatten_cons, yieldList_append, run_append, before, Option.bind_some, after]⟩

theorem sign {k : Kind} (h : ∀ q ∈ P, ∃ q' ∈ Q, q.afterSign k = some q') :
    Moves P (kind k) Q := by
  intro ds fits q hq
  obtain ⟨t, rfl, rfl⟩ := fits_kind.mp fits
  obtain ⟨q', hq', moved⟩ := h q hq
  exact ⟨q', hq', by simp [run_cons, next_of_afterSign moved]⟩

theorem letter {p : Token → Prop} (word : ∀ t, p t → t.kind = .ident)
    (h : ∀ t, p t → ∀ q ∈ P, ∃ q' ∈ Q, q.afterWord t.text = some q') : Moves P (letter p) Q := by
  intro ds fits q hq
  obtain ⟨t, ht, rfl⟩ := fits_letter.mp fits
  obtain ⟨q', hq', moved⟩ := h t ht q hq
  exact ⟨q', hq', by simp [run_cons, next_word (word t ht), moved]⟩

theorem word {w : String} (h : ∀ q ∈ P, ∃ q' ∈ Q, q.afterWord w = some q') :
    Moves P (word w) Q :=
  letter (fun t ht => by simp_all [isWord]) fun t ht => by simp_all [isWord]

theorem wordOf {ws : List String} (h : ∀ w ∈ ws, ∀ q ∈ P, ∃ q' ∈ Q, q.afterWord w = some q') :
    Moves P (wordOf ws) Q :=
  letter (fun _ ht => ht.1) fun t ht => h t.text ht.2

theorem symbolWhere {x : Symbol} {p : List Token → Prop} (h : Moves P (production x) Q) :
    Moves P (symbolWhere x p) Q := by
  intro ds fits q hq
  obtain ⟨d, from_x, -, rfl⟩ := fits_symbolWhere.mp fits
  obtain ⟨parts, rfl, word⟩ := from_iff.mp from_x
  simpa using h parts word q hq

theorem symbol {x : Symbol} (h : Moves P (production x) Q) : Moves P (symbol x) Q :=
  symbolWhere h

theorem rule {r : Rule} (h : Moves P (form r) Q) : Moves P (rule r) Q :=
  symbol h

theorem ident (h : ∀ v ∈ ["package", "rpc", ""], ∀ q ∈ P, ∃ q' ∈ Q, q.afterWord v = some q') :
    Moves P (Derivation.rule .ident) Q := by
  refine rule (letter (fun _ ht => ht) fun t _ q hq => ?_)
  obtain ⟨v, hv, same⟩ := exists_word t.text
  rw [same]
  exact h v hv q hq

theorem optional (sub : P ⊆ Q) (h : Moves P L Q) : Moves P (1 + L) Q :=
  (one sub).add h

theorem body (h : Moves [.fresh] L [.fresh]) (opens : ∀ q ∈ P, q.afterSign .lbrace = some .fresh) :
    Moves P (body L) [.fresh] := by
  have left : Moves P (kind .lbrace) [.fresh] := sign fun q hq => ⟨.fresh, by simp, opens q hq⟩
  have semicolon : Moves [.fresh] (kind .semicolon) [.fresh] := sign (by decide)
  have right : Moves [.fresh] (kind .rbrace) [.fresh] := sign (by decide)
  exact (left.mul (h.add semicolon).kstar).mul right

end Moves

theorem run_inside {ds : List Derivation} (h : Inside ds) (n : Nat) :
    run (.options n) (yieldList ds) = some (.options n) := by
  induction h generalizing n with
  | nil => rfl
  | @skip t ds kind tail ih =>
      have stays : next (.options n) t = some (.options n) := by
        unfold next
        split
        · rfl
        · cases k : t.kind <;> simp_all [afterSign, afterInside]
      rw [yieldList_cons, run_append, yield_token, run_cons, stays]
      exact ih n
  | @block left right inner ds opens closes inside tail ihInside ih =>
      have opened : next (.options n) left = some (.options (n + 1)) :=
        next_of_afterSign (by rw [opens]; rfl)
      have closed : next (.options (n + 1)) right = some (.options n) :=
        next_of_afterSign (by rw [closes]; rfl)
      simp [run_cons, run_append, opened, ihInside, closed, ih]

/-! ## The grammar -/

namespace Moves

theorem dotted (R : List Phase) (dot : ∀ q ∈ P, ∃ r ∈ R, q.afterSign .dot = some r)
    (word : ∀ v ∈ ["package", "rpc", ""], ∀ r ∈ R, ∃ q ∈ P, r.afterWord v = some q) :
    Moves P (kind .dot * Derivation.rule .ident)∗ P :=
  ((sign dot).mul (ident word)).kstar

theorem fullIdent (R : List Phase)
    (first : ∀ v ∈ ["package", "rpc", ""], ∀ q ∈ P, ∃ q' ∈ Q, q.afterWord v = some q')
    (dot : ∀ q ∈ Q, ∃ r ∈ R, q.afterSign .dot = some r)
    (word : ∀ v ∈ ["package", "rpc", ""], ∀ r ∈ R, ∃ q ∈ Q, r.afterWord v = some q) :
    Moves P (form .fullIdent) Q :=
  (ident first).mul (dotted R dot word)

theorem stringLit (h : ∀ q ∈ P, ∃ q' ∈ Q, q.afterSign .stringLit = some q') :
    Moves P (Derivation.rule .stringLit) Q :=
  rule (sign h)

theorem equals (h : ∀ q ∈ P, q.afterSign .equals = some .value) :
    Moves P (kind .equals) [.value] :=
  sign fun q hq => ⟨_, by simp, h q hq⟩

theorem number : Moves [.value] (Derivation.rule .number) [.closing] :=
  rule (sign (by decide))

theorem semicolon : Moves [.closing] (kind .semicolon) [.fresh] :=
  sign (by decide)

theorem constant : Moves [.value] (Derivation.rule .constant) [.closing] := by
  have text : Moves [.value] (Derivation.rule .stringLit) [.closing] := stringLit (by decide)
  have path : Moves [.value] (Derivation.rule .fullIdent) [.closing] :=
    rule (fullIdent [.value] (by decide) (by decide) (by decide))
  have minus : Moves [.value] (kind .minus) [.value] := sign (by decide)
  have name : Moves [.value] (Derivation.rule .ident) [.closing] := ident (by decide)
  have dot : Moves [.closing] (kind .dot) [.value] := sign (by decide)
  have decimal := ((optional (List.Subset.refl _) minus).mul number).mul
    (optional (List.Subset.refl _) (dot.mul number))
  exact rule (((text.add path).add (minus.mul name)).add decimal)

theorem optionName : Moves [.head] (Derivation.symbol .optionName) [.head] := by
  have name : Moves [.head] (Derivation.rule .ident) [.head] := ident (by decide)
  have left : Moves [.head] (kind .lparen) [.head] := sign (by decide)
  have path : Moves [.head] (Derivation.rule .fullIdent) [.head] :=
    rule (fullIdent [.head] (by decide) (by decide) (by decide))
  have right : Moves [.head] (kind .rparen) [.head] := sign (by decide)
  exact symbol ((name.add ((left.mul path).mul right)).mul
    (dotted [.head] (by decide) (by decide)))

theorem fieldOptions : Moves [.closing] (Derivation.rule .fieldOptions) [.closing] := by
  intro ds fits q hq
  obtain ⟨d, from_d, rfl⟩ := fits_rule.mp fits
  obtain rfl := List.mem_singleton.mp hq
  obtain ⟨left, inner, right, rfl, opens, inside, closes⟩ := from_fieldOptions.mp from_d
  have opened : next .closing left = some (.options 0) :=
    next_of_afterSign (by rw [opens]; rfl)
  have closed : next (.options 0) right = some .closing :=
    next_of_afterSign (by rw [closes]; rfl)
  exact ⟨.closing, by simp, by simp [run_cons, run_append, opened, run_inside inside, closed]⟩

theorem options : Moves [.closing] (1 + Derivation.rule .fieldOptions) [.closing] :=
  optional (List.Subset.refl _) fieldOptions

theorem typeName :
    Moves [.fresh, .head] (Derivation.rule .typeName) [.head, .package, .rpc] := by
  have path : Moves [.fresh, .head] (form .fullIdent) [.head, .package, .rpc] :=
    fullIdent [.head] (by decide) (by decide) (by decide)
  exact rule ((rule (wordOf (by decide))).add (symbolWhere path))

theorem syntaxDecl : Moves [.fresh] (Derivation.rule .syntaxDecl) [.fresh] := by
  have first : Moves [.fresh] (Derivation.word "syntax") [.head] := word (by decide)
  have version : Moves [.value] (Derivation.rule .stringLit) [.closing] := stringLit (by decide)
  exact rule (((first.mul (equals (by decide))).mul version).mul semicolon)

theorem packageDecl : Moves [.fresh] (Derivation.rule .packageDecl) [.fresh] := by
  have first : Moves [.fresh] (Derivation.word "package") [.package] := word (by decide)
  have path : Moves [.package] (Derivation.rule .fullIdent) [.closing] :=
    rule (fullIdent [.value] (by decide) (by decide) (by decide))
  exact rule ((first.mul path).mul semicolon)

theorem importDecl : Moves [.fresh] (Derivation.rule .importDecl) [.fresh] := by
  have first : Moves [.fresh] (Derivation.word "import") [.head] := word (by decide)
  have mark : Moves [.head] (1 + Derivation.word "public" + Derivation.word "weak") [.head] :=
    (optional (List.Subset.refl _) (word (by decide))).add (word (by decide))
  have file : Moves [.head] (Derivation.rule .stringLit) [.closing] := stringLit (by decide)
  exact rule (((first.mul mark).mul file).mul semicolon)

theorem optionDecl : Moves [.fresh] (Derivation.rule .optionDecl) [.fresh] := by
  have first : Moves [.fresh] (Derivation.word "option") [.head] := word (by decide)
  exact rule ((((first.mul optionName).mul (equals (by decide))).mul constant).mul semicolon)

theorem field {p : List Token → Prop} :
    Moves [.fresh] (Derivation.symbolWhere (.rule .field) p) [.fresh] := by
  have mark : Moves [.fresh] (1 + Derivation.rule .fieldRule) [.fresh, .head] :=
    optional (by simp) (rule (wordOf (by decide)))
  have name : Moves [.head, .package, .rpc] (Derivation.rule .ident) [.head, .closing, .rpcName] :=
    ident (by decide)
  exact symbolWhere ((((((mark.mul typeName).mul name).mul (equals (by decide))).mul number).mul
    options).mul semicolon)

theorem enumValue : Moves [.fresh] (Derivation.rule .enumValue) [.fresh] := by
  have name : Moves [.fresh] (Derivation.rule .ident) [.head, .package, .rpc] := ident (by decide)
  exact rule ((((name.mul (equals (by decide))).mul number).mul options).mul semicolon)

theorem messageType (h : q ∈ [.request, .response]) :
    Moves [q] (Derivation.rule .messageType) [q] := by
  obtain rfl | rfl := by simpa using h
  · exact rule ((optional (List.Subset.refl _) (rule (word (by decide)))).mul
      (rule (fullIdent [.request] (by decide) (by decide) (by decide))))
  · exact rule ((optional (List.Subset.refl _) (rule (word (by decide)))).mul
      (rule (fullIdent [.response] (by decide) (by decide) (by decide))))

theorem rpcDef : Moves [.fresh] (Derivation.rule .rpcDef) [.fresh] := by
  have first : Moves [.fresh] (Derivation.word "rpc") [.rpc] := word (by decide)
  have name : Moves [.rpc] (Derivation.rule .ident) [.rpcName] := ident (by decide)
  have left : Moves [.rpcName] (kind .lparen) [.request] := sign (by decide)
  have right : Moves [.request] (kind .rparen) [.requested] := sign (by decide)
  have returns : Moves [.requested] (Derivation.word "returns") [.response] := word (by decide)
  have left' : Moves [.response] (kind .lparen) [.response] := sign (by decide)
  have right' : Moves [.response] (kind .rparen) [.closing] := sign (by decide)
  have request := (((first.mul name).mul left).mul (messageType (by simp))).mul right
  have response := (((request.mul returns).mul left').mul (messageType (by simp))).mul right'
  exact rule (response.mul (semicolon.add (body optionDecl (by decide))))

theorem definition {w : String} (h : afterWord .fresh w = some .head)
    (elements : Moves [.fresh] L [.fresh]) :
    Moves [.fresh] (Derivation.word w * Derivation.rule .ident * Derivation.body L) [.fresh] := by
  have first : Moves [.fresh] (Derivation.word w) [.head] := word (by simp [h])
  have name : Moves [.head] (Derivation.rule .ident) [.head] := ident (by decide)
  exact (first.mul name).mul (body elements (by decide))

theorem enumDef : Moves [.fresh] (Derivation.rule .enumDef) [.fresh] :=
  rule (definition rfl (enumValue.add optionDecl))

theorem serviceDef : Moves [.fresh] (Derivation.rule .serviceDef) [.fresh] :=
  rule (definition rfl (rpcDef.add optionDecl))

theorem steady {x : Symbol} {d : Derivation} (h : Moves [.fresh] (Derivation.symbol x) [.fresh])
    (from_x : d.From x) : run .fresh d.yield = some .fresh := by
  obtain ⟨q, hq, moved⟩ := h [d] (fits_symbol.mpr ⟨d, from_x, rfl⟩) .fresh (by simp)
  obtain rfl := List.mem_singleton.mp hq
  simpa using moved

end Moves

theorem run_steady {ds : List Derivation} (h : ∀ d ∈ ds, run .fresh d.yield = some .fresh) :
    run .fresh (yieldList ds) = some .fresh := by
  induction ds with
  | nil => rfl
  | cons d ds ih =>
      rw [List.forall_mem_cons] at h
      rw [yieldList_cons, run_append, h.1, Option.bind_some, ih h.2]

theorem run_messageDef {d : Derivation} (h : d.From (.rule .messageDef)) :
    run .fresh d.yield = some .fresh := by
  obtain ⟨root, valid⟩ := h
  induction valid with
  | token t => obtain ⟨_, ⟨⟩⟩ := root
  | @node x parts form valid ih =>
      obtain ⟨_, ⟨⟩⟩ := root
      obtain ⟨first, name, left, es, right, same, hfirst, hname, hleft, elements, hright⟩ :=
        from_messageDef.mp ⟨⟨parts, rfl⟩, .node form valid⟩
      obtain rfl := (Derivation.node.inj same).2
      have inner : ∀ e ∈ es, run .fresh e.yield = some .fresh := by
        intro e he
        obtain (⟨field, -⟩ | message | enum | option) | ⟨t, semicolon, rfl⟩ := elements e he
        · exact Moves.field.steady field
        · exact ih e (by simp [he]) message.rooted
        · exact Moves.enumDef.steady enum
        · exact Moves.optionDecl.steady option
        · simp [run_cons, next_sign, semicolon, afterSign]
      have opening : next .fresh first = some .head := by
        have word : first.kind = .ident ∧ first.text = "message" := by simpa [isWord] using hfirst
        rw [next_word word.1, word.2]
        rfl
      have naming : next .head name = some .head := by
        rw [next_word hname]
        rfl
      simp [run_cons, run_append, opening, naming, next_sign, hleft, hright, afterSign,
        run_steady inner]

theorem run_protoFile {d : Derivation} (h : d.From (.rule .protoFile)) :
    run .fresh d.yield = some .ended := by
  obtain ⟨ds, last, rfl, parts, eof⟩ := from_protoFile.mp h
  have statements : ∀ e ∈ ds, run .fresh e.yield = some .fresh := by
    intro e he
    obtain h | h | h | h | h | h | h := parts.statements e he
    · exact Moves.syntaxDecl.steady h
    · exact Moves.packageDecl.steady h
    · exact Moves.importDecl.steady h
    · exact run_messageDef h
    · exact Moves.enumDef.steady h
    · exact Moves.serviceDef.steady h
    · exact Moves.optionDecl.steady h
  simp [run_append, run_steady statements, run_cons, next_sign, eof, afterSign]

/-- Where a semicolon ends a statement, what follows it may not follow the statement. -/
theorem next_closing (h : next .fresh u = some q) (other : u.kind ≠ .semicolon) :
    next .closing u = none := by
  have kinds := kind_of_next_fresh h
  by_cases word : u.kind = .ident
  · rw [next_word word]
    rfl
  · rw [next_sign word]
    cases k : u.kind <;> simp_all [afterSign]

end Phase

namespace Derivation

open Phase

/-- Without a semicolon that ends a statement a text is not derived, unless another one follows. -/
theorem Derives.without_semicolon {front back : List Token} {t u v : Token} {d : Derivation}
    (h : Derives (front ++ t :: u :: back) d) (semicolon : t.kind = .semicolon)
    (outside : brackets 0 front = 0) (last : front.getLast? = some v) (closing : v.kind ∉ openers)
    (other : u.kind ≠ .semicolon) (e : Derivation) : ¬Derives (front ++ u :: back) e := by
  intro h'
  have whole := run_protoFile h.1
  have part := run_protoFile h'.1
  rw [h.2, run_append] at whole
  rw [h'.2, run_append] at part
  obtain ⟨q, before, rest⟩ := Option.bind_eq_some_iff.mp whole
  rw [run_cons] at rest
  obtain ⟨r, step, rest⟩ := Option.bind_eq_some_iff.mp rest
  rw [run_cons] at rest
  obtain ⟨_, after, -⟩ := Option.bind_eq_some_iff.mp rest
  obtain ⟨rfl | rfl, rfl⟩ := next_semicolon step semicolon ((run_depth before).symm.trans outside)
  · obtain ⟨init, rfl⟩ := List.getLast?_eq_some_iff.mp last
    rw [run_append] at before
    obtain ⟨p, -, opener⟩ := Option.bind_eq_some_iff.mp before
    rw [run_cons] at opener
    obtain ⟨_, opener, ⟨⟩⟩ := Option.bind_eq_some_iff.mp opener
    exact closing (opener_of_next_fresh opener)
  · rw [before, Option.bind_some, run_cons, next_closing after other] at part
    cases part

end Derivation

end ProtoSchema
