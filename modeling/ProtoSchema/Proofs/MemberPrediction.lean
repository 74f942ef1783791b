import ProtoSchema.Proofs.MemberReading
import ProtoSchema.Proofs.RulePrediction

/-! # Fields, values and method types

These rules look at up to three tokens. The tokens that they look at are told apart one by one, and
for each choice the rule goes on as a parser that has taken them already. Where two choices remain,
the token that would decide is one that both of them refuse.
-/

namespace ProtoSchema

namespace Grammar

open ProtoSchema.Parser

/-- The rest of a field's type after its first word. -/
def typeTail (first : Token) : Parser Node := do
  let more ← dottedTail Rule.typeName.name
  if more = [] ∧ primitives.contains first.text then
    return (← node .primitiveType first first []).wrap .typeName
  else
    let names ← leaves .ident (first :: more)
    return (← node .fullIdent first (more.getLastD first) names).wrap .typeName

/-- The rest of a field after its name. -/
def afterName (first : Token) (rule : List Node) (type name : Node) : Parser Node := do
  let _ ← expect .equals Rule.field.name
  let tag ← leaf .number .number Rule.field.name
  let (options, last) ← closeWithOptions Rule.field.name
  node .field first last (rule ++ [type, name, tag] ++ options)

/-- The rest of an enum value after its name. -/
def valueTail (first : Token) (name : Node) : Parser Node := do
  let _ ← expect .equals Rule.enumValue.name
  let number ← leaf .number .number Rule.enumValue.name
  let (options, last) ← closeWithOptions Rule.enumValue.name
  node .enumValue first last ([name, number] ++ options)

/-- The rest of a method's type after the streaming word and one more word. -/
def streamTail (first : Token) (marker : Node) (head : Token) : Parser Node := do
  let more ← dottedTail Rule.messageType.name
  let last := more.getLastD head
  let path ← node .fullIdent head last (← leaves .ident (head :: more))
  node .messageType first last [marker, path]

/-- The rest of a method's type after its first word, which is not the streaming word. -/
def plainTail (first : Token) : Parser Node := do
  let more ← dottedTail Rule.messageType.name
  let names ← leaves .ident (first :: more)
  return (← node .fullIdent first (more.getLastD first) names).wrap .messageType

/-- The rest of a field after its type. -/
def afterType (first : Token) (rule : List Node) (type : Node) : Parser Node := do
  let name ← ident Rule.field.name
  afterName first rule type name

end Grammar

namespace Parser

section

variable {s : Scope}

theorem dottedTail_stop {v : Token} (hv : v.kind ≠ .dot) (context : String) (xs : List Token) :
    Grammar.dottedTail context s (v :: xs) = .ok ([], v :: xs) := by
  rw [Grammar.dottedTail, many_eq (Predictive.dottedItem_consumes context), Scope.next_cons]
  simp [hv]

theorem dottedTail_ne_nil {u : Token} (hu : u.kind = .dot) {context : String}
    {xs rest more : List Token} (h : Grammar.dottedTail context s (u :: xs) = .ok (more, rest)) :
    more ≠ [] := by
  rw [Grammar.dottedTail, many_eq (Predictive.dottedItem_consumes context), Scope.next_cons,
    if_pos (by simp [hu])] at h
  obtain ⟨w, mid, -, second⟩ := bind_eq_ok.mp h
  obtain ⟨ws, mid', -, last⟩ := bind_eq_ok.mp second
  obtain ⟨rfl, -⟩ := Prod.mk.inj (Except.ok.inj last)
  exact List.cons_ne_nil w ws

theorem fullIdent_cons {t : Token} (ht : t.kind = .ident) (context : String) (xs : List Token) :
    Grammar.fullIdent context s (t :: xs) = (do
      let more ← Grammar.dottedTail context
      Parser.node .fullIdent t (more.getLastD t) (← Parser.leaves .ident (t :: more))) s xs :=
  bind_ok (expectAs_cons ht _ _ xs) _

/-- A scalar type is told from a dotted name by the token after its word. -/
theorem typeName_cons {t : Token} (ht : t.kind = .ident) (v : Token) (xs : List Token) :
    Grammar.typeName s (t :: v :: xs) = Grammar.typeTail t s (v :: xs) := by
  change (if t.kind = .ident && Grammar.primitives.contains t.text && v.kind != .dot then
      Parser.leaf .ident .primitiveType Rule.typeName.name >>= fun n => pure (n.wrap .typeName)
    else Grammar.fullIdent Rule.typeName.name >>= fun n => pure (n.wrap .typeName)) s _ = _
  by_cases dot : v.kind = .dot
  · rw [if_neg (by simp [dot])]
    have name := fullIdent_cons (s := s) ht Rule.typeName.name (v :: xs)
    cases tail : Grammar.dottedTail Rule.typeName.name s (v :: xs) with
    | error failure =>
        rw [bind_error tail] at name
        exact (bind_error name _).trans (bind_error tail _).symm
    | ok result =>
        obtain ⟨more, rest⟩ := result
        have some := dottedTail_ne_nil dot tail
        rw [bind_ok tail] at name
        refine (bind_ok name _).trans (Eq.trans ?_ (bind_ok tail _).symm)
        rw [if_neg fun h => some h.1]
        rfl
  · have tail := dottedTail_stop (s := s) dot Rule.typeName.name xs
    refine Eq.trans ?_ (bind_ok tail _).symm
    by_cases scalar : t.text ∈ Grammar.primitives
    · rw [if_pos (by simp [ht, scalar, dot]), if_pos (by simp [scalar])]
      exact bind_ok (leaf_cons ht _ _ _) _
    · rw [if_neg (by simp [scalar]), if_neg (by simp [scalar])]
      have name := fullIdent_cons (s := s) ht Rule.typeName.name (v :: xs)
      rw [bind_ok tail] at name
      exact bind_ok name _

theorem typeTail_stop (t : Token) : ∃ type, ∀ v : Token, v.kind ≠ .dot →
    ∀ xs, Grammar.typeTail t s (v :: xs) = .ok (type, v :: xs) := by
  by_cases scalar : t.text ∈ Grammar.primitives
  · refine ⟨(s.leaf .primitiveType t).wrap .typeName, fun v hv xs => ?_⟩
    refine (bind_ok (dottedTail_stop hv _ xs) _).trans ?_
    rw [if_pos (by simp [scalar])]
    rfl
  · refine ⟨(s.node .fullIdent t t [s.leaf .ident t]).wrap .typeName, fun v hv xs => ?_⟩
    refine (bind_ok (dottedTail_stop hv _ xs) _).trans ?_
    rw [if_neg (by simp [scalar])]
    rfl

theorem field_plain {t : Token} {xs : List Token} (plain : ¬(Grammar.fieldRules.contains t.text &&
      (xs[0]?.getD s.last).kind == .ident && (xs[1]?.getD s.last).kind != .equals)) :
    Grammar.field s (t :: xs) = (Grammar.typeName >>= Grammar.afterType t []) s (t :: xs) := by
  have rule : Grammar.fieldRule s (t :: xs) = .ok ([], t :: xs) := by
    change (if Grammar.fieldRules.contains t.text && (xs[0]?.getD s.last).kind == .ident &&
        (xs[1]?.getD s.last).kind != .equals then
      Parser.leaf .ident .fieldRule Rule.field.name >>= fun n => pure [n] else pure []) s _ = _
    rw [if_neg plain]
    rfl
  exact bind_ok rule _

theorem field_type {t v : Token} {xs : List Token} (ht : t.kind = .ident)
    (plain : ¬(Grammar.fieldRules.contains t.text && v.kind == .ident &&
      (xs[0]?.getD s.last).kind != .equals)) :
    Grammar.field s (t :: v :: xs) =
      (Grammar.typeTail t >>= Grammar.afterType t []) s (v :: xs) := by
  rw [field_plain plain]
  exact bind_congr (typeName_cons ht v xs) _

theorem field_named {t u : Token} (ht : t.kind = .ident) (hu : u.kind = .ident) :
    ∃ type, ∀ w : Token, ∀ xs, ¬(Grammar.fieldRules.contains t.text && w.kind != .equals) →
      Grammar.field s (t :: u :: w :: xs) =
        Grammar.afterName t [] type (s.leaf .ident u) s (w :: xs) := by
  obtain ⟨type, single⟩ := typeTail_stop (s := s) t
  refine ⟨type, fun w xs plain => ?_⟩
  rw [field_type ht (by simpa [hu] using plain), bind_ok (single u (by simp [hu]) (w :: xs))]
  exact bind_ok (leaf_cons hu _ _ (w :: xs)) _

theorem field_ruled {t u w : Token} {xs : List Token} (ht : t.kind = .ident) (hu : u.kind = .ident)
    (rule : t.text ∈ Grammar.fieldRules) (hw : w.kind ≠ .equals) :
    Grammar.field s (t :: u :: w :: xs) =
      (Grammar.typeTail u >>= Grammar.afterType t [s.leaf .fieldRule t]) s (w :: xs) := by
  have first : Grammar.fieldRule s (t :: u :: w :: xs) =
      .ok ([s.leaf .fieldRule t], u :: w :: xs) := by
    change (if Grammar.fieldRules.contains t.text && u.kind == .ident && w.kind != .equals then
      Parser.leaf .ident .fieldRule Rule.field.name >>= fun n => pure [n] else pure []) s _ = _
    rw [if_pos (by simp [rule, hu, hw])]
    exact bind_ok (leaf_cons ht _ _ _) _
  exact (bind_ok first _).trans (bind_congr (typeName_cons hu w xs) _)

end

namespace Predictive

variable {s : Scope} {P : Token → Prop}

/-! ## Blocks of options -/

theorem closeBrackets_ready (depth : Nat) :
    Ready s P (Grammar.closeBrackets depth) (some (.sample .rbracket "]")) := by
  refine ⟨List.replicate (depth + 1) (.sample .rbracket "]"), .sample .rbracket "]", ?_, rfl, ?_⟩
  · intro t ht
    obtain rfl := List.eq_of_mem_replicate ht
    decide
  · intro v rest _
    induction depth with
    | zero => rfl
    | succ depth ih => exact ih

theorem closeBrackets_run {ts : List Token} (ended : Ended ts) (depth : Nat) :
    Predicts s False [.kind .rbracket] P (fun _ => Grammar.closeBrackets depth) ts := by
  induction ts generalizing depth with
  | nil =>
      obtain ⟨t, more, same⟩ := ended.exists_cons
      cases same
  | cons t rest ih =>
      -- a bracket or any other token before the last bracket only changes the depth
      have inside (deeper : Nat) (inner : t.kind ≠ .eof) (same : ∀ xs,
          Grammar.closeBrackets depth s (t :: xs) = Grammar.closeBrackets deeper s xs) :
          Predicts s False [.kind .rbracket] P (fun _ => Grammar.closeBrackets depth)
            (t :: rest) := by
        have run := ih (ended.tail inner) deeper
        obtain ⟨u, more, rfl⟩ := (ended.tail inner).exists_cons
        have ready := closeBrackets_ready (s := s) (P := P) deeper
        refine (run.prepend [t] (.cons inner .nil) (fun _ v xs _ => same (v :: xs)) (fun _ _ => ?_)
          (fun _ x mem => ?_) nofun).imp And.right
        · obtain ⟨tail, a, inner', -, takes⟩ := ready
          exact ⟨tail, a, inner', fun v xs hv => (same _).trans (takes v xs hv)⟩
        · obtain rfl := List.mem_singleton.mp mem
          exact (ready.offers (Expectation.names_kind rfl)).after fun v _ _ xs => same (v :: xs)
      by_cases eof : t.kind = .eof
      · exact .refused fun _ xs => ⟨[.kind .rbracket], Rule.fieldOptions.name, by simp, by simp, by
          simp [Grammar.closeBrackets, eof]⟩
      by_cases opens : t.kind = .lbracket
      · exact inside (depth + 1) eof fun xs => closeBrackets_open opens
      by_cases closes : t.kind = .rbracket
      · cases depth with
        | zero =>
            exact (pure t).after (List.cons_ne_nil t []) (.cons eof .nil)
              (fun _ xs => closeBrackets_last closes) ended
        | succ depth => exact inside depth eof fun xs => closeBrackets_close closes
      · exact inside depth eof fun xs => closeBrackets_skip (by simp [eof, opens, closes])

theorem closeBrackets : Predictive s (some (.sample .rbracket "]")) [.kind .rbracket] P
    fun _ => Grammar.closeBrackets 0 where
  run ts ended := (closeBrackets_run ended 0).imp nofun
  ready _ := closeBrackets_ready 0
  offers x mem := by
    obtain rfl := List.mem_singleton.mp mem
    exact (closeBrackets_ready 0).offers (Expectation.names_kind rfl)

theorem closeWithOptions (context : String) : Predictive s (some (.sample .semicolon ";"))
    [.kind .semicolon] P fun _ => Grammar.closeWithOptions context := by
  have options (first : Token) := (closeBrackets (s := s).last fun last =>
    node .fieldOptions first last []).step fun options =>
      (semicolon (P := P) context).last fun last => pure ([options], last)
  have plain := (semicolon (s := s) (P := P) context).last fun last =>
    pure (([] : List Node), last)
  refine lookFor (Expectation.names_kind rfl) (fun t more ended => ?_) plain.ready
  split
  · next left =>
      exact (options t).after (List.cons_ne_nil t []) (.cons (by simp [left]) .nil)
        (fun _ xs => bind_congr (bind_ok (expectAs_cons left _ _ xs) _) _) ended
  · exact plain.eats ended

/-! ## Fields -/

theorem typeTail (first : Token) : Predictive s none [] NotDot fun _ => Grammar.typeTail first := by
  refine (dottedTail (fun _ => id) _).last fun more => ?_
  split
  · exact still fun _ _ => rfl
  · exact still fun _ _ => rfl

theorem afterName (first : Token) (rule : List Node) (type name : Node) :
    Predictive s (some (.sample .equals "=")) [.kind .equals] P
      fun _ => Grammar.afterName first rule type name :=
  (equals _).step fun _ => (number _).step fun _ => (closeWithOptions _).step fun _ => node ..

theorem afterType (first : Token) (rule : List Node) (type : Node) :
    Predictive s (some aWord) [.rule .ident] P fun _ => Grammar.afterType first rule type :=
  (ident _).step fun name => afterName first rule type name

theorem typeRest (first : Token) (word : Token) (rule : List Node) :
    Predictive s (some aWord) [.rule .ident] P
      fun _ => Grammar.typeTail first >>= Grammar.afterType word rule :=
  (typeTail first).bind (fun type => afterType word rule type)
    (.ident rfl (NotDot.of_kind (by decide)))

/-- The tokens of a field are completed after any first word, with one more word. -/
theorem field_completes {t : Token} (ht : t.kind = .ident) {F : Parser Node} (agree : ∀ w : Token,
    w.kind = .equals →
      ∀ xs, F s (t :: aWord :: w :: xs) = Grammar.field s (t :: aWord :: w :: xs)) :
    Completes s P F [t, aWord] := by
  obtain ⟨type, named⟩ := field_named (s := s) (u := aWord) ht rfl
  obtain ⟨tail, a, inner, head, takes⟩ :=
    (afterName (s := s) (P := P) t [] type (s.leaf .ident aWord)).ready true
  cases tail with
  | nil => cases head
  | cons w tail =>
      obtain rfl := Option.some.inj head
      refine ⟨_ :: tail, a, inner, fun v rest hv => ?_⟩
      exact (agree _ rfl _).trans ((named _ _ (by simp [Token.sample])).trans (takes v rest hv))

/-- After the first word of a type, a token that is no word has to go on with the type. -/
theorem field_short {F : Bool → Parser Node} {t u : Token} {more : List Token}
    {wants : List Expectation} (ht : t.kind = .ident)
    (completes : ∀ b, Completes s P (F b) [t, aWord])
    (agree : ∀ b xs, F b s (t :: u :: xs) =
      (Grammar.typeTail t >>= Grammar.afterType t []) s (u :: xs))
    (ended : Ended (t :: u :: more)) : Predicts s False wants P F (t :: u :: more) := by
  have inner : t.kind ≠ .eof := by simp [ht]
  have one (b : Bool) : Completes s P (F b) ([t] ++ [aWord]) := completes b
  refine (((typeRest t t []).eats (ended.tail inner)).prepend [t] (.cons inner .nil) ?_
    (fun _ b => (one b).dropLast (by decide)) (fun _ x mem => ?_) nofun).imp And.right
  · rintro b v xs (rfl | ⟨⟨⟩, -⟩)
    exact agree b xs
  · obtain rfl := List.mem_singleton.mp mem
    exact (one true).offers (by decide) (Expectation.names_ident rfl)

theorem field {t : Token} {more : List Token} {wants : List Expectation} (ht : t.kind = .ident)
    (ended : Ended (t :: more)) :
    Predicts s False wants P (fun _ => Grammar.field) (t :: more) := by
  have inner : t.kind ≠ .eof := by simp [ht]
  have completes (_ : Bool) : Completes s P Grammar.field [t, aWord] :=
    field_completes ht fun _ _ _ => rfl
  obtain ⟨u, more, rfl⟩ := (ended.tail inner).exists_cons
  by_cases rule : t.text ∈ Grammar.fieldRules
  · by_cases hu : u.kind = .ident
    · have inner' : u.kind ≠ .eof := by simp [hu]
      obtain ⟨w, more, rfl⟩ := ((ended.tail inner).tail inner').exists_cons
      by_cases hw : w.kind = .equals
      · obtain ⟨type, named⟩ := field_named (s := s) ht hu
        exact (afterName t [] type (s.leaf .ident u)).afterIf (Q := (·.kind = .equals))
          (.kind rfl fun _ => id) (List.cons_ne_nil t [u]) (.cons inner (.cons inner' .nil))
          (fun _ v xs hv => named v xs (by simp [hv])) hw ended
      · exact (typeRest u t [s.leaf .fieldRule t]).afterIf (Q := (·.kind ≠ .equals))
          (.ident rfl fun v hv => by simp [hv]) (List.cons_ne_nil t [u])
          (.cons inner (.cons inner' .nil)) (fun _ v xs hv => field_ruled ht hu rule hv) hw ended
    · exact field_short ht completes (fun _ xs => field_type ht (by simp [hu])) ended
  · exact field_short ht completes (fun _ xs => field_type ht (by simp [rule])) ended

/-! ## Values of enums -/

theorem valueTail (first : Token) (name : Node) : Predictive s (some (.sample .equals "="))
    [.kind .equals] P fun _ => Grammar.valueTail first name :=
  (equals _).step fun _ => (number _).step fun _ => (closeWithOptions _).step fun _ => node ..

theorem enumValue_cons {t : Token} (ht : t.kind = .ident) (xs : List Token) :
    Grammar.enumValue s (t :: xs) = Grammar.valueTail t (s.leaf .ident t) s xs :=
  bind_ok (leaf_cons ht _ _ _) _

theorem enumElement_cons (t : Token) (xs : List Token) : Grammar.enumElement s (t :: xs) =
    (if t.isWord "option" && (xs[0]?.getD s.last).kind != .equals then Grammar.optionDecl
    else if t.kind = .ident then Grammar.enumValue
    else Parser.mismatch [.rule .enumValue, .kind .semicolon, .kind .rbrace] Rule.enumDef.name)
      s (t :: xs) := rfl

theorem enumElement {t : Token} {more : List Token} (ended : Ended (t :: more)) :
    Predicts s False [.rule .enumValue, .kind .semicolon, .kind .rbrace] P
      (fun _ => Grammar.enumElement) (t :: more) := by
  by_cases name : t.kind = .ident
  · have inner : t.kind ≠ .eof := by simp [name]
    have value {xs : List Token} (plain : ¬(t.isWord "option" &&
        (xs[0]?.getD s.last).kind != .equals)) : Grammar.enumElement s (t :: xs) =
          Grammar.valueTail t (s.leaf .ident t) s xs := by
      rw [enumElement_cons, if_neg plain, if_pos name, enumValue_cons name]
    by_cases option : t.isWord "option"
    · -- an equals sign after the keyword shows that the keyword is a name
      obtain ⟨u, more, rfl⟩ := (ended.tail inner).exists_cons
      by_cases hu : u.kind = .equals
      · exact (valueTail t (s.leaf .ident t)).afterIf (Q := (·.kind = .equals))
          (.kind rfl fun _ => id) (List.cons_ne_nil t []) (.cons inner .nil)
          (fun _ v xs hv => value (by simp [hv])) hu ended
      · refine (optionTail t).afterIf (Q := (·.kind ≠ .equals))
            (.ident rfl fun v hv => by simp [hv])
          (List.cons_ne_nil t []) (.cons inner .nil) (fun _ v xs hv => ?_) hu ended
        refine (enumElement_cons t (v :: xs)).trans ?_
        rw [if_pos (by simp [hv, option])]
        exact bind_ok (keyword_cons option _ _) _
    · exact (valueTail t (s.leaf .ident t)).after (List.cons_ne_nil t []) (.cons inner .nil)
        (fun _ xs => value (by simp [option])) ended
  · refine .refused fun _ xs => ?_
    rw [enumElement_cons, if_neg (by simp [Token.isWord, name]), if_neg name]
    exact ⟨_, _, List.cons_ne_nil _ _, List.Subset.refl _, rfl⟩

/-! ## Types of methods -/

theorem streamTail (hP : ∀ v, P v → NotDot v) (first : Token) (marker : Node) (head : Token) :
    Predictive s none [] P fun _ => Grammar.streamTail first marker head :=
  (dottedTail hP _).last fun _ => (leaves ..).last fun _ => (node ..).last fun _ => node ..

/-- What may follow a method's type: a dot would go on with it, and so would a word after the
streaming word. -/
def AfterMethodType (v : Token) : Prop :=
  v.kind ≠ .dot ∧ v.kind ≠ .ident

theorem messageType_cons (t : Token) (xs : List Token) : Grammar.messageType s (t :: xs) =
    (if t.text == "stream" && (xs[0]?.getD s.last).kind == .ident then
      Parser.leaf .ident .stream Rule.messageType.name >>= fun marker =>
        Grammar.word Rule.messageType.name >>= Grammar.streamTail t marker
    else Grammar.fullIdent Rule.messageType.name >>= fun n => Pure.pure (n.wrap .messageType))
      s (t :: xs) := rfl

theorem messageType_word {t : Token} (ht : t.kind = .ident) {xs : List Token}
    (plain : ¬(t.text == "stream" && (xs[0]?.getD s.last).kind == .ident)) :
    Grammar.messageType s (t :: xs) = Grammar.plainTail t s xs := by
  rw [messageType_cons, if_neg plain]
  exact (bind_congr (fullIdent_cons ht _ xs) _).trans (bind_assoc ..)

theorem plainTail (hP : ∀ v, P v → NotDot v) (first : Token) :
    Predictive s none [] P fun _ => Grammar.plainTail first :=
  (dottedTail hP _).last fun _ => (leaves ..).last fun _ => (node ..).last fun _ => pure _

theorem messageType : Predictive s (some aWord) [.rule .ident, .rule .stream] AfterMethodType
    fun _ => Grammar.messageType := by
  have ready {t : Token} (ht : t.kind = .ident) :
      Ready s AfterMethodType Grammar.messageType (some t) := by
    obtain ⟨tail, a, -, head, takes⟩ := (plainTail (s := s) (P := AfterMethodType)
      (fun _ => And.left) t).ready true
    obtain rfl := List.head?_eq_none_iff.mp head
    exact ⟨[t], a, .cons (by simp [ht]) .nil, rfl, fun v rest hv =>
      (messageType_word ht (by simp [hv.2])).trans (takes v rest hv)⟩
  refine ⟨fun ts ended => ?_, fun b => ready rfl, fun x mem => ?_⟩
  · obtain ⟨t, more, rfl⟩ := ended.exists_cons
    refine Predicts.imp ?_ False.elim
    by_cases name : t.kind = .ident
    · have inner : t.kind ≠ .eof := by simp [name]
      by_cases stream : t.text = "stream"
      · obtain ⟨u, more, rfl⟩ := (ended.tail inner).exists_cons
        by_cases hu : u.kind = .ident
        · have inner' : u.kind ≠ .eof := by simp [hu]
          refine (streamTail (fun _ => And.left) t (s.leaf .stream t) u).after
            (List.cons_ne_nil t [u]) (.cons inner (.cons inner' .nil)) (fun _ xs => ?_) ended
          refine (messageType_cons t (u :: xs)).trans ?_
          rw [if_pos (by simp [stream, hu])]
          exact (bind_ok (leaf_cons name _ _ _) _).trans (bind_ok (expectAs_cons hu _ _ _) _)
        · exact (plainTail (fun _ => And.left) t).afterIf (Q := (·.kind ≠ .ident))
            (.none fun _ => And.right) (List.cons_ne_nil t []) (.cons inner .nil)
            (fun _ v xs hv => messageType_word name (by simp [hv])) hu ended
      · exact (plainTail (fun _ => And.left) t).after (List.cons_ne_nil t []) (.cons inner .nil)
          (fun _ xs => messageType_word name (by simp [stream])) ended
    · -- neither reading takes a token that is no word
      refine .refused fun _ xs => ?_
      rw [messageType_cons]
      split
      · exact ⟨_, _, by simp, by simp, bind_error (bind_error (expectAs_other name _ _ xs) _) _⟩
      · exact ⟨_, _, by simp, by simp, bind_error (bind_error (expectAs_other name _ _ xs) _) _⟩
  · obtain rfl | rfl : x = .rule .ident ∨ x = .rule .stream := by simpa using mem
    · exact (ready (t := aWord) rfl).offers (Expectation.names_ident rfl)
    · exact (ready (t := .sample .ident "stream") rfl).offers (Expectation.names_stream rfl)

end Predictive

end Parser

end ProtoSchema
