import ProtoSchema.Document
import ProtoSchema.Proofs.GrammarExact

/-! # What a derivation declares

The schema that a derivation stands for, read off the words at its leaves, and the numbers that it
gives to fields and values. Building a schema from the tree of a derivation gives just that schema,
with a warning for each number that is out of range.
-/

namespace ProtoSchema

namespace Token

/-- The tag or enum number that a number stands for. -/
def value (t : Token) : Int :=
  (Number.ofText? t.text).getD Warning.fallback

/-- The warning for a number that is out of range, if it is. -/
def warnings (t : Token) : List Warning :=
  if Number.ofText? t.text = none then [⟨t.text, t.line, t.col⟩] else []

end Token

namespace Derivation

/-- The rule at a node. -/
def label? : Derivation → Option Rule
  | .token _ => none
  | .node x _ => some x.label

/-- What stands directly below a node. -/
def parts : Derivation → List Derivation
  | .token _ => []
  | .node _ parts => parts

/-- The parts with the rule `r`. -/
def having (r : Rule) (ds : List Derivation) : List Derivation :=
  ds.filter (·.label? = some r)

/-- The tokens below the rule `r`. -/
def words (r : Rule) (d : Derivation) : List Token :=
  yieldList (having r d.parts)

/-- The text of the first of some tokens. -/
def textOf (ts : List Token) : String :=
  (ts.head?.map (·.text)).getD ""

/-- The words among some tokens with dots between them. -/
def dottedText (ts : List Token) : String :=
  ".".intercalate ((ts.filter (·.kind = .ident)).map (·.text))

/-- The field that a derivation declares. -/
def field (d : Derivation) : Field String Int Bool where
  name := textOf (d.words .ident)
  typeName := dottedText (d.words .typeName)
  tag := ((d.words .number).head?.map (·.value)).getD Warning.fallback
  repeated := (d.words .fieldRule).any (·.text == "repeated")

/-- The value of an enum that a derivation declares. -/
def enumValue (d : Derivation) : EnumValue String Int where
  name := textOf (d.words .ident)
  number := ((d.words .number).head?.map (·.value)).getD Warning.fallback

/-- The enum that a derivation declares. -/
def enumDef (d : Derivation) : EnumDef String Int where
  name := textOf (d.words .ident)
  values := (having .enumValue d.parts).map enumValue

/-- The method that a derivation declares. -/
def method (d : Derivation) : Method String :=
  let types := (having .messageType d.parts).map fun type => dottedText (type.words .fullIdent)
  { name := textOf (d.words .ident)
    inputType := types[0]?.getD ""
    outputType := types[1]?.getD "" }

/-- The service that a derivation declares. -/
def service (d : Derivation) : Service String where
  name := textOf (d.words .ident)
  methods := (having .rpcDef d.parts).map method

mutual
/-- The message that a derivation declares. -/
def message : Derivation → Message String Int Bool
  | .token _ => default
  | .node x parts =>
    ⟨textOf ((node x parts).words .ident), (having .field parts).map field, messages parts,
      (having .enumDef parts).map enumDef⟩

/-- The messages among some derivations. -/
def messages : List Derivation → List (Message String Int Bool)
  | [] => []
  | d :: ds => if d.label? = some .messageDef then message d :: messages ds else messages ds
end

/-- The schema that a derivation declares. -/
def schema (d : Derivation) : Schema where
  version := ((having .syntaxDecl d.parts).getLast?.map fun statement =>
    Node.unquote (textOf (statement.words .stringLit))).getD Schema.defaultVersion
  package := (having .packageDecl d.parts).getLast?.map fun statement =>
    dottedText (statement.words .fullIdent)
  imports := (having .importDecl d.parts).map fun statement =>
    Node.unquote (textOf (statement.words .stringLit))
  messages := messages d.parts
  enums := (having .enumDef d.parts).map enumDef
  services := (having .serviceDef d.parts).map service

mutual
/-- The numbers of the fields and the enum values from left to right. The numbers in options are
left out. -/
def numbers : Derivation → List Token
  | .token _ => []
  | .node (.rule .number) parts => yieldList parts
  | .node (.rule .optionDecl) _ => []
  | .node _ parts => numbersList parts

def numbersList : List Derivation → List Token
  | [] => []
  | d :: ds => numbers d ++ numbersList ds
end

/-- The warnings for the numbers of a derivation. -/
def warnings (d : Derivation) : List Warning :=
  d.numbers.flatMap (·.warnings)

/-- The slices of the source at the tokens of a derivation are their texts. -/
def Faithful (s : Parser.Scope) (d : Derivation) : Prop :=
  ∀ t ∈ d.yield, s.slice t.start t.stop = t.text

theorem numbers_node {x : Symbol} (number : x ≠ .rule .number) (option : x ≠ .rule .optionDecl)
    (parts : List Derivation) : numbers (.node x parts) = numbersList parts := by
  unfold numbers
  split
  all_goals simp_all

theorem numbersList_eq_flatMap (ds : List Derivation) : numbersList ds = ds.flatMap numbers := by
  induction ds with
  | nil => rfl
  | cons d ds ih => rw [numbersList, ih, List.flatMap_cons]

@[simp] theorem numbersList_nil : numbersList [] = [] := rfl

@[simp] theorem numbersList_cons (d : Derivation) (ds : List Derivation) :
    numbersList (d :: ds) = numbers d ++ numbersList ds := rfl

@[simp] theorem numbersList_append (ds es : List Derivation) :
    numbersList (ds ++ es) = numbersList ds ++ numbersList es := by
  simp only [numbersList_eq_flatMap, List.flatMap_append]

@[simp] theorem numbers_token (t : Token) : numbers (.token t) = [] := rfl

@[simp] theorem numbers_number (t : Token) : numbers (ofToken .number t) = [t] := rfl

@[simp] theorem numbers_ofToken {r : Rule} (h : r ≠ .number) (t : Token) :
    numbers (ofToken r t) = [] := by
  cases r <;> first | rfl | contradiction

theorem numbersList_eq_nil {ds : List Derivation} (h : ∀ d ∈ ds, d.numbers = []) :
    numbersList ds = [] := by
  rw [numbersList_eq_flatMap, List.flatMap_eq_nil_iff]
  exact h

@[simp] theorem numbersList_tokens (ts : List Token) : numbersList (ts.map .token) = [] :=
  numbersList_eq_nil fun d hd => by
    obtain ⟨t, -, rfl⟩ := List.mem_map.mp hd
    rfl

@[simp] theorem having_nil (r : Rule) : having r [] = [] := rfl

@[simp] theorem having_cons_token (r : Rule) (t : Token) (ds : List Derivation) :
    having r (.token t :: ds) = having r ds := by
  simp [having, label?]

@[simp] theorem having_cons_node (r : Rule) (x : Symbol) (parts ds : List Derivation) :
    having r (.node x parts :: ds) =
      if x.label = r then .node x parts :: having r ds else having r ds := by
  simp [having, label?, List.filter_cons]

@[simp] theorem having_cons_ofToken (r r' : Rule) (t : Token) (ds : List Derivation) :
    having r (ofToken r' t :: ds) = if r' = r then ofToken r' t :: having r ds else having r ds :=
  having_cons_node ..

theorem From.label?_eq {x : Symbol} {d : Derivation} (h : d.From x) : d.label? = some x.label := by
  obtain ⟨parts, rfl⟩ := h.rooted
  rfl

theorem having_eq_nil {r : Rule} {ds : List Derivation} (h : ∀ d ∈ ds, d.label? ≠ some r) :
    having r ds = [] := by
  simpa [having, List.filter_eq_nil_iff] using h

theorem having_cons (r : Rule) (d : Derivation) (ds : List Derivation) :
    having r (d :: ds) = if d.label? = some r then d :: having r ds else having r ds := by
  simp [having, List.filter_cons]

theorem Rooted.having_cons {x : Symbol} {d : Derivation} (h : d.Rooted x) (r : Rule)
    (ds : List Derivation) :
    having r (d :: ds) = if x.label = r then d :: having r ds else having r ds := by
  obtain ⟨parts, rfl⟩ := h
  exact having_cons_node ..

@[simp] theorem having_tokens (r : Rule) (ts : List Token) : having r (ts.map .token) = [] := by
  induction ts with
  | nil => rfl
  | cons t ts ih => rw [List.map_cons, having_cons_token, ih]

theorem having_all {x : Symbol} {ds : List Derivation} (h : ∀ d ∈ ds, d.Rooted x) (r : Rule) :
    having r ds = if x.label = r then ds else [] := by
  induction ds with
  | nil => simp
  | cons d ds ih =>
      obtain ⟨hd, hds⟩ := List.forall_mem_cons.mp h
      rw [hd.having_cons, ih hds]
      split <;> rfl

@[simp] theorem having_append (r : Rule) (ds es : List Derivation) :
    having r (ds ++ es) = having r ds ++ having r es :=
  List.filter_append ..

theorem messages_append (ds es : List Derivation) :
    messages (ds ++ es) = messages ds ++ messages es := by
  induction ds with
  | nil => rfl
  | cons d ds ih =>
      simp only [List.cons_append, messages, ih]
      split <;> rfl

end Derivation

open ProtoSchema.Derivation

namespace Build

theorem ok_bind (a : α) (ws : List Warning) (f : α → Build β) :
    bind (m := Build) (.ok (a, ws)) f = match f a with
      | .error e => .error e
      | .ok (c, more) => .ok (c, ws ++ more) := rfl

theorem bind_ok {b : Build α} {f : α → Build β} {a c} {ws us : List Warning} (h : b = .ok (a, ws))
    (h' : f a = .ok (c, us)) : b >>= f = .ok (c, ws ++ us) := by
  rw [h, ok_bind, h']

instance : LawfulMonad Build := by
  refine LawfulMonad.mk' Build ?_ ?_ ?_
  · rintro α (e | ⟨a, ws⟩)
    · rfl
    · exact (bind_ok rfl rfl).trans (by rw [List.append_nil]; rfl)
  · intro α β a f
    cases h : f a with
    | error e => exact (ok_bind a [] f).trans (by rw [h])
    | ok result => exact bind_ok rfl h
  · rintro α β γ (e | ⟨a, ws⟩) f g
    · rfl
    · rw [ok_bind, ok_bind]
      cases h : f a with
      | error e => rfl
      | ok result =>
          obtain ⟨b, us⟩ := result
          rw [ok_bind, ok_bind]
          cases h' : g b with
          | error e => rfl
          | ok result =>
              simp only [List.append_assoc]
              rfl

theorem map_ok {b : Build α} {f : α → β} {a : α} {ws : List Warning} (h : b = .ok (a, ws)) :
    f <$> b = .ok (f a, ws) := by
  rw [map_eq_pure_bind, bind_ok h rfl, List.append_nil]

end Build

namespace Parser.Scope

variable (s : Scope) (r : Rule) (first last : Token) (children : List Node)

@[simp] theorem node_rule : (s.node r first last children).rule = r := rfl

@[simp] theorem node_children : (s.node r first last children).children = children := rfl

@[simp] theorem leaf_rule : (s.leaf r first).rule = r := rfl

end Parser.Scope

namespace Derivation

variable {s : Parser.Scope} {d : Derivation} {n : Node}

theorem Rooted.node_rule {x : Symbol} (h : d.Rooted x) (hn : nodes s d = [n]) :
    n.rule = x.label := by
  obtain ⟨parts, rfl⟩ := h
  rw [nodes_node, List.cons_eq_cons] at hn
  rw [← hn.1, Parser.Scope.node_rule]

theorem faithful_node {x : Symbol} {ds : List Derivation} :
    Faithful s (node x ds) ↔ ∀ d ∈ ds, d.Faithful s := by
  simp only [Faithful, yield_node, yieldList_eq_flatMap, List.mem_flatMap]
  constructor
  · exact fun h d hd t ht => h t ⟨d, hd, ht⟩
  · rintro h t ⟨d, hd, ht⟩
    exact h d hd t ht

theorem faithful_ofToken {r : Rule} {t : Token} :
    (ofToken r t).Faithful s ↔ s.slice t.start t.stop = t.text := by
  simp [Faithful]

theorem leaf_text {r : Rule} {t : Token} (h : s.slice t.start t.stop = t.text) :
    (s.leaf r t).text = t.text := h

theorem filter_nodesList (r : Rule) (ds : List Derivation) :
    (nodesList s ds).filter (·.rule == r) = nodesList s (having r ds) := by
  induction ds with
  | nil => rfl
  | cons d ds ih =>
      cases d with
      | token t => simpa using ih
      | node x parts =>
          rw [nodesList_cons, List.filter_append, ih, having_cons_node]
          by_cases h : x.label = r
          · simp [h, Parser.Scope.node]
          · simp [h, Parser.Scope.node]

theorem mapM_nodesList {build : Node → Build α} {g : Derivation → α} {w : Derivation → List Warning}
    {ds : List Derivation} (h : ∀ d ∈ ds, ∃ n, nodes s d = [n] ∧ build n = .ok (g d, w d)) :
    (nodesList s ds).mapM build = .ok (ds.map g, ds.flatMap w) := by
  induction ds with
  | nil => rfl
  | cons d ds ih =>
      obtain ⟨⟨n, hn, head⟩, tail⟩ := List.forall_mem_cons.mp h
      rw [nodesList_cons, hn, List.singleton_append, List.mapM_cons, List.map_cons,
        List.flatMap_cons, ← List.append_nil (ds.flatMap w)]
      exact Build.bind_ok head (Build.bind_ok (ih tail) rfl)

theorem buildNumber_leaf {r : Rule} {t : Token} (h : s.slice t.start t.stop = t.text) :
    (s.leaf r t).buildNumber = .ok (t.value, t.warnings) := by
  unfold Node.buildNumber
  rw [leaf_text h]
  cases hv : Number.ofText? t.text with
  | none => simp [Token.value, Token.warnings, hv]; rfl
  | some v => simp [Token.value, Token.warnings, hv]; rfl

theorem filter_dotted {pairs : List (Token × Token)} (h : Dotted pairs) :
    (yieldList (dotted pairs)).filter (·.kind = .ident) = pairs.map (·.2) := by
  induction pairs with
  | nil => rfl
  | cons p pairs ih =>
      obtain ⟨⟨hdot, hw⟩, hp⟩ := List.forall_mem_cons.mp h
      simp [hdot, hw, ih hp]

theorem From.fullIdent_dottedName (h : d.From (.rule .fullIdent)) (f : d.Faithful s)
    (hn : nodes s d = [n]) : n.dottedName = dottedText d.yield := by
  obtain ⟨first, pairs, rfl, hfirst, hp⟩ := from_fullIdent.mp h
  have texts : ∀ t ∈ first :: pairs.map (·.2), (s.leaf .ident t).text = t.text := by
    intro t ht
    refine f t ?_
    simp only [List.mem_cons, List.mem_map] at ht
    obtain rfl | ⟨p, hp, rfl⟩ := ht
    · simp
    · simp only [yield_node, yieldList_cons, yield_ofToken, List.mem_append, yieldList_dotted,
        List.mem_flatMap]
      exact .inr ⟨p, hp, by simp⟩
  rw [nodes_node, List.cons_eq_cons] at hn
  obtain ⟨rfl, -⟩ := hn
  have same := congrArg ".".intercalate (List.map_congr_left texts)
  simpa [Parser.Scope.node, Node.dottedName, dottedText, hfirst, filter_dotted hp,
    Function.comp_def] using same

theorem From.typeName_dottedName (h : d.From (.rule .typeName)) (f : d.Faithful s)
    (hn : nodes s d = [n]) : n.dottedName = dottedText d.yield := by
  obtain ⟨part, rfl, ⟨t, ht, -, rfl⟩ | ⟨hpath, -⟩⟩ := from_typeName.mp h
  · rw [nodes_node, List.cons_eq_cons] at hn
    obtain ⟨rfl, -⟩ := hn
    simpa [Parser.Scope.node, Parser.Scope.leaf, Node.dottedName, dottedText, ht] using
      f t (by simp)
  · obtain ⟨m, hm⟩ := hpath.nodes_eq s
    rw [nodes_node, List.cons_eq_cons] at hn
    obtain ⟨rfl, -⟩ := hn
    simpa [Parser.Scope.node, Node.dottedName, hm] using
      hpath.fullIdent_dottedName (fun t ht => f t (by simpa using ht)) hm

/-- The symbols without numbers below them. -/
def numberless : List Symbol :=
  [.rule .syntaxDecl, .rule .packageDecl, .rule .importDecl, .rule .fieldRule, .rule .typeName,
    .rule .primitiveType, .rule .fieldOptions, .rule .messageType, .rule .stream, .rule .ident,
    .rule .fullIdent, .rule .stringLit]

theorem From.numbers_eq_nil {x : Symbol} (h : d.From x) (hx : x ∈ numberless) : d.numbers = [] := by
  refine h.induct (Q := (· ∈ numberless)) (P := fun d => d.numbers = []) (by decide) ?_
    (fun _ _ => rfl) ?_ hx
  · unfold numberless
    rintro (r | _)
    · cases r <;> simp [Symbol.uses]
    · simp
  · intro y parts hy ih
    rw [numbers_node]
    · exact numbersList_eq_nil ih
    · rintro rfl
      exact absurd hy (by decide)
    · rintro rfl
      exact absurd hy (by decide)

theorem numbersList_toList {x : Symbol} {part : Option Derivation} (h : ∀ d ∈ part, d.From x)
    (hx : x ∈ numberless) : numbersList part.toList = [] := by
  cases part with
  | none => rfl
  | some d => simp [(h d rfl).numbers_eq_nil hx]

theorem From.optionDecl_numbers (h : d.From (.rule .optionDecl)) : d.numbers = [] := by
  obtain ⟨parts, rfl⟩ := h.rooted
  rfl

theorem warnings_eq {ts : List Token} (h : d.numbers = ts) :
    d.warnings = ts.flatMap (·.warnings) := by
  rw [warnings, h]

theorem buildFieldParts_eq {name tag : Token} {type : Node} {rest : List Node} {repeated : Bool}
    (hname : s.slice name.start name.stop = name.text)
    (htag : s.slice tag.start tag.stop = tag.text) :
    Node.buildFieldParts repeated (type :: s.leaf .ident name :: s.leaf .number tag :: rest) =
      .ok (⟨name.text, type.dottedName, tag.value, repeated⟩, tag.warnings) := by
  rw [← List.append_nil tag.warnings, ← leaf_text (r := .ident) hname]
  exact Build.bind_ok (buildNumber_leaf htag) rfl

theorem From.field_number (h : d.From (.rule .field)) :
    ∃ tag, d.words .number = [tag] ∧ d.numbers = [tag] := by
  obtain ⟨word, type, name, equals, tag, options, last, rfl, -, htype, -, -, -, hoptions, -⟩ :=
    from_field.mp h
  have rooted : ∀ d ∈ options.toList, d.Rooted (.rule .fieldOptions) := fun d hd =>
    (hoptions d (by simpa using hd)).rooted
  refine ⟨tag, ?_, ?_⟩
  · cases word <;> simp [words, parts, htype.rooted.having_cons, having_all rooted]
  · rw [numbers_node (by decide) (by decide)]
    cases word <;>
      simp [htype.numbers_eq_nil (by decide), numbersList_toList hoptions (by decide)]

theorem From.enumValue_number (h : d.From (.rule .enumValue)) :
    ∃ number, d.words .number = [number] ∧ d.numbers = [number] := by
  obtain ⟨name, equals, number, options, last, rfl, -, -, -, hoptions, -⟩ := from_enumValue.mp h
  have rooted : ∀ d ∈ options.toList, d.Rooted (.rule .fieldOptions) := fun d hd =>
    (hoptions d (by simpa using hd)).rooted
  refine ⟨number, ?_, ?_⟩
  · simp [words, parts, having_all rooted]
  · rw [numbers_node (by decide) (by decide)]
    simp [numbersList_toList hoptions (by decide)]

theorem From.buildField (h : d.From (.rule .field)) (f : d.Faithful s) (hn : nodes s d = [n]) :
    n.buildField = .ok (d.field, d.warnings) := by
  obtain ⟨number, numberWord, numbers⟩ := h.field_number
  obtain ⟨word, type, name, equals, tag, options, last, rfl, hword, htype, hname, hequals, htag,
    hoptions, hlast⟩ := from_field.mp h
  obtain ⟨m, hm⟩ := htype.nodes_eq s
  have rooted : ∀ d ∈ options.toList, d.Rooted (.rule .fieldOptions) := fun d hd =>
    (hoptions d (by simpa using hd)).rooted
  obtain rfl : tag = number := by
    cases word <;>
      simpa [words, parts, htype.rooted.having_cons, having_all rooted] using numberWord
  simp only [faithful_node, List.forall_mem_append, List.forall_mem_cons, faithful_ofToken] at f
  obtain ⟨fword, ftype, fname, -, ftag, -⟩ := f
  rw [nodes_node, List.cons_eq_cons] at hn
  obtain ⟨rfl, -⟩ := hn
  rw [warnings_eq numbers]
  have dotted := htype.typeName_dottedName ftype hm
  cases word with
  | none =>
      have rule : m.rule ≠ .fieldRule := by simp [htype.rooted.node_rule hm]
      simp [Node.buildField, hm, Derivation.field, words, parts, textOf, htype.rooted.having_cons,
        having_all rooted, rule, buildFieldParts_eq fname ftag, dotted]
      rfl
  | some t =>
      have text : (s.leaf .fieldRule t).text = t.text :=
        faithful_ofToken.mp (fword _ List.mem_cons_self)
      simp [Node.buildField, hm, Derivation.field, words, parts, textOf, htype.rooted.having_cons,
        having_all rooted, buildFieldParts_eq fname ftag, dotted, text]
      rfl

theorem From.buildEnumValue (h : d.From (.rule .enumValue)) (f : d.Faithful s)
    (hn : nodes s d = [n]) : n.buildEnumValue = .ok (d.enumValue, d.warnings) := by
  obtain ⟨tag, tagWord, numbers⟩ := h.enumValue_number
  obtain ⟨name, equals, number, options, last, rfl, hname, hequals, hnumber, hoptions, hlast⟩ :=
    from_enumValue.mp h
  have rooted : ∀ d ∈ options.toList, d.Rooted (.rule .fieldOptions) := fun d hd =>
    (hoptions d (by simpa using hd)).rooted
  obtain rfl : number = tag := by simpa [words, parts, having_all rooted] using tagWord
  simp only [faithful_node, List.forall_mem_cons, faithful_ofToken] at f
  obtain ⟨fname, -, fnumber, -⟩ := f
  rw [nodes_node, List.cons_eq_cons] at hn
  obtain ⟨rfl, -⟩ := hn
  rw [warnings_eq numbers]
  simp [Node.buildEnumValue, Derivation.enumValue, words, parts, textOf, having_all rooted,
    Build.map_ok (buildNumber_leaf fnumber), leaf_text fname]
  rfl

theorem From.typeOfMethod (h : d.From (.rule .messageType)) (f : d.Faithful s)
    (hn : nodes s d = [n]) : n.typeOfMethod = dottedText (d.words .fullIdent) := by
  obtain ⟨word, path, rfl, hword, hpath⟩ := from_messageType.mp h
  obtain ⟨m, hm⟩ := hpath.nodes_eq s
  have dotted := hpath.fullIdent_dottedName (fun t ht => f t (by simp [ht])) hm
  have rule := hpath.rooted.node_rule hm
  rw [nodes_node, List.cons_eq_cons] at hn
  obtain ⟨rfl, -⟩ := hn
  cases word <;>
    simp [Node.typeOfMethod, Node.first?, hm, words, parts, hpath.rooted.having_cons, rule, dotted]

theorem MethodEnd.plain {ends : List Derivation} (h : MethodEnd ends) :
    ∀ d ∈ ends, (∃ t, d = .token t) ∨ d.From (.rule .optionDecl) := by
  obtain ⟨last, -, rfl⟩ | ⟨left, elements, right, -, he, -, rfl⟩ := h
  · simp
  · intro d hd
    simp only [List.mem_cons, List.mem_append, List.not_mem_nil, or_false] at hd
    obtain rfl | hd | rfl := hd
    · exact .inl ⟨left, rfl⟩
    · obtain option | ⟨t, -, rfl⟩ := he d hd
      · exact .inr option
      · exact .inl ⟨t, rfl⟩
    · exact .inl ⟨right, rfl⟩

theorem From.rpcDef_numbers (h : d.From (.rule .rpcDef)) : d.numbers = [] := by
  obtain ⟨first, name, left, request, right, returns, open', response, close, ends, rfl, -, -, -,
    hrequest, -, -, -, hresponse, -, hends⟩ := from_rpcDef.mp h
  have numbers : numbersList ends = [] := by
    refine numbersList_eq_nil fun d hd => ?_
    obtain ⟨t, rfl⟩ | option := hends.plain d hd
    · rfl
    · exact option.optionDecl_numbers
  rw [numbers_node (by decide) (by decide)]
  simp [hrequest.numbers_eq_nil (by decide), hresponse.numbers_eq_nil (by decide), numbers]

theorem From.buildMethod (h : d.From (.rule .rpcDef)) (f : d.Faithful s) (hn : nodes s d = [n]) :
    n.buildMethod = .ok (d.method, d.warnings) := by
  obtain ⟨first, name, left, request, right, returns, open', response, close, ends, rfl, hfirst,
    hname, hleft, hrequest, hright, hreturns, hopen, hresponse, hclose, hends⟩ := from_rpcDef.mp h
  obtain ⟨m, hm⟩ := hrequest.nodes_eq s
  obtain ⟨m', hm'⟩ := hresponse.nodes_eq s
  have none_below (r : Rule) (hr : r ≠ .optionDecl) : having r ends = [] := by
    refine having_eq_nil fun d hd => ?_
    obtain ⟨t, rfl⟩ | option := hends.plain d hd
    · simp [label?]
    · simpa [option.label?_eq] using hr.symm
  simp only [faithful_node, List.forall_mem_cons, faithful_ofToken] at f
  obtain ⟨-, fname, -, frequest, -, -, -, fresponse, -⟩ := f
  rw [nodes_node, List.cons_eq_cons] at hn
  obtain ⟨rfl, -⟩ := hn
  rw [warnings_eq h.rpcDef_numbers]
  simp [Node.buildMethod, hm, hm', Derivation.method, words, parts, textOf,
    hrequest.rooted.having_cons, hresponse.rooted.having_cons, none_below, leaf_text fname,
    hrequest.typeOfMethod frequest hm, hresponse.typeOfMethod fresponse hm']
  rfl

/-- Where only the parts with one rule have numbers, theirs are all warnings. -/
theorem flatMap_having {r : Rule} {ds : List Derivation}
    (others : ∀ d ∈ ds, d.label? ≠ some r → d.numbers = []) :
    (having r ds).flatMap warnings = (numbersList ds).flatMap (·.warnings) := by
  induction ds with
  | nil => rfl
  | cons d ds ih =>
      obtain ⟨hd, hds⟩ := List.forall_mem_cons.mp others
      rw [numbersList_cons, List.flatMap_append, ← ih hds, having, List.filter_cons]
      by_cases h : d.label? = some r
      · simp [h, having, warnings]
      · simp [h, hd h, having]

theorem Defines.part {r : Rule} {w : String} {P : Derivation → Prop} (h : Defines r w P d) :
    ∀ e ∈ d.parts, (∃ t, e = .token t) ∨ e.From (.rule .ident) ∨ P e := by
  obtain ⟨first, name, left, es, right, rfl, -, hname, -, he, -⟩ := h
  intro e mem
  simp only [parts, List.mem_cons, List.mem_append, List.not_mem_nil, or_false] at mem
  obtain rfl | rfl | rfl | mem | rfl := mem
  · exact .inl ⟨first, rfl⟩
  · exact .inr (.inl (from_ident.mpr ⟨name, hname, rfl⟩))
  · exact .inl ⟨left, rfl⟩
  · obtain hp | ⟨t, -, rfl⟩ := he e mem
    · exact .inr (.inr hp)
    · exact .inl ⟨t, rfl⟩
  · exact .inl ⟨right, rfl⟩

/-- The name of a definition is its only word, unless an element of it is one. -/
theorem Defines.lastIdent {r : Rule} {w : String} {P : Derivation → Prop} (h : Defines r w P d)
    (hr : (Symbol.rule r).isSpan = false) (f : d.Faithful s) (hn : nodes s d = [n])
    (plain : ∀ e, P e → e.label? ≠ some .ident) : n.lastIdent = textOf (d.words .ident) := by
  obtain ⟨first, name, left, es, right, rfl, -, -, -, he, -⟩ := h
  have alone : having .ident (.token first :: ofToken .ident name :: .token left ::
      (es ++ [.token right])) = [ofToken .ident name] := by
    have : having .ident es = [] := having_eq_nil fun d hd => by
      obtain hd | ⟨t, -, rfl⟩ := he d hd
      · exact plain d hd
      · simp [label?]
    simp [this]
  have text : (s.leaf .ident name).text = name.text :=
    faithful_ofToken.mp (faithful_node.mp f (ofToken .ident name) (by simp))
  rw [nodes_node, hr, List.cons_eq_cons] at hn
  obtain ⟨rfl, -⟩ := hn
  rw [Node.lastIdent, Parser.Scope.node_children]
  simp only [Bool.false_eq_true, if_false, filter_nodesList, alone, words, parts]
  simpa [textOf] using text

/-- The elements of a definition are members with the rule `r'`, which are built one by one, and
others without numbers. -/
theorem Defines.buildEach {r r' : Rule} {w : String} {P : Derivation → Prop}
    {build : Node → Build α} {g : Derivation → α} (h : Defines r w P d)
    (hr : r ∉ [.constant, .fieldOptions, .number, .optionDecl])
    (hr' : r' ≠ .ident) (f : d.Faithful s) (hn : nodes s d = [n])
    (member : ∀ e, P e → e.label? = some r' → e.Faithful s →
      ∃ m, nodes s e = [m] ∧ build m = .ok (g e, e.warnings))
    (other : ∀ e, P e → e.label? ≠ some r' → e.numbers = []) :
    n.buildEach r' build = .ok ((having r' d.parts).map g, d.warnings) := by
  obtain ⟨first, name, left, es, right, rfl, -, -, -, he, -⟩ := h
  have elements : having r' (.token first :: ofToken .ident name :: .token left ::
      (es ++ [.token right])) = having r' es := by
    simp [hr'.symm]
  have numbers : (node (.rule r) (.token first :: ofToken .ident name :: .token left ::
      (es ++ [.token right]))).numbers = numbersList es := by
    rw [numbers_node (by rintro ⟨⟩; simp at hr) (by rintro ⟨⟩; simp at hr)]
    simp
  rw [nodes_node, List.cons_eq_cons] at hn
  obtain ⟨rfl, -⟩ := hn
  have span : (Symbol.rule r).isSpan = false := by simp_all
  rw [Node.buildEach, Parser.Scope.node_children, span, warnings_eq numbers, ← flatMap_having]
  · simp only [Bool.false_eq_true, if_false, filter_nodesList, elements, parts]
    refine mapM_nodesList fun d hd => ?_
    obtain ⟨hd, label⟩ := by simpa [having] using hd
    obtain elem | ⟨t, -, rfl⟩ := he d hd
    · exact member d elem label (faithful_node.mp f d (by simp [hd]))
    · cases label
  · intro d hd label
    obtain elem | ⟨t, -, rfl⟩ := he d hd
    · exact other d elem label
    · rfl

theorem From.buildEnum (h : d.From (.rule .enumDef)) (f : d.Faithful s) (hn : nodes s d = [n]) :
    n.buildEnum = .ok (d.enumDef, d.warnings) := by
  have h := from_enumDef.mp h
  have name := h.lastIdent rfl f hn (by rintro e (he | he) <;> simp [he.label?_eq])
  have values : n.buildEach .enumValue Node.buildEnumValue =
      .ok ((having .enumValue d.parts).map enumValue, d.warnings) :=
    h.buildEach (by decide) (by decide) f hn
    (fun e he label fe => by
      obtain value | option := he
      · obtain ⟨m, hm⟩ := value.nodes_eq s
        exact ⟨m, hm, value.buildEnumValue fe hm⟩
      · simp [option.label?_eq] at label)
    (fun e he label => by
      obtain value | option := he
      · exact absurd value.label?_eq label
      · exact option.optionDecl_numbers)
  rw [Node.buildEnum, Build.bind_ok values rfl, name, List.append_nil]
  rfl

theorem From.buildService (h : d.From (.rule .serviceDef)) (f : d.Faithful s)
    (hn : nodes s d = [n]) : n.buildService = .ok (d.service, d.warnings) := by
  have h := from_serviceDef.mp h
  have name := h.lastIdent rfl f hn (by rintro e (he | he) <;> simp [he.label?_eq])
  have methods : n.buildEach .rpcDef Node.buildMethod =
      .ok ((having .rpcDef d.parts).map method, d.warnings) :=
    h.buildEach (by decide) (by decide) f hn
    (fun e he label fe => by
      obtain method | option := he
      · obtain ⟨m, hm⟩ := method.nodes_eq s
        exact ⟨m, hm, method.buildMethod fe hm⟩
      · simp [option.label?_eq] at label)
    (fun e he label => by
      obtain value | option := he
      · exact absurd value.label?_eq label
      · exact option.optionDecl_numbers)
  rw [Node.buildService, Build.bind_ok methods rfl, name, List.append_nil]
  rfl

theorem buildMessageParts_cons {rest : List Node} {part : Message.Part} {ps : List Message.Part}
    {ws us : List Warning}
    (head : (match n.rule with
      | .field => .field <$> n.buildField
      | .messageDef => .message <$> n.buildMessage
      | .enumDef => .enumDef <$> n.buildEnum
      | _ => pure .none : Build Message.Part) = .ok (part, ws))
    (tail : Node.buildMessageParts rest = .ok (ps, us)) :
    Node.buildMessageParts (n :: rest) = .ok (part :: ps, ws ++ us) := by
  have step (f : Message.Part → Build (List Message.Part)) : (match n.rule with
      | .field => .field <$> n.buildField >>= f
      | .messageDef => .message <$> n.buildMessage >>= f
      | .enumDef => .enumDef <$> n.buildEnum >>= f
      | _ => pure .none >>= f) = (match n.rule with
        | .field => .field <$> n.buildField
        | .messageDef => .message <$> n.buildMessage
        | .enumDef => .enumDef <$> n.buildEnum
        | _ => pure .none : Build Message.Part) >>= f := by
    split <;> rfl
  rw [Node.buildMessageParts, ← List.append_nil us]
  exact (step _).trans (Build.bind_ok head (Build.bind_ok tail rfl))

/-- The parts of a message are what the derivations declare. -/
structure PartsOf (ps : List Message.Part) (ds : List Derivation) : Prop where
  fields : ps.filterMap (·.field?) = (having .field ds).map field
  messages : ps.filterMap (·.message?) = messages ds
  enums : ps.filterMap (·.enumDef?) = (having .enumDef ds).map enumDef

namespace PartsOf

variable {ps : List Message.Part} {ds : List Derivation} (h : PartsOf ps ds)
include h

theorem other (label : d.label? ∉ [some .field, some .messageDef, some .enumDef]) :
    PartsOf (.none :: ps) (d :: ds) := by
  simp only [List.mem_cons, List.not_mem_nil, or_false, not_or] at label
  constructor
  · rw [List.filterMap_cons_none rfl, having_cons, if_neg label.1, h.fields]
  · rw [List.filterMap_cons_none rfl, Derivation.messages, if_neg label.2.1, h.messages]
  · rw [List.filterMap_cons_none rfl, having_cons, if_neg label.2.2, h.enums]

theorem field (label : d.label? = some .field) : PartsOf (.field d.field :: ps) (d :: ds) where
  fields := by
    rw [having_cons, if_pos label, List.map_cons, ← h.fields]
    rfl
  messages := by
    rw [List.filterMap_cons_none rfl, Derivation.messages, if_neg (by simp [label]), h.messages]
  enums := by
    rw [List.filterMap_cons_none rfl, having_cons, if_neg (by simp [label]), h.enums]

theorem message (label : d.label? = some .messageDef) :
    PartsOf (.message d.message :: ps) (d :: ds) where
  fields := by
    rw [List.filterMap_cons_none rfl, having_cons, if_neg (by simp [label]), h.fields]
  messages := by
    rw [Derivation.messages, if_pos label, ← h.messages]
    rfl
  enums := by
    rw [List.filterMap_cons_none rfl, having_cons, if_neg (by simp [label]), h.enums]

theorem enumDef (label : d.label? = some .enumDef) :
    PartsOf (.enumDef d.enumDef :: ps) (d :: ds) where
  fields := by
    rw [List.filterMap_cons_none rfl, having_cons, if_neg (by simp [label]), h.fields]
  messages := by
    rw [List.filterMap_cons_none rfl, Derivation.messages, if_neg (by simp [label]), h.messages]
  enums := by
    rw [having_cons, if_pos label, List.map_cons, ← h.enums]
    rfl

end PartsOf

/-- A message among the messages nested in another is built with its warnings. -/
def Built (s : Parser.Scope) (d : Derivation) : Prop :=
  ∀ m, nodes s d = [m] → m.buildMessage = .ok (d.message, d.warnings)

theorem buildMessageParts_eq {ds : List Derivation}
    (elements : ∀ d ∈ ds, (∃ t, d = .token t) ∨ d.From (.rule .ident) ∨
      d.MessageElement fun m => m.From (.rule .messageDef) ∧ m.Built s)
    (f : ∀ d ∈ ds, d.Faithful s) :
    ∃ ps, PartsOf ps ds ∧
      Node.buildMessageParts (nodesList s ds) =
        .ok (ps, (numbersList ds).flatMap (·.warnings)) := by
  induction ds with
  | nil => exact ⟨[], ⟨rfl, rfl, rfl⟩, rfl⟩
  | cons d ds ih =>
      obtain ⟨he, hes⟩ := List.forall_mem_cons.mp elements
      obtain ⟨fd, fds⟩ := List.forall_mem_cons.mp f
      obtain ⟨ps, parts, tail⟩ := ih hes fds
      rw [numbersList_cons, List.flatMap_append]
      obtain ⟨t, rfl⟩ | word | ⟨member, -⟩ | ⟨message, built⟩ | enum | option := he
      · refine ⟨ps, ⟨?_, ?_, ?_⟩, tail⟩
        · simpa using parts.fields
        · simpa [messages, label?] using parts.messages
        · simpa using parts.enums
      · obtain ⟨n, hn⟩ := word.nodes_eq s
        refine ⟨_, parts.other (by simp [word.label?_eq]), ?_⟩
        rw [nodesList_cons, hn, word.numbers_eq_nil (by decide)]
        exact buildMessageParts_cons (by rw [word.rooted.node_rule hn]; rfl) tail
      · obtain ⟨n, hn⟩ := member.nodes_eq s
        refine ⟨_, parts.field member.label?_eq, ?_⟩
        rw [nodesList_cons, hn]
        refine buildMessageParts_cons ?_ tail
        rw [member.rooted.node_rule hn]
        exact Build.map_ok (member.buildField fd hn)
      · obtain ⟨n, hn⟩ := message.nodes_eq s
        refine ⟨_, parts.message message.label?_eq, ?_⟩
        rw [nodesList_cons, hn]
        refine buildMessageParts_cons ?_ tail
        rw [message.rooted.node_rule hn]
        exact Build.map_ok (built n hn)
      · obtain ⟨n, hn⟩ := enum.nodes_eq s
        refine ⟨_, parts.enumDef enum.label?_eq, ?_⟩
        rw [nodesList_cons, hn]
        refine buildMessageParts_cons ?_ tail
        rw [enum.rooted.node_rule hn]
        exact Build.map_ok (enum.buildEnum fd hn)
      · obtain ⟨n, hn⟩ := option.nodes_eq s
        refine ⟨_, parts.other (by simp [option.label?_eq]), ?_⟩
        rw [nodesList_cons, hn, option.optionDecl_numbers]
        exact buildMessageParts_cons (by rw [option.rooted.node_rule hn]; rfl) tail

theorem buildMessage_eq (n : Node) : n.buildMessage = do
    let parts ← Node.buildMessageParts n.children
    return .ofParts n.lastIdent parts := by
  cases n
  rfl

theorem MessageUpTo.built {limit : Nat} (h : d.MessageUpTo limit) (f : d.Faithful s) :
    d.Built s := by
  induction limit generalizing d with
  | zero => exact absurd h messageUpTo_zero
  | succ limit ih =>
      intro n hn
      obtain ⟨ds, rfl⟩ := h.1.rooted
      have h := messageUpTo_succ.mp h
      have name := h.lastIdent rfl f hn (by
        rintro e (⟨he, -⟩ | ⟨he, -⟩ | he | he)
        all_goals simp [he.label?_eq])
      have fds := faithful_node.mp f
      have elements : ∀ e ∈ ds, (∃ t, e = .token t) ∨ e.From (.rule .ident) ∨
          e.MessageElement fun m => m.From (.rule .messageDef) ∧ m.Built s := by
        intro e mem
        refine (h.part e mem).imp_right (Or.imp_right ?_)
        rintro (field | message | enum | option)
        · exact .inl field
        · exact .inr (.inl ⟨message.1, ih message (fds e mem)⟩)
        · exact .inr (.inr (.inl enum))
        · exact .inr (.inr (.inr option))
      obtain ⟨ps, parts, built⟩ := buildMessageParts_eq elements fds
      have children : n.children = nodesList s ds := by
        rw [nodes_node, List.cons_eq_cons] at hn
        rw [← hn.1]
        rfl
      rw [buildMessage_eq, children, Build.bind_ok built rfl, name, List.append_nil, warnings,
        numbers_node (by decide) (by decide), Message.ofParts, parts.fields, parts.messages,
        parts.enums, message]

theorem From.buildMessage (h : d.From (.rule .messageDef)) (f : d.Faithful s)
    (hn : nodes s d = [n]) : n.buildMessage = .ok (d.message, d.warnings) :=
  MessageUpTo.built ⟨h, Nat.le_refl _⟩ f n hn

/-! ## Whole files -/

/-- A statement of a file. -/
def Statement (d : Derivation) : Prop :=
  d.From (.rule .syntaxDecl) ∨ d.From (.rule .packageDecl) ∨ d.From (.rule .importDecl) ∨
    d.TopLevel (·.From (.rule .messageDef))

theorem FileParts.statements {ds : List Derivation}
    (h : FileParts (·.From (.rule .messageDef)) ds) : ∀ d ∈ ds, d.Statement := by
  obtain ⟨version, package, headers, definitions, rfl, hv, hp, hh, hd⟩ := h
  intro d hmem
  simp only [List.mem_append, Option.mem_toList] at hmem
  obtain hmem | hmem | hmem | hmem := hmem
  · exact .inl (hv d hmem)
  · exact .inr (.inl (hp d hmem))
  · obtain h | h := hh d hmem
    · exact .inr (.inr (.inl h))
    · exact .inr (.inr (.inr (.inr (.inr (.inr h)))))
  · exact .inr (.inr (.inr (hd d hmem)))

/-- A schema with what one more statement declares. -/
def declare (p : Schema) (d : Derivation) : Schema :=
  match d.label? with
  | some .syntaxDecl => { p with version := Node.unquote (textOf (d.words .stringLit)) }
  | some .packageDecl => { p with package := some (dottedText (d.words .fullIdent)) }
  | some .importDecl =>
    { p with imports := p.imports ++ [Node.unquote (textOf (d.words .stringLit))] }
  | some .messageDef => { p with messages := p.messages ++ [d.message] }
  | some .enumDef => { p with enums := p.enums ++ [d.enumDef] }
  | some .serviceDef => { p with services := p.services ++ [d.service] }
  | _ => p

theorem buildOperand_eq {m : Node} {x : Symbol} {ds : List Derivation}
    (hn : nodes s (node x ds) = [n])
    (hx : x.isSpan = false) (hm : nodesList s ds = [m]) : n.buildOperand = .ok (m, []) := by
  rw [nodes_node, hx, List.cons_eq_cons] at hn
  simp [← hn.1, Node.buildOperand, hm]
  rfl

theorem Statement.add (h : d.Statement) (f : d.Faithful s) (hn : nodes s d = [n]) (p : Schema) :
    p.add n = .ok (declare p d, d.warnings) := by
  obtain h | h | h | h | h | h | h := h
  · rw [Schema.add, h.rooted.node_rule hn, declare, h.label?_eq, warnings,
      h.numbers_eq_nil (by decide)]
    obtain ⟨first, equals, version, last, rfl, -⟩ := from_syntaxDecl.mp h
    have text : (s.leaf .stringLit version).text = version.text := f version (by simp)
    refine (Build.bind_ok (buildOperand_eq hn rfl (by simp; rfl)) rfl).trans ?_
    simp [words, parts, textOf, text]
    rfl
  · rw [Schema.add, h.rooted.node_rule hn, declare, h.label?_eq, warnings,
      h.numbers_eq_nil (by decide)]
    obtain ⟨first, path, last, rfl, -, hpath, -⟩ := from_packageDecl.mp h
    obtain ⟨m, hm⟩ := hpath.nodes_eq s
    have text := hpath.fullIdent_dottedName (fun t ht => f t (by simp [ht])) hm
    refine (Build.bind_ok (buildOperand_eq hn rfl (by simp [hm]; rfl)) rfl).trans ?_
    simp [words, parts, hpath.rooted.having_cons, text]
    rfl
  · rw [Schema.add, h.rooted.node_rule hn, declare, h.label?_eq, warnings,
      h.numbers_eq_nil (by decide)]
    obtain ⟨first, visibility, path, last, rfl, -⟩ := from_importDecl.mp h
    have text : (s.leaf .stringLit path).text = path.text := f path (by simp)
    refine (Build.bind_ok (buildOperand_eq hn rfl (by simp; rfl)) rfl).trans ?_
    simp [words, parts, textOf, text]
    rfl
  · rw [Schema.add, h.rooted.node_rule hn, ← List.append_nil d.warnings, declare, h.label?_eq]
    exact Build.bind_ok (h.buildMessage f hn) rfl
  · rw [Schema.add, h.rooted.node_rule hn, ← List.append_nil d.warnings, declare, h.label?_eq]
    exact Build.bind_ok (h.buildEnum f hn) rfl
  · rw [Schema.add, h.rooted.node_rule hn, ← List.append_nil d.warnings, declare, h.label?_eq]
    exact Build.bind_ok (h.buildService f hn) rfl
  · rw [Schema.add, h.rooted.node_rule hn, declare, h.label?_eq, warnings, h.optionDecl_numbers]
    rfl

theorem Statement.nodes_eq (h : d.Statement) (s : Parser.Scope) : ∃ n, nodes s d = [n] := by
  obtain h | h | h | h | h | h | h := h
  all_goals exact h.nodes_eq s

theorem foldlM_add {ds : List Derivation} (h : ∀ d ∈ ds, d.Statement) (f : ∀ d ∈ ds, d.Faithful s)
    (p : Schema) : (nodesList s ds).foldlM Schema.add p =
      (.ok (ds.foldl declare p, ds.flatMap warnings) : Build Schema) := by
  induction ds generalizing p with
  | nil => rfl
  | cons d ds ih =>
      obtain ⟨hd, hds⟩ := List.forall_mem_cons.mp h
      obtain ⟨fd, fds⟩ := List.forall_mem_cons.mp f
      obtain ⟨n, hn⟩ := hd.nodes_eq s
      rw [nodesList_cons, hn, List.singleton_append, List.foldlM_cons, List.flatMap_cons]
      exact Build.bind_ok (hd.add fd hn p) (ih hds fds _)

theorem foldl_declare (ds : List Derivation) (p : Schema) : ds.foldl declare p =
    { version := ((having .syntaxDecl ds).getLast?.map fun d =>
        Node.unquote (textOf (d.words .stringLit))).getD p.version
      package := ((having .packageDecl ds).getLast?.map fun d =>
        some (dottedText (d.words .fullIdent))).getD p.package
      imports := p.imports ++ (having .importDecl ds).map fun d =>
        Node.unquote (textOf (d.words .stringLit))
      messages := p.messages ++ messages ds
      enums := p.enums ++ (having .enumDef ds).map enumDef
      services := p.services ++ (having .serviceDef ds).map service } := by
  induction ds generalizing p with
  | nil => simp [messages]
  | cons d ds ih =>
      rw [List.foldl_cons, ih]
      simp only [having_cons, messages]
      cases h : d.label? with
      | none => simp [declare, h]
      | some r => cases r <;> simp [declare, h, List.getLast?_cons, Option.getD_map]

/-- The tree of a derivation is built into what the derivation declares. -/
theorem From.ofTree (h : d.From (.rule .protoFile)) (f : d.Faithful s) :
    Schema.ofTree (d.tree s) = .ok (d.schema, d.warnings) := by
  obtain ⟨ds, last, rfl, parts, -⟩ := from_protoFile.mp h
  have fds := fun e he => faithful_node.mp f e (List.mem_append_left _ he)
  have children : ((node (.rule .protoFile) (ds ++ [.token last])).tree s).children =
      nodesList s ds := by
    simp [Derivation.tree, Node.root]
  rw [Schema.ofTree, children, foldlM_add parts.statements fds, foldl_declare]
  have warnings : ds.flatMap warnings =
      (node (.rule .protoFile) (ds ++ [.token last])).warnings := by
    rw [Derivation.warnings, numbers_node (by decide) (by decide), numbersList_append,
      numbersList_eq_flatMap, List.flatMap_append, List.flatMap_assoc]
    simp only [numbersList_cons, numbers_token, numbersList_nil, List.append_nil, List.flatMap_nil]
    rfl
  have package (o : Option Derivation) (g : Derivation → String) :
      (o.map fun d => some (g d)).getD none = o.map g := by
    cases o <;> rfl
  rw [warnings]
  simp [Schema.empty, schema, Derivation.parts, messages_append, messages, label?, package]
  rfl

end Derivation

end ProtoSchema
