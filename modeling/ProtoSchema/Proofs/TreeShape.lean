import ProtoSchema.Proofs.Meaning

/-! # Which trees have a schema

A tree that was put together by hand may lack nodes that a schema is built from. Which nodes count
depends on where they stand: a field counts in a message, a value in an enum, and a method in a
service at the top level. All other nodes may have any shape. A tree has a schema if and only if no
node that counts lacks a child, and otherwise the error is that of the first such node.
-/

namespace ProtoSchema

namespace Node

/-- The nodes that definitions are built from: the children of the root, and the children of every
message among them. -/
inductive Reachable (tree : Node) : Node → Prop where
  | top (child : n ∈ tree.children) : Reachable tree n
  | inner (message : Reachable tree m) (rule : m.rule = .messageDef) (child : n ∈ m.children) :
      Reachable tree n

/-- How many children a field needs: its type, its name and its tag, after the word before the type
if there is one. -/
def fieldSize (n : Node) : Nat :=
  if n.children.head?.map (·.rule) = some .fieldRule then 4 else 3

/-- Each node that counts has the children that it needs. -/
structure WellShaped (tree : Node) : Prop where
  statement : ∀ n ∈ tree.children, n.rule ∈ [.syntaxDecl, .packageDecl, .importDecl] →
    1 ≤ n.children.length
  field : ∀ m, tree.Reachable m → m.rule = .messageDef → ∀ n ∈ m.children, n.rule = .field →
    n.fieldSize ≤ n.children.length
  enumValue : ∀ m, tree.Reachable m → m.rule = .enumDef → ∀ n ∈ m.children, n.rule = .enumValue →
    2 ≤ n.children.length
  method : ∀ m ∈ tree.children, m.rule = .serviceDef → ∀ n ∈ m.children, n.rule = .rpcDef →
    3 ≤ n.children.length

/-- Where a node stands, as far as it matters. -/
inductive Place where
  /-- Directly below the root. -/
  | top
  /-- Directly in a message, all around it being messages. -/
  | message
  /-- Directly in an enum, all around it being messages. -/
  | enumDef
  /-- Directly in a service below the root. -/
  | service
  /-- Anywhere else. -/
  | elsewhere
deriving DecidableEq

/-- Where the children of a node with the given rule stand. -/
def Place.below : Place → Rule → Place
  | .top, .messageDef | .message, .messageDef => .message
  | .top, .enumDef | .message, .enumDef => .enumDef
  | .top, .serviceDef => .service
  | _, _ => .elsewhere

/-- A node stands at a place inside the tree. -/
inductive Stands (tree : Node) : Place → Node → Prop where
  | top (child : n ∈ tree.children) : Stands tree .top n
  | inner (outer : Stands tree p m) (child : n ∈ m.children) : Stands tree (p.below m.rule) n

mutual
/-- All nodes inside a node that stands at `p`, depth first, each with its place. -/
def visits (p : Place) : Node → List (Place × Node)
  | ⟨rule, _, _, _, _, _, children⟩ => visitsList (p.below rule) children

/-- Some nodes and all nodes inside them. -/
def visitsList (p : Place) : List Node → List (Place × Node)
  | [] => []
  | n :: ns => (p, n) :: (n.visits p ++ visitsList p ns)
end

/-- The error of a node that lacks a child. -/
def lack? : Place × Node → Option BuildError
  | (.top, n) =>
    if n.rule ∈ [.syntaxDecl, .packageDecl, .importDecl] ∧ n.children.length < 1 then
      some .missingChild
    else none
  | (.message, n) =>
    if n.rule = .field ∧ n.children.length < n.fieldSize then some .incompleteField else none
  | (.enumDef, n) =>
    if n.rule = .enumValue ∧ n.children.length < 2 then some .missingChild else none
  | (.service, n) =>
    if n.rule = .rpcDef ∧ n.children.length < 3 then some (.incompleteMethod n.children.length)
    else none
  | (.elsewhere, _) => none

/-- What is said about a node at a place that lacks a child. -/
def complaint? : Place × Node → Option String
  | (.message, _) => none
  | (.service, n) =>
    some ("not enough values to unpack (expected 3, got " ++ n.children.length.repr ++ ")")
  | _ => some "list index out of range"

theorem visits_eq (p : Place) (n : Node) : n.visits p = visitsList (p.below n.rule) n.children := by
  cases n
  rw [visits]

end Node

/-! ## Errors of builders -/

/-- The error of a builder that fails. -/
def Build.error? : Build α → Option BuildError
  | .error e => some e
  | .ok _ => none

namespace Build

variable {b : Build α} {f : α → Build β} {e : Option BuildError}

@[simp] theorem error?_pure (a : α) : (pure a : Build α).error? = none := rfl

@[simp] theorem error?_fail (e : BuildError) : (fail e : Build α).error? = some e := rfl

theorem error?_bind (h : ∀ a, (f a).error? = e) : (b >>= f).error? = b.error?.or e := by
  cases b with
  | error failure => rfl
  | ok result =>
      obtain ⟨a, ws⟩ := result
      change (bind (m := Build) (.ok (a, ws)) f).error? = e
      rw [ok_bind, ← h a]
      cases f a <;> rfl

@[simp] theorem error?_map (g : α → β) : (g <$> b).error? = b.error? := by
  rw [map_eq_pure_bind, error?_bind fun _ => error?_pure _, Option.or_none]

theorem error?_mapM (build : γ → Build α) (cs : List γ) :
    (cs.mapM build).error? = cs.findSome? fun c => (build c).error? := by
  induction cs with
  | nil => rfl
  | cons c cs ih =>
      rw [List.mapM_cons, error?_bind fun a => error?_bind (e := none) fun as => error?_pure _, ih,
        Option.or_none, List.findSome?_cons]
      cases (build c).error? <;> rfl

theorem error?_eq_some {failure : BuildError} : b.error? = some failure ↔ b = .error failure := by
  cases b with
  | error e => exact Option.some_inj.trans (Except.error.injEq ..).symm.to_iff
  | ok result => exact ⟨nofun, nofun⟩

theorem error?_eq_none : b.error? = none ↔ ∃ a ws, b = .ok (a, ws) := by
  cases b with
  | error e => exact ⟨nofun, nofun⟩
  | ok result => exact ⟨fun _ => ⟨_, _, rfl⟩, fun _ => rfl⟩

end Build

open Build

namespace Node

@[simp] theorem buildNumber_error? (n : Node) : n.buildNumber.error? = none := by
  unfold buildNumber
  split <;> rfl

theorem buildOperand_error? (n : Node) :
    n.buildOperand.error? = if n.children.length < 1 then some .missingChild else none := by
  unfold buildOperand
  split <;> simp_all

theorem buildField_error? (n : Node) : n.buildField.error? =
    if n.children.length < n.fieldSize then some .incompleteField else none := by
  have parts (repeated : Bool) (ns : List Node) : (buildFieldParts repeated ns).error? =
      if ns.length < 3 then some .incompleteField else none := by
    unfold buildFieldParts
    split
    · rw [error?_bind fun _ => error?_pure _, buildNumber_error?]
      simp
    · next short =>
        rw [error?_fail, if_pos]
        rcases ns with _ | ⟨a, _ | ⟨b, _ | ⟨c, ns⟩⟩⟩
        · simp
        · simp
        · simp
        · exact absurd rfl (short a b c ns)
  unfold buildField fieldSize
  split
  · next first rest children =>
      rw [children]
      by_cases rule : first.rule = .fieldRule
      · simp [rule, parts, Nat.add_lt_add_iff_right (k := 1)]
      · simp [rule, parts]
  · next children => simp [children]

theorem buildEnumValue_error? (n : Node) : n.buildEnumValue.error? =
    if n.children.length < 2 then some .missingChild else none := by
  unfold buildEnumValue
  split
  · next name number rest children =>
      rw [error?_bind fun _ => error?_pure _, buildNumber_error?]
      simp [children]
  · next short =>
      rw [error?_fail, if_pos]
      rcases children : n.children with _ | ⟨a, _ | ⟨b, ns⟩⟩
      · simp
      · simp
      · exact absurd children (short a b ns)

theorem buildMethod_error? (n : Node) : n.buildMethod.error? =
    if n.children.length < 3 then some (.incompleteMethod n.children.length) else none := by
  unfold buildMethod
  split
  · next children => simp [children]
  · next short =>
      rw [error?_fail, if_pos]
      rcases children : n.children with _ | ⟨a, _ | ⟨b, _ | ⟨c, ns⟩⟩⟩
      · simp
      · simp
      · simp
      · exact absurd children (short a b c ns)

/-! ## Errors of definitions -/

@[simp] theorem visitsList_nil (p : Place) : visitsList p [] = [] := rfl

@[simp] theorem visitsList_cons (p : Place) (n : Node) (ns : List Node) :
    visitsList p (n :: ns) = (p, n) :: (n.visits p ++ visitsList p ns) := rfl

mutual
/-- Nothing that stands elsewhere counts, and neither does anything inside it. -/
theorem visits_elsewhere : (n : Node) → (p : Place) → p.below n.rule = .elsewhere →
    (n.visits p).findSome? lack? = none
  | ⟨rule, _, _, _, _, _, children⟩, p, h => by
    rw [visits_eq, h]
    exact visitsList_elsewhere children

theorem visitsList_elsewhere : (ns : List Node) →
    (visitsList .elsewhere ns).findSome? lack? = none
  | [] => rfl
  | n :: ns => by
    rw [visitsList_cons, List.findSome?_cons, List.findSome?_append, visits_elsewhere n _ rfl,
      visitsList_elsewhere ns]
    rfl
end

theorem visitsList_flat {p : Place} (flat : ∀ r, p.below r = .elsewhere) (ns : List Node) :
    (visitsList p ns).findSome? lack? = ns.findSome? fun n => lack? (p, n) := by
  induction ns with
  | nil => rfl
  | cons n ns ih =>
      rw [visitsList_cons, List.findSome?_cons, List.findSome?_append, visits_elsewhere n p
            (flat _),
        Option.none_or, ih, List.findSome?_cons]

theorem buildEach_error? {rule : Rule} {build : Node → Build α} {p : Place}
    (flat : ∀ r, p.below r = .elsewhere)
    (each : ∀ n, lack? (p, n) = if n.rule = rule then (build n).error? else none) (n : Node) :
    (n.buildEach rule build).error? = (visitsList p n.children).findSome? lack? := by
  rw [buildEach, error?_mapM, visitsList_flat flat]
  induction n.children with
  | nil => rfl
  | cons m ms ih =>
      rw [List.findSome?_cons, each, List.filter_cons]
      by_cases same : m.rule = rule
      · rw [if_pos (beq_iff_eq.mpr same), if_pos same, List.findSome?_cons, ih]
      · rw [if_neg (by simpa using same), if_neg same, ih]

theorem buildEnum_error? (n : Node) :
    n.buildEnum.error? = (visitsList .enumDef n.children).findSome? lack? := by
  unfold buildEnum
  rw [error?_bind fun _ => error?_pure _, Option.or_none]
  refine buildEach_error? (fun _ => rfl) (fun m => ?_) n
  rw [lack?, buildEnumValue_error?, ite_and]

theorem buildService_error? (n : Node) :
    n.buildService.error? = (visitsList .service n.children).findSome? lack? := by
  unfold buildService
  rw [error?_bind fun _ => error?_pure _, Option.or_none]
  refine buildEach_error? (fun _ => rfl) (fun m => ?_) n
  rw [lack?, buildMethod_error?, ite_and]

mutual
theorem buildMessage_error? : (n : Node) →
    n.buildMessage.error? = (visitsList .message n.children).findSome? lack?
  | ⟨_, _, _, _, _, _, children⟩ => by
    rw [buildMessage, error?_bind fun _ => error?_pure _, Option.or_none]
    exact buildMessageParts_error? children

theorem buildMessageParts_error? : (ns : List Node) →
    (buildMessageParts ns).error? = (visitsList .message ns).findSome? lack?
  | [] => rfl
  | n :: ns => by
    have part (b : Build Message.Part) (h : b.error? =
        ((.message, n) :: n.visits .message).findSome? lack?) :
        (b >>= fun part => buildMessageParts ns >>= fun parts => pure (part :: parts)).error? =
          (visitsList .message (n :: ns)).findSome? lack? := by
      rw [error?_bind fun part => error?_bind fun _ => error?_pure _, Option.or_none, h,
        buildMessageParts_error? ns, visitsList_cons, ← List.cons_append, List.findSome?_append]
    rw [buildMessageParts]
    split
    · next rule =>
        refine part _ ?_
        rw [error?_map, buildField_error?, List.findSome?_cons,
          visits_elsewhere n _ (by rw [rule]; rfl)]
        simp only [lack?, rule, true_and]
        split <;> rfl
    · next rule =>
        refine part _ ?_
        rw [error?_map, buildMessage_error? n, visits_eq, rule, List.findSome?_cons]
        simp only [lack?, rule, reduceCtorEq, false_and, if_false]
        rfl
    · next rule =>
        refine part _ ?_
        rw [error?_map, buildEnum_error? n, visits_eq, rule, List.findSome?_cons]
        simp only [lack?, rule, reduceCtorEq, false_and, if_false]
        rfl
    · next field message enum =>
        refine part _ ?_
        have other : Place.message.below n.rule = .elsewhere := by
          unfold Place.below
          split <;> first | rfl | contradiction
        rw [error?_pure, List.findSome?_cons, visits_elsewhere n _ other, lack?,
          if_neg fun h => field h.1]
end

end Node

namespace Schema

open Node

theorem add_error? (s : Schema) (n : Node) :
    (s.add n).error? = ((.top, n) :: n.visits .top).findSome? lack? := by
  have alone (other : Place.top.below n.rule = .elsewhere) :
      ((.top, n) :: n.visits .top).findSome? lack? = lack? (.top, n) := by
    rw [List.findSome?_cons, visits_elsewhere n _ other]
    cases lack? (.top, n) <;> rfl
  have within (inside : n.rule ∉ [.syntaxDecl, .packageDecl, .importDecl]) :
      ((.top, n) :: n.visits .top).findSome? lack? =
        (visitsList (Place.top.below n.rule) n.children).findSome? lack? := by
    rw [List.findSome?_cons, lack?, if_neg fun h => inside h.1, visits_eq]
  unfold add
  split
  · next rule =>
      rw [error?_bind fun _ => error?_pure _, Option.or_none, alone (by rw [rule]; rfl), lack?]
      simp [rule, buildOperand_error?]
  · next rule =>
      rw [error?_bind fun _ => error?_pure _, Option.or_none, alone (by rw [rule]; rfl), lack?]
      simp [rule, buildOperand_error?]
  · next rule =>
      rw [error?_bind fun _ => error?_pure _, Option.or_none, alone (by rw [rule]; rfl), lack?]
      simp [rule, buildOperand_error?]
  · next rule =>
      rw [error?_bind fun _ => error?_pure _, Option.or_none, within (by simp [rule]), rule]
      exact buildMessage_error? n
  · next rule =>
      rw [error?_bind fun _ => error?_pure _, Option.or_none, within (by simp [rule]), rule]
      exact buildEnum_error? n
  · next rule =>
      rw [error?_bind fun _ => error?_pure _, Option.or_none, within (by simp [rule]), rule]
      exact buildService_error? n
  · next version package imports message enum service =>
      have other : Place.top.below n.rule = .elsewhere := by
        unfold Place.below
        split <;> first | rfl | contradiction
      rw [error?_pure, alone other, lack?, if_neg]
      rintro ⟨rule, -⟩
      simp only [List.mem_cons, List.not_mem_nil, or_false] at rule
      obtain rule | rule | rule := rule <;> contradiction

/-- The error of a tree is that of the first node that lacks a child. -/
theorem ofTree_error? (tree : Node) :
    (ofTree tree).error? = (visitsList .top tree.children).findSome? lack? := by
  suffices h : ∀ (ns : List Node) (s : Schema),
      (ns.foldlM add s).error? = (visitsList .top ns).findSome? lack? from h _ _
  intro ns
  induction ns with
  | nil => exact fun _ => rfl
  | cons n ns ih =>
      intro s
      rw [List.foldlM_cons, error?_bind fun p => ih p, add_error?, visitsList_cons,
        ← List.cons_append, List.findSome?_append]

end Schema

namespace Node

variable {tree m n : Node} {p : Place} {ns : List Node}

/-! ## Which nodes count -/

mutual
theorem stands_of_visits : (m : Node) → {p : Place} → tree.Stands p m →
    ∀ x ∈ m.visits p, tree.Stands x.1 x.2
  | ⟨rule, text, start, stop, line, col, children⟩, p, h => by
    rw [visits_eq]
    exact stands_of_visitsList children fun n child => .inner h child

theorem stands_of_visitsList : (ns : List Node) → {p : Place} → (∀ n ∈ ns, tree.Stands p n) →
    ∀ x ∈ visitsList p ns, tree.Stands x.1 x.2
  | [], _, _ => by simp
  | n :: ns, p, h => by
    obtain ⟨head, tail⟩ := List.forall_mem_cons.mp h
    rw [visitsList_cons, List.forall_mem_cons, List.forall_mem_append]
    exact ⟨head, stands_of_visits n head, stands_of_visitsList ns tail⟩
end

theorem mem_visitsList_self (child : n ∈ ns) : (p, n) ∈ visitsList p ns := by
  induction ns with
  | nil => cases child
  | cons m ns ih =>
      rw [visitsList_cons]
      obtain rfl | child := List.mem_cons.mp child
      · exact List.mem_cons_self
      · exact List.mem_cons_of_mem _ (List.mem_append_right _ (ih child))

mutual
theorem mem_visits_inner : (o : Node) → {q : Place} → (p, m) ∈ o.visits q → n ∈ m.children →
    (p.below m.rule, n) ∈ o.visits q
  | ⟨rule, text, start, stop, line, col, children⟩, q, h, child => by
    rw [visits_eq] at h ⊢
    exact mem_visitsList_inner children h child

theorem mem_visitsList_inner : (ns : List Node) → {q : Place} → (p, m) ∈ visitsList q ns →
    n ∈ m.children → (p.below m.rule, n) ∈ visitsList q ns
  | [], _, h, _ => by cases h
  | o :: ns, q, h, child => by
    rw [visitsList_cons, List.mem_cons, List.mem_append] at h ⊢
    obtain same | h | h := h
    · obtain ⟨rfl, rfl⟩ := Prod.mk.inj same
      rw [visits_eq]
      exact .inr (.inl (mem_visitsList_self child))
    · exact .inr (.inl (mem_visits_inner o h child))
    · exact .inr (.inr (mem_visitsList_inner ns h child))
end

/-- The visits are to each node inside the root. -/
theorem mem_visitsList : (p, n) ∈ visitsList .top tree.children ↔ tree.Stands p n := by
  constructor
  · exact stands_of_visitsList tree.children (fun _ => .top) (p, n)
  · intro stands
    induction stands with
    | top child => exact mem_visitsList_self child
    | inner _ child ih => exact mem_visitsList_inner _ ih child

theorem below_eq_top {r : Rule} : p.below r ≠ .top := by
  cases p <;> cases r <;> nofun

theorem below_eq_message {r : Rule} :
    p.below r = .message ↔ (p = .top ∨ p = .message) ∧ r = .messageDef := by
  cases p <;> cases r <;> decide

theorem below_eq_enumDef {r : Rule} :
    p.below r = .enumDef ↔ (p = .top ∨ p = .message) ∧ r = .enumDef := by
  cases p <;> cases r <;> decide

theorem below_eq_service {r : Rule} : p.below r = .service ↔ p = .top ∧ r = .serviceDef := by
  cases p <;> cases r <;> decide

/-- A node other than the root's children stands where its parent puts it. -/
theorem Stands.parent (h : tree.Stands p n) (inside : p ≠ .top) :
    ∃ q m, tree.Stands q m ∧ q.below m.rule = p ∧ n ∈ m.children := by
  cases h with
  | top child => exact absurd rfl inside
  | inner outer child => exact ⟨_, _, outer, rfl, child⟩

theorem stands_top : tree.Stands .top n ↔ n ∈ tree.children := by
  refine ⟨fun stands => ?_, .top⟩
  generalize place : Place.top = p at stands
  cases stands with
  | top child => exact child
  | inner outer child => exact absurd place.symm below_eq_top

theorem reachable_iff : tree.Reachable n ↔ tree.Stands .top n ∨ tree.Stands .message n := by
  constructor
  · intro reachable
    induction reachable with
    | top child => exact .inl (.top child)
    | @inner m n message rule child ih =>
        obtain stands | stands := ih
        · exact .inr (by simpa only [rule, Place.below] using stands.inner child)
        · exact .inr (by simpa only [rule, Place.below] using stands.inner child)
  · have reach {p : Place} (stands : tree.Stands p n) : p = .top ∨ p = .message →
        tree.Reachable n := by
      induction stands with
      | top child => exact fun _ => .top child
      | inner outer child ih =>
          intro place
          obtain ⟨above, rule⟩ := below_eq_message.mp (place.resolve_left below_eq_top)
          exact .inner (ih above) rule child
    rintro (stands | stands)
    · exact reach stands (.inl rfl)
    · exact reach stands (.inr rfl)

theorem stands_in {r : Rule} (inside : p ≠ .top)
    (place : ∀ {q r'}, Place.below q r' = p ↔ (q = .top ∨ q = .message) ∧ r' = r) :
    tree.Stands p n ↔ ∃ m, tree.Reachable m ∧ m.rule = r ∧ n ∈ m.children := by
  constructor
  · intro stands
    obtain ⟨q, m, outer, here, child⟩ := stands.parent inside
    obtain ⟨rfl | rfl, rule⟩ := place.mp here
    · exact ⟨m, reachable_iff.mpr (.inl outer), rule, child⟩
    · exact ⟨m, reachable_iff.mpr (.inr outer), rule, child⟩
  · rintro ⟨m, reachable, rule, child⟩
    obtain outer | outer := reachable_iff.mp reachable
    · exact place.mpr ⟨.inl rfl, rule⟩ ▸ outer.inner child
    · exact place.mpr ⟨.inr rfl, rule⟩ ▸ outer.inner child

theorem stands_message : tree.Stands .message n ↔
    ∃ m, tree.Reachable m ∧ m.rule = .messageDef ∧ n ∈ m.children :=
  stands_in (by decide) below_eq_message

theorem stands_enumDef : tree.Stands .enumDef n ↔
    ∃ m, tree.Reachable m ∧ m.rule = .enumDef ∧ n ∈ m.children :=
  stands_in (by decide) below_eq_enumDef

theorem stands_service : tree.Stands .service n ↔
    ∃ m ∈ tree.children, m.rule = .serviceDef ∧ n ∈ m.children := by
  constructor
  · intro stands
    obtain ⟨q, m, outer, place, child⟩ := stands.parent (by decide)
    obtain ⟨rfl, rule⟩ := below_eq_service.mp place
    exact ⟨m, stands_top.mp outer, rule, child⟩
  · rintro ⟨m, top, rule, child⟩
    exact below_eq_service.mpr ⟨rfl, rule⟩ ▸ (Stands.top top).inner child

theorem lack?_top : lack? (.top, n) = none ↔
    (n.rule ∈ [.syntaxDecl, .packageDecl, .importDecl] → 1 ≤ n.children.length) := by
  simp only [lack?, ite_eq_right_iff, reduceCtorEq, imp_false, not_and, Nat.not_lt]

theorem lack?_message : lack? (.message, n) = none ↔
    (n.rule = .field → n.fieldSize ≤ n.children.length) := by
  simp only [lack?, ite_eq_right_iff, reduceCtorEq, imp_false, not_and, Nat.not_lt]

theorem lack?_enumDef : lack? (.enumDef, n) = none ↔
    (n.rule = .enumValue → 2 ≤ n.children.length) := by
  simp only [lack?, ite_eq_right_iff, reduceCtorEq, imp_false, not_and, Nat.not_lt]

theorem lack?_service : lack? (.service, n) = none ↔
    (n.rule = .rpcDef → 3 ≤ n.children.length) := by
  simp only [lack?, ite_eq_right_iff, reduceCtorEq, imp_false, not_and, Nat.not_lt]

/-- A tree is well shaped if no node inside it lacks a child. -/
theorem wellShaped_iff : tree.WellShaped ↔ ∀ p n, tree.Stands p n → lack? (p, n) = none := by
  constructor
  · intro shaped p n stands
    cases p with
    | top => exact lack?_top.mpr (shaped.statement n (stands_top.mp stands))
    | message =>
        obtain ⟨m, reachable, rule, child⟩ := stands_message.mp stands
        exact lack?_message.mpr (shaped.field m reachable rule n child)
    | enumDef =>
        obtain ⟨m, reachable, rule, child⟩ := stands_enumDef.mp stands
        exact lack?_enumDef.mpr (shaped.enumValue m reachable rule n child)
    | service =>
        obtain ⟨m, top, rule, child⟩ := stands_service.mp stands
        exact lack?_service.mpr (shaped.method m top rule n child)
    | elsewhere => rfl
  · intro full
    refine ⟨fun n child => ?_, fun m reachable rule n child => ?_,
      fun m reachable rule n child => ?_, fun m top rule n child => ?_⟩
    · exact lack?_top.mp (full _ n (stands_top.mpr child))
    · exact lack?_message.mp (full _ n (stands_message.mpr ⟨m, reachable, rule, child⟩))
    · exact lack?_enumDef.mp (full _ n (stands_enumDef.mpr ⟨m, reachable, rule, child⟩))
    · exact lack?_service.mp (full _ n (stands_service.mpr ⟨m, top, rule, child⟩))

theorem complaint?_eq {x : Place × Node} {e : BuildError} (h : lack? x = some e) :
    e.message? = complaint? x := by
  unfold lack? at h
  split at h
  · obtain ⟨-, ⟨⟩⟩ := Option.ite_none_right_eq_some.mp h
    rfl
  · obtain ⟨-, ⟨⟩⟩ := Option.ite_none_right_eq_some.mp h
    rfl
  · obtain ⟨-, ⟨⟩⟩ := Option.ite_none_right_eq_some.mp h
    rfl
  · obtain ⟨-, ⟨⟩⟩ := Option.ite_none_right_eq_some.mp h
    rfl
  · cases h

end Node

namespace Schema

open Node

/-- A tree has a schema if and only if each node that counts has the children that it needs.
Otherwise the error is that of the first node, depth first, that lacks one. -/
theorem ofTree_shape (tree : Node) :
    ((∃ p ws, ofTree tree = .ok (p, ws)) ↔ tree.WellShaped) ∧
    ∀ e, ofTree tree = .error e ↔ ∃ before x after,
      visitsList .top tree.children = before ++ x :: after ∧ lack? x = some e ∧
        e.message? = complaint? x ∧ ∀ y ∈ before, lack? y = none := by
  constructor
  · rw [← error?_eq_none, ofTree_error?, List.findSome?_eq_none_iff, wellShaped_iff, Prod.forall]
    simp only [mem_visitsList]
  · intro e
    rw [← error?_eq_some, ofTree_error?, List.findSome?_eq_some_iff]
    constructor
    · rintro ⟨before, x, after, visits, lack, first⟩
      exact ⟨before, x, after, visits, lack, complaint?_eq lack, first⟩
    · rintro ⟨before, x, after, visits, lack, -, first⟩
      exact ⟨before, x, after, visits, lack, first⟩

end Schema

end ProtoSchema
