import ProtoSchema.Proofs.Positions

/-! # Parts of derivations

A part of a derivation stands between the tokens before it and the tokens after it. Every node of a
tree is made by such a part, and every part with a node has tokens.
-/

namespace ProtoSchema

open Computability

theorem Symbol.file_not_mem_uses (x : Symbol) : .rule .protoFile ∉ x.uses := by
  obtain r | _ := x
  · cases r <;> simp [Symbol.uses]
  · simp [Symbol.uses]

namespace Derivation

/-- `e` occurs in a derivation, after the tokens `front` and before the tokens `back` of it. -/
inductive Occurs (e : Derivation) : List Token → Derivation → List Token → Prop where
  | here : Occurs e [] e []
  | inside {x : Symbol} {d : Derivation} {front back : List Token} (left right : List Derivation)
      (h : Occurs e front d back) :
      Occurs e (yieldList left ++ front) (.node x (left ++ d :: right)) (back ++ yieldList right)

variable {s : Parser.Scope} {x y : Symbol} {d e : Derivation} {front back : List Token} {n m : Node}

theorem Occurs.yield_eq (h : e.Occurs front d back) : d.yield = front ++ (e.yield ++ back) := by
  induction h with
  | here => simp
  | inside left right _ ih => simp [ih]

theorem Occurs.valid (h : e.Occurs front d back) (hd : d.Valid) : e.Valid := by
  induction h with
  | here => exact hd
  | inside left right _ ih =>
      obtain _ | ⟨_, valid⟩ := hd
      exact ih (valid _ (by simp))

theorem Occurs.symbol_ne (h : e.Occurs front d back) (hd : d.Valid)
    (file : ¬d.Rooted (.rule .protoFile)) : ¬e.Rooted (.rule .protoFile) := by
  induction h with
  | here => exact file
  | @inside x d front back left right _ ih =>
      obtain _ | ⟨form, valid⟩ := hd
      refine ih (valid _ (by simp)) ?_
      rintro ⟨parts, rfl⟩
      exact Symbol.file_not_mem_uses x
        (production_inner x _ form _ (List.mem_append_right _ List.mem_cons_self))

theorem occurs_of_within (h : n.Within m) (hm : m ∈ nodes s d) :
    ∃ front e back, e.Occurs front d back ∧ nodes s e = [n] := by
  induction h generalizing d with
  | root =>
      cases d with
      | token t => simp at hm
      | node x parts =>
          rw [nodes_node, List.mem_singleton] at hm
          exact ⟨[], _, [], .here, by rw [nodes_node, hm]⟩
  | @inside c m child _ ih =>
      cases d with
      | token t => simp at hm
      | node x parts =>
          rw [nodes_node, List.mem_singleton] at hm
          subst hm
          rw [Parser.Scope.node_children] at child
          have child : c ∈ nodesList s parts := by
            split at child
            · simp at child
            · exact child
          rw [nodesList_eq_flatMap] at child
          obtain ⟨part, hpart, hc⟩ := List.mem_flatMap.mp child
          obtain ⟨left, right, rfl⟩ := List.append_of_mem hpart
          obtain ⟨front, e, back, occurs, he⟩ := ih hc
          exact ⟨_, e, _, .inside left right occurs, he⟩

theorem rooted_of_nodes (h : nodes s d = [n]) : ∃ x, d.Rooted x ∧ x.label = n.rule := by
  cases d with
  | token t => simp at h
  | node x parts =>
      have root : (node x parts).Rooted x := ⟨parts, rfl⟩
      exact ⟨x, root, (root.node_rule h).symm⟩

/-! ## Parts have tokens -/

theorem nil_mem_mul {L M : Language Derivation} : [] ∈ L * M ↔ [] ∈ L ∧ [] ∈ M := by
  simp [Language.mem_mul]

theorem nil_mem_sup {L M : Language Derivation} : [] ∈ L ⊔ M ↔ [] ∈ L ∨ [] ∈ M :=
  Iff.rfl

theorem nil_not_mem_letter (p : Token → Prop) : [] ∉ letter p := by
  rintro ⟨t, -, h⟩
  cases h

theorem nil_not_mem_symbolWhere (x : Symbol) (p : List Token → Prop) : [] ∉ symbolWhere x p := by
  rintro ⟨d, -, -, h⟩
  cases h

theorem nil_not_mem_production (x : Symbol) : [] ∉ production x := by
  obtain r | _ := x
  · cases r
    all_goals
      simp [production, form, body, nil_mem_mul, nil_mem_sup, kind, word, wordOf, rule, symbol,
        nil_not_mem_letter, nil_not_mem_symbolWhere]
  · simp [production, nil_mem_mul, nil_mem_sup, kind, rule, symbol, nil_not_mem_letter,
      nil_not_mem_symbolWhere]

theorem Valid.yield_ne_nil (h : d.Valid) : d.yield ≠ [] := by
  induction h with
  | token t => simp
  | @node x parts form valid ih =>
      cases parts with
      | nil => exact absurd form (nil_not_mem_production x)
      | cons part parts =>
          rw [yield_node, yieldList_cons]
          exact List.append_ne_nil_of_left_ne_nil (ih part List.mem_cons_self) _

end Derivation

end ProtoSchema
