import ProtoSchema.Json.Copy
import Mathlib.Data.Nat.Digits.Defs

/-! # Values without parts

What keeps a value from being copied, or from being written, is one of the values without parts
inside it. It is the first such one in the order of writing, as long as there is room for the calls
that copying takes.
-/

namespace ProtoSchema.Json.Value

mutual
/-- The values without parts inside a value, at any depth, in the order of writing. -/
def scalars : Value → List Value
  | .null => [.null]
  | .bool b => [.bool b]
  | .int n => [.int n]
  | .str s => [.str s]
  | .list items => scalarsOfItems items
  | .object members => scalarsOfMembers members
  | .foreign f => [.foreign f]

def scalarsOfItems : List Value → List Value
  | [] => []
  | v :: vs => v.scalars ++ scalarsOfItems vs

def scalarsOfMembers : List (String × Value) → List Value
  | [] => []
  | (_, v) :: members => v.scalars ++ scalarsOfMembers members
end

@[simp] theorem scalars_list (vs : List Value) : (list vs).scalars = vs.flatMap scalars := by
  rw [scalars]
  induction vs with
  | nil => rfl
  | cons v vs ih => rw [scalarsOfItems, ih, List.flatMap_cons]

@[simp] theorem scalars_object (members : List (String × Value)) :
    (object members).scalars = members.flatMap (·.2.scalars) := by
  rw [scalars]
  induction members with
  | nil => rfl
  | cons m members ih => rw [scalarsOfMembers, ih, List.flatMap_cons]

/-! ## Writing -/

/-- Why a value without parts has no written form: it has a foreign type, or too many digits. -/
def offence? : Value → Option Fault
  | .int n => if digitLimit < (Nat.toDigits 10 n.natAbs).length then some .tooManyDigits else none
  | .foreign f => some (.foreign f.typeName)
  | _ => none

theorem length_toDigits_le {n k : Nat} (h : 0 < k) :
    (Nat.toDigits 10 n).length ≤ k ↔ n < Nat.pow 10 k :=
  Nat.length_toDigits_le_iff (by decide) h

theorem fault?_int_eq (n : Int) : fault? (.int n) = offence? (.int n) := by
  simp only [fault?, offence?, ← length_toDigits_le (show 0 < digitLimit by decide), ← not_lt,
    ite_not]

mutual
/-- The value that cannot be written first is the first one without parts that cannot. -/
theorem fault?_eq : (v : Value) → v.fault? = v.scalars.findSome? offence?
  | .null | .bool _ | .str _ | .foreign _ => rfl
  | .int n => by simp [scalars, fault?_int_eq]
  | .list items => faultInItems?_eq items
  | .object members => faultInMembers?_eq members

theorem faultInItems?_eq : (vs : List Value) →
    faultInItems? vs = (scalarsOfItems vs).findSome? offence?
  | [] => rfl
  | v :: vs => by
    rw [faultInItems?, scalarsOfItems, List.findSome?_append, fault?_eq v, faultInItems?_eq vs]

theorem faultInMembers?_eq : (members : List (String × Value)) →
    faultInMembers? members = (scalarsOfMembers members).findSome? offence?
  | [] => rfl
  | (_, v) :: members => by
    rw [faultInMembers?, scalarsOfMembers, List.findSome?_append, fault?_eq v,
      faultInMembers?_eq members]
end

/-! ## Copying -/

/-- What is raised in copying a value without parts, given room for it. -/
def refusal? : Value → Option CopyError
  | .foreign f => f.copyError?
  | _ => none

/-- No value without parts is refused a copy. -/
def Copied (v : Value) : Prop :=
  ∀ u ∈ v.scalars, u.refusal? = none

/-- Only a foreign value can be refused a copy, and no value with one is written. -/
theorem copied_of_fault? {v : Value} (h : v.fault? = none) : v.Copied := by
  rw [fault?_eq, List.findSome?_eq_none_iff] at h
  intro u mem
  cases u with
  | foreign f => cases h _ mem
  | _ => rfl

mutual
/-- Given room, copying raises what the first value without parts raises that is refused. -/
theorem copyError?_of_calls_le : {room : Nat} → (v : Value) → v.calls ≤ room →
    v.copyError? room = v.scalars.findSome? refusal?
  | _, .null, h | _, .bool _, h | _, .int _, h | _, .str _, h => if_pos h
  | _, .foreign f, h => by
    rw [calls] at h
    rw [copyError?, if_pos h, scalars, List.findSome?_singleton]
    rfl
  | _, .list items, h => by
    rw [calls] at h
    rw [copyError?, if_pos (Nat.le_of_add_left_le h), scalars]
    exact copyErrorInItems?_of_calls_le items (Nat.le_sub_of_add_le h)
  | _, .object members, h => by
    rw [calls] at h
    rw [copyError?, if_pos (Nat.le_of_add_left_le h), scalars]
    exact copyErrorInMembers?_of_calls_le members (Nat.le_sub_of_add_le h)

theorem copyErrorInItems?_of_calls_le : {room : Nat} → (vs : List Value) → callsOfItems vs ≤ room →
    copyErrorInItems? room vs = (scalarsOfItems vs).findSome? refusal?
  | _, [], _ => rfl
  | _, v :: vs, h => by
    obtain ⟨first, rest⟩ := Nat.max_le.mp h
    rw [copyErrorInItems?, scalarsOfItems, List.findSome?_append, copyError?_of_calls_le v first,
      copyErrorInItems?_of_calls_le vs rest]

theorem copyErrorInMembers?_of_calls_le : {room : Nat} → (members : List (String × Value)) →
    callsOfMembers members ≤ room →
      copyErrorInMembers? room members = (scalarsOfMembers members).findSome? refusal?
  | _, [], _ => rfl
  | _, (_, v) :: members, h => by
    obtain ⟨first, rest⟩ := Nat.max_le.mp h
    rw [copyErrorInMembers?, scalarsOfMembers, List.findSome?_append,
      copyError?_of_calls_le v first, copyErrorInMembers?_of_calls_le members rest]
end

theorem Copied.findSome? {v : Value} (h : v.Copied) : v.scalars.findSome? refusal? = none :=
  List.findSome?_eq_none_iff.mpr h

mutual
/-- Where nothing else is raised, a lack of room is. -/
theorem Copied.tooDeep : {room : Nat} → {v : Value} → v.Copied → room < v.calls →
    v.copyError? room = some .tooDeep
  | _, .null, _, h | _, .bool _, _, h | _, .int _, _, h | _, .str _, _, h | _, .foreign _, _, h =>
    if_neg (Nat.not_le_of_lt h)
  | room, .list items, copied, h => by
    rw [calls] at h
    rw [copyError?]
    split
    · exact tooDeepInItems copied (by omega)
    · rfl
  | room, .object members, copied, h => by
    rw [calls] at h
    rw [copyError?]
    split
    · exact tooDeepInMembers copied (by omega)
    · rfl

theorem Copied.tooDeepInItems : {room : Nat} → {vs : List Value} →
    (∀ u ∈ scalarsOfItems vs, u.refusal? = none) → room < callsOfItems vs →
      copyErrorInItems? room vs = some .tooDeep
  | room, v :: vs, copied, h => by
    obtain ⟨first, rest⟩ := List.forall_mem_append.mp copied
    rw [copyErrorInItems?]
    by_cases fits : v.calls ≤ room
    · rw [copyError?_of_calls_le v fits, Copied.findSome? first, Option.none_or]
      exact tooDeepInItems rest ((lt_max_iff.mp h).resolve_left (Nat.not_lt_of_le fits))
    · rw [Copied.tooDeep first (Nat.lt_of_not_le fits)]
      rfl

theorem Copied.tooDeepInMembers : {room : Nat} → {members : List (String × Value)} →
    (∀ u ∈ scalarsOfMembers members, u.refusal? = none) → room < callsOfMembers members →
      copyErrorInMembers? room members = some .tooDeep
  | room, (_, v) :: members, copied, h => by
    obtain ⟨first, rest⟩ := List.forall_mem_append.mp copied
    rw [copyErrorInMembers?]
    by_cases fits : v.calls ≤ room
    · rw [copyError?_of_calls_le v fits, Copied.findSome? first, Option.none_or]
      exact tooDeepInMembers rest ((lt_max_iff.mp h).resolve_left (Nat.not_lt_of_le fits))
    · rw [Copied.tooDeep first (Nat.lt_of_not_le fits)]
      rfl
end

/-- Where no value is refused a copy, room is all that copying takes. -/
theorem Copied.copyError? {v : Value} (h : v.Copied) (room : Nat) :
    v.copyError? room = if v.calls ≤ room then none else some .tooDeep := by
  split
  · next fits => rw [copyError?_of_calls_le v fits, h.findSome?]
  · next lacks => exact h.tooDeep (Nat.lt_of_not_le lacks)

end ProtoSchema.Json.Value
