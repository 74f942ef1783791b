import ProtoSchema.Proofs.Scalars
import ProtoSchema.Schema.Json

/-! # Which schemas have a document

A schema of strings, integers and booleans is written unless there is no room for the calls that
copying it takes or one of its tags and enum numbers has too many digits.
-/

namespace ProtoSchema

namespace Json

/-- An integer that is short enough to be written. -/
def Short (n : Int) : Prop :=
  n.natAbs < Nat.pow 10 digitLimit

namespace Value

@[simp] theorem fault?_null : fault? .null = none := rfl

@[simp] theorem fault?_bool (b : Bool) : fault? (.bool b) = none := rfl

@[simp] theorem fault?_str (s : String) : fault? (.str s) = none := rfl

@[simp] theorem fault?_int {n : Int} : fault? (.int n) = none ↔ Short n := by
  simp only [fault?, Short]
  split <;> simp_all

@[simp] theorem fault?_list {vs : List Value} :
    fault? (.list vs) = none ↔ ∀ v ∈ vs, v.fault? = none := by
  rw [fault?]
  induction vs with
  | nil => simp [faultInItems?]
  | cons v vs ih => rw [faultInItems?, Option.or_eq_none_iff, ih, List.forall_mem_cons]

@[simp] theorem fault?_object {members : List (String × Value)} :
    fault? (.object members) = none ↔ ∀ m ∈ members, m.2.fault? = none := by
  rw [fault?]
  induction members with
  | nil => simp [faultInMembers?]
  | cons m members ih =>
      rw [faultInMembers?, Option.or_eq_none_iff, ih, List.forall_mem_cons]

end Value

end Json

open Json

variable {τ π ι ν β : Type}

/-- The numbers of an enum. -/
def EnumDef.numbers (e : EnumDef τ ν) : List ν :=
  e.values.map (·.number)

namespace Message

mutual
/-- The tags and enum numbers inside a message. -/
def numbers : Message τ ν β → List ν
  | ⟨_, fields, messages, enums⟩ =>
    fields.map (·.tag) ++ (numbersList messages ++ enums.flatMap (·.numbers))

/-- The tags and enum numbers inside some messages. -/
def numbersList : List (Message τ ν β) → List ν
  | [] => []
  | m :: ms => m.numbers ++ numbersList ms
end

end Message

/-- The tags and enum numbers of a schema. -/
def SchemaOf.numbers (p : SchemaOf τ π ι ν β) : List ν :=
  Message.numbersList p.messages ++ p.enums.flatMap (·.numbers)

theorem Field.fault?_toJson {f : Field String Int Bool} :
    f.toJson.fault? = none ↔ Short f.tag := by
  simp [Field.toJson, JsonLeaf.toJson]

theorem EnumDef.fault?_toJson {e : EnumDef String Int} :
    e.toJson.fault? = none ↔ ∀ n ∈ e.numbers, Short n := by
  simp [EnumDef.toJson, EnumValue.toJson, EnumDef.numbers, JsonLeaf.toJson]

theorem Service.fault?_toJson (s : Service String) : s.toJson.fault? = none := by
  simp [Service.toJson, Method.toJson, JsonLeaf.toJson]

namespace Message

mutual
theorem fault?_toJson : (m : Message String Int Bool) →
    (m.toJson.fault? = none ↔ ∀ n ∈ m.numbers, Short n)
  | ⟨name, fields, messages, enums⟩ => by
    simp only [toJson, numbers, JsonLeaf.toJson, Value.fault?_object, Value.fault?_list,
      Value.fault?_str, Field.fault?_toJson, EnumDef.fault?_toJson, fault?_toJsonList messages,
      List.forall_mem_cons, List.forall_mem_append, List.forall_mem_map, List.forall_mem_flatMap,
      List.not_mem_nil, false_implies, implies_true, and_true, true_and]

theorem fault?_toJsonList : (ms : List (Message String Int Bool)) →
    ((∀ v ∈ toJsonList ms, v.fault? = none) ↔ ∀ n ∈ numbersList ms, Short n)
  | [] => by simp [toJsonList, numbersList]
  | m :: ms => by
    rw [toJsonList, numbersList, List.forall_mem_cons, List.forall_mem_append, fault?_toJson m,
      fault?_toJsonList ms]
end

end Message

section Depth

variable [JsonLeaf τ] [JsonLeaf π] [JsonLeaf ι] [JsonLeaf ν] [JsonLeaf β]

namespace Message

mutual
theorem depth_le_calls : (m : Message τ ν β) → 3 * m.depth ≤ m.toJson.calls
  | ⟨name, fields, messages, enums⟩ => by
    have inner := depth_le_callsOfItems messages
    simp only [depth, toJson, Value.calls, Value.callsOfMembers, Value.listCalls,
      Value.objectCalls]
    omega

theorem depth_le_callsOfItems : (ms : List (Message τ ν β)) →
    3 * depthList ms ≤ Value.callsOfItems (toJsonList ms)
  | [] => Nat.le_refl 0
  | m :: ms => by
    have first := depth_le_calls m
    have rest := depth_le_callsOfItems ms
    simp only [depthList, toJsonList, Value.callsOfItems]
    omega
end

end Message

namespace SchemaOf

theorem depth_le_calls (p : SchemaOf τ π ι ν β) : 3 * p.depth + 3 ≤ p.toJson.calls := by
  have inner := Message.depth_le_callsOfItems p.messages
  simp only [depth, toJson, Value.calls, Value.callsOfMembers, Value.listCalls, Value.objectCalls]
  omega

/-- A schema whose messages alone are nested too deeply has no document. -/
theorem render_tooDeep {p : SchemaOf τ π ι ν β} {room : Nat} (copied : p.toJson.Copied)
    (deep : room < 3 * p.depth + 3) (l : Layout) : p.render room l = .error .tooDeep := by
  have lacks : room < p.toJson.calls := Nat.lt_of_lt_of_le deep p.depth_le_calls
  rw [render, toDict?, copied.tooDeep lacks]
  rfl

end SchemaOf

end Depth

namespace SchemaOf

theorem fault?_toJson {p : Schema} : p.toJson.fault? = none ↔ ∀ n ∈ p.numbers, Short n := by
  have package : (JsonLeaf.toJson p.package).fault? = none := by
    cases p.package <;> rfl
  have imports : (JsonLeaf.toJson p.imports).fault? = none := by
    simp [JsonLeaf.toJson]
  simp only [toJson, numbers, Value.fault?_object, Value.fault?_list, package, imports,
    show (JsonLeaf.toJson p.version).fault? = none from rfl, EnumDef.fault?_toJson,
    Service.fault?_toJson, Message.fault?_toJsonList, List.forall_mem_cons, List.forall_mem_append,
    List.forall_mem_map, List.forall_mem_flatMap, List.not_mem_nil, false_implies, implies_true,
    and_true, true_and]

/-- A schema that has a document. -/
def Writable (room : Nat) (p : Schema) : Prop :=
  p.toJson.calls ≤ room ∧ ∀ n ∈ p.numbers, Short n

theorem render_of_fault? {p : SchemaOf τ π ι ν β} [JsonLeaf τ] [JsonLeaf π] [JsonLeaf ι]
    [JsonLeaf ν] [JsonLeaf β] (writable : p.toJson.fault? = none) (room : Nat) (l : Layout) :
    p.render room l = if p.toJson.calls ≤ room then .ok (String.ofList (p.toJson.write l 0))
      else .error .tooDeep := by
  rw [render, toDict?, (Value.copied_of_fault? writable).copyError?]
  by_cases fits : p.toJson.calls ≤ room
  · simp only [if_pos fits, Value.render, writable]
    rfl
  · simp only [if_neg fits]
    rfl

/-- Where its numbers are short, only room decides whether a schema is written. -/
theorem render_eq {p : Schema} (short : ∀ n ∈ p.numbers, Short n) (room : Nat) (l : Layout) :
    p.render room l = if p.toJson.calls ≤ room then .ok (String.ofList (p.toJson.write l 0))
      else .error .tooDeep :=
  render_of_fault? (fault?_toJson.mpr short) room l

end SchemaOf

end ProtoSchema
