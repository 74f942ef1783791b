import ProtoSchema.Limits
import ProtoSchema.Proofs.JsonRoundTrip
import ProtoSchema.Proofs.Stages

/-! # Documents stand for their schemas

A reader of JSON gets back just the value of the schema from its document, in both layouts, and the
value determines the schema. So two schemas are the same if and only if their documents are.
-/

namespace ProtoSchema

open Json

theorem Field.toJson_injective :
    Function.Injective (toJson (τ := String) (ν := Int) (β := Bool)) := by
  rintro ⟨⟩ ⟨⟩ h
  simpa [toJson, JsonLeaf.toJson] using h

theorem EnumValue.toJson_injective : Function.Injective (toJson (τ := String) (ν := Int)) := by
  rintro ⟨⟩ ⟨⟩ h
  simpa [toJson, JsonLeaf.toJson] using h

theorem EnumDef.toJson_injective : Function.Injective (toJson (τ := String) (ν := Int)) := by
  rintro ⟨⟩ ⟨⟩ h
  simpa [toJson, JsonLeaf.toJson, (List.map_injective_iff.mpr EnumValue.toJson_injective).eq_iff]
    using h

theorem Method.toJson_injective : Function.Injective (toJson (τ := String)) := by
  rintro ⟨⟩ ⟨⟩ h
  simpa [toJson, JsonLeaf.toJson] using h

theorem Service.toJson_injective : Function.Injective (toJson (τ := String)) := by
  rintro ⟨⟩ ⟨⟩ h
  simpa [toJson, JsonLeaf.toJson, (List.map_injective_iff.mpr Method.toJson_injective).eq_iff]
    using h

namespace Message

mutual
theorem toJson_eq : {m m' : Message String Int Bool} → m.toJson = m'.toJson → m = m'
  | ⟨_, _, ms, _⟩, ⟨_, _, ms', _⟩, h => by
    have fields := List.map_injective_iff.mpr Field.toJson_injective
    have enums := List.map_injective_iff.mpr EnumDef.toJson_injective
    simp only [toJson, JsonLeaf.toJson, Value.object.injEq, List.cons.injEq, Prod.mk.injEq,
      Value.str.injEq, Value.list.injEq, true_and, and_true, fields.eq_iff, enums.eq_iff] at h
    obtain ⟨rfl, rfl, messages, rfl⟩ := h
    rw [toJsonList_eq messages]

theorem toJsonList_eq : {ms ms' : List (Message String Int Bool)} →
    toJsonList ms = toJsonList ms' → ms = ms'
  | [], [], _ => rfl
  | m :: ms, m' :: ms', h => by
    obtain ⟨head, tail⟩ := List.cons_eq_cons.mp h
    rw [toJson_eq head, toJsonList_eq tail]
end

end Message

namespace SchemaOf

theorem toJson_injective : Function.Injective (toJson : Schema → Value) := by
  rintro ⟨_, package, _, _, _, _⟩ ⟨_, package', _, _, _, _⟩ h
  have imports : Function.Injective (List.map Value.str) :=
    List.map_injective_iff.mpr fun _ _ => Value.str.inj
  have enums := List.map_injective_iff.mpr EnumDef.toJson_injective
  have services := List.map_injective_iff.mpr Service.toJson_injective
  simp only [toJson, JsonLeaf.toJson, Value.object.injEq, List.cons.injEq, Prod.mk.injEq,
    Value.str.injEq, Value.list.injEq, true_and, and_true, imports.eq_iff, enums.eq_iff,
    services.eq_iff] at h
  obtain ⟨rfl, same, rfl, messages, rfl, rfl⟩ := h
  obtain rfl : package = package' := by
    cases package <;> cases package' <;> simp_all
  rw [Message.toJsonList_eq messages]

variable {room : Nat}

theorem Writable.read {p : Schema} (h : p.Writable room) (l : Layout) :
    ∃ text, p.render room l = .ok text ∧ Json.read text = some p.toJson :=
  ⟨_, (render_eq h.2 room l).trans (if_pos h.1), read_write l (fault?_toJson.mpr h.2)⟩

theorem Writable.render_inj {p q : Schema} (hp : p.Writable room) (hq : q.Writable room)
    {l : Layout} (same : p.render room l = q.render room l) : p = q := by
  obtain ⟨text, written, back⟩ := hp.read l
  obtain ⟨text', written', back'⟩ := hq.read l
  obtain rfl := Except.ok.inj (written.symm.trans (same.trans written'))
  exact toJson_injective (Option.some.inj (back.symm.trans back'))

end SchemaOf

namespace Schema

theorem ofText_writable {limit room : Nat} {source : List Char} {p : Schema} {ws : List Warning}
    (h : ofText limit source = .ok (p, ws)) (fits : p.toJson.calls ≤ room) : p.Writable room :=
  ⟨fits, fun n mem => (ofText_inRange h n mem).short⟩

/-- Every schema that there is room to copy, and that has no number with too many digits, has a
document in each layout from which a reader gets back its value. Among such schemas, and among those
of texts, the same document means the same schema. -/
theorem document_faithful (limit room : Nat) (l : Layout) :
    (∀ p : Schema, p.Writable room →
      ∃ text, p.render room l = .ok text ∧ Json.read text = some p.toJson) ∧
    (∀ p q : Schema, p.Writable room → q.Writable room →
      (p.render room l = q.render room l ↔ p = q)) ∧
    ∀ source source' p p' ws ws', ofText limit source = .ok (p, ws) →
      ofText limit source' = .ok (p', ws') → p.toJson.calls ≤ room → p'.toJson.calls ≤ room →
        (p = p' ↔ p.render room l = p'.render room l) := by
  refine ⟨fun p hp => hp.read l,
    fun p q hp hq => ⟨hp.render_inj hq, congrArg (SchemaOf.render room l)⟩, ?_⟩
  intro source source' p p' ws ws' h h' fits fits'
  exact ⟨congrArg (SchemaOf.render room l),
    (ofText_writable h fits).render_inj (ofText_writable h' fits')⟩

/-- A schema with escapes in a string, an indented document and a negative number. -/
theorem document_faithful_escapes :
    let m : Message String Int Bool := ⟨"A", [⟨"x", "int32", -1, true⟩], [], []⟩
    let p : Schema := ⟨"proto3", none, ["a\"b\\c\n"], [m], [], []⟩
    p.Writable 12 ∧
      ∃ text, p.render 12 .indented = .ok text ∧ Json.read text = some p.toJson := by
  intro m p
  have short : ∀ n ∈ p.numbers, Short n := by
    intro n mem
    obtain rfl : n = -1 := List.mem_singleton.mp mem
    exact Number.InRange.short ⟨by decide, by decide⟩
  have writable : p.Writable 12 := ⟨by decide, short⟩
  exact ⟨writable, (document_faithful 0 12 .indented).1 p writable⟩

end Schema

namespace Message

/-- Empty messages inside each other, `n` of them inside the outermost one. -/
def nested : Nat → Message String Int Bool
  | 0 => ⟨"A", [], [], []⟩
  | n + 1 => ⟨"A", [], [nested n], []⟩

theorem depth_nested (n : Nat) : (nested n).depth = n + 1 := by
  induction n with
  | zero => rfl
  | succ n ih => simp [nested, depth, depthList, ih]

theorem numbers_nested (n : Nat) : (nested n).numbers = [] := by
  induction n with
  | zero => rfl
  | succ n ih => simp [nested, numbers, numbersList, ih]

end Message

/-- A file with messages inside each other. -/
def Schema.nested (n : Nat) : Schema :=
  { Schema.empty with messages := [Message.nested n] }

theorem Schema.numbers_nested (n : Nat) : (nested n).numbers = [] := by
  simp [nested, SchemaOf.numbers, Message.numbersList, Message.numbers_nested, empty]

theorem Schema.depth_nested (n : Nat) : (nested n).depth = n + 1 := by
  simp [nested, SchemaOf.depth, Message.depthList, Message.depth_nested]

theorem Schema.render_nested {n room : Nat} (deep : room < 3 * (n + 1) + 3) (l : Layout) :
    (nested n).render room l = .error .tooDeep := by
  have written : (nested n).toJson.fault? = none :=
    SchemaOf.fault?_toJson.mpr (by simp [numbers_nested])
  exact SchemaOf.render_tooDeep (Value.copied_of_fault? written) (by rwa [depth_nested]) l

/-- Not every schema of short numbers has a document: six hundred messages inside each other have
none. -/
theorem Schema.nested_unwritten :
    let room := Limits.usual.calls
    (nested 599).render room .compact = .error .tooDeep ∧
      ¬∀ p : Schema, (∀ n ∈ p.numbers, Short n) →
        ∀ l, ∃ text, p.render room l = .ok text ∧ Json.read text = some p.toJson := by
  intro room
  have short : ∀ n ∈ (nested 599).numbers, Short n := by
    simp [numbers_nested]
  have unwritten : (nested 599).render room .compact = .error .tooDeep :=
    render_nested (by decide) .compact
  refine ⟨unwritten, fun h => ?_⟩
  obtain ⟨text, written, -⟩ := h (nested 599) short .compact
  cases unwritten.symm.trans written

end ProtoSchema
