import ProtoSchema.Limits
import ProtoSchema.Proofs.Writable

/-! # What stops a document

A document is written piece by piece: texts that depend on the layout, and values without parts that
do not. It stops at the first value that has no written form. Copying comes before that and stops at
the first value that is refused a copy. So a schema is refused for the first value of the one kind
or, if there is none, of the other, and for the same one in both layouts.
-/

namespace ProtoSchema

namespace Json

/-- A piece of a document: text of the layout, or a value without parts. -/
inductive Piece where
  /-- Brackets, separators, blanks and keys. -/
  | text (cs : List Char)
  /-- A value without parts. -/
  | scalar (v : Value)

namespace Value

mutual
/-- The pieces of a value that stands at the given depth. -/
def pieces (l : Layout) (depth : Nat) : Value → List Piece
  | .null => [.scalar .null]
  | .bool b => [.scalar (.bool b)]
  | .int n => [.scalar (.int n)]
  | .str s => [.scalar (.str s)]
  | .list [] => [.text ['[', ']']]
  | .list (v :: vs) =>
    .text ('[' :: l.opening (depth + 1)) :: (v.pieces l (depth + 1) ++
      (piecesOfItems l (depth + 1) vs ++ [.text (l.closing depth ++ [']'])]))
  | .object [] => [.text ['\x7b', '\x7d']]
  | .object ((key, v) :: members) =>
    .text ('\x7b' :: (l.opening (depth + 1) ++ (quote key ++ [':', ' ']))) ::
      (v.pieces l (depth + 1) ++
        (piecesOfMembers l (depth + 1) members ++ [.text (l.closing depth ++ ['\x7d'])]))
  | .foreign f => [.scalar (.foreign f)]

/-- The pieces of the items of a list after the first. -/
def piecesOfItems (l : Layout) (depth : Nat) : List Value → List Piece
  | [] => []
  | v :: vs => .text (l.separator depth) :: (v.pieces l depth ++ piecesOfItems l depth vs)

/-- The pieces of the members of an object after the first. -/
def piecesOfMembers (l : Layout) (depth : Nat) : List (String × Value) → List Piece
  | [] => []
  | (key, v) :: members =>
    .text (l.separator depth ++ (quote key ++ [':', ' '])) ::
      (v.pieces l depth ++ piecesOfMembers l depth members)
end

end Value

namespace Piece

/-- The value of a piece that is one. -/
def scalar? : Piece → Option Value
  | .text _ => none
  | .scalar v => some v

/-- The written form of a piece. -/
def write : Piece → List Char
  | .text cs => cs
  | .scalar v => v.write .compact 0

end Piece

/-! ## The pieces of a value -/

namespace Value

mutual
/-- The layout does not change which values are written, nor their order. -/
theorem scalars_pieces (l : Layout) (depth : Nat) : (v : Value) →
    (v.pieces l depth).filterMap Piece.scalar? = v.scalars
  | .null | .bool _ | .int _ | .str _ | .foreign _ => rfl
  | .list [] | .object [] => rfl
  | .list (v :: vs) => by
    simp [pieces, scalars, scalarsOfItems, Piece.scalar?, List.filterMap_cons, scalars_pieces l _ v,
      scalars_piecesOfItems l _ vs]
  | .object ((key, v) :: members) => by
    simp [pieces, scalars, scalarsOfMembers, Piece.scalar?, List.filterMap_cons,
      scalars_pieces l _ v, scalars_piecesOfMembers l _ members]

theorem scalars_piecesOfItems (l : Layout) (depth : Nat) : (vs : List Value) →
    (piecesOfItems l depth vs).filterMap Piece.scalar? = scalarsOfItems vs
  | [] => rfl
  | v :: vs => by
    simp [piecesOfItems, scalarsOfItems, Piece.scalar?, List.filterMap_cons, scalars_pieces l _ v,
      scalars_piecesOfItems l _ vs]

theorem scalars_piecesOfMembers (l : Layout) (depth : Nat) : (members : List (String × Value)) →
    (piecesOfMembers l depth members).filterMap Piece.scalar? = scalarsOfMembers members
  | [] => rfl
  | (_, v) :: members => by
    simp [piecesOfMembers, scalarsOfMembers, Piece.scalar?, List.filterMap_cons,
      scalars_pieces l _ v, scalars_piecesOfMembers l _ members]
end

mutual
theorem write_pieces (l : Layout) (depth : Nat) : (v : Value) →
    (v.pieces l depth).flatMap Piece.write = v.write l depth
  | .null | .bool true | .bool false | .foreign _ => rfl
  | .int _ | .str _ => List.append_nil _
  | .list [] | .object [] => rfl
  | .list (v :: vs) => by
    simp [pieces, write, Piece.write, write_pieces l _ v, write_piecesOfItems l _ vs]
  | .object ((key, v) :: members) => by
    simp [pieces, write, Piece.write, write_pieces l _ v, write_piecesOfMembers l _ members]

theorem write_piecesOfItems (l : Layout) (depth : Nat) : (vs : List Value) →
    (piecesOfItems l depth vs).flatMap Piece.write = writeItems l depth vs
  | [] => rfl
  | v :: vs => by
    simp [piecesOfItems, writeItems, Piece.write, write_pieces l _ v, write_piecesOfItems l _ vs]

theorem write_piecesOfMembers (l : Layout) (depth : Nat) : (members : List (String × Value)) →
    (piecesOfMembers l depth members).flatMap Piece.write = writeMembers l depth members
  | [] => rfl
  | (key, v) :: members => by
    simp [piecesOfMembers, writeMembers, Piece.write, write_pieces l _ v,
      write_piecesOfMembers l _ members]
end

end Value

end Json

open Json

/-! ## The leaves of a schema -/

/-- The leaves of a field in the order of declaration. -/
def Field.leaves (f : Field Value Value Value) : List Value :=
  [f.name, f.typeName, f.tag, f.repeated]

/-- The leaves of an enum. -/
def EnumDef.leaves (e : EnumDef Value Value) : List Value :=
  e.name :: e.values.flatMap fun v => [v.name, v.number]

/-- The leaves of a service. -/
def Service.leaves (s : Service Value) : List Value :=
  s.name :: s.methods.flatMap fun m => [m.name, m.inputType, m.outputType]

namespace Message

mutual
/-- The leaves of a message, those of its parts included. -/
def leaves : Message Value Value Value → List Value
  | ⟨name, fields, messages, enums⟩ =>
    name :: (fields.flatMap (·.leaves) ++ (leavesList messages ++ enums.flatMap (·.leaves)))

/-- The leaves of some messages. -/
def leavesList : List (Message Value Value Value) → List Value
  | [] => []
  | m :: ms => m.leaves ++ leavesList ms
end

end Message

namespace SchemaOf

/-- The leaves of a schema in the order of declaration. -/
def leaves (p : SchemaOf Value Value Value Value Value) : List Value :=
  p.version :: p.package :: p.imports :: (Message.leavesList p.messages ++
    (p.enums.flatMap (·.leaves) ++ p.services.flatMap (·.leaves)))

/-- The values without parts in the leaves of a schema, at any depth of a list. -/
def scalars (p : SchemaOf Value Value Value Value Value) : List Value :=
  p.leaves.flatMap Value.scalars

end SchemaOf

theorem Field.scalars_toJson (f : Field Value Value Value) :
    f.toJson.scalars = f.leaves.flatMap Value.scalars := by
  simp [toJson, leaves, JsonLeaf.toJson]

theorem EnumDef.scalars_toJson (e : EnumDef Value Value) :
    e.toJson.scalars = e.leaves.flatMap Value.scalars := by
  simp [toJson, EnumValue.toJson, leaves, JsonLeaf.toJson, List.flatMap_map, List.flatMap_assoc]

theorem Service.scalars_toJson (s : Service Value) :
    s.toJson.scalars = s.leaves.flatMap Value.scalars := by
  simp [toJson, Method.toJson, leaves, JsonLeaf.toJson, List.flatMap_map, List.flatMap_assoc]

namespace Message

mutual
theorem scalars_toJson : (m : Message Value Value Value) →
    m.toJson.scalars = m.leaves.flatMap Value.scalars
  | ⟨name, fields, messages, enums⟩ => by
    simp [toJson, leaves, JsonLeaf.toJson, List.flatMap_map, List.flatMap_assoc,
      Field.scalars_toJson, EnumDef.scalars_toJson, scalars_toJsonList messages]

theorem scalars_toJsonList : (ms : List (Message Value Value Value)) →
    (toJsonList ms).flatMap Value.scalars = (leavesList ms).flatMap Value.scalars
  | [] => rfl
  | m :: ms => by
    rw [toJsonList, leavesList, List.flatMap_cons, List.flatMap_append, scalars_toJson m,
      scalars_toJsonList ms]
end

end Message

namespace SchemaOf

variable (p : SchemaOf Value Value Value Value Value)

theorem scalars_toJson : p.toJson.scalars = p.scalars := by
  simp [toJson, scalars, leaves, JsonLeaf.toJson, List.flatMap_map, List.flatMap_assoc,
    Message.scalars_toJsonList, EnumDef.scalars_toJson, Service.scalars_toJson]

variable {p} {room : Nat}

end SchemaOf

/-- A set of one number. -/
def Json.Foreign.set : Foreign :=
  ⟨"set", 8, none⟩

/-- Messages without fields inside each other, `n` of them inside the outermost one. -/
def Message.tower (name : τ) : Nat → Message τ ν β
  | 0 => ⟨name, [], [], []⟩
  | n + 1 => ⟨name, [], [tower name n], []⟩

theorem Message.depth_tower (name : τ) (n : Nat) :
    (tower name n : Message τ ν β).depth = n + 1 := by
  induction n with
  | zero => rfl
  | succ n ih => simp [tower, depth, depthList, ih]

theorem Message.leaves_tower (name : Value) (n : Nat) : ∀ v ∈ (tower name n).leaves, v = name := by
  induction n with
  | zero => simp [tower, leaves, leavesList]
  | succ n ih => simpa [tower, leaves, leavesList] using ih

/-- A schema of one tower of messages. -/
def SchemaOf.towering (version : Value) (n : Nat) : SchemaOf Value Value Value Value Value :=
  ⟨version, .null, .list [], [.tower (.str "A") n], [], []⟩

namespace SchemaOf

variable {version : Value} {n : Nat}

theorem mem_scalars_towering {v : Value} (h : v ∈ (towering version n).scalars) :
    v ∈ version.scalars ∨ v = .null ∨ v = .str "A" := by
  obtain ⟨leaf, mem, inside⟩ := List.mem_flatMap.mp h
  have cases : leaf = version ∨ leaf = .null ∨ leaf = .list [] ∨
      leaf ∈ (Message.tower (.str "A") n).leaves := by
    simpa [towering, leaves, Message.leavesList] using mem
  obtain rfl | rfl | rfl | below := cases
  · exact .inl inside
  · exact .inr (.inl (by simpa [Value.scalars] using inside))
  · simp at inside
  · obtain rfl := Message.leaves_tower _ n leaf below
    exact .inr (.inr (by simpa [Value.scalars] using inside))

theorem render_towering {room : Nat} (copied : version.Copied) (deep : room < 3 * n + 6)
    (l : Layout) : (towering version n).render room l = .error .tooDeep := by
  refine render_tooDeep ?_ ?_ l
  · intro v mem
    rw [scalars_toJson] at mem
    obtain inside | rfl | rfl := mem_scalars_towering mem
    · exact copied v inside
    · rfl
    · rfl
  · simp only [towering, depth, Message.depthList, Message.depth_tower]
    omega

end SchemaOf

end ProtoSchema
