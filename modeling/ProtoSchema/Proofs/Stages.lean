import ProtoSchema.Proofs.NestingLimit
import ProtoSchema.Proofs.SchemaExact
import ProtoSchema.Proofs.Writable

/-! # The stages fit together

A text is read to a schema or it has a mistake that is reported; what one stage makes, the next one
can take. The numbers of a schema that was read have 32 bits, so they can be written.
-/

namespace ProtoSchema

namespace Number

/-- A number that a tag or an enum number can be. -/
def InRange (n : Int) : Prop :=
  least ≤ n ∧ n ≤ greatest

theorem ofText?_inRange {text : String} {n : Int} (h : ofText? text = some n) : InRange n := by
  simpa [InRange] using (Option.filter_eq_some_iff.mp h).2

theorem fallback_inRange : InRange Warning.fallback := by
  constructor <;> decide

theorem InRange.short {n : Int} (h : InRange n) : Json.Short n := by
  have small : n.natAbs < 10 ^ 10 := by
    obtain ⟨low, high⟩ := h
    simp only [least, greatest] at low high
    omega
  have wide : 10 ≤ Json.digitLimit := by decide
  unfold Json.Short
  generalize Json.digitLimit = limit at wide ⊢
  exact small.trans_le (Nat.pow_le_pow_right (by decide) wide)

end Number

open Number

theorem Token.value_inRange (t : Token) : InRange t.value := by
  rw [value]
  cases h : Number.ofText? t.text with
  | none => exact fallback_inRange
  | some n => exact ofText?_inRange h

namespace Derivation

theorem number_inRange (ts : List Token) :
    InRange ((ts.head?.map (·.value)).getD Warning.fallback) := by
  cases ts with
  | nil => exact fallback_inRange
  | cons t ts => exact t.value_inRange

theorem enumDef_inRange (d : Derivation) : ∀ n ∈ d.enumDef.numbers, InRange n := by
  simp only [EnumDef.numbers, enumDef, List.map_map, List.forall_mem_map]
  exact fun v _ => number_inRange (v.words .number)

mutual
theorem message_inRange : (d : Derivation) → ∀ n ∈ d.message.numbers, InRange n
  | .token _ => fun _ mem => nomatch mem
  | .node x parts => by
    simp only [message, Message.numbers, List.forall_mem_append, List.map_map, List.forall_mem_map,
      List.forall_mem_flatMap]
    exact ⟨fun f _ => number_inRange (f.words .number), messages_inRange parts,
      fun e _ => e.enumDef_inRange⟩

theorem messages_inRange :
    (ds : List Derivation) → ∀ n ∈ Message.numbersList (messages ds), InRange n
  | [] => by simp [messages, Message.numbersList]
  | d :: ds => by
    rw [messages]
    split
    · rw [Message.numbersList, List.forall_mem_append]
      exact ⟨d.message_inRange, messages_inRange ds⟩
    · exact messages_inRange ds
end

theorem schema_inRange (d : Derivation) : ∀ n ∈ d.schema.numbers, InRange n := by
  rw [SchemaOf.numbers, List.forall_mem_append]
  refine ⟨messages_inRange d.parts, ?_⟩
  simp only [schema, List.forall_mem_flatMap, List.forall_mem_map]
  exact fun e _ => e.enumDef_inRange

end Derivation

open ProtoSchema.Derivation

namespace Schema

variable {limit : Nat}

theorem ofText_inRange {source : List Char} {p : Schema} {ws : List Warning}
    (h : ofText limit source = .ok (p, ws)) : ∀ n ∈ p.numbers, InRange n := by
  obtain ⟨_, d, -, -, -, rfl, -⟩ := ofText_eq_ok.mp h
  exact d.schema_inRange

/-- A text fails to be read just as its tokens do. -/
theorem ofText_parse {source : List Char} {tokens : List Token} {failure : Parser.Failure}
    (scanned : Token.scan source = .ok tokens) :
    ofText limit source = .error (.tree (.parse failure)) ↔
      Node.ofTokens limit source tokens = .error failure := by
  rw [ofText_eq_error, Node.ofText, scanned]
  dsimp only
  cases Node.ofTokens limit source tokens with
  | ok tree => simp [Except.mapError]
  | error e => simp [Except.mapError, eq_comm]

theorem ofText_tooDeep {source : List Char} :
    ofText limit source = .error (.tree (.parse .tooDeep)) ↔ ∃ front rest,
      Token.scan source = .ok (front ++ rest) ∧ Overnested limit front := by
  cases scanned : Token.scan source with
  | error e => simp [ofText, Node.ofText, scanned]
  | ok tokens =>
      obtain ⟨body, rfl, inner⟩ := Token.scan_body scanned
      rw [ofText_parse scanned, Node.ofTokens_tooDeep inner rfl]
      simp

theorem ofTree_of_ofText {source : List Char} {tree : Node}
    (h : Node.ofText limit source = .ok tree) :
    ∃ p ws, ofTree tree = .ok (p, ws) := by
  obtain ⟨tokens, d, scanned, derives, -, rfl⟩ := Node.ofText_eq_ok.mp h
  exact ⟨_, _, derives.1.ofTree (derives.faithful scanned)⟩

theorem ofTokens_ne_outOfTokens {source : List Char} {tokens : List Token}
    (scanned : Token.scan source = .ok tokens) (limit : Nat) (text : List Char) :
    Node.ofTokens limit text tokens ≠ .error .outOfTokens := by
  obtain ⟨body, rfl, -⟩ := Token.scan_body scanned
  exact Node.ofTokens_ne_outOfTokens rfl

/-- A text has a schema or a reason to have none. -/
theorem ofText_cases (limit : Nat) (source : List Char) :
    (∃ p ws, ofText limit source = .ok (p, ws)) ∨
    (∃ e, ofText limit source = .error (.tree (.scan e))) ∨
    (∃ e, ofText limit source = .error (.tree (.parse (.mismatch e)))) ∨
    ofText limit source = .error (.tree (.parse .tooDeep)) := by
  cases result : ofText limit source with
  | ok built => exact .inl ⟨built.1, built.2, rfl⟩
  | error e =>
      obtain ⟨e', failed, rfl⟩ := ofText_eq_error.mp result
      cases e' with
      | scan e => exact .inr (.inl ⟨e, rfl⟩)
      | parse failure =>
          cases failure with
          | mismatch e => exact .inr (.inr (.inl ⟨e, rfl⟩))
          | tooDeep => exact .inr (.inr (.inr rfl))
          | outOfTokens =>
              cases scanned : Token.scan source with
              | error e => simp [Node.ofText, scanned] at failed
              | ok tokens =>
                  exact absurd ((ofText_parse scanned).mp result)
                    (ofTokens_ne_outOfTokens scanned _ _)

/-- The stages of reading and writing fit together, whatever the limits. Reading a text gives a
schema, or the text has a mistake, or its messages are nested beyond the limit. Reading the tokens
of a text does not run out of them, every tree of a text has a schema, and every schema of a text is
written if there is room to copy it. -/
theorem stages_fit (limit room : Nat) (source : List Char) :
    ((∃ p ws, ofText limit source = .ok (p, ws)) ∨
      (∃ e, ofText limit source = .error (.tree (.scan e))) ∨
      (∃ e, ofText limit source = .error (.tree (.parse (.mismatch e)))) ∨
      ofText limit source = .error (.tree (.parse .tooDeep))) ∧
    (ofText limit source = .error (.tree (.parse .tooDeep)) ↔ ∃ front rest,
      Token.scan source = .ok (front ++ rest) ∧ Overnested limit front) ∧
    (∀ tokens, Token.scan source = .ok tokens → ∀ limit text,
      Node.ofTokens limit text tokens ≠ .error .outOfTokens) ∧
    (∀ tree, Node.ofText limit source = .ok tree → ∃ p ws, ofTree tree = .ok (p, ws)) ∧
    ∀ p ws, ofText limit source = .ok (p, ws) → ∀ l,
      (p.toJson.calls ≤ room → ∃ text, p.render room l = .ok text) ∧
        ∀ fault, p.render room l ≠ .error (.fault fault) := by
  refine ⟨ofText_cases limit source, ofText_tooDeep, fun _ => ofTokens_ne_outOfTokens,
    fun _ => ofTree_of_ofText, fun p ws result l => ?_⟩
  have written := SchemaOf.render_eq (fun n mem => (ofText_inRange result n mem).short) room l
  constructor
  · intro fits
    exact ⟨_, written.trans (if_pos fits)⟩
  · intro fault failed
    rw [written] at failed
    split at failed <;> cases failed

end Schema

end ProtoSchema
