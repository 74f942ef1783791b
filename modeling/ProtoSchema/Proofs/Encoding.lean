import Mathlib.Data.List.Basic
import ProtoSchema.Text.Utf8

/-! # Decoding inverts encoding

The bytes of a text are decoded to the text. A character of several bytes is followed through them:
its leading byte fixes how many follow and keeps the bits above theirs.
-/

namespace ProtoSchema.Text

theorem toList_byteArray (bytes : ByteArray) : bytes.toList = bytes.data.toList := by
  have loop (i : Nat) (front : List UInt8) : ByteArray.toList.loop bytes i front =
      front.reverse ++ bytes.data.toList.drop i := by
    induction i, front using ByteArray.toList.loop.induct bytes with
    | case1 i front inside ih =>
        have here : i < bytes.data.size := inside
        have next : bytes.data.toList.drop i = bytes.get! i :: bytes.data.toList.drop (i + 1) := by
          rw [List.drop_eq_getElem_cons (by simpa using here), Array.getElem_toList]
          exact congrArg (· :: _) (getElem!_pos bytes.data i here).symm
        rw [ByteArray.toList.loop, if_pos inside, ih, next, List.reverse_cons, List.append_assoc]
        rfl
    | case2 i front outside =>
        have : bytes.data.toList.length ≤ i := by simpa using outside
        rw [ByteArray.toList.loop, if_neg outside, List.drop_eq_nil_of_le this, List.append_nil]
  exact loop 0 []

namespace Utf8

theorem encode_ofList (cs : List Char) :
    encode (String.ofList cs) = cs.flatMap String.utf8EncodeChar := by
  rw [encode, String.toUTF8_eq_toByteArray, String.toByteArray_ofList, toList_byteArray,
    List.utf8Encode, List.toList_data_toByteArray]

theorem lead?_ofNat {n : Nat} (h : n < 256) : lead? (UInt8.ofNat n) =
    if n < 0x80 then some (n, [])
    else if n < 0xc2 then none
    else if n < 0xe0 then some (n - 0xc0, [continuation])
    else if n < 0xf0 then some (n - 0xe0,
      [(if n = 0xe0 then 0xa0 else 0x80, if n = 0xed then 0x9f else 0xbf), continuation])
    else if n < 0xf5 then some (n - 0xf0,
      [(if n = 0xf0 then 0x90 else 0x80, if n = 0xf4 then 0x8f else 0xbf),
        continuation, continuation])
    else none := by
  revert n
  decide +kernel

theorem toNat_ofNat {n : Nat} (h : n < 256) : (UInt8.ofNat n).toNat = n := by
  rw [UInt8.toNat_ofNat']
  omega

/-- The bytes `front` complete the character `c`, whatever follows them. -/
def Decodes (c : Char) (position : Nat) (pending : Option Pending) (front : List UInt8) : Prop :=
  ∀ bytes, ∃ after, decodeFrom position pending (front ++ bytes) =
    (decodeFrom after none bytes).map (c :: ·)

namespace Decodes

variable {c : Char} {position n code : Nat} {next : UInt8 × UInt8} {later : List (UInt8 × UInt8)}
  {p : Pending} {front : List UInt8}

theorem single (small : n < 0x80) (char : Char.ofNat n = c) :
    Decodes c position none [UInt8.ofNat n] := by
  intro bytes
  have lead : lead? (UInt8.ofNat n) = some (n, []) := by
    rw [lead?_ofNat (by omega), if_pos small]
  exact ⟨position + 1, by simp only [List.singleton_append, decodeFrom, lead, char]⟩

theorem lead (h : lead? (UInt8.ofNat n) = some (code, next :: later))
    (tail : ∀ q : Pending, q.code = code → q.next = next → q.later = later →
      Decodes c (position + 1) (some q) front) :
    Decodes c position none (UInt8.ofNat n :: front) := by
  intro bytes
  simp only [List.cons_append, decodeFrom, h]
  exact tail _ rfl rfl rfl bytes

/-- The next byte may have the six bits `n` in it. -/
structure Fits (p : Pending) (n : Nat) : Prop where
  small : n < 0x40
  low : p.next.1.toNat ≤ n + 0x80
  high : n + 0x80 ≤ p.next.2.toNat

theorem Fits.of_continuation (h : p.next = continuation) (n : Nat) : Fits p (n % 0x40) := by
  have small : n % 0x40 < 0x40 := Nat.mod_lt _ (by decide)
  refine ⟨small, ?_, ?_⟩
  · rw [h]
    exact Nat.le_add_left ..
  · rw [h]
    change _ ≤ 0xbf
    omega

theorem Fits.of_range {edge top : Prop} [Decidable edge] [Decidable top] {low high : UInt8}
    (h : p.next = (if edge then low else 0x80, if top then high else 0xbf)) (small : n < 0x40)
    (below : edge → low.toNat ≤ n + 0x80) (above : top → n + 0x80 ≤ high.toNat) : Fits p n := by
  refine ⟨small, ?_, ?_⟩
  · rw [h]
    dsimp only
    split
    · next here => exact below here
    · exact Nat.le_add_left ..
  · rw [h]
    dsimp only
    split
    · next here => exact above here
    · change _ ≤ 0xbf
      omega

theorem Fits.inside (h : Fits p n) :
    (p.next.1 ≤ UInt8.ofNat (n + 0x80) && UInt8.ofNat (n + 0x80) ≤ p.next.2) = true := by
  have small := h.small
  simp only [Bool.and_eq_true, decide_eq_true_eq, UInt8.le_iff_toNat_le]
  rw [toNat_ofNat (by omega)]
  exact ⟨h.low, h.high⟩

theorem Fits.bits (h : Fits p n) : p.codeWith (UInt8.ofNat (n + 0x80)) = p.code * 64 + n := by
  have small := h.small
  have value : (UInt8.ofNat (n + 0x80)).toNat = n + 0x80 := toNat_ofNat (by omega)
  exact (congrArg (fun value => p.code * 64 + (value - 0x80)) value).trans
    (congrArg (p.code * 64 + ·) (Nat.add_sub_cancel ..))

theorem last (fits : Fits p n) (last : p.later = []) (char : Char.ofNat (p.code * 64 + n) = c) :
    Decodes c position (some p) [UInt8.ofNat (n + 0x80)] := by
  intro bytes
  refine ⟨position + 1, ?_⟩
  rw [List.singleton_append, decodeFrom, if_pos fits.inside, last, fits.bits, char]

theorem more (fits : Fits p n) (more : p.later = next :: later)
    (tail : ∀ q : Pending, q.code = p.code * 64 + n → q.next = next → q.later = later →
      Decodes c (position + 1) (some q) front) :
    Decodes c position (some p) (UInt8.ofNat (n + 0x80) :: front) := by
  intro bytes
  rw [List.cons_append, decodeFrom, if_pos fits.inside, more]
  exact tail ⟨p.first, p.position, p.count + 1, p.codeWith _, next, later⟩ fits.bits rfl rfl bytes

end Decodes

open Decodes

theorem decodes_char (c : Char) (position : Nat) :
    Decodes c position none (String.utf8EncodeChar c) := by
  have valid : c.val.toNat < 0xd800 ∨ 0xdfff < c.val.toNat ∧ c.val.toNat < 0x110000 := c.valid
  have char : Char.ofNat c.val.toNat = c := Char.ofNat_toNat c
  unfold String.utf8EncodeChar
  generalize c.val.toNat = n at valid char
  dsimp only
  split
  · next one => exact .single (by omega) char
  split
  · next one two =>
      have lead := lead?_ofNat (n := n / 64 % 0x20 + 0xc0) (by omega)
      rw [if_neg (by omega), if_neg (by omega), if_pos (by omega), Nat.add_sub_cancel] at lead
      refine .lead lead fun p code next later => .last (.of_continuation next n) later ?_
      rw [code, show n / 64 % 0x20 * 64 + n % 0x40 = n by omega, char]
  split
  · next two three =>
      have lead := lead?_ofNat (n := n / 4096 % 0x10 + 0xe0) (by omega)
      rw [if_neg (by omega), if_neg (by omega), if_neg (by omega), if_pos (by omega),
        Nat.add_sub_cancel] at lead
      refine .lead lead fun p code next later => .more (.of_range next (by omega) ?_ ?_) later
        fun q code' next' later' => .last (.of_continuation next' n) later' ?_
      · intro _
        change 0xa0 ≤ _
        omega
      · intro _
        change _ ≤ 0x9f
        omega
      · rw [code', code, show (n / 4096 % 0x10 * 64 + n / 64 % 0x40) * 64 + n % 0x40 = n by omega,
            char]
  · next three =>
      have lead := lead?_ofNat (n := n / 262144 % 0x08 + 0xf0) (by omega)
      rw [if_neg (by omega), if_neg (by omega), if_neg (by omega), if_neg (by omega),
        if_pos (by omega), Nat.add_sub_cancel] at lead
      refine .lead lead fun p code next later => .more (.of_range next (by omega) ?_ ?_) later
        fun q code' next' later' => .more (.of_continuation next' _) later'
          fun q code'' next'' later'' => .last (.of_continuation next'' n) later'' ?_
      · intro _
        change 0x90 ≤ _
        omega
      · intro _
        change _ ≤ 0x8f
        omega
      · rw [code'', code', code, show ((n / 262144 % 0x08 * 64 + n / 4096 % 0x40) * 64 +
          n / 64 % 0x40) * 64 + n % 0x40 = n by omega, char]

/-- Decoding inverts encoding. -/
theorem decode_encode (cs : List Char) : decode (encode (String.ofList cs)) = .ok cs := by
  have anywhere (position : Nat) :
      decodeFrom position none (cs.flatMap String.utf8EncodeChar) = .ok cs := by
    induction cs generalizing position with
    | nil => rfl
    | cons c cs ih =>
        obtain ⟨after, step⟩ := decodes_char c position (cs.flatMap String.utf8EncodeChar)
        rw [List.flatMap_cons, step, ih]
        rfl
  rw [encode_ofList]
  exact anywhere 0

end Utf8

end ProtoSchema.Text
