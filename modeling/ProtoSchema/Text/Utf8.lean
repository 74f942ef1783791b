import ProtoSchema.Text.Quoted

/-! # Decoding UTF-8

A character is written as one to four bytes: a leading byte says how many bytes continue it, and
for some leading bytes the second byte is limited further. The first byte that fits nowhere ends
the decoding.
-/

namespace ProtoSchema.Text.Utf8

inductive Fault.Reason where
  /-- No character starts with the byte. -/
  | invalidStart
  /-- A byte does not continue the character before it. -/
  | invalidContinuation
  /-- The bytes end inside a character. -/
  | unexpectedEnd
deriving DecidableEq

/-- Bytes that cannot be decoded: `count` of them, `first` at offset `position` being the first. -/
structure Fault where
  first : UInt8
  position : Nat
  count : Nat
  reason : Fault.Reason
deriving DecidableEq

namespace Fault

def Reason.message : Reason → String
  | .invalidStart => "invalid start byte"
  | .invalidContinuation => "invalid continuation byte"
  | .unexpectedEnd => "unexpected end of data"

/-- Which bytes are meant: a single one is shown, several are located. -/
def place (f : Fault) : String :=
  if f.count = 1 then
    "byte 0x" ++ String.ofList (Quoted.hex 2 f.first.toNat) ++ " in position " ++ f.position.repr
  else
    "bytes in position " ++ f.position.repr ++ "-" ++ (f.position + f.count - 1).repr

def message (f : Fault) : String :=
  "'utf-8' codec can't decode " ++ f.place ++ ": " ++ f.reason.message

end Fault

def continuation : UInt8 × UInt8 := (0x80, 0xbf)

/-- The bits of a leading byte, and the ranges of the bytes that must follow it. -/
def lead? (b : UInt8) : Option (Nat × List (UInt8 × UInt8)) :=
  if b < 0x80 then some (b.toNat, [])
  else if b < 0xc2 then none
  else if b < 0xe0 then some (b.toNat - 0xc0, [continuation])
  else if b = 0xe0 then some (0, [(0xa0, 0xbf), continuation])
  else if b = 0xed then some (0xd, [(0x80, 0x9f), continuation])
  else if b < 0xf0 then some (b.toNat - 0xe0, [continuation, continuation])
  else if b = 0xf0 then some (0, [(0x90, 0xbf), continuation, continuation])
  else if b < 0xf4 then some (b.toNat - 0xf0, [continuation, continuation, continuation])
  else if b = 0xf4 then some (4, [(0x80, 0x8f), continuation, continuation])
  else none

/-- A character of which `count` bytes have been read, `first` at offset `position` being the
first; `code` holds their bits, and the next byte lies in `next`, those after it in `later`. -/
structure Pending where
  first : UInt8
  position : Nat
  count : Nat
  code : Nat
  next : UInt8 × UInt8
  later : List (UInt8 × UInt8)

namespace Pending

def fault (p : Pending) (reason : Fault.Reason) : Fault :=
  ⟨p.first, p.position, p.count, reason⟩

def codeWith (p : Pending) (b : UInt8) : Nat :=
  p.code * 64 + (b.toNat - 0x80)

end Pending

/-- The characters of the bytes from offset `position` on, where `pending` has been begun. -/
def decodeFrom (position : Nat) (pending : Option Pending) :
    List UInt8 → Except Fault (List Char)
  | [] =>
    match pending with
    | none => .ok []
    | some p => .error (p.fault .unexpectedEnd)
  | b :: bytes =>
    match pending with
    | none =>
      match lead? b with
      | none => .error ⟨b, position, 1, .invalidStart⟩
      | some (code, []) => (decodeFrom (position + 1) none bytes).map (Char.ofNat code :: ·)
      | some (code, next :: later) =>
        decodeFrom (position + 1) (some ⟨b, position, 1, code, next, later⟩) bytes
    | some p =>
      if p.next.1 ≤ b && b ≤ p.next.2 then
        match p.later with
        | [] => (decodeFrom (position + 1) none bytes).map (Char.ofNat (p.codeWith b) :: ·)
        | next :: later =>
          decodeFrom (position + 1)
            (some ⟨p.first, p.position, p.count + 1, p.codeWith b, next, later⟩) bytes
      else
        .error (p.fault .invalidContinuation)

/-- The characters of a byte sequence. -/
def decode (bytes : List UInt8) : Except Fault (List Char) :=
  decodeFrom 0 none bytes

def encode (text : String) : List UInt8 :=
  text.toUTF8.toList

end ProtoSchema.Text.Utf8
