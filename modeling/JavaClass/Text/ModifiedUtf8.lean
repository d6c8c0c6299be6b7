import JavaClass.Text.Hex
import JavaClass.Text.Utf16

/-!
# Modified UTF-8

The encoding of the strings inside a class file. It is UTF-8 applied to the UTF-16 units of a text
rather than to its characters, so a supplementary character takes two sequences of three bytes;
and the unit zero takes two bytes, so an encoded text never contains a zero byte.

Writing is strict and reading is not: `decode` accepts every sequence of the right shape, also an
overlong one, and `encode` never writes one. Reading goes through two levels with an error each,
first bytes to units and then units to characters, and the second level is only looked at when the
first has gone through the whole input.
-/

namespace JavaClass

/-- Why bytes are not modified UTF-8. -/
inductive EncodingError where
  /-- The input ends where a sequence still needs a byte at `offset`. -/
  | truncated (offset : Nat)
  /-- The byte at `offset` cannot stand there. -/
  | invalidByte (byte : UInt8) (offset : Nat)
  /-- The bytes are well formed, but their units are not UTF-16. -/
  | unpairedSurrogate
  deriving DecidableEq, Repr

def EncodingError.message : EncodingError → String
  | truncated offset => s!"truncated sequence at byte {offset}"
  | invalidByte byte offset =>
    "invalid byte 0x" ++ Hex.padded 2 byte.toNat ++ s!" at offset {offset}"
  | unpairedSurrogate => "unpaired surrogate in decoded string"

namespace ModifiedUtf8

/-! ## Writing -/

def bytesOfUnit (u : UInt16) : Bytes :=
  let n := u.toNat
  if 0 < n ∧ n < 0x80 then
    [UInt8.ofNat n]
  else if n < 0x800 then
    [UInt8.ofNat (0xC0 + n / 64), UInt8.ofNat (0x80 + n % 64)]
  else
    [UInt8.ofNat (0xE0 + n / 4096), UInt8.ofNat (0x80 + n / 64 % 64), UInt8.ofNat (0x80 + n % 64)]

def encode (s : String) : Bytes := (Utf16.encode s).flatMap bytesOfUnit

/-! ## Reading -/

/-- How long a sequence is, as its first byte tells. -/
inductive Form where
  | one | two | three
  deriving DecidableEq, Repr

/-- The form of the sequences that start with `lead`, if any do. -/
def Form.ofLead? (lead : UInt8) : Option Form :=
  if lead = 0 then none
  else if lead < 0x80 then some .one
  else if lead < 0xC0 then none
  else if lead < 0xE0 then some .two
  else if lead < 0xF0 then some .three
  else none

/-- The bytes that can follow the first one of a sequence. -/
def isContinuation (b : UInt8) : Bool := 0x80 ≤ b && b < 0xC0

/-- The unit of a two-byte sequence: five bits and then six. -/
def unitOfTwo (lead low : UInt8) : UInt16 :=
  UInt16.ofNat (lead.toNat % 32 * 64 + low.toNat % 64)

/-- The unit of a three-byte sequence: four bits and then twice six. -/
def unitOfThree (lead mid low : UInt8) : UInt16 :=
  UInt16.ofNat (lead.toNat % 16 * 4096 + mid.toNat % 64 * 64 + low.toNat % 64)

/-- Reads the bytes from `offset` on behind the units already read, latest first. -/
def unitsAfter (read : List UInt16) (offset : Nat) : Bytes → Except EncodingError (List UInt16)
  | [] => .ok read.reverse
  | lead :: rest =>
    match Form.ofLead? lead with
    | none => .error (.invalidByte lead offset)
    | some .one => unitsAfter (lead.toUInt16 :: read) (offset + 1) rest
    | some .two =>
      match rest with
      | [] => .error (.truncated (offset + 1))
      | low :: rest =>
        if isContinuation low then unitsAfter (unitOfTwo lead low :: read) (offset + 2) rest
        else .error (.invalidByte low (offset + 1))
    | some .three =>
      match rest with
      | [] => .error (.truncated (offset + 1))
      | mid :: rest =>
        if isContinuation mid then
          match rest with
          | [] => .error (.truncated (offset + 2))
          | low :: rest =>
            if isContinuation low then
              unitsAfter (unitOfThree lead mid low :: read) (offset + 3) rest
            else .error (.invalidByte low (offset + 2))
        else .error (.invalidByte mid (offset + 1))

def units (bytes : Bytes) : Except EncodingError (List UInt16) := unitsAfter [] 0 bytes

def decode (bytes : Bytes) : Except EncodingError String := do
  match Utf16.decode? (← units bytes) with
  | some s => return s
  | none => throw .unpairedSurrogate

end ModifiedUtf8

end JavaClass
