import JavaClass.Decoder
import JavaClass.Pool

/-!
# Scanning the constant pool

The first half of reading a pool: its bytes become a table of raw constants. A constant may refer
to one that comes later, so nothing is looked up yet, and the only things that can go wrong are a
tag without a layout and an input that ends too early.

The number of indices is known beforehand. A wide constant takes the index after its own as well;
as the last one of the table it takes an index that is not there.
-/

namespace JavaClass

def RawConstant.payload : Tag → Reader RawConstant
  | .utf8 => do
    let length ← Reader.u16
    utf8 <$> Reader.take length.toNat
  | .integer => integer <$> Reader.i32
  | .long => long <$> Reader.i64
  | .string => string <$> Reader.u16
  | .classRef => classRef <$> Reader.u16
  | .nameAndType => return nameAndType (← Reader.u16) (← Reader.u16)
  | .member kind => return member kind (← Reader.u16) (← Reader.u16)
  | .unsupported kind => unsupported kind <$> Reader.take kind.payloadSize

/-- Reads one constant; `index` is where it will stand. -/
def RawConstant.decode (index : UInt16) : Decoder RawConstant := do
  let byte ← Reader.u8
  match Tag.ofByte? byte with
  | some tag => payload tag
  | none => throw (.unsupportedTag byte index)

/-- The raw constant at each index. -/
abbrev RawPool := Array (Option RawConstant)

namespace RawPool

/-- Fills the `n` indices that follow those already in `table`. With one index left, a constant
takes it whether it is wide or not. -/
def scanFrom (table : RawPool) : (n : Nat) → Decoder RawPool
  | 0 => pure table
  | 1 => do
    let c ← RawConstant.decode (UInt16.ofNat table.size)
    return table.push (some c)
  | n + 2 => do
    let c ← RawConstant.decode (UInt16.ofNat table.size)
    if c.tag.isWide then
      scanFrom ((table.push (some c)).push none) n
    else
      scanFrom (table.push (some c)) (n + 1)

/-- Reads the constants of a pool with indices below `count`. -/
def scan (count : UInt16) : Decoder RawPool := scanFrom #[none] (count.toNat - 1)

end RawPool

end JavaClass
