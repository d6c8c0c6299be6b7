import JavaClass.Bytes

/-!
# Hexadecimal

Lower-case hexadecimal, as error messages and dumps show it: numbers padded on the left with
zeros to a least width, and bytes as two digits each.
-/

namespace JavaClass.Hex

/-- The digits of `n`, with zeros in front up to `width` digits. -/
def padded (width n : Nat) : String :=
  String.ofList ((Nat.toDigits 16 n).leftpad width '0')

def ofBytes (bytes : Bytes) : String :=
  String.ofList <|
    bytes.flatMap fun b => [Nat.digitChar (b.toNat / 16), Nat.digitChar (b.toNat % 16)]

end JavaClass.Hex
