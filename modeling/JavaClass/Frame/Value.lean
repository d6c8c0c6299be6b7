/-!
# Values

What an operand stack and local variables hold. Floating-point numbers are kept as their bits and
compared as IEEE 754 says: no NaN equals anything, and the two zeros equal each other. Equality of
values as things, under which a NaN is itself, is `=`.
-/

namespace JavaClass

/-- A value of a running method. -/
inductive Value where
  | int (value : Int32)
  | long (value : Int64)
  /-- A single-precision number by its bits. -/
  | float (bits : UInt32)
  /-- A double-precision number by its bits. -/
  | double (bits : UInt64)
  /-- An object, by a number that only its heap can interpret. -/
  | reference (id : Nat)
  | null
  | returnAddress (address : UInt32)
  deriving DecidableEq, Repr

namespace Value

/-- Whether a value takes two units of the stack and two local slots, as 64-bit numbers do. -/
def isWide : Value → Bool
  | long _ | double _ => true
  | _ => false

/-- How many units, and how many local slots, a value takes. -/
def width (v : Value) : Nat := if v.isWide then 2 else 1

/-- Whether two floating-point numbers are equal. `sign` is the bit of the sign and `infinity` the
bits of positive infinity; what exceeds them without its sign is not a number. -/
def floatEquals (sign infinity a b : Nat) : Bool :=
  a % sign ≤ infinity && b % sign ≤ infinity && (a == b || (a % sign == 0 && b % sign == 0))

/-- Whether two values are the same kind of thing and equal as such. -/
def equals : Value → Value → Bool
  | float a, float b => floatEquals 0x80000000 0x7F800000 a.toNat b.toNat
  | double a, double b => floatEquals 0x8000000000000000 0x7FF0000000000000 a.toNat b.toNat
  | a, b => a = b

theorem width_pos (v : Value) : 0 < v.width := by
  unfold width
  split <;> decide

end Value

end JavaClass
