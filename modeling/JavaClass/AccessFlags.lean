/-!
# Access flags

Classes, fields and methods each carry a 16-bit set of flags. The three share the word but not its
meaning: one bit is `VOLATILE` on a field and `BRIDGE` on a method. A flag set is therefore indexed
by what it belongs to, and bits that mean nothing there are dropped when it is made, so that two
sets are equal exactly when the same flags are set.
-/

namespace JavaClass

inductive Declaration where
  | classFile | field | method
  deriving DecidableEq, Repr

/-- The flags of a declaration in ascending order, each with its bit. -/
def Declaration.flags : Declaration → List (UInt16 × String)
  | classFile =>
    [(0x0001, "PUBLIC"), (0x0010, "FINAL"), (0x0020, "SUPER"), (0x0200, "INTERFACE"),
      (0x0400, "ABSTRACT"), (0x1000, "SYNTHETIC"), (0x2000, "ANNOTATION"), (0x4000, "ENUM")]
  | field =>
    [(0x0001, "PUBLIC"), (0x0002, "PRIVATE"), (0x0004, "PROTECTED"), (0x0008, "STATIC"),
      (0x0010, "FINAL"), (0x0040, "VOLATILE"), (0x0080, "TRANSIENT"), (0x1000, "SYNTHETIC"),
      (0x4000, "ENUM")]
  | method =>
    [(0x0001, "PUBLIC"), (0x0002, "PRIVATE"), (0x0004, "PROTECTED"), (0x0008, "STATIC"),
      (0x0010, "FINAL"), (0x0020, "SYNCHRONIZED"), (0x0040, "BRIDGE"), (0x0080, "VARARGS"),
      (0x0100, "NATIVE"), (0x0400, "ABSTRACT"), (0x0800, "STRICT"), (0x1000, "SYNTHETIC")]

/-- All bits that mean something on a declaration. -/
def Declaration.flagMask (d : Declaration) : UInt16 :=
  d.flags.foldl (fun mask flag => mask ||| flag.1) 0

/-- A set of flags of a declaration. -/
structure AccessFlags (owner : Declaration) where
  bits : UInt16
  /-- No other bits are set. -/
  known : bits &&& owner.flagMask = bits
  deriving DecidableEq, Repr

namespace AccessFlags

variable {owner : Declaration}

/-- The flags set in `raw`; bits without a meaning are dropped. -/
def ofBits (raw : UInt16) : AccessFlags owner where
  bits := raw &&& owner.flagMask
  known := by simp [UInt16.and_assoc]

def contains (flags other : AccessFlags owner) : Bool :=
  flags.bits &&& other.bits == other.bits

def names (flags : AccessFlags owner) : List String :=
  (owner.flags.filter fun flag => flags.bits &&& flag.1 == flag.1).map Prod.snd

@[simp] theorem ofBits_bits (flags : AccessFlags owner) : ofBits flags.bits = flags := by
  cases flags with
  | mk bits known => simp [ofBits, known]

end AccessFlags

def AccessFlags.isInterface (flags : AccessFlags .classFile) : Bool :=
  flags.contains (ofBits 0x0200)

end JavaClass
