import JavaClass.Bytes.Reader
import JavaClass.Pool.Constant

/-!
# Why a class file is refused

The ways in which decoding can fail, with the report of each. A reference into the pool that does
not lead to what it needs names three things: the index, what was expected there, and who referred
to it.
-/

namespace JavaClass

/-- The places that refer into the pool. Positions count from zero. -/
inductive Referrer where
  | constant (index : UInt16)
  | thisClass
  | superclass
  | interface (position : Nat)
  | fieldName (position : Nat)
  | fieldDescriptor (position : Nat)
  | methodName (position : Nat)
  | methodDescriptor (position : Nat)
  | attributeName
  /-- The contents of the attribute with this name. -/
  | contentsOf (name : String)
  /-- Anyone else who asks, under a description of their own. -/
  | other (description : String)
  deriving DecidableEq, Repr

/-- The place as error messages call it. -/
def Referrer.description : Referrer → String
  | constant index => s!"constant #{index}"
  | thisClass => "this_class"
  | superclass => "super_class"
  | interface position => s!"interface #{position}"
  | fieldName position => s!"name of field #{position}"
  | fieldDescriptor position => s!"descriptor of field #{position}"
  | methodName position => s!"name of method #{position}"
  | methodDescriptor position => s!"descriptor of method #{position}"
  | attributeName => "attribute name"
  | contentsOf name => name
  | other description => description

/-- What a reference needs to find. -/
inductive Expectation where
  | kind (k : ConstantKind)
  /-- Any constant at all, as the value of a field. -/
  | value
  deriving DecidableEq, Repr

/-- The need as error messages call it. -/
def Expectation.description : Expectation → String
  | kind k => k.description
  | value => "constant value"

/-- Why bytes are not a class file, or not a part of one. -/
inductive DecodeError where
  /-- The file does not begin with the number that marks class files. -/
  | badMagic (found : UInt32)
  /-- The input ended too early. -/
  | truncated (short : OutOfBytes)
  /-- No layout of constants has this tag. -/
  | unsupportedTag (tag : UInt8) (index : UInt16)
  /-- A reference does not lead to what it needs. -/
  | danglingReference (referrer : Referrer) (index : UInt16) (expected : Expectation)
  /-- The contents of an attribute are not as long as it declares. -/
  | malformedAttribute (name : String) (declared consumed : Nat)
  /-- The file goes on after its end. -/
  | trailingBytes (count : Nat)
  deriving DecidableEq, Repr

def DecodeError.message : DecodeError → String
  | badMagic found => "invalid magic value 0x" ++ Hex.padded 8 found.toNat
  | truncated short => s!"classfile was truncated ({short.message})"
  | unsupportedTag tag index => s!"unsupported constant pool tag {tag} at index {index}"
  | danglingReference referrer index expected =>
    s!"{referrer.description} references constant #" ++
      s!"{index}, which is not a {expected.description}"
  | malformedAttribute name declared consumed =>
    s!"attribute '{name}' declares {declared} bytes but its contents occupy {consumed}"
  | trailingBytes count => s!"classfile has {count} trailing bytes"

end JavaClass
