import JavaClass.AccessFlags
import JavaClass.Attribute
import JavaClass.Decoder

/-!
# Reading attributes

An attribute is framed: the index of its name, the length of its body, and the body. The frame is
read in the same way everywhere and the body is split off the input before anything looks into it,
so whatever the body holds, the input goes on right after it.

What is done with a body depends on its name. The body of an attribute that is interpreted has to
be used up exactly. When it is not, the error tells how many bytes its contents would have
occupied; in particular contents that run past their body are an error of the attribute, and not
of the file around it, even if more bytes follow.
-/

namespace JavaClass

namespace Attribute

variable {α : Type}

/-- Reads all of `body`, the body of the attribute `name`, as one thing. -/
def exactly (name : String) (inner : Decoder α) (body : Bytes) : Except DecodeError α :=
  match inner body with
  | .ok a [] => .ok a
  | .ok _ rest =>
    .error (.malformedAttribute name body.length (body.length - rest.length))
  | .error (.truncated short) _ =>
    .error (.malformedAttribute name body.length (body.length - short.remaining + short.wanted))
  | .error e _ => .error e

/-- Reads the frame of an attribute and makes of its name and its body what `contents` says. -/
def framed (pool : Pool) (contents : (name : String) → (body : Bytes) → Except DecodeError α) :
    Decoder α := do
  let nameIndex ← Reader.u16
  let length ← Reader.u32
  let name ← pool.requireText .attributeName nameIndex
  let body ← Reader.take length.toNat
  contents name.text body

end Attribute

/-! ## Code -/

def LineNumber.decode : Reader LineNumber := return ⟨← Reader.u16, ← Reader.u16⟩

def ExceptionEntry.decode : Reader ExceptionEntry :=
  return ⟨← Reader.u16, ← Reader.u16, ← Reader.u16, ← Reader.u16⟩

namespace CodeAttribute

/-- The attributes that are passed over unread. -/
def skippedNames : List String := ["LocalVariableTable", "LocalVariableTypeTable", "StackMapTable"]

/-- What an attribute of code says. -/
def contents (name : String) (body : Bytes) : Except DecodeError CodeAttribute :=
  if name = "LineNumberTable" then
    lineNumberTable <$> Attribute.exactly name (Decoder.counted fun _ => LineNumber.decode) body
  else if name ∈ skippedNames then
    .ok (skipped name body.length)
  else
    .ok (unknown name body)

def decode (pool : Pool) : Decoder CodeAttribute := Attribute.framed pool contents

end CodeAttribute

def Code.decode (pool : Pool) : Decoder Code := do
  let maxStack ← Reader.u16
  let maxLocals ← Reader.u16
  let length ← Reader.u32
  let instructions ← Reader.take length.toNat
  let exceptions ← Decoder.counted fun _ => ExceptionEntry.decode
  let attributes ← Decoder.counted fun _ => CodeAttribute.decode pool
  return { maxStack, maxLocals, instructions, exceptions, attributes }

/-! ## Declarations -/

/-- The attributes of declarations that are interpreted. -/
inductive KnownAttribute where
  | sourceFile | deprecated | signature | constantValue | code
  deriving DecidableEq, Repr

/-- The name under which a class file has the attribute. -/
def KnownAttribute.name : KnownAttribute → String
  | sourceFile => "SourceFile"
  | deprecated => "Deprecated"
  | signature => "Signature"
  | constantValue => "ConstantValue"
  | code => "Code"

/-- The attributes that are interpreted on a declaration. -/
def Declaration.known : Declaration → List KnownAttribute
  | classFile => [.sourceFile, .deprecated, .signature]
  | field => [.deprecated, .signature, .constantValue]
  | method => [.deprecated, .signature, .code]

namespace KnownAttribute

/-- The attribute that `name` means on a declaration. -/
def ofName? (owner : Declaration) (name : String) : Option KnownAttribute :=
  owner.known.find? (·.name = name)

def decode (pool : Pool) (known : KnownAttribute) : Decoder Attribute :=
  let referrer := .contentsOf known.name
  match known with
  | sourceFile => do
    let index ← Reader.u16
    let name ← pool.requireText referrer index
    return .sourceFile name
  | deprecated => return .deprecated
  | signature => do
    let index ← Reader.u16
    let text ← pool.requireText referrer index
    return .signature text
  | constantValue => do
    let index ← Reader.u16
    let _ ← pool.requireValue referrer index
    return .constantValue index
  | code => .code <$> Code.decode pool

end KnownAttribute

namespace Attribute

/-- What an attribute of a declaration says. -/
def contents (pool : Pool) (owner : Declaration) (name : String) (body : Bytes) :
    Except DecodeError Attribute :=
  match KnownAttribute.ofName? owner name with
  | some known => exactly name (known.decode pool) body
  | none => .ok (unknown name body)

def decode (pool : Pool) (owner : Declaration) : Decoder Attribute :=
  framed pool (contents pool owner)

def decodeAll (pool : Pool) (owner : Declaration) : Decoder (List Attribute) :=
  Decoder.counted fun _ => decode pool owner

end Attribute

end JavaClass
