import JavaClass.Attribute.Decode
import JavaClass.ClassFile
import JavaClass.Pool.Resolve

/-!
# Reading class files

The parts of a class file come in a fixed order, each read from where the one before it ended, and
the file has to end with the last of them. Reading never looks at a byte before it is needed: what
is wrong with a file is decided by its bytes up to that point.
-/

namespace JavaClass

/-- Reads a field of the class `owner`. Both names are looked up after both indices are read. -/
def Field.decode (pool : Pool) (owner : String) (position : Nat) : Decoder Field := do
  let flags ← Reader.u16
  let nameIndex ← Reader.u16
  let descriptorIndex ← Reader.u16
  let name ← pool.requireText (.fieldName position) nameIndex
  let descriptor ← pool.requireText (.fieldDescriptor position) descriptorIndex
  let attributes ← Attribute.decodeAll pool .field
  return { owner, flags := .ofBits flags, name, descriptor, attributes }

/-- Reads a method. Its name is looked up before the index of its descriptor is read. -/
def Method.decode (pool : Pool) (position : Nat) : Decoder Method := do
  let flags ← Reader.u16
  let nameIndex ← Reader.u16
  let name ← pool.requireText (.methodName position) nameIndex
  let descriptorIndex ← Reader.u16
  let descriptor ← pool.requireText (.methodDescriptor position) descriptorIndex
  let (code, attributes) := Attribute.liftCode (← Attribute.decodeAll pool .method)
  return { flags := .ofBits flags, name := name.text, descriptor := descriptor.text, code,
           attributes }

namespace ClassFile

def magic : UInt32 := 0xCAFEBABE

/-- Reads the number that a class file begins with, and refuses any other. -/
def decodeMagic : Decoder Unit := do
  let found ← Reader.u32
  unless found = magic do throw (.badMagic found)

/-- Reads the index of the superclass; zero stands for none. -/
def decodeSuperclass (pool : Pool) : Decoder (Option Symbol) := do
  let index ← Reader.u16
  if index = 0 then
    return none
  else
    let name ← pool.requireClass .superclass index
    return some name

def decodeEnd : Decoder Unit := fun input =>
  if input.isEmpty then .ok () input else .error (.trailingBytes input.length) input

def decodeParts : Decoder ClassFile := do
  decodeMagic
  let minorVersion ← Reader.u16
  let majorVersion ← Reader.u16
  let poolCount ← Reader.u16
  let pool ← Pool.decode poolCount
  let flags ← Reader.u16
  let thisIndex ← Reader.u16
  let thisClass ← pool.requireClass .thisClass thisIndex
  let superclass ← decodeSuperclass pool
  let interfaces ← Decoder.counted fun _ => Reader.u16
  let fields ← Decoder.counted (Field.decode pool thisClass.text)
  let methods ← Decoder.counted (Method.decode pool)
  let attributes ← Attribute.decodeAll pool .classFile
  return { pool, minorVersion, majorVersion, flags := .ofBits flags, thisClass, superclass,
           interfaces, fields, methods, attributes }

/-- Reads a class file that ends where the input ends. -/
def decode : Decoder ClassFile := do
  let file ← decodeParts
  decodeEnd
  return file

end ClassFile

end JavaClass
