import JavaClass.Text.Utf8

/-!
# Constants

A constant starts with a tag byte. The tag says how its payload is laid out and how many indices
of the pool it takes; there are seventeen, and they fall into eight kinds. Three of the tags refer
to a member, and eight have a payload that is kept without being interpreted.

A constant is seen at two times. A `RawConstant` is what its bytes say: references are bare
indices, and whether they lead anywhere is not known yet. A `Constant` has been resolved: beside
each index stands the string that it leads to.
-/

namespace JavaClass

/-! ## Tags -/

/-- What a member reference refers to. -/
inductive MemberKind where
  | field | method | interfaceMethod
  deriving DecidableEq, Repr

def MemberKind.byte : MemberKind → UInt8
  | field => 9
  | method => 10
  | interfaceMethod => 11

/-- The constants whose payload is not interpreted. -/
inductive UnsupportedKind where
  | float | double | methodHandle | methodType | dynamic | invokeDynamic | moduleName | packageName
  deriving DecidableEq, Repr

namespace UnsupportedKind

def byte : UnsupportedKind → UInt8
  | float => 4
  | double => 6
  | methodHandle => 15
  | methodType => 16
  | dynamic => 17
  | invokeDynamic => 18
  | moduleName => 19
  | packageName => 20

def payloadSize : UnsupportedKind → Nat
  | float => 4
  | double => 8
  | methodHandle => 3
  | methodType => 2
  | dynamic => 4
  | invokeDynamic => 4
  | moduleName => 2
  | packageName => 2

end UnsupportedKind

/-- The layouts of a constant. -/
inductive Tag where
  | utf8 | integer | long | string | classRef | nameAndType
  | member (kind : MemberKind)
  | unsupported (kind : UnsupportedKind)
  deriving DecidableEq, Repr

namespace Tag

def byte : Tag → UInt8
  | utf8 => 1
  | integer => 3
  | long => 5
  | string => 8
  | classRef => 7
  | nameAndType => 12
  | member kind => kind.byte
  | unsupported kind => kind.byte

/-- The tag that a byte stands for, if it stands for one. -/
def ofByte? : UInt8 → Option Tag
  | 1 => some utf8
  | 3 => some integer
  | 4 => some (unsupported .float)
  | 5 => some long
  | 6 => some (unsupported .double)
  | 7 => some classRef
  | 8 => some string
  | 9 => some (member .field)
  | 10 => some (member .method)
  | 11 => some (member .interfaceMethod)
  | 12 => some nameAndType
  | 15 => some (unsupported .methodHandle)
  | 16 => some (unsupported .methodType)
  | 17 => some (unsupported .dynamic)
  | 18 => some (unsupported .invokeDynamic)
  | 19 => some (unsupported .moduleName)
  | 20 => some (unsupported .packageName)
  | _ => none

/-- Whether a constant takes two indices, as the 64-bit numbers do. -/
def isWide : Tag → Bool
  | long | unsupported .double => true
  | _ => false

def slots (tag : Tag) : Nat := if tag.isWide then 2 else 1

@[simp] theorem ofByte?_byte (tag : Tag) : ofByte? tag.byte = some tag := by
  cases tag with
  | member kind => cases kind <;> rfl
  | unsupported kind => cases kind <;> rfl
  | _ => rfl

end Tag

/-! ## As scanned -/

/-- A constant as its bytes give it. -/
inductive RawConstant where
  | utf8 (bytes : Bytes)
  | integer (value : Int32)
  | long (value : Int64)
  | string (text : UInt16)
  | classRef (name : UInt16)
  | nameAndType (name descriptor : UInt16)
  /-- `owner` leads to a class and `description` to a name and type. -/
  | member (kind : MemberKind) (owner description : UInt16)
  | unsupported (kind : UnsupportedKind) (payload : Bytes)
  deriving DecidableEq, Repr

def RawConstant.tag : RawConstant → Tag
  | utf8 _ => .utf8
  | integer _ => .integer
  | long _ => .long
  | string _ => .string
  | classRef _ => .classRef
  | nameAndType .. => .nameAndType
  | member kind .. => .member kind
  | unsupported kind _ => .unsupported kind

/-! ## As resolved -/

/-- A string together with the pool index that led to it. -/
structure Symbol where
  index : UInt16
  text : String
  deriving DecidableEq, Repr

/-- A constant with the strings that it refers to. -/
inductive Constant where
  | utf8 (bytes : Bytes) (text : String)
  | integer (value : Int32)
  | long (value : Int64)
  | string (text : Symbol)
  | classRef (name : Symbol)
  | nameAndType (name descriptor : Symbol)
  /-- `owner` leads to the class that declares the member, and `description` to its name and
  type. -/
  | member (kind : MemberKind) (owner : Symbol) (description : UInt16) (name descriptor : String)
  | unsupported (kind : UnsupportedKind) (payload : Bytes)
  deriving DecidableEq, Repr

/-- What a reference can ask for. -/
inductive ConstantKind where
  | utf8 | integer | long | string | classRef | nameAndType | member | unsupported
  deriving DecidableEq, Repr

/-- The kind as error messages call it. -/
def ConstantKind.description : ConstantKind → String
  | utf8 => "Utf8"
  | integer => "Integer"
  | long => "Long"
  | string => "String"
  | classRef => "Class"
  | nameAndType => "NameAndType"
  | member => "member ref"
  | unsupported => "unsupported constant"

namespace Constant

def kind : Constant → ConstantKind
  | utf8 .. => .utf8
  | integer _ => .integer
  | long _ => .long
  | string _ => .string
  | classRef _ => .classRef
  | nameAndType .. => .nameAndType
  | member .. => .member
  | unsupported .. => .unsupported

/-- Forgets the strings. -/
def raw : Constant → RawConstant
  | utf8 bytes _ => .utf8 bytes
  | integer value => .integer value
  | long value => .long value
  | string text => .string text.index
  | classRef name => .classRef name.index
  | nameAndType name descriptor => .nameAndType name.index descriptor.index
  | member kind owner description _ _ => .member kind owner.index description
  | unsupported kind payload => .unsupported kind payload

def tag (c : Constant) : Tag := c.raw.tag

def utf8? : Constant → Option String
  | utf8 _ text => some text
  | _ => none

def className? : Constant → Option String
  | classRef name => some name.text
  | _ => none

def nameAndType? : Constant → Option (String × String)
  | nameAndType name descriptor => some (name.text, descriptor.text)
  | _ => none

end Constant

end JavaClass
