import JavaClass.AccessFlags
import JavaClass.Attribute

/-!
# Class files

One class as its file describes it, with its members. Names of the class itself, of its superclass
and of its members have been looked up; interfaces are kept as bare indices until someone asks for
their names, so a file whose interfaces lead nowhere is still a class file.
-/

namespace JavaClass

structure Field where
  /-- The name of the class that declares the field. -/
  owner : String
  flags : AccessFlags .field
  name : Symbol
  descriptor : Symbol
  attributes : List Attribute
  deriving DecidableEq, Repr

/-- A method of a class, with its code taken out of its attributes. -/
structure Method where
  flags : AccessFlags .method
  name : String
  descriptor : String
  /-- Abstract and native methods have none. -/
  code : Option Code
  attributes : List Attribute
  deriving DecidableEq, Repr

structure ClassFile where
  pool : Pool
  minorVersion : UInt16
  majorVersion : UInt16
  flags : AccessFlags .classFile
  thisClass : Symbol
  /-- Only the root of the hierarchy has none. -/
  superclass : Option Symbol
  /-- Indices of the interfaces, in the order of their declaration. -/
  interfaces : List UInt16
  fields : List Field
  methods : List Method
  attributes : List Attribute
  deriving DecidableEq, Repr

namespace ClassFile

def name (file : ClassFile) : String := file.thisClass.text

/-- The names of the interfaces, or a report of the first index that leads to no class. -/
def interfaceNames (file : ClassFile) : Except DecodeError (List String) :=
  file.interfaces.zipIdx.mapM fun (index, position) =>
    Symbol.text <$> file.pool.requireClass (.interface position) index

/-! ## Members

Where several members fit, the first in order of declaration is found. -/

def field? (file : ClassFile) (name : String) : Option Field :=
  file.fields.find? (·.name.text = name)

def method? (file : ClassFile) (name : String) : Option Method :=
  file.methods.find? (·.name = name)

def overload? (file : ClassFile) (name descriptor : String) : Option Method :=
  file.methods.find? fun m => m.name = name ∧ m.descriptor = descriptor

/-- The position of the method with this name, and with this descriptor if one is given. -/
def methodPosition? (file : ClassFile) (name : String) (descriptor : Option String) : Option Nat :=
  file.methods.findIdx? fun m => m.name = name ∧ descriptor.all (m.descriptor = ·)

end ClassFile

/-! ## Code of methods

A method without code reads as one that has no instructions and no room for values. -/

namespace Method

def instructions (m : Method) : Bytes := m.code.elim [] Code.instructions

def maxStack (m : Method) : UInt16 := m.code.elim 0 Code.maxStack

def maxLocals (m : Method) : UInt16 := m.code.elim 0 Code.maxLocals

def exceptions (m : Method) : List ExceptionEntry := m.code.elim [] Code.exceptions

def lines (m : Method) : List LineNumber := m.code.elim [] Code.lines

end Method

end JavaClass
