import JavaClass.Pool

/-!
# Attributes

Classes, fields, methods and the code of methods carry named attributes. A name means something
only where it belongs: `ConstantValue` is interpreted on a field and is an unknown attribute on a
method. Attributes of code are a type of their own, since none of them is ever one of a
declaration; in particular code never contains code.
-/

namespace JavaClass

/-! ## Code -/

/-- A range of code and where control goes when something is thrown there. -/
structure ExceptionEntry where
  /-- The first address of the range. -/
  startPc : UInt16
  /-- The address after the range. -/
  endPc : UInt16
  handlerPc : UInt16
  /-- The index of the class that is caught; zero catches everything. -/
  catchType : UInt16
  deriving DecidableEq, Repr

namespace ExceptionEntry

/-- Whether anything that is thrown is caught. -/
def catchesAll (e : ExceptionEntry) : Bool := e.catchType == 0

def covers (e : ExceptionEntry) (pc : UInt16) : Bool := e.startPc ≤ pc && pc < e.endPc

end ExceptionEntry

/-- The source line that begins at an address. -/
structure LineNumber where
  startPc : UInt16
  line : UInt16
  deriving DecidableEq, Repr

/-- An attribute of code. -/
inductive CodeAttribute where
  | lineNumberTable (entries : List LineNumber)
  /-- A known attribute that is passed over; only its length is kept. -/
  | skipped (name : String) (length : Nat)
  | unknown (name : String) (data : Bytes)
  deriving DecidableEq, Repr

namespace CodeAttribute

/-- The line numbers that an attribute contributes. -/
def lines : CodeAttribute → List LineNumber
  | lineNumberTable entries => entries
  | _ => []

def unknown? : CodeAttribute → Option String
  | unknown name _ => some name
  | _ => none

end CodeAttribute

structure Code where
  /-- How deep the operand stack may get, in units. -/
  maxStack : UInt16
  /-- How many slots there are for local variables. -/
  maxLocals : UInt16
  instructions : Bytes
  /-- The first entry that fits decides, so the order matters. -/
  exceptions : List ExceptionEntry
  attributes : List CodeAttribute
  deriving DecidableEq, Repr

namespace Code

/-- The entries of all line number tables, one table after the other. -/
def lines (code : Code) : List LineNumber := code.attributes.flatMap CodeAttribute.lines

/-- Of two entries the one that begins later; of two that begin together, the second. -/
def closer (best : Option LineNumber) (next : LineNumber) : Option LineNumber :=
  match best with
  | some b => if b.startPc ≤ next.startPc then some next else some b
  | none => some next

/-- The source line of the instruction at an address: that of the last line number entry among
those that begin closest before it. -/
def lineAt? (code : Code) (pc : UInt16) : Option UInt16 :=
  ((code.lines.filter (·.startPc ≤ pc)).foldl closer none).map LineNumber.line

end Code

/-! ## Attributes of declarations -/

inductive Attribute where
  | sourceFile (name : Symbol)
  | deprecated
  | signature (text : Symbol)
  /-- `index` leads to the value. -/
  | constantValue (index : UInt16)
  | code (body : Code)
  | unknown (name : String) (data : Bytes)
  deriving DecidableEq, Repr

namespace Attribute

def sourceFile? : Attribute → Option Symbol
  | sourceFile name => some name
  | _ => none

def signature? : Attribute → Option Symbol
  | signature text => some text
  | _ => none

def constantValue? : Attribute → Option UInt16
  | constantValue index => some index
  | _ => none

def code? : Attribute → Option Code
  | code body => some body
  | _ => none

def unknown? : Attribute → Option String
  | unknown name _ => some name
  | _ => none

/-! ## Lists of attributes

Where an attribute occurs more than once, the first counts. -/

def isDeprecated (attributes : List Attribute) : Bool := attributes.contains deprecated

/-- The generic signature; it is recorded and never interpreted. -/
def signatureOf? (attributes : List Attribute) : Option Symbol := attributes.findSome? signature?

def sourceFileOf? (attributes : List Attribute) : Option Symbol := attributes.findSome? sourceFile?

def constantValueOf? (attributes : List Attribute) : Option UInt16 :=
  attributes.findSome? constantValue?

def unknownNames (attributes : List Attribute) : List String := attributes.filterMap unknown?

/-- The first code among some attributes, and the attributes without it. -/
def liftCode (attributes : List Attribute) : Option Code × List Attribute :=
  (attributes.findSome? code?, attributes.eraseP (·.code?.isSome))

end Attribute

end JavaClass
