import JavaClass.AccessFlags
import JavaClass.Attribute
import JavaClass.Pool.Encode

/-!
# Drafts

A draft is a class file before it is written: wherever the file has an index, so has the draft, and
nothing has been looked up yet. So a draft is what a writer needs to know, and `ClassDraft.encode`
is the layout of a class file from the writer's side. Every number is written most significant byte
first, every repeated part after the count of its items, and the body of an attribute after the
number of its bytes.

What an attribute is does not show in its bytes but in its name alone, which the draft has as an
index like any other.
-/

namespace JavaClass

variable {α Body : Type}

namespace Bytes

def ofWord (n : UInt16) : Bytes := ofNat 2 n.toNat

/-- The number of some items, in two bytes, and then the items. -/
def counted (write : α → Bytes) (items : List α) : Bytes :=
  ofNat 2 items.length ++ items.flatMap write

end Bytes

open Bytes

/-! ## Attributes -/

/-- An attribute that has not been written. -/
structure AttributeDraft (Body : Type) where
  nameIndex : UInt16
  body : Body

/-- The index of the name of an attribute, the length of its body in four bytes, and the body. -/
def AttributeDraft.encode (write : Body → Bytes) (a : AttributeDraft Body) : Bytes :=
  ofWord a.nameIndex ++ ofNat 4 (write a.body).length ++ write a.body

/-- The body of an attribute of code. -/
inductive CodeAttributeBody where
  | lineNumberTable (entries : List LineNumber)
  /-- The body of any other attribute; some of them are passed over. -/
  | verbatim (data : Bytes)

def LineNumber.encode (entry : LineNumber) : Bytes := ofWord entry.startPc ++ ofWord entry.line

def ExceptionEntry.encode (entry : ExceptionEntry) : Bytes :=
  ofWord entry.startPc ++ ofWord entry.endPc ++ ofWord entry.handlerPc ++ ofWord entry.catchType

def CodeAttributeBody.encode : CodeAttributeBody → Bytes
  | lineNumberTable entries => counted LineNumber.encode entries
  | verbatim data => data

/-- The code of a method. -/
structure CodeDraft where
  maxStack : UInt16
  maxLocals : UInt16
  instructions : Bytes
  exceptions : List ExceptionEntry
  attributes : List (AttributeDraft CodeAttributeBody)

def CodeDraft.encode (d : CodeDraft) : Bytes :=
  ofWord d.maxStack ++ ofWord d.maxLocals ++ ofNat 4 d.instructions.length ++ d.instructions ++
    counted ExceptionEntry.encode d.exceptions ++
    counted (AttributeDraft.encode CodeAttributeBody.encode) d.attributes

/-- The body of an attribute of a class, a field or a method. -/
inductive AttributeBody where
  | sourceFile (name : UInt16)
  | deprecated
  | signature (text : UInt16)
  | constantValue (index : UInt16)
  | code (body : CodeDraft)
  /-- The body of an attribute that is not interpreted where it is. -/
  | verbatim (data : Bytes)

def AttributeBody.encode : AttributeBody → Bytes
  | sourceFile name => ofWord name
  | deprecated => []
  | signature text => ofWord text
  | constantValue index => ofWord index
  | code body => body.encode
  | verbatim data => data

/-! ## Classes -/

structure MemberDraft (kind : Declaration) where
  flags : AccessFlags kind
  name : UInt16
  descriptor : UInt16
  attributes : List (AttributeDraft AttributeBody)

def MemberDraft.encode {kind : Declaration} (d : MemberDraft kind) : Bytes :=
  ofWord d.flags.bits ++ ofWord d.name ++ ofWord d.descriptor ++
    counted (AttributeDraft.encode AttributeBody.encode) d.attributes

structure ClassDraft where
  minorVersion : UInt16
  majorVersion : UInt16
  constants : List RawConstant
  flags : AccessFlags .classFile
  thisClass : UInt16
  /-- Zero if there is no superclass. -/
  superclass : UInt16
  interfaces : List UInt16
  fields : List (MemberDraft .field)
  methods : List (MemberDraft .method)
  attributes : List (AttributeDraft AttributeBody)

/-- How many indices some constants take that follow each other. -/
def RawConstant.slots : List RawConstant → Nat
  | [] => 0
  | c :: constants => c.tag.slots + slots constants

def ClassDraft.slots (d : ClassDraft) : Nat := RawConstant.slots d.constants

def ClassDraft.encode (d : ClassDraft) : Bytes :=
  [0xCA, 0xFE, 0xBA, 0xBE] ++ ofWord d.minorVersion ++ ofWord d.majorVersion ++
    -- index zero counts although no constant has it
    ofNat 2 (d.slots + 1) ++ d.constants.flatMap RawConstant.encode ++
    ofWord d.flags.bits ++ ofWord d.thisClass ++ ofWord d.superclass ++
    counted ofWord d.interfaces ++ counted MemberDraft.encode d.fields ++
    counted MemberDraft.encode d.methods ++
    counted (AttributeDraft.encode AttributeBody.encode) d.attributes

end JavaClass
