import JavaClass.Attribute.Decode
import JavaClass.ClassFile
import JavaClass.ClassFile.Draft
import JavaClass.Proofs.Pool.Meaning
import Mathlib.Tactic.MkIffOfInductiveProp

/-!
# What a draft means

The class file that a draft describes has texts beside the indices of the draft. Like the pool of a
table, it can be given without reading anything: `ClassDraft.meaning` follows each index in the raw
constants. `ClassDraft.Valid` is what a draft has to observe in order to describe a class file at
all: its counts and lengths fit the fields in which they are written, its indices lead to what they
have to lead to, and its attributes have the names of what they are.

Some indices need not lead anywhere: those of interfaces, and the types that are caught. Such files
are class files nonetheless.
-/

namespace JavaClass

variable {Body : Type}

/-! ## Constants -/

/-- The indices that a constant takes, with what stands at each of them. -/
def RawConstant.spread (c : RawConstant) : List (Option RawConstant) :=
  if c.tag.isWide then [some c, none] else [some c]

/-- The table in which these constants follow each other, from index one on. -/
def RawPool.ofConstants (constants : List RawConstant) : RawPool :=
  (none :: constants.flatMap RawConstant.spread).toArray

instance (c : RawConstant) : Decidable c.Fits :=
  match c with
  | .utf8 bytes => inferInstanceAs (Decidable (bytes.length < 0x10000))
  | .unsupported kind payload => inferInstanceAs (Decidable (payload.length = kind.payloadSize))
  | .integer _ | .long _ | .string _ | .classRef _ | .nameAndType _ _ | .member _ _ _ =>
    inferInstanceAs (Decidable True)

/-! ## Names of attributes -/

namespace CodeAttributeBody

/-- The name is one for such a body. -/
def Suits (name : String) : CodeAttributeBody → Prop
  | lineNumberTable entries => name = "LineNumberTable" ∧ entries.length < 0x10000
  | verbatim _ => name ≠ "LineNumberTable"

instance (name : String) : DecidablePred (Suits name)
  | lineNumberTable _ => inferInstanceAs (Decidable (_ ∧ _))
  | verbatim _ => inferInstanceAs (Decidable (name ≠ _))

def meaning (name : String) : CodeAttributeBody → CodeAttribute
  | lineNumberTable entries => .lineNumberTable entries
  | verbatim data =>
    if name ∈ CodeAttribute.skippedNames then .skipped name data.length else .unknown name data

end CodeAttributeBody

namespace AttributeDraft

variable (table : RawPool)

def name (a : AttributeDraft Body) : String := table.text a.nameIndex

/-- An attribute can be written, and its name and its body go together. -/
def Valid (write : Body → Bytes) (suits : String → Body → Prop) (a : AttributeDraft Body) : Prop :=
  table.tag? a.nameIndex = some .utf8 ∧ (write a.body).length < 0x100000000 ∧
    suits (a.name table) a.body

variable {write : Body → Bytes} {suits : String → Body → Prop}
  [∀ name, DecidablePred (suits name)]

instance : DecidablePred (Valid table write suits) := fun _ ↦
  inferInstanceAs (Decidable (_ ∧ _ ∧ _))

def AllValid (write : Body → Bytes) (suits : String → Body → Prop)
    (attributes : List (AttributeDraft Body)) : Prop :=
  attributes.length < 0x10000 ∧ ∀ a ∈ attributes, a.Valid table write suits

instance : DecidablePred (AllValid table write suits) := fun _ ↦
  inferInstanceAs (Decidable (_ ∧ _))

end AttributeDraft

namespace CodeDraft

@[mk_iff]
structure Valid (table : RawPool) (d : CodeDraft) : Prop where
  instructions : d.instructions.length < 0x100000000
  exceptions : d.exceptions.length < 0x10000
  attributes :
    AttributeDraft.AllValid table CodeAttributeBody.encode CodeAttributeBody.Suits d.attributes

instance (table : RawPool) : DecidablePred (Valid table) := fun d ↦
  decidable_of_iff' _ (valid_iff table d)

def meaning (table : RawPool) (d : CodeDraft) : Code where
  maxStack := d.maxStack
  maxLocals := d.maxLocals
  instructions := d.instructions
  exceptions := d.exceptions
  attributes := d.attributes.map fun a ↦ a.body.meaning (a.name table)

end CodeDraft

namespace AttributeBody

/-- The attribute that is interpreted as such a body. -/
def known? : AttributeBody → Option KnownAttribute
  | sourceFile _ => some .sourceFile
  | deprecated => some .deprecated
  | signature _ => some .signature
  | constantValue _ => some .constantValue
  | code _ => some .code
  | verbatim _ => none

/-- On a declaration the name is one for such a body: that of an attribute that is interpreted
there, or else of none that is. -/
def IsNamed (owner : Declaration) (name : String) (body : AttributeBody) : Prop :=
  match body.known? with
  | some known => known ∈ owner.known ∧ name = known.name
  | none => ∀ known ∈ owner.known, name ≠ known.name

instance (owner : Declaration) (name : String) : DecidablePred (IsNamed owner name) := fun body ↦
  match h : body.known? with
  | some known => decidable_of_iff (known ∈ owner.known ∧ name = known.name) (by simp [IsNamed, h])
  | none => decidable_of_iff (∀ known ∈ owner.known, name ≠ known.name) (by simp [IsNamed, h])

/-- The indices in a body lead to what they have to. -/
def Resolves (table : RawPool) : AttributeBody → Prop
  | sourceFile name => table.tag? name = some .utf8
  | signature text => table.tag? text = some .utf8
  | constantValue index => (table.raw? index).isSome
  | code body => body.Valid table
  | deprecated | verbatim _ => True

instance (table : RawPool) : DecidablePred (Resolves table)
  | sourceFile _ | signature _ | constantValue _ => inferInstanceAs (Decidable (_ = _))
  | code body => inferInstanceAs (Decidable (body.Valid table))
  | deprecated | verbatim _ => inferInstanceAs (Decidable True)

/-- On a declaration the body can have this name. -/
def Suits (table : RawPool) (owner : Declaration) (name : String) (body : AttributeBody) : Prop :=
  body.IsNamed owner name ∧ body.Resolves table

instance (table : RawPool) (owner : Declaration) (name : String) :
    DecidablePred (Suits table owner name) := fun _ ↦
  inferInstanceAs (Decidable (_ ∧ _))

def meaning (table : RawPool) (name : String) : AttributeBody → Attribute
  | sourceFile index => .sourceFile (table.symbol index)
  | deprecated => .deprecated
  | signature text => .signature (table.symbol text)
  | constantValue index => .constantValue index
  | code body => .code (body.meaning table)
  | verbatim data => .unknown name data

end AttributeBody

def AttributesValid (table : RawPool) (owner : Declaration) :
    List (AttributeDraft AttributeBody) → Prop :=
  AttributeDraft.AllValid table AttributeBody.encode (AttributeBody.Suits table owner)

instance (table : RawPool) (owner : Declaration) : DecidablePred (AttributesValid table owner) :=
  inferInstanceAs (DecidablePred (AttributeDraft.AllValid _ _ _))

def attributesMeaning (table : RawPool) (attributes : List (AttributeDraft AttributeBody)) :
    List Attribute :=
  attributes.map fun a ↦ a.body.meaning table (a.name table)

/-! ## Members -/

namespace MemberDraft

variable {kind : Declaration} (table : RawPool)

@[mk_iff]
structure Valid (d : MemberDraft kind) : Prop where
  name : table.tag? d.name = some .utf8
  descriptor : table.tag? d.descriptor = some .utf8
  attributes : AttributesValid table kind d.attributes

instance (d : MemberDraft kind) : Decidable (d.Valid table) :=
  decidable_of_iff' _ (valid_iff table d)

/-- The field of the class `owner` that a draft describes. -/
def field (owner : String) (d : MemberDraft .field) : Field where
  owner
  flags := d.flags
  name := table.symbol d.name
  descriptor := table.symbol d.descriptor
  attributes := attributesMeaning table d.attributes

/-- The method that a draft describes. Its first code is taken out of its attributes. -/
def method (d : MemberDraft .method) : Method where
  flags := d.flags
  name := table.text d.name
  descriptor := table.text d.descriptor
  code := (attributesMeaning table d.attributes).findSome? Attribute.code?
  attributes := (attributesMeaning table d.attributes).eraseP (·.code?.isSome)

end MemberDraft

/-! ## Classes -/

namespace ClassDraft

/-- The constants of a class by their indices. -/
def table (d : ClassDraft) : RawPool := .ofConstants d.constants

structure Valid (d : ClassDraft) : Prop where
  constants : ∀ c ∈ d.constants, c.Fits
  slots : d.slots ≤ 65534
  resolvable : d.table.Resolvable
  thisClass : d.table.tag? d.thisClass = some .classRef
  superclass : d.superclass = 0 ∨ d.table.tag? d.superclass = some .classRef
  interfaces : d.interfaces.length < 0x10000
  fields : d.fields.length < 0x10000 ∧ ∀ f ∈ d.fields, f.Valid d.table
  methods : d.methods.length < 0x10000 ∧ ∀ m ∈ d.methods, m.Valid d.table
  attributes : AttributesValid d.table .classFile d.attributes

/-- The class file that a draft describes. -/
def meaning (d : ClassDraft) : ClassFile where
  pool := d.table.meaning
  minorVersion := d.minorVersion
  majorVersion := d.majorVersion
  flags := d.flags
  thisClass := d.table.classSymbol d.thisClass
  superclass := if d.superclass = 0 then none else some (d.table.classSymbol d.superclass)
  interfaces := d.interfaces
  fields := d.fields.map (MemberDraft.field d.table (d.table.className d.thisClass))
  methods := d.methods.map (MemberDraft.method d.table)
  attributes := attributesMeaning d.table d.attributes

end ClassDraft

end JavaClass
