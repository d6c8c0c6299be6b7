import JavaClass.Proofs.Attribute.Grammar
import JavaClass.Proofs.Pool.Encoding

/-!
# The layout of a class file

A `Layout` is a class file as it stands in an input: the indices that are stored in it, and its
attributes as blocks, with nothing looked up and nothing taken out. `ClassFile.IsLaidOut` tells what
has been made of each of these. So what is to be said of a class file that has been read follows
from its layout, whatever the order in which its parts have been read and looked up.

Without a pool the rest has no meaning, so that a layout is one for a pool. Of the bytes of the pool
itself it says only that the pool is read from them.

## Main statements

* `ClassFile.decode_eq_ok_iff_isLaidOut`: class files are read from the bytes of their layouts, and
  from no others.
-/

namespace JavaClass

open Bytes EStateM Reader Decoder

/-! ## Members -/

/-- A field or a method in an input. -/
structure MemberLayout (pool : Pool) where
  flags : UInt16
  nameIndex : UInt16
  descriptorIndex : UInt16
  attributes : List (Attribute.Block pool)

variable {pool : Pool}

def MemberLayout.bytes (m : MemberLayout pool) : Bytes :=
  ofWord m.flags ++ ofWord m.nameIndex ++ ofWord m.descriptorIndex ++
    counted Attribute.Block.bytes m.attributes

/-- What a field of the class `owner` has been read from. -/
structure Field.IsLaidOut (owner : String) (m : MemberLayout pool) (f : Field) : Prop where
  owner_eq : f.owner = owner
  flags_eq : f.flags = .ofBits m.flags
  name_index : f.name.index = m.nameIndex
  name_text : pool.text? m.nameIndex = some f.name.text
  descriptor_index : f.descriptor.index = m.descriptorIndex
  descriptor_text : pool.text? m.descriptorIndex = some f.descriptor.text
  attributes : Attribute.AreReadFrom .field m.attributes f.attributes

/-- What a method has been read from. Its code is among the attributes there. -/
structure Method.IsLaidOut (m : MemberLayout pool) (method : Method) : Prop where
  flags_eq : method.flags = .ofBits m.flags
  name_text : pool.text? m.nameIndex = some method.name
  descriptor_text : pool.text? m.descriptorIndex = some method.descriptor
  attributes : ∃ attributes, Attribute.AreReadFrom .method m.attributes attributes ∧
    Attribute.liftCode attributes = (method.code, method.attributes)

theorem Field.accepts_decode (pool : Pool) (owner : String) (position : Nat) :
    Accepts (Field.decode pool owner position) MemberLayout.bytes
      (@Field.IsLaidOut pool owner) := by
  intro input f rest hrun
  obtain ⟨flags, _, mid, rfl, rfl, hrun⟩ := accepts_u16.of_bind hrun
  obtain ⟨nameIndex, _, mid, rfl, rfl, hrun⟩ := accepts_u16.of_bind hrun
  obtain ⟨descriptorIndex, _, mid, rfl, rfl, hrun⟩ := accepts_u16.of_bind hrun
  obtain ⟨name, hname, hrun⟩ := of_check_bind hrun
  obtain ⟨descriptor, hdescriptor, hrun⟩ := of_check_bind hrun
  obtain ⟨blocks, attributes, mid, rfl, hblocks, ⟨⟩⟩ :=
    (Attribute.accepts_decodeAll pool .field).of_bind hrun
  obtain ⟨hnameIndex, hname⟩ := Pool.requireText_eq_ok_iff.mp hname
  obtain ⟨hdescriptorIndex, hdescriptor⟩ := Pool.requireText_eq_ok_iff.mp hdescriptor
  refine ⟨⟨flags, nameIndex, descriptorIndex, blocks⟩, ?_,
    ⟨rfl, rfl, hnameIndex, hname, hdescriptorIndex, hdescriptor, hblocks⟩⟩
  simp only [MemberLayout.bytes, List.append_assoc]

theorem Field.IsLaidOut.reads_decode {owner : String} {m : MemberLayout pool} {f : Field}
    (h : Field.IsLaidOut owner m f) (position : Nat) :
    Reads (Field.decode pool owner position) m.bytes f := by
  obtain ⟨_, _, name, descriptor, attributes⟩ := f
  obtain ⟨rfl, rfl, hnameIndex, hname, hdescriptorIndex, hdescriptor, hattributes⟩ := h
  simp only [MemberLayout.bytes, List.append_assoc]
  refine (reads_lift (reads_u16 m.flags)).bind ?_
  refine (reads_lift (reads_u16 m.nameIndex)).bind ?_
  refine (reads_lift (reads_u16 m.descriptorIndex)).bind ?_
  refine reads_check_bind (Pool.requireText_eq_ok_iff.mpr ⟨hnameIndex, hname⟩) ?_
  refine reads_check_bind (Pool.requireText_eq_ok_iff.mpr ⟨hdescriptorIndex, hdescriptor⟩) ?_
  exact hattributes.reads_decodeAll.bind_last (reads_pure _)

theorem Method.accepts_decode (pool : Pool) (position : Nat) :
    Accepts (Method.decode pool position) MemberLayout.bytes
      (@Method.IsLaidOut pool) := by
  intro input method rest hrun
  obtain ⟨flags, _, mid, rfl, rfl, hrun⟩ := accepts_u16.of_bind hrun
  obtain ⟨nameIndex, _, mid, rfl, rfl, hrun⟩ := accepts_u16.of_bind hrun
  obtain ⟨name, hname, hrun⟩ := of_check_bind hrun
  obtain ⟨descriptorIndex, _, mid, rfl, rfl, hrun⟩ := accepts_u16.of_bind hrun
  obtain ⟨descriptor, hdescriptor, hrun⟩ := of_check_bind hrun
  obtain ⟨blocks, attributes, mid, rfl, hblocks, ⟨⟩⟩ :=
    (Attribute.accepts_decodeAll pool .method).of_bind hrun
  obtain ⟨_, hname⟩ := Pool.requireText_eq_ok_iff.mp hname
  obtain ⟨_, hdescriptor⟩ := Pool.requireText_eq_ok_iff.mp hdescriptor
  refine ⟨⟨flags, nameIndex, descriptorIndex, blocks⟩, ?_,
    ⟨rfl, hname, hdescriptor, attributes, hblocks, rfl⟩⟩
  simp only [MemberLayout.bytes, List.append_assoc]

theorem Method.IsLaidOut.reads_decode {m : MemberLayout pool} {method : Method}
    (h : Method.IsLaidOut m method) (position : Nat) :
    Reads (Method.decode pool position) m.bytes method := by
  obtain ⟨_, name, descriptor, code, left⟩ := method
  obtain ⟨rfl, hname, hdescriptor, attributes, hattributes, hlift⟩ := h
  simp only [MemberLayout.bytes, List.append_assoc]
  refine (reads_lift (reads_u16 m.flags)).bind ?_
  refine (reads_lift (reads_u16 m.nameIndex)).bind ?_
  refine reads_check_bind (a := ⟨m.nameIndex, name⟩)
    (Pool.requireText_eq_ok_iff.mpr ⟨rfl, hname⟩) ?_
  refine (reads_lift (reads_u16 m.descriptorIndex)).bind ?_
  refine reads_check_bind (a := ⟨m.descriptorIndex, descriptor⟩)
    (Pool.requireText_eq_ok_iff.mpr ⟨rfl, hdescriptor⟩) ?_
  refine hattributes.reads_decodeAll.bind_last ?_
  simp only [hlift]
  exact reads_pure _

/-! ## Class files -/

/-- A class file in an input. -/
structure Layout (pool : Pool) where
  minorVersion : UInt16
  majorVersion : UInt16
  poolCount : UInt16
  poolBytes : Bytes
  flags : UInt16
  thisClass : UInt16
  superclass : UInt16
  interfaces : List UInt16
  fields : List (MemberLayout pool)
  methods : List (MemberLayout pool)
  attributes : List (Attribute.Block pool)

def Layout.bytes (layout : Layout pool) : Bytes :=
  [0xCA, 0xFE, 0xBA, 0xBE] ++ ofWord layout.minorVersion ++ ofWord layout.majorVersion ++
    ofWord layout.poolCount ++ layout.poolBytes ++ ofWord layout.flags ++
    ofWord layout.thisClass ++ ofWord layout.superclass ++ counted ofWord layout.interfaces ++
    counted MemberLayout.bytes layout.fields ++ counted MemberLayout.bytes layout.methods ++
    counted Attribute.Block.bytes layout.attributes

namespace ClassFile

/-- The index of the superclass leads to its name, unless it is zero. -/
def IsSuperclass (pool : Pool) (index : UInt16) : Option Symbol → Prop
  | none => index = 0
  | some name => index ≠ 0 ∧ name.index = index ∧ pool.className? index = some name.text

/-- What a class file has been read from. -/
structure IsLaidOut (file : ClassFile) (layout : Layout file.pool) : Prop where
  minorVersion : file.minorVersion = layout.minorVersion
  majorVersion : file.majorVersion = layout.majorVersion
  pool : Reads (Pool.decode layout.poolCount) layout.poolBytes file.pool
  flags : file.flags = .ofBits layout.flags
  thisClass_index : file.thisClass.index = layout.thisClass
  thisClass_text : file.pool.className? layout.thisClass = some file.name
  superclass : IsSuperclass file.pool layout.superclass file.superclass
  interfaces_length : layout.interfaces.length < 0x10000
  interfaces : file.interfaces = layout.interfaces
  fields_length : layout.fields.length < 0x10000
  fields : List.Forall₂ (Field.IsLaidOut file.name) layout.fields file.fields
  methods_length : layout.methods.length < 0x10000
  methods : List.Forall₂ Method.IsLaidOut layout.methods file.methods
  attributes : Attribute.AreReadFrom .classFile layout.attributes file.attributes

theorem accepts_decodeMagic :
    Accepts decodeMagic (fun _ : Unit ↦ [0xCA, 0xFE, 0xBA, 0xBE]) fun _ _ ↦ True := by
  intro input _ rest hrun
  obtain ⟨found, _, mid, rfl, rfl, hrun⟩ := accepts_u32.of_bind hrun
  by_cases hmagic : found = magic
  · subst hmagic
    cases hrun
    exact ⟨(), rfl, trivial⟩
  · rw [if_neg hmagic] at hrun
    cases hrun

theorem accepts_decodeSuperclass (pool : Pool) :
    Accepts (decodeSuperclass pool) ofWord (IsSuperclass pool) := by
  intro input superclass rest hrun
  obtain ⟨index, _, mid, rfl, rfl, hrun⟩ := accepts_u16.of_bind hrun
  by_cases hzero : index = 0
  · rw [if_pos hzero] at hrun
    cases hrun
    exact ⟨index, rfl, hzero⟩
  · rw [if_neg hzero] at hrun
    obtain ⟨name, hname, ⟨⟩⟩ := of_check_bind hrun
    exact ⟨index, rfl, hzero, Pool.requireClass_eq_ok_iff.mp hname⟩

theorem accepts_pool (count : UInt16) :
    Accepts (Pool.decode count) id (Reads (Pool.decode count)) := by
  intro input pool rest hrun
  obtain ⟨table, hscan, hresolvable, rfl⟩ := Pool.decode_eq_ok_iff.mp hrun
  obtain ⟨constants, hfill, hfits, rfl, rfl⟩ := RawPool.scan_eq_ok_iff.mp hscan
  exact ⟨_, rfl, fun more ↦ Pool.decode_eq_ok_iff.mpr
    ⟨_, RawPool.scan_eq_ok_iff.mpr ⟨constants, hfill, hfits, rfl, rfl⟩, hresolvable, rfl⟩⟩

/-- Whatever is accepted has a layout. -/
theorem exists_layout {input rest : Bytes} {file : ClassFile}
    (h : decode input = .ok file rest) :
    ∃ layout : Layout file.pool, layout.bytes = input ∧ file.IsLaidOut layout := by
  obtain ⟨hrun, rfl⟩ := decode_eq_ok_iff.mp h
  obtain ⟨_, _, mid, rfl, -, hrun⟩ := accepts_decodeMagic.of_bind hrun
  obtain ⟨minorVersion, _, mid, rfl, rfl, hrun⟩ := accepts_u16.of_bind hrun
  obtain ⟨majorVersion, _, mid, rfl, rfl, hrun⟩ := accepts_u16.of_bind hrun
  obtain ⟨poolCount, _, mid, rfl, rfl, hrun⟩ := accepts_u16.of_bind hrun
  obtain ⟨poolBytes, pool, mid, rfl, hpool, hrun⟩ := (accepts_pool poolCount).of_bind hrun
  obtain ⟨flags, _, mid, rfl, rfl, hrun⟩ := accepts_u16.of_bind hrun
  obtain ⟨thisIndex, _, mid, rfl, rfl, hrun⟩ := accepts_u16.of_bind hrun
  obtain ⟨thisClass, hthisClass, hrun⟩ := of_check_bind hrun
  obtain ⟨superIndex, superclass, mid, rfl, hsuperclass, hrun⟩ :=
    (accepts_decodeSuperclass pool).of_bind hrun
  obtain ⟨indices, interfaces, mid, rfl, ⟨hinterfaces, hindices⟩, hrun⟩ :=
    (accepts_counted fun _ ↦ accepts_u16).of_bind hrun
  obtain ⟨fieldLayouts, fields, mid, rfl, ⟨hfieldCount, hfields⟩, hrun⟩ :=
    (accepts_counted (Field.accepts_decode pool thisClass.text)).of_bind hrun
  obtain ⟨methodLayouts, methods, mid, rfl, ⟨hmethodCount, hmethods⟩, hrun⟩ :=
    (accepts_counted (Method.accepts_decode pool)).of_bind hrun
  obtain ⟨blocks, attributes, mid, rfl, hblocks, ⟨⟩⟩ :=
    (Attribute.accepts_decodeAll pool .classFile).of_bind hrun
  obtain rfl := List.forall₂_eq_eq_eq ▸ hindices
  obtain ⟨hthisIndex, hthisClass⟩ := Pool.requireClass_eq_ok_iff.mp hthisClass
  refine ⟨{
    minorVersion, majorVersion, poolCount, poolBytes, flags, thisClass := thisIndex,
    superclass := superIndex, interfaces := indices, fields := fieldLayouts,
    methods := methodLayouts, attributes := blocks }, ?_, {
    minorVersion := rfl
    majorVersion := rfl
    pool := hpool
    flags := rfl
    thisClass_index := hthisIndex
    thisClass_text := hthisClass
    superclass := hsuperclass
    interfaces_length := hinterfaces
    interfaces := rfl
    fields_length := hfieldCount
    fields := hfields
    methods_length := hmethodCount
    methods := hmethods
    attributes := hblocks }⟩
  simp only [Layout.bytes, id, List.append_assoc, List.append_nil]

theorem IsSuperclass.reads_decodeSuperclass {pool : Pool} {index : UInt16}
    {superclass : Option Symbol} (h : IsSuperclass pool index superclass) :
    Reads (decodeSuperclass pool) (ofWord index) superclass := by
  refine (reads_lift (reads_u16 index)).bind_last ?_
  cases superclass with
  | none =>
    have hzero : index = 0 := h
    rw [if_pos hzero]
    exact reads_pure _
  | some name =>
    obtain ⟨hne, hname⟩ := h
    rw [if_neg hne]
    exact reads_check_bind (Pool.requireClass_eq_ok_iff.mpr hname) (reads_pure _)

theorem IsLaidOut.reads_decodeParts {file : ClassFile} {layout : Layout file.pool}
    (h : file.IsLaidOut layout) : Reads decodeParts layout.bytes file := by
  have hmagic : Reads decodeMagic [0xCA, 0xFE, 0xBA, 0xBE] () := fun _ ↦ rfl
  have hthisClass : file.pool.requireClass .thisClass layout.thisClass = .ok file.thisClass :=
    Pool.requireClass_eq_ok_iff.mpr ⟨h.thisClass_index, h.thisClass_text⟩
  have hinterfaces : List.Forall₂
      (fun index i ↦ Nat → Reads (liftM Reader.u16 : Decoder UInt16) (ofWord index) i)
      layout.interfaces file.interfaces :=
    h.interfaces ▸ List.forall₂_same.mpr fun index _ _ ↦ reads_lift (reads_u16 index)
  have hfields := h.fields.imp fun _ _ hf ↦ hf.reads_decode
  have hmethods := h.methods.imp fun _ _ hm ↦ hm.reads_decode
  simp only [Layout.bytes, List.append_assoc]
  refine hmagic.bind ?_
  refine (reads_lift (reads_u16 layout.minorVersion)).bind ?_
  refine (reads_lift (reads_u16 layout.majorVersion)).bind ?_
  refine (reads_lift (reads_u16 layout.poolCount)).bind ?_
  refine h.pool.bind ?_
  refine (reads_lift (reads_u16 layout.flags)).bind ?_
  refine (reads_lift (reads_u16 layout.thisClass)).bind ?_
  refine reads_check_bind hthisClass ?_
  refine h.superclass.reads_decodeSuperclass.bind ?_
  refine (reads_counted_of_forall₂ h.interfaces_length hinterfaces).bind ?_
  refine (reads_counted_of_forall₂ h.fields_length hfields).bind ?_
  refine (reads_counted_of_forall₂ h.methods_length hmethods).bind ?_
  refine h.attributes.reads_decodeAll.bind_last ?_
  rw [← h.minorVersion, ← h.majorVersion, ← h.flags]
  exact reads_pure _

/-- **A class file is read from some bytes** exactly if it has been laid out in them. -/
theorem decode_eq_ok_iff_isLaidOut {input rest : Bytes} {file : ClassFile} :
    decode input = .ok file rest ↔
      rest = [] ∧ ∃ layout : Layout file.pool, layout.bytes = input ∧ file.IsLaidOut layout := by
  constructor
  · intro h
    exact ⟨(decode_eq_ok_iff.mp h).2, exists_layout h⟩
  · rintro ⟨rfl, layout, rfl, h⟩
    have hparts := h.reads_decodeParts []
    rw [List.append_nil] at hparts
    exact decode_eq_ok_iff.mpr ⟨hparts, rfl⟩

end ClassFile

end JavaClass
