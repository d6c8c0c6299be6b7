import JavaClass.Proofs.Pool.Encoding

/-!
# Class files that have been written are read back

The bytes of a draft are read as the class file that the draft describes. The proof has one lemma
for each part of a class file: the bytes of the part are read as what its draft means, whatever
comes after them. Looking something up in the pool that has been read is looking it up in the raw
constants, and the name of an attribute leads back to the kind of its body.

## Main statements

* `ClassDraft.decode_encode_eq_meaning`: a draft that has been written is read back.
-/

namespace JavaClass

open EStateM Bytes Reader Decoder

/-! ## Looking up in the meaning of a table -/

namespace RawPool

variable {table : RawPool} {index : UInt16}

theorem requireText_meaning (h : table.tag? index = some .utf8) (referrer : Referrer) :
    table.meaning.requireText referrer index = .ok (table.symbol index) := by
  have htext : table.meaning.entry? index >>= Constant.utf8? = some (table.text index) :=
    Pool.text?_meaning h
  rw [Pool.requireText, Pool.require, htext]
  rfl

theorem requireClass_meaning (h : table.tag? index = some .classRef) (referrer : Referrer) :
    table.meaning.requireClass referrer index = .ok (table.classSymbol index) := by
  have hname : table.meaning.entry? index >>= Constant.className? =
      some (table.className index) := Pool.className?_meaning h
  rw [Pool.requireClass, Pool.require, hname]
  rfl

theorem requireValue_meaning {c : RawConstant} (h : table.raw? index = some c)
    (referrer : Referrer) :
    table.meaning.requireValue referrer index = .ok (c.meaning table) := by
  rw [Pool.requireValue, Pool.require, Pool.entry?_meaning, h]
  rfl

end RawPool

/-! ## The constants -/

namespace RawPool

variable {constants : List RawConstant}

/-- Constants are read as the table in which they follow each other. -/
theorem reads_scan (hfits : ∀ c ∈ constants, c.Fits)
    (hslots : RawConstant.slots constants ≤ 65534) :
    Reads (scan (UInt16.ofNat (RawConstant.slots constants + 1)))
      (constants.flatMap RawConstant.encode) (ofConstants constants) := by
  have hcount : (UInt16.ofNat (RawConstant.slots constants + 1)).toNat =
      RawConstant.slots constants + 1 := UInt16.toNat_ofNat_of_lt' (show _ < 65536 by omega)
  exact fun rest ↦ scan_eq_ok_iff.mpr
    ⟨constants, .inl (by rw [hcount, Nat.add_sub_cancel]), hfits, rfl,
      (layOut_of_slots hcount).symm⟩

theorem reads_decode (hfits : ∀ c ∈ constants, c.Fits)
    (hslots : RawConstant.slots constants ≤ 65534)
    (hresolvable : (ofConstants constants).Resolvable) :
    Reads (Pool.decode (UInt16.ofNat (RawConstant.slots constants + 1)))
      (constants.flatMap RawConstant.encode) (ofConstants constants).meaning := by
  have hscan := reads_scan hfits hslots
  have hsize := size_le_of_scan (hscan [])
  exact hscan.bind_last (reads_check (resolve_of_resolvable hsize hresolvable))

end RawPool

/-! ## Attributes of code -/

theorem LineNumber.reads_decode (entry : LineNumber) :
    Reads LineNumber.decode entry.encode entry :=
  (reads_u16 entry.startPc).bind ((reads_u16 entry.line).bind_last (reads_pure _))

theorem ExceptionEntry.reads_decode (entry : ExceptionEntry) :
    Reads ExceptionEntry.decode entry.encode entry := by
  rw [encode, List.append_assoc, List.append_assoc]
  exact (reads_u16 entry.startPc).bind ((reads_u16 entry.endPc).bind
    ((reads_u16 entry.handlerPc).bind ((reads_u16 entry.catchType).bind_last (reads_pure _))))

theorem CodeAttributeBody.contents_encode {name : String} {body : CodeAttributeBody}
    (h : body.Suits name) : CodeAttribute.contents name body.encode = .ok (body.meaning name) := by
  cases body with
  | lineNumberTable entries =>
    obtain ⟨rfl, hlength⟩ := h
    have hentries : Reads (counted fun _ ↦ LineNumber.decode)
        (Bytes.counted LineNumber.encode entries) (entries.map id) :=
      reads_counted hlength fun _ entry _ ↦ reads_lift entry.reads_decode
    rw [CodeAttribute.contents, if_pos rfl, encode, Attribute.exactly_of_reads hentries,
      List.map_id]
    rfl
  | verbatim data =>
    rw [CodeAttribute.contents, if_neg h, encode, meaning]
    split <;> rfl

section

variable {table : RawPool}

theorem AttributeDraft.reads_code {a : AttributeDraft CodeAttributeBody}
    (h : a.Valid table CodeAttributeBody.encode CodeAttributeBody.Suits) :
    Reads (CodeAttribute.decode table.meaning) (a.encode CodeAttributeBody.encode)
      (a.body.meaning (a.name table)) := by
  obtain ⟨hname, hlength, hsuits⟩ := h
  exact Attribute.reads_framed (RawPool.requireText_meaning hname _) hlength
    (CodeAttributeBody.contents_encode hsuits)

theorem CodeDraft.reads_decode {d : CodeDraft} (h : d.Valid table) :
    Reads (Code.decode table.meaning) d.encode (d.meaning table) := by
  have hinstructions : Reads (take (UInt32.ofNat d.instructions.length).toNat) d.instructions
      d.instructions := by
    rw [UInt32.toNat_ofNat_of_lt' h.instructions]
    exact reads_take _
  have hexceptions : Reads (counted fun _ ↦ ExceptionEntry.decode)
      (Bytes.counted ExceptionEntry.encode d.exceptions) (d.exceptions.map id) :=
    reads_counted h.exceptions fun _ entry _ ↦ reads_lift entry.reads_decode
  have hattributes : Reads (counted fun _ ↦ CodeAttribute.decode table.meaning)
      (Bytes.counted (AttributeDraft.encode CodeAttributeBody.encode) d.attributes)
      (d.attributes.map fun a ↦ a.body.meaning (a.name table)) :=
    reads_counted h.attributes.1 fun _ a ha ↦ AttributeDraft.reads_code (h.attributes.2 a ha)
  rw [List.map_id] at hexceptions
  simp only [encode, List.append_assoc]
  refine (reads_lift (reads_u16 d.maxStack)).bind ?_
  refine (reads_lift (reads_u16 d.maxLocals)).bind ?_
  refine (reads_lift (u32_ofNat d.instructions.length)).bind ?_
  refine (reads_lift hinstructions).bind ?_
  refine hexceptions.bind ?_
  exact hattributes.bind_last (reads_pure _)

/-! ## Attributes of declarations -/

theorem KnownAttribute.ofName?_name {owner : Declaration} {known : KnownAttribute}
    (h : known ∈ owner.known) : ofName? owner known.name = some known := by
  cases owner <;> cases known <;> revert h <;> decide

theorem KnownAttribute.ofName?_eq_none {owner : Declaration} {name : String}
    (h : ∀ known ∈ owner.known, name ≠ known.name) : ofName? owner name = none := by
  rw [ofName?, List.find?_eq_none]
  intro known hknown
  simpa using (h known hknown).symm

/-- The contents of an attribute that is interpreted take up its whole body. -/
theorem AttributeBody.reads_decode {body : AttributeBody} {known : KnownAttribute}
    (hknown : body.known? = some known) (h : body.Resolves table) (name : String) :
    Reads (known.decode table.meaning) body.encode (body.meaning table name) := by
  cases body with
  | sourceFile index =>
    cases hknown
    exact (reads_lift (reads_u16 index)).bind_last
      (reads_check_bind (RawPool.requireText_meaning h _) (reads_pure _))
  | deprecated =>
    cases hknown
    exact reads_pure _
  | signature text =>
    cases hknown
    exact (reads_lift (reads_u16 text)).bind_last
      (reads_check_bind (RawPool.requireText_meaning h _) (reads_pure _))
  | constantValue index =>
    cases hknown
    obtain ⟨c, hc⟩ := Option.isSome_iff_exists.mp h
    exact (reads_lift (reads_u16 index)).bind_last
      (reads_check_bind (RawPool.requireValue_meaning hc _) (reads_pure _))
  | code body =>
    cases hknown
    exact (CodeDraft.reads_decode h).map _
  | verbatim data => cases hknown

theorem AttributeBody.contents_encode {owner : Declaration} {name : String} {body : AttributeBody}
    (h : body.Suits table owner name) :
    Attribute.contents table.meaning owner name body.encode = .ok (body.meaning table name) := by
  obtain ⟨hnamed, hresolves⟩ := h
  rw [IsNamed] at hnamed
  cases hknown : body.known? with
  | some known =>
    rw [hknown] at hnamed
    obtain ⟨hmem, rfl⟩ := hnamed
    rw [Attribute.contents, KnownAttribute.ofName?_name hmem]
    exact Attribute.exactly_of_reads (body.reads_decode hknown hresolves _) _
  | none =>
    rw [hknown] at hnamed
    rw [Attribute.contents, KnownAttribute.ofName?_eq_none hnamed]
    cases body with
    | verbatim data => rfl
    | _ => cases hknown

theorem reads_decodeAll {owner : Declaration} {attributes : List (AttributeDraft AttributeBody)}
    (h : AttributesValid table owner attributes) :
    Reads (Attribute.decodeAll table.meaning owner)
      (Bytes.counted (AttributeDraft.encode AttributeBody.encode) attributes)
      (attributesMeaning table attributes) := by
  obtain ⟨hlength, hvalid⟩ := h
  refine reads_counted hlength fun _ a ha ↦ ?_
  obtain ⟨hname, hbody, hsuits⟩ := hvalid a ha
  exact Attribute.reads_framed (RawPool.requireText_meaning hname _) hbody
    (AttributeBody.contents_encode hsuits)

/-! ## Members -/

namespace MemberDraft

theorem reads_field {d : MemberDraft .field} (h : d.Valid table) (owner : String)
    (position : Nat) :
    Reads (Field.decode table.meaning owner position) d.encode (d.field table owner) := by
  simp only [encode, List.append_assoc]
  refine (reads_lift (reads_u16 d.flags.bits)).bind ?_
  refine (reads_lift (reads_u16 d.name)).bind ?_
  refine (reads_lift (reads_u16 d.descriptor)).bind ?_
  refine reads_check_bind (RawPool.requireText_meaning h.name _) ?_
  refine reads_check_bind (RawPool.requireText_meaning h.descriptor _) ?_
  refine (reads_decodeAll h.attributes).bind_last ?_
  rw [AccessFlags.ofBits_bits]
  exact reads_pure _

theorem reads_method {d : MemberDraft .method} (h : d.Valid table) (position : Nat) :
    Reads (Method.decode table.meaning position) d.encode (d.method table) := by
  simp only [encode, List.append_assoc]
  refine (reads_lift (reads_u16 d.flags.bits)).bind ?_
  refine (reads_lift (reads_u16 d.name)).bind ?_
  refine reads_check_bind (RawPool.requireText_meaning h.name _) ?_
  refine (reads_lift (reads_u16 d.descriptor)).bind ?_
  refine reads_check_bind (RawPool.requireText_meaning h.descriptor _) ?_
  refine (reads_decodeAll h.attributes).bind_last ?_
  rw [AccessFlags.ofBits_bits]
  exact reads_pure _

end MemberDraft

end

/-! ## Classes -/

namespace ClassDraft

variable {d : ClassDraft}

theorem reads_decodeMagic :
    Reads ClassFile.decodeMagic [0xCA, 0xFE, 0xBA, 0xBE] () := fun _ ↦ rfl

theorem reads_decodeSuperclass (h : d.Valid) :
    Reads (ClassFile.decodeSuperclass d.table.meaning) (ofWord d.superclass)
      d.meaning.superclass := by
  refine (reads_lift (reads_u16 d.superclass)).bind_last ?_
  rw [meaning]
  by_cases hzero : d.superclass = 0
  · simp only [hzero, if_true]
    exact reads_pure _
  · simp only [hzero, if_false]
    have hclass := h.superclass.resolve_left hzero
    exact reads_check_bind (RawPool.requireClass_meaning hclass _) (reads_pure _)

theorem reads_decodeParts (h : d.Valid) : Reads ClassFile.decodeParts d.encode d.meaning := by
  have hinterfaces : Reads (counted fun _ ↦ (u16 : Decoder UInt16))
      (Bytes.counted ofWord d.interfaces) (d.interfaces.map id) :=
    reads_counted h.interfaces fun _ index _ ↦ reads_lift (reads_u16 index)
  have hfields := reads_counted h.fields.1 fun position f hf ↦
    MemberDraft.reads_field (h.fields.2 f hf) (d.table.className d.thisClass) position
  have hmethods := reads_counted h.methods.1 fun position m hm ↦
    MemberDraft.reads_method (h.methods.2 m hm) position
  rw [List.map_id] at hinterfaces
  simp only [encode, List.append_assoc]
  refine reads_decodeMagic.bind ?_
  refine (reads_lift (reads_u16 d.minorVersion)).bind ?_
  refine (reads_lift (reads_u16 d.majorVersion)).bind ?_
  refine (reads_lift (u16_ofNat (d.slots + 1))).bind ?_
  refine (RawPool.reads_decode h.constants h.slots h.resolvable).bind ?_
  refine (reads_lift (reads_u16 d.flags.bits)).bind ?_
  refine (reads_lift (reads_u16 d.thisClass)).bind ?_
  refine reads_check_bind (RawPool.requireClass_meaning h.thisClass _) ?_
  refine (reads_decodeSuperclass h).bind ?_
  refine hinterfaces.bind ?_
  refine hfields.bind ?_
  refine hmethods.bind ?_
  refine (reads_decodeAll h.attributes).bind_last ?_
  rw [AccessFlags.ofBits_bits]
  exact reads_pure _

/-- **A class file that has been written is read back.** The bytes of a draft that can be written
are read, up to the last one, as the class file that the draft describes. -/
theorem decode_encode_eq_meaning (h : d.Valid) :
    ClassFile.decode d.encode = .ok d.meaning [] := by
  have hparts := reads_decodeParts h []
  rw [List.append_nil] at hparts
  exact ClassFile.decode_eq_ok_iff.mpr ⟨hparts, rfl⟩

/-- A class `Counter` with a constant that takes two indices, whose own name comes after it. Its
method has two attributes `Code`, and the name `ConstantValue` stands on a field and on the class.
-/
def counter : ClassDraft where
  minorVersion := 0
  majorVersion := 52
  constants :=
    [.classRef 2, .utf8 (ModifiedUtf8.encode "Counter"), .long 7,
      .utf8 (ModifiedUtf8.encode "total"), .utf8 (ModifiedUtf8.encode "J"),
      .utf8 (ModifiedUtf8.encode "ConstantValue"), .utf8 (ModifiedUtf8.encode "Code"),
      .utf8 (ModifiedUtf8.encode "LineNumberTable"), .utf8 (ModifiedUtf8.encode "StackMapTable"),
      .utf8 (ModifiedUtf8.encode "SourceFile")]
  flags := .ofBits 0x0021
  thisClass := 1
  superclass := 0
  interfaces := [1, 900]
  fields := [⟨.ofBits 0x0018, 5, 6, [⟨7, .constantValue 3⟩]⟩]
  methods := [⟨.ofBits 0x0001, 5, 6, [⟨8, .code emptyBody⟩, ⟨8, .code body⟩]⟩]
  attributes := [⟨7, .verbatim [1]⟩, ⟨11, .sourceFile 2⟩]
where
  body : CodeDraft :=
    ⟨2, 1, [0xB1], [⟨0, 1, 0, 900⟩],
      [⟨10, .verbatim [0, 0]⟩, ⟨9, .lineNumberTable [⟨0, 3⟩]⟩, ⟨8, .verbatim []⟩]⟩
  emptyBody : CodeDraft := ⟨0, 0, [], [], []⟩

theorem decode_counter :
    ClassFile.decode counter.encode = .ok counter.meaning [] ∧
      counter.meaning.thisClass = ⟨1, "Counter"⟩ ∧
      counter.meaning.attributes = [.unknown "ConstantValue" [1], .sourceFile ⟨2, "Counter"⟩] ∧
      counter.meaning.methods.map (·.code) = [some ⟨0, 0, [], [], []⟩] ∧
      counter.meaning.methods.map (·.attributes) =
        [[.code ⟨2, 1, [0xB1], [⟨0, 1, 0, 900⟩],
          [.skipped "StackMapTable" 2, .lineNumberTable [⟨0, 3⟩], .unknown "Code" []]⟩]] := by
  refine ⟨decode_encode_eq_meaning ?_, ?_⟩
  · exact {
      constants := by decide +kernel
      slots := by decide +kernel
      resolvable := (RawPool.resolvable_iff (by decide +kernel)).mpr (by decide +kernel)
      thisClass := by decide +kernel
      superclass := .inl rfl
      interfaces := by decide +kernel
      fields := by decide +kernel
      methods := by decide +kernel
      attributes := by decide +kernel }
  · decide +kernel

end ClassDraft

end JavaClass
