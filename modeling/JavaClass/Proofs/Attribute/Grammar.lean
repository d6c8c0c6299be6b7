import JavaClass.Proofs.Attribute.Framing
import Mathlib.Data.List.Forall2

/-!
# What attributes are made of

The converse of writing: whatever a decoder accepts has been laid out in a certain way. Attributes
are read from blocks, and the name of a block together with the place where it stands decides what
its body has to be. `Attribute.Block.MeansOn` has one case for each attribute of a declaration, and
`Attribute.Block.MeansInCode` one for each attribute of code; of decoders they say nothing, except
that the attributes of some code are read from the blocks in it.

## Main statements

* `Decoder.accepts_counted`: repeated parts.
* `Attribute.accepts_decodeAll`: the attributes of a declaration.
* `Attribute.Block.meansOn_of_reads`: what each of them is.
* `Attribute.reads_unknown`: blocks that are never refused.
-/

namespace JavaClass

open Bytes EStateM Decoder

variable {ι α β : Type}

/-! ## What a decoder accepts -/

namespace Decoder

/-- What the decoder reads is what is written for something that the result stands for. -/
def Accepts (decoder : Decoder α) (write : ι → Bytes) (stands : ι → α → Prop) : Prop :=
  ∀ ⦃input a rest⦄, decoder input = .ok a rest → ∃ p, input = write p ++ rest ∧ stands p a

theorem Accepts.imp {decoder : Decoder α} {write : ι → Bytes} {stands stands' : ι → α → Prop}
    (h : Accepts decoder write stands) (himp : ∀ p a, stands p a → stands' p a) :
    Accepts decoder write stands' := by
  intro input a rest hrun
  obtain ⟨p, hinput, hp⟩ := h hrun
  exact ⟨p, hinput, himp p a hp⟩

/-- What the decoder reads is at the front of the input, and the run goes on behind it. -/
theorem Accepts.of_bind {decoder : Decoder α} {write : ι → Bytes} {stands : ι → α → Prop}
    (h : Accepts decoder write stands) {next : α → Decoder β} {input rest : Bytes} {b : β}
    (hrun : (decoder >>= next) input = .ok b rest) :
    ∃ p a mid, input = write p ++ mid ∧ stands p a ∧ next a mid = .ok b rest := by
  obtain ⟨a, mid, hfirst, hrest⟩ := bind_eq_ok_iff.mp hrun
  obtain ⟨p, hinput, hp⟩ := h hfirst
  exact ⟨p, a, mid, hinput, hp, hrest⟩

theorem of_check_bind {check : Except DecodeError α} {next : α → Decoder β} {input rest : Bytes}
    {b : β} (hrun : ((liftM check : Decoder α) >>= next) input = .ok b rest) :
    ∃ a, check = .ok a ∧ next a input = .ok b rest := by
  obtain ⟨a, mid, hfirst, hrest⟩ := bind_eq_ok_iff.mp hrun
  obtain ⟨hcheck, rfl⟩ := check_eq_ok_iff.mp hfirst
  exact ⟨a, hcheck, hrest⟩

theorem accepts_u16 : Accepts (liftM Reader.u16 : Decoder UInt16) ofWord Eq := by
  intro input n rest hrun
  exact ⟨n, Reader.of_u16_eq_ok (read_eq_ok_iff.mp hrun), rfl⟩

theorem accepts_u32 : Accepts (liftM Reader.u32 : Decoder UInt32) (fun n ↦ ofNat 4 n.toNat) Eq := by
  intro input n rest hrun
  exact ⟨n, Reader.of_u32_eq_ok (read_eq_ok_iff.mp hrun), rfl⟩

theorem accepts_take (n : Nat) : Accepts (liftM (Reader.take n) : Decoder Bytes) id
    fun block a ↦ block = a ∧ block.length = n := by
  intro input block rest hrun
  obtain ⟨hinput, hlength⟩ := Reader.take_eq_ok_iff.mp (read_eq_ok_iff.mp hrun)
  exact ⟨block, hinput, rfl, hlength⟩

variable {item : Nat → Decoder α} {write : ι → Bytes} {stands : ι → α → Prop}

theorem of_collect_eq_ok (h : ∀ position, Accepts (item position) write stands) :
    ∀ {n : Nat} {done items : Array α} {input rest : Bytes},
      collect item done n input = .ok items rest → ∃ (ps : List ι) (bs : List α), ps.length = n ∧
        input = ps.flatMap write ++ rest ∧ items = done ++ bs.toArray ∧ List.Forall₂ stands ps bs
  | 0, done, items, input, rest, hrun => by
    cases hrun
    exact ⟨[], [], rfl, rfl, by simp, .nil⟩
  | n + 1, done, items, input, rest, hrun => by
    obtain ⟨p, b, mid, rfl, hp, hrun⟩ := (h _).of_bind hrun
    obtain ⟨ps, bs, rfl, rfl, rfl, hps⟩ := of_collect_eq_ok h hrun
    exact ⟨p :: ps, b :: bs, rfl, by simp, by simp, .cons hp hps⟩

/-- **Repeated parts** are those of some items, after their number. -/
theorem accepts_counted (h : ∀ position, Accepts (item position) write stands) :
    Accepts (counted item) (Bytes.counted write)
      fun ps bs ↦ ps.length < 0x10000 ∧ List.Forall₂ stands ps bs := by
  intro input items rest hrun
  obtain ⟨count, _, mid, rfl, rfl, hrun⟩ := accepts_u16.of_bind hrun
  obtain ⟨done, last, hitems, ⟨⟩⟩ := bind_eq_ok_iff.mp hrun
  obtain ⟨ps, bs, hlength, rfl, rfl, hps⟩ := of_collect_eq_ok h hitems
  refine ⟨ps, ?_, hlength ▸ count.toNat_lt, by simpa using hps⟩
  rw [Bytes.counted, ofWord, hlength, List.append_assoc]

end Decoder

namespace Attribute

variable {pool : Pool}

theorem reads_block_iff {contents : String → Bytes → Except DecodeError α} {block : Block pool}
    {a : α} : Reads (framed pool contents) block.bytes a ↔
      contents block.name block.body = .ok a := by
  simp only [Reads, framed_block, check_eq_ok_iff, and_true, forall_const]

theorem accepts_framed (pool : Pool) (contents : String → Bytes → Except DecodeError α) :
    Accepts (framed pool contents) Block.bytes
      fun (block : Block pool) a ↦ Reads (framed pool contents) block.bytes a := by
  intro input a rest hrun
  obtain ⟨nameIndex, _, mid, rfl, rfl, hrun⟩ := accepts_u16.of_bind hrun
  obtain ⟨length, _, mid, rfl, rfl, hrun⟩ := accepts_u32.of_bind hrun
  obtain ⟨name, hname, hrun⟩ := of_check_bind hrun
  obtain ⟨body, _, mid, rfl, ⟨rfl, hlength⟩, hrun⟩ := (accepts_take _).of_bind hrun
  obtain ⟨hcontents, rfl⟩ := check_eq_ok_iff.mp hrun
  obtain ⟨rfl, hnamed⟩ := Pool.requireText_eq_ok_iff.mp hname
  refine ⟨⟨name.index, name.text, body, hnamed, hlength ▸ length.toNat_lt⟩, ?_,
    reads_block_iff.mpr hcontents⟩
  simp only [Block.bytes, header, hlength, id, List.append_assoc]

theorem of_exactly_eq_ok {name : String} {inner : Decoder α} {body : Bytes} {a : α}
    (h : exactly name inner body = .ok a) : inner body = .ok a [] := by
  rw [exactly] at h
  split at h
  · next hinner => rwa [← Except.ok.inj h]
  all_goals cases h

end Attribute

/-! ## Attributes of code -/

theorem LineNumber.accepts_decode :
    Accepts (liftM LineNumber.decode : Decoder LineNumber) LineNumber.encode Eq := by
  intro input entry rest hrun
  obtain ⟨startPc, mid, hstart, hrun⟩ := bind_eq_ok_iff.mp (read_eq_ok_iff.mp hrun)
  obtain ⟨line, last, hline, ⟨⟩⟩ := bind_eq_ok_iff.mp hrun
  obtain rfl := Reader.of_u16_eq_ok hline
  obtain rfl := Reader.of_u16_eq_ok hstart
  exact ⟨⟨startPc, line⟩, by simp only [encode, ofWord, List.append_assoc], rfl⟩

theorem ExceptionEntry.accepts_decode :
    Accepts (liftM ExceptionEntry.decode : Decoder ExceptionEntry) ExceptionEntry.encode Eq := by
  intro input entry rest hrun
  obtain ⟨startPc, _, hstart, hrun⟩ := bind_eq_ok_iff.mp (read_eq_ok_iff.mp hrun)
  obtain ⟨endPc, _, hend, hrun⟩ := bind_eq_ok_iff.mp hrun
  obtain ⟨handlerPc, _, hhandler, hrun⟩ := bind_eq_ok_iff.mp hrun
  obtain ⟨catchType, _, hcatch, ⟨⟩⟩ := bind_eq_ok_iff.mp hrun
  obtain rfl := Reader.of_u16_eq_ok hcatch
  obtain rfl := Reader.of_u16_eq_ok hhandler
  obtain rfl := Reader.of_u16_eq_ok hend
  obtain rfl := Reader.of_u16_eq_ok hstart
  exact ⟨⟨startPc, endPc, handlerPc, catchType⟩,
    by simp only [encode, ofWord, List.append_assoc], rfl⟩

/-- The names that mean something on an attribute of code. -/
def CodeAttribute.recognised : List String :=
  ["LineNumberTable", "LocalVariableTable", "LocalVariableTypeTable", "StackMapTable"]

theorem CodeAttribute.mem_recognised_iff {name : String} :
    name ∈ recognised ↔ name = "LineNumberTable" ∨ name ∈ skippedNames := List.mem_cons

/-- What the block is as an attribute of code. -/
inductive Attribute.Block.MeansInCode {pool : Pool} (block : Block pool) : CodeAttribute → Prop
  | lineNumberTable {entries : List LineNumber} (hname : block.name = "LineNumberTable")
    (hbody : block.body = Bytes.counted LineNumber.encode entries) :
    MeansInCode block (.lineNumberTable entries)
  | skipped (hname : block.name ∈ CodeAttribute.skippedNames) :
    MeansInCode block (.skipped block.name block.body.length)
  | unknown (hname : block.name ∉ CodeAttribute.recognised) :
    MeansInCode block (.unknown block.name block.body)

namespace CodeAttribute

open Attribute

theorem meansInCode_of_reads {pool : Pool} {block : Block pool} {a : CodeAttribute}
    (h : Reads (CodeAttribute.decode pool) block.bytes a) : block.MeansInCode a := by
  have hcontents : contents block.name block.body = .ok a := reads_block_iff.mp h
  rw [contents] at hcontents
  split at hcontents
  · next hname =>
    obtain ⟨entries, hentries, rfl⟩ := Except.map_eq_ok_iff.mp hcontents
    obtain ⟨lines, hbody, -, hlines⟩ :=
      accepts_counted (fun _ ↦ LineNumber.accepts_decode) (of_exactly_eq_ok hentries)
    obtain rfl := List.forall₂_eq_eq_eq ▸ hlines
    exact .lineNumberTable hname (by rw [hbody, List.append_nil])
  · next hname =>
    split at hcontents <;> cases hcontents
    · next hskipped => exact .skipped hskipped
    · next hskipped => exact .unknown (mem_recognised_iff.not.mpr (not_or.mpr ⟨hname, hskipped⟩))

theorem ne_of_mem_skippedNames {name : String} (h : name ∈ skippedNames) :
    name ≠ "LineNumberTable" := by
  rintro rfl
  revert h
  decide

/-- A block that is passed over is not refused. -/
theorem reads_skipped {pool : Pool} {block : Block pool} (h : block.name ∈ skippedNames) :
    Reads (CodeAttribute.decode pool) block.bytes (.skipped block.name block.body.length) :=
  reads_block_iff.mpr (by rw [contents, if_neg (ne_of_mem_skippedNames h), if_pos h])

/-- **A block is not refused where its name means nothing**, whatever it holds. -/
theorem reads_unknown {pool : Pool} {block : Block pool} (h : block.name ∉ recognised) :
    Reads (CodeAttribute.decode pool) block.bytes (.unknown block.name block.body) := by
  obtain ⟨hne, hskipped⟩ := not_or.mp (mem_recognised_iff.not.mp h)
  exact reads_block_iff.mpr (by rw [contents, if_neg hne, if_neg hskipped])

end CodeAttribute

/-! ## Code -/

/-- What stands in front of the attributes of code. -/
def Code.head (code : Code) : Bytes :=
  ofWord code.maxStack ++ ofWord code.maxLocals ++ ofNat 4 code.instructions.length ++
    code.instructions ++ counted ExceptionEntry.encode code.exceptions

theorem Code.accepts_decode (pool : Pool) {input rest : Bytes} {code : Code}
    (hrun : Code.decode pool input = .ok code rest) : ∃ blocks : List (Attribute.Block pool),
      input = code.head ++ counted Attribute.Block.bytes blocks ++ rest ∧
        List.Forall₂ (fun block a ↦ Reads (CodeAttribute.decode pool) block.bytes a) blocks
          code.attributes := by
  obtain ⟨maxStack, _, mid, rfl, rfl, hrun⟩ := accepts_u16.of_bind hrun
  obtain ⟨maxLocals, _, mid, rfl, rfl, hrun⟩ := accepts_u16.of_bind hrun
  obtain ⟨length, _, mid, rfl, rfl, hrun⟩ := accepts_u32.of_bind hrun
  obtain ⟨instructions, _, mid, rfl, ⟨rfl, hlength⟩, hrun⟩ := (accepts_take _).of_bind hrun
  obtain ⟨entries, exceptions, mid, rfl, ⟨-, hentries⟩, hrun⟩ :=
    (accepts_counted fun _ ↦ ExceptionEntry.accepts_decode).of_bind hrun
  obtain ⟨blocks, attributes, mid, rfl, ⟨-, hblocks⟩, ⟨⟩⟩ :=
    (accepts_counted fun _ ↦ Attribute.accepts_framed pool CodeAttribute.contents).of_bind hrun
  obtain rfl := List.forall₂_eq_eq_eq ▸ hentries
  refine ⟨blocks, ?_, hblocks⟩
  simp only [head, hlength, id, List.append_assoc]

/-! ## Attributes of declarations -/

/-- The names that mean something on an attribute of a declaration. -/
def Declaration.recognised : Declaration → List String
  | classFile => ["SourceFile", "Deprecated", "Signature"]
  | field => ["Deprecated", "Signature", "ConstantValue"]
  | method => ["Deprecated", "Signature", "Code"]

theorem Declaration.recognised_eq (owner : Declaration) :
    owner.recognised = owner.known.map KnownAttribute.name := by
  cases owner <;> rfl

namespace Attribute

/-- What the block is as an attribute of a declaration. -/
inductive Block.MeansOn {pool : Pool} (block : Block pool) (owner : Declaration) : Attribute → Prop
  | sourceFile {name : Symbol} (howner : owner = .classFile) (hname : block.name = "SourceFile")
    (hbody : block.body = ofWord name.index) (htext : pool.text? name.index = some name.text) :
    MeansOn block owner (.sourceFile name)
  | deprecated (hname : block.name = "Deprecated") (hbody : block.body = []) :
    MeansOn block owner .deprecated
  | signature {text : Symbol} (hname : block.name = "Signature")
    (hbody : block.body = ofWord text.index) (htext : pool.text? text.index = some text.text) :
    MeansOn block owner (.signature text)
  | constantValue {index : UInt16} (howner : owner = .field) (hname : block.name = "ConstantValue")
    (hbody : block.body = ofWord index) (hvalue : (pool.entry? index).isSome = true) :
    MeansOn block owner (.constantValue index)
  | code {body : Code} (blocks : List (Block pool)) (howner : owner = .method)
    (hname : block.name = "Code") (hbody : block.body = body.head ++ counted Block.bytes blocks)
    (hattributes : List.Forall₂ (fun block a ↦ Reads (CodeAttribute.decode pool) block.bytes a)
      blocks body.attributes) :
    MeansOn block owner (.code body)
  | unknown (hname : block.name ∉ owner.recognised) :
    MeansOn block owner (.unknown block.name block.body)

variable {pool : Pool} {owner : Declaration} {block : Block pool}

theorem ofName?_eq_some {name : String} {known : KnownAttribute}
    (h : KnownAttribute.ofName? owner name = some known) :
    known ∈ owner.known ∧ name = known.name := by
  rw [KnownAttribute.ofName?, List.find?_eq_some_iff_append] at h
  obtain ⟨hname, before, after, hknown, _⟩ := h
  exact ⟨by simp [hknown], (of_decide_eq_true hname).symm⟩

theorem ofName?_eq_none_iff {name : String} :
    KnownAttribute.ofName? owner name = none ↔ name ∉ owner.recognised := by
  rw [KnownAttribute.ofName?, List.find?_eq_none, Declaration.recognised_eq, List.mem_map]
  simp

theorem of_reference_eq_ok {check : UInt16 → Except DecodeError α} {f : UInt16 → α → β}
    {b : β} {body : Bytes} (h : ((do
      let index ← Reader.u16
      let a ← check index
      return f index a) : Decoder β) body = .ok b []) :
    ∃ index a, body = ofWord index ∧ check index = .ok a ∧ f index a = b := by
  obtain ⟨index, _, mid, rfl, rfl, hrun⟩ := accepts_u16.of_bind h
  obtain ⟨a, hcheck, ⟨⟩⟩ := of_check_bind hrun
  exact ⟨index, a, List.append_nil _, hcheck, rfl⟩

theorem Block.meansOn_of_known {known : KnownAttribute} {a : Attribute}
    (howner : known ∈ owner.known) (hname : block.name = known.name)
    (hrun : known.decode pool block.body = .ok a []) : block.MeansOn owner a := by
  cases known with
  | sourceFile =>
    obtain ⟨index, name, hbody, hcheck, rfl⟩ := of_reference_eq_ok hrun
    obtain ⟨rfl, htext⟩ := Pool.requireText_eq_ok_iff.mp hcheck
    exact .sourceFile (by cases owner <;> simp_all [Declaration.known]) hname hbody htext
  | deprecated =>
    obtain ⟨rfl, hempty⟩ := Result.ok.inj hrun
    exact .deprecated hname hempty
  | signature =>
    obtain ⟨index, text, hbody, hcheck, rfl⟩ := of_reference_eq_ok hrun
    obtain ⟨rfl, htext⟩ := Pool.requireText_eq_ok_iff.mp hcheck
    exact .signature hname hbody htext
  | constantValue =>
    obtain ⟨index, value, hbody, hcheck, rfl⟩ := of_reference_eq_ok hrun
    refine .constantValue (by cases owner <;> simp_all [Declaration.known]) hname hbody ?_
    rw [Pool.requireValue, Pool.require, Option.bind_eq_bind, Option.bind_fun_some] at hcheck
    split at hcheck
    · next hvalue => rw [hvalue]; rfl
    · cases hcheck
  | code =>
    obtain ⟨code, hcode, rfl⟩ := map_eq_ok_iff.mp hrun
    obtain ⟨blocks, hbody, hattributes⟩ := Code.accepts_decode pool hcode
    rw [List.append_nil] at hbody
    exact .code blocks (by cases owner <;> simp_all [Declaration.known]) hname hbody hattributes

theorem Block.meansOn_of_reads {a : Attribute}
    (h : Reads (Attribute.decode pool owner) block.bytes a) : block.MeansOn owner a := by
  have hcontents : contents pool owner block.name block.body = .ok a := reads_block_iff.mp h
  rw [contents] at hcontents
  split at hcontents
  · next known hknown =>
    obtain ⟨howner, hname⟩ := ofName?_eq_some hknown
    exact Block.meansOn_of_known howner hname (of_exactly_eq_ok hcontents)
  · next hunknown =>
    cases hcontents
    exact .unknown (ofName?_eq_none_iff.mp hunknown)

/-- The blocks that the attributes of a declaration are read from. -/
structure AreReadFrom (owner : Declaration) (blocks : List (Block pool))
    (attributes : List Attribute) : Prop where
  length_lt : blocks.length < 0x10000
  reads : List.Forall₂ (fun block a ↦ Reads (Attribute.decode pool owner) block.bytes a) blocks
    attributes

/-- **The attributes of a declaration** are read from blocks. -/
theorem accepts_decodeAll (pool : Pool) (owner : Declaration) :
    Accepts (decodeAll pool owner) (counted Block.bytes) (@AreReadFrom pool owner) :=
  (accepts_counted fun _ ↦ accepts_framed pool (contents pool owner)).imp fun _ _ h ↦ ⟨h.1, h.2⟩

theorem AreReadFrom.reads_decodeAll {blocks : List (Block pool)} {attributes : List Attribute}
    (h : AreReadFrom owner blocks attributes) :
    Reads (decodeAll pool owner) (counted Block.bytes blocks) attributes :=
  reads_counted_of_forall₂ h.length_lt (h.reads.imp fun _ _ hreads _ ↦ hreads)

/-- **A block is not refused where its name means nothing**, whatever it holds. -/
theorem reads_unknown (h : block.name ∉ owner.recognised) :
    Reads (Attribute.decode pool owner) block.bytes (.unknown block.name block.body) :=
  reads_block_iff.mpr (by rw [contents, ofName?_eq_none_iff.mpr h])

end Attribute

end JavaClass
