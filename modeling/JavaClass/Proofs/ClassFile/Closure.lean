import JavaClass.Proofs.ClassFile.Layout
import JavaClass.Proofs.Draft.RoundTrip
import JavaClass.Proofs.Loader.Supertypes
import JavaClass.Proofs.Pool.Representation

/-!
# What the indices in a class file lead to

`ClassFile.Refers` lists the indices of a class file, each with the place where it stands and what
is expected there. Interfaces and the types of caught exceptions are not looked up while the file is
read. All other indices have led to what was expected, and since the pool of the file is the one in
which they were looked up, they still do; the strings beside them are those that they lead to. Bytes
that are kept without being interpreted are not searched for indices.

## Main statements

* `ClassFile.interfaceNames_eq_error_iff`: which interface is reported.
* `ClassFile.closed_of_decode`: whatever is accepted is closed.
-/

namespace JavaClass

open EStateM

/-! ## What is expected of an index -/

namespace Pool

variable {pool : Pool} {index : UInt16}

/-- The pool has at the index what is expected there. -/
def Has (pool : Pool) (index : UInt16) : Expectation → Prop
  | .kind kind => (pool.ofKind? kind index).isSome = true
  | .value => (pool.entry? index).isSome = true

theorem has_of_entry? {c : Constant} (h : pool.entry? index = some c) :
    pool.Has index (.kind c.kind) := by
  simp [Has, ofKind?, h]

theorem has_of_text? {text : String} (h : pool.text? index = some text) :
    pool.Has index (.kind .utf8) := by
  obtain ⟨c, hc, htext⟩ := Option.bind_eq_some_iff.mp h
  cases c with
  | utf8 bytes text => exact has_of_entry? hc
  | _ => cases htext

theorem has_of_className? {name : String} (h : pool.className? index = some name) :
    pool.Has index (.kind .classRef) := by
  obtain ⟨c, hc, hname⟩ := Option.bind_eq_some_iff.mp h
  cases c with
  | classRef name => exact has_of_entry? hc
  | _ => cases hname

end Pool

/-- The references of a constant lead to what they need if its strings are those that they lead
to. -/
theorem Constant.AgreesWith.has {pool : Pool} {c : Constant} (h : c.AgreesWith pool)
    {index : UInt16} {r : Reference} (hr : r ∈ c.raw.references index) :
    pool.Has r.target (.kind r.expected) := by
  cases c with
  | string text =>
    obtain rfl := List.mem_singleton.mp hr
    exact Pool.has_of_text? h
  | classRef name =>
    obtain rfl := List.mem_singleton.mp hr
    exact Pool.has_of_text? h
  | nameAndType name descriptor =>
    obtain rfl | hr := List.mem_cons.mp hr
    · exact Pool.has_of_text? h.1
    · obtain rfl := List.mem_singleton.mp hr
      exact Pool.has_of_text? h.2
  | member kind owner description name descriptor =>
    obtain ⟨howner, n, d, hdescription, _⟩ := h
    obtain rfl | hr := List.mem_cons.mp hr
    · exact Pool.has_of_className? howner
    · obtain rfl := List.mem_singleton.mp hr
      exact Pool.has_of_entry? hdescription
  | _ => cases hr

/-! ## Names of interfaces -/

theorem Pool.text_requireClass_eq_error_iff {pool : Pool} {referrer : Referrer} {index : UInt16}
    {e : DecodeError} : Symbol.text <$> pool.requireClass referrer index = .error e ↔
      pool.className? index = none ∧ e = .danglingReference referrer index (.kind .classRef) := by
  rw [Except.map_eq_error_iff, requireClass, Except.map_eq_error_iff, require_eq_error_iff,
    className?]

namespace ClassFile

variable {file : ClassFile}

theorem forall_zipIdx_named_iff {indices : List UInt16} :
    (∀ b ∈ indices.zipIdx, ∃ name,
      Symbol.text <$> file.pool.requireClass (.interface b.2) b.1 = .ok name) ↔
      ∀ index ∈ indices, ∃ name, file.pool.className? index = some name := by
  simp only [Pool.text_requireClass_eq_ok_iff]
  conv_rhs => rw [← List.zipIdx_map_fst 0 indices, List.forall_mem_map]

/-- **The first interface that leads to no class is reported**, with its position. -/
theorem interfaceNames_eq_error_iff {e : DecodeError} :
    file.interfaceNames = .error e ↔ ∃ before index after,
      file.interfaces = before ++ index :: after ∧
      (∀ earlier ∈ before, ∃ name, file.pool.className? earlier = some name) ∧
      file.pool.className? index = none ∧
      e = .danglingReference (.interface before.length) index (.kind .classRef) := by
  rw [interfaceNames, mapM_eq_error_iff]
  constructor
  · rintro ⟨_, _, _, hsplit, hearlier, hrun⟩
    obtain ⟨before, _, hinterfaces, rfl, hrest⟩ := List.zipIdx_eq_append_iff.mp hsplit
    obtain ⟨index, after, rfl, rfl, -⟩ := List.zipIdx_eq_cons_iff.mp hrest.symm
    obtain ⟨hnone, rfl⟩ := Pool.text_requireClass_eq_error_iff.mp hrun
    exact ⟨before, index, after, hinterfaces, forall_zipIdx_named_iff.mp hearlier, hnone, by simp⟩
  · rintro ⟨before, index, after, hinterfaces, hearlier, hnone, rfl⟩
    refine ⟨before.zipIdx, (index, before.length), after.zipIdx (before.length + 1), ?_,
      forall_zipIdx_named_iff.mpr hearlier,
      Pool.text_requireClass_eq_error_iff.mpr ⟨hnone, rfl⟩⟩
    rw [hinterfaces, List.zipIdx_append, List.zipIdx_cons, Nat.zero_add]

/-! ## The indices of a class file -/

/-- The class, one of its fields or one of its methods has the attribute. -/
def HasAttribute (file : ClassFile) (a : Attribute) : Prop :=
  a ∈ file.attributes ∨ (∃ f ∈ file.fields, a ∈ f.attributes) ∨ ∃ m ∈ file.methods, a ∈ m.attributes

/-- The code is that of a method, or is among the attributes of one that has other code. -/
def HasCode (file : ClassFile) (body : Code) : Prop :=
  (∃ m ∈ file.methods, m.code = some body) ∨ file.HasAttribute (.code body)

/-- Where an index can stand in a class file. -/
inductive Place where
  | constant | thisClass | superclass | interface | fieldName | fieldDescriptor | sourceFile
  | signature | constantValue | catchType
  deriving DecidableEq, Repr

/-- An index of a class file, with the place where it stands and what is expected there. -/
inductive Refers (file : ClassFile) : Place → UInt16 → Expectation → Prop
  | constant {index : UInt16} {c : Constant} {r : Reference}
    (hc : file.pool.entry? index = some c) (hr : r ∈ c.raw.references index) :
    Refers file .constant r.target (.kind r.expected)
  | thisClass : Refers file .thisClass file.thisClass.index (.kind .classRef)
  | superclass {name : Symbol} (h : file.superclass = some name) :
    Refers file .superclass name.index (.kind .classRef)
  | interface {index : UInt16} (h : index ∈ file.interfaces) :
    Refers file .interface index (.kind .classRef)
  | fieldName {f : Field} (h : f ∈ file.fields) : Refers file .fieldName f.name.index (.kind .utf8)
  | fieldDescriptor {f : Field} (h : f ∈ file.fields) :
    Refers file .fieldDescriptor f.descriptor.index (.kind .utf8)
  | sourceFile {name : Symbol} (h : file.HasAttribute (.sourceFile name)) :
    Refers file .sourceFile name.index (.kind .utf8)
  | signature {text : Symbol} (h : file.HasAttribute (.signature text)) :
    Refers file .signature text.index (.kind .utf8)
  | constantValue {index : UInt16} (h : file.HasAttribute (.constantValue index)) :
    Refers file .constantValue index .value
  | catchType {body : Code} {entry : ExceptionEntry} (hbody : file.HasCode body)
    (hentry : entry ∈ body.exceptions) :
    Refers file .catchType entry.catchType (.kind .classRef)

/-- The strings in a class file are those that its indices lead to, and only interfaces and the
types of caught exceptions may lead nowhere. -/
structure IsClosed (file : ClassFile) (layout : Layout file.pool) : Prop where
  thisClass_index : file.thisClass.index = layout.thisClass
  thisClass_text : file.pool.className? file.thisClass.index = some file.name
  superclass_eq_none_iff : file.superclass = none ↔ layout.superclass = 0
  superclass : ∀ {name}, file.superclass = some name →
    name.index = layout.superclass ∧ file.pool.className? name.index = some name.text
  fields : List.Forall₂
    (fun m f ↦ f.owner = file.name ∧ f.name.index = m.nameIndex ∧
      f.descriptor.index = m.descriptorIndex ∧ file.pool.text? f.name.index = some f.name.text ∧
      file.pool.text? f.descriptor.index = some f.descriptor.text)
    layout.fields file.fields
  sourceFile : ∀ {name}, file.HasAttribute (.sourceFile name) →
    file.pool.text? name.index = some name.text
  signature : ∀ {text}, file.HasAttribute (.signature text) →
    file.pool.text? text.index = some text.text
  constantValue : ∀ {index}, file.HasAttribute (.constantValue index) →
    (file.pool.entry? index).isSome = true
  has_of_refers : ∀ {place index expected}, file.Refers place index expected →
    place ≠ .interface → place ≠ .catchType → file.pool.Has index expected
  /-- All interfaces have names if all of them lead to classes; these are then their names. -/
  exists_interfaceNames_iff : (∃ names, file.interfaceNames = .ok names) ↔
    ∀ index ∈ file.interfaces, ∃ name, file.pool.className? index = some name
  interfaceNames_eq_ok_iff : ∀ {names}, file.interfaceNames = .ok names ↔
    List.Forall₂ (fun index name ↦ file.pool.className? index = some name) file.interfaces names
  /-- Otherwise the first that does not is reported. -/
  interfaceNames_eq_error_iff : ∀ {e}, file.interfaceNames = .error e ↔ ∃ before index after,
    file.interfaces = before ++ index :: after ∧
    (∀ earlier ∈ before, ∃ name, file.pool.className? earlier = some name) ∧
    file.pool.className? index = none ∧
    e = .danglingReference (.interface before.length) index (.kind .classRef)

/-! ## Class files that have been read -/

theorem exists_meansOn {pool : Pool} {owner : Declaration} {blocks : List (Attribute.Block pool)}
    {attributes : List Attribute} (h : Attribute.AreReadFrom owner blocks attributes)
    {a : Attribute} (ha : a ∈ attributes) :
    ∃ block : Attribute.Block pool, block.MeansOn owner a := by
  obtain ⟨block, _, hreads⟩ := exists_mem_of_forall₂ h.reads ha
  exact ⟨block, Attribute.Block.meansOn_of_reads hreads⟩

variable {layout : Layout file.pool}

theorem IsLaidOut.exists_meansOn (h : file.IsLaidOut layout) {a : Attribute}
    (ha : file.HasAttribute a) :
    ∃ (owner : Declaration) (block : Attribute.Block file.pool), block.MeansOn owner a := by
  rcases ha with ha | ⟨f, hf, ha⟩ | ⟨method, hmethod, ha⟩
  · exact ⟨_, ClassFile.exists_meansOn h.attributes ha⟩
  · obtain ⟨m, _, hm⟩ := exists_mem_of_forall₂ h.fields hf
    exact ⟨_, ClassFile.exists_meansOn hm.attributes ha⟩
  · obtain ⟨m, _, hm⟩ := exists_mem_of_forall₂ h.methods hmethod
    obtain ⟨attributes, hattributes, hlifted⟩ := hm.attributes
    -- what is left without the code has been there before
    have hmem : a ∈ attributes := List.mem_of_mem_eraseP ((Prod.mk.inj hlifted).2.symm ▸ ha)
    exact ⟨_, ClassFile.exists_meansOn hattributes hmem⟩

theorem IsLaidOut.text?_sourceFile (h : file.IsLaidOut layout) {name : Symbol}
    (hname : file.HasAttribute (.sourceFile name)) :
    file.pool.text? name.index = some name.text := by
  obtain ⟨_, _, hmeans⟩ := h.exists_meansOn hname
  cases hmeans with
  | sourceFile _ _ _ htext => exact htext

theorem IsLaidOut.text?_signature (h : file.IsLaidOut layout) {text : Symbol}
    (htext : file.HasAttribute (.signature text)) :
    file.pool.text? text.index = some text.text := by
  obtain ⟨_, _, hmeans⟩ := h.exists_meansOn htext
  cases hmeans with
  | signature _ _ htext => exact htext

theorem IsLaidOut.isSome_constantValue (h : file.IsLaidOut layout) {index : UInt16}
    (hindex : file.HasAttribute (.constantValue index)) :
    (file.pool.entry? index).isSome = true := by
  obtain ⟨_, _, hmeans⟩ := h.exists_meansOn hindex
  cases hmeans with
  | constantValue _ _ _ hvalue => exact hvalue

theorem IsLaidOut.superclass_eq_none_iff (h : file.IsLaidOut layout) :
    file.superclass = none ↔ layout.superclass = 0 := by
  have hsuperclass := h.superclass
  cases hcases : file.superclass with
  | none =>
    rw [hcases] at hsuperclass
    exact iff_of_true rfl hsuperclass
  | some name =>
    rw [hcases] at hsuperclass
    exact iff_of_false (Option.some_ne_none name) hsuperclass.1

theorem IsLaidOut.className?_superclass (h : file.IsLaidOut layout) {name : Symbol}
    (hname : file.superclass = some name) :
    name.index = layout.superclass ∧ file.pool.className? name.index = some name.text := by
  have hsuperclass := h.superclass
  rw [hname] at hsuperclass
  obtain ⟨_, hindex, htext⟩ := hsuperclass
  exact ⟨hindex, hindex ▸ htext⟩

theorem IsLaidOut.isClosed (h : file.IsLaidOut layout) : file.IsClosed layout where
  thisClass_index := h.thisClass_index
  thisClass_text := h.thisClass_index ▸ h.thisClass_text
  superclass_eq_none_iff := h.superclass_eq_none_iff
  superclass := h.className?_superclass
  fields := h.fields.imp fun m f hf ↦ ⟨hf.owner_eq, hf.name_index, hf.descriptor_index,
    hf.name_index ▸ hf.name_text, hf.descriptor_index ▸ hf.descriptor_text⟩
  sourceFile := h.text?_sourceFile
  signature := h.text?_signature
  constantValue := h.isSome_constantValue
  has_of_refers := by
    intro place index expected hrefers hinterface hcatch
    cases hrefers with
    | constant hc hr => exact (Pool.agreesWith_of_decode (h.pool []) hc).has hr
    | thisClass => exact Pool.has_of_className? (h.thisClass_index ▸ h.thisClass_text)
    | superclass hname => exact Pool.has_of_className? (h.className?_superclass hname).2
    | interface => exact absurd rfl hinterface
    | fieldName hf =>
      obtain ⟨m, _, hm⟩ := exists_mem_of_forall₂ h.fields hf
      exact Pool.has_of_text? (hm.name_index ▸ hm.name_text)
    | fieldDescriptor hf =>
      obtain ⟨m, _, hm⟩ := exists_mem_of_forall₂ h.fields hf
      exact Pool.has_of_text? (hm.descriptor_index ▸ hm.descriptor_text)
    | sourceFile hname => exact Pool.has_of_text? (h.text?_sourceFile hname)
    | signature htext => exact Pool.has_of_text? (h.text?_signature htext)
    | constantValue hindex => exact h.isSome_constantValue hindex
    | catchType => exact absurd rfl hcatch
  exists_interfaceNames_iff := ClassFile.exists_interfaceNames_iff
  interfaceNames_eq_ok_iff := ClassFile.interfaceNames_eq_ok_iff
  interfaceNames_eq_error_iff := ClassFile.interfaceNames_eq_error_iff

/-- Any indices can stand for the interfaces. -/
theorem IsLaidOut.withInterfaces (h : file.IsLaidOut layout) {indices : List UInt16}
    (hlength : indices.length < 0x10000) :
    IsLaidOut { file with interfaces := indices } { layout with interfaces := indices } :=
  { h with interfaces_length := hlength, interfaces := rfl }

/-- **A class file is closed over its pool.** Its strings are what its indices lead to, and what is
expected of an index is there, except for interfaces and caught exceptions. An accepted class file
stays one with any other indices for its interfaces. -/
theorem closed_of_decode {input rest : Bytes} {file : ClassFile}
    (h : decode input = .ok file rest) :
    (∃ layout : Layout file.pool,
      layout.bytes = input ∧ file.IsLaidOut layout ∧ file.IsClosed layout) ∧
    ∀ indices : List UInt16, indices.length < 0x10000 →
      ∃ changed, decode changed = .ok { file with interfaces := indices } [] := by
  obtain ⟨-, layout, hbytes, hlaidOut⟩ := decode_eq_ok_iff_isLaidOut.mp h
  refine ⟨⟨layout, hbytes, hlaidOut, hlaidOut.isClosed⟩, fun indices hlength ↦ ?_⟩
  have hchanged := hlaidOut.withInterfaces hlength
  exact ⟨_, decode_eq_ok_iff_isLaidOut.mpr ⟨rfl, _, rfl, hchanged⟩⟩

/-- The class `Counter`: an interface and a caught exception lead nowhere, and it is accepted. -/
theorem closed_of_decode_counter : ∃ (file : ClassFile) (layout : Layout file.pool),
    decode ClassDraft.counter.encode = .ok file [] ∧
    layout.bytes = ClassDraft.counter.encode ∧ file.IsClosed layout ∧
    file.name = "Counter" ∧ layout.superclass = 0 ∧
    file.Refers .catchType 900 (.kind .classRef) ∧ ¬ file.pool.Has 900 (.kind .classRef) ∧
    file.interfaceNames = .error (.danglingReference (.interface 1) 900 (.kind .classRef)) ∧
    ∃ changed, decode changed = .ok { file with interfaces := [0, 1, 65535] } [] := by
  let body : Code := ⟨2, 1, [0xB1], [⟨0, 1, 0, 900⟩],
    [.skipped "StackMapTable" 2, .lineNumberTable [⟨0, 3⟩], .unknown "Code" []]⟩
  have haccepted : ∃ r ∈ (decode ClassDraft.counter.encode).ok?, r.2 = [] ∧
      r.1.name = "Counter" ∧ r.1.superclass = none ∧ r.1.interfaces = [1, 900] ∧
      r.1.pool.className? 1 = some "Counter" ∧ r.1.pool.entry? 900 = none ∧
      ∃ m ∈ r.1.methods, .code body ∈ m.attributes := by
    decide +kernel
  obtain ⟨⟨file, _⟩, hfile, rfl, hname, hroot, hinterfaces, hfirst, hdangling, hcode⟩ := haccepted
  have hfile := Result.ok?_eq_some_iff.mp hfile
  obtain ⟨⟨layout, hbytes, -, hclosed⟩, hchanged⟩ := closed_of_decode hfile
  refine ⟨file, layout, hfile, hbytes, hclosed, hname, hclosed.superclass_eq_none_iff.mp hroot,
    ?_, ?_, ?_, hchanged [0, 1, 65535] (by decide)⟩
  · exact .catchType (.inr (.inr (.inr hcode))) List.mem_cons_self
  · simp [Pool.Has, Pool.ofKind?, hdangling]
  · refine hclosed.interfaceNames_eq_error_iff.mpr ⟨[1], 900, [], hinterfaces, ?_, ?_, rfl⟩
    · simp [hfirst]
    · rw [Pool.className?, hdangling]
      rfl

end ClassFile

end JavaClass
