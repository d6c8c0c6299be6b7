import JavaClass.Proofs.ClassFile.Layout
import JavaClass.Proofs.Draft.RoundTrip

/-!
# Attributes where they belong

What a name means depends on where its attribute stands, and a class file has four such places: the
class itself, its fields, its methods and the code of these. `Attribute.InContext` and
`CodeAttribute.InContext` tell of a block and of what it is read as that the place has been
respected. The second is for attributes of code; these are a type of their own, so that no code is
ever found in code, and a block there that claims to be code is one with an unknown name.

The code of a method is taken out of its attributes. It can be put back, and where it belongs is the
position of the first code among the attributes as they have been read.

## Main statements

* `Attribute.lifted_liftCode`: what is taken out and what is left.
* `ClassFile.attributes_in_context`: the attributes of whatever is accepted.
-/

namespace JavaClass

open Bytes EStateM Decoder Attribute

variable {pool : Pool}

/-! ## One attribute -/

def Declaration.Admits : Declaration → Attribute → Prop
  | _, .deprecated | _, .signature _ | _, .unknown .. => True
  | owner, .sourceFile _ => owner = classFile
  | owner, .constantValue _ => owner = field
  | owner, .code _ => owner = method

/-- What is read from a block in code. -/
structure CodeAttribute.InContext (block : Block pool) (a : CodeAttribute) : Prop where
  reads : Reads (CodeAttribute.decode pool) block.bytes a
  lineNumberTable_iff : (∃ entries, a = .lineNumberTable entries) ↔ block.name = "LineNumberTable"
  skipped_iff : ∀ {name length}, a = .skipped name length ↔
    block.name ∈ skippedNames ∧ name = block.name ∧ length = block.body.length
  unknown_iff : ∀ {name data}, a = .unknown name data ↔
    block.name ∉ recognised ∧ name = block.name ∧ data = block.body
  /-- Code is not looked for in code. -/
  of_code : block.name = "Code" → a = .unknown "Code" block.body

/-- What is read from a block of a declaration. -/
structure Attribute.InContext (owner : Declaration) (block : Block pool) (a : Attribute) :
    Prop where
  reads : Reads (Attribute.decode pool owner) block.bytes a
  admitted : owner.Admits a
  unknown_iff : ∀ {name data}, a = .unknown name data ↔
    block.name ∉ owner.recognised ∧ name = block.name ∧ data = block.body
  /-- The rules hold in code as well. -/
  nested : ∀ {body}, a = .code body → ∃ blocks : List (Block pool),
    block.body = body.head ++ counted Block.bytes blocks ∧
      List.Forall₂ CodeAttribute.InContext blocks body.attributes

theorem CodeAttribute.inContext_of_reads {block : Block pool} {a : CodeAttribute}
    (h : Reads (CodeAttribute.decode pool) block.bytes a) : InContext block a where
  reads := h
  lineNumberTable_iff := by
    constructor
    · rintro ⟨entries, rfl⟩
      cases meansInCode_of_reads h with
      | lineNumberTable hname => exact hname
    · intro hname
      cases meansInCode_of_reads h with
      | lineNumberTable => exact ⟨_, rfl⟩
      | skipped hskipped => exact absurd hname (ne_of_mem_skippedNames hskipped)
      | unknown hunknown => exact absurd (mem_recognised_iff.mpr (.inl hname)) hunknown
  skipped_iff := by
    intro name length
    constructor
    · rintro rfl
      cases meansInCode_of_reads h with
      | skipped hname => exact ⟨hname, rfl, rfl⟩
    · rintro ⟨hname, rfl, rfl⟩
      exact h.unique (reads_skipped hname)
  unknown_iff := by
    intro name data
    constructor
    · rintro rfl
      cases meansInCode_of_reads h with
      | unknown hname => exact ⟨hname, rfl, rfl⟩
    · rintro ⟨hname, rfl, rfl⟩
      exact h.unique (reads_unknown hname)
  of_code := by
    intro hcode
    have hname : block.name ∉ recognised := by
      rw [hcode]
      decide
    exact hcode ▸ h.unique (reads_unknown hname)

theorem Attribute.inContext_of_reads {owner : Declaration} {block : Block pool} {a : Attribute}
    (h : Reads (Attribute.decode pool owner) block.bytes a) : InContext owner block a where
  reads := h
  admitted := by
    cases Block.meansOn_of_reads h with
    | sourceFile howner | constantValue howner => exact howner
    | code _ howner => exact howner
    | deprecated | signature | unknown => trivial
  unknown_iff := by
    intro name data
    constructor
    · rintro rfl
      cases Block.meansOn_of_reads h with
      | unknown hname => exact ⟨hname, rfl, rfl⟩
    · rintro ⟨hname, rfl, rfl⟩
      exact h.unique (reads_unknown hname)
  nested := by
    rintro body rfl
    cases Block.meansOn_of_reads h with
    | code blocks _ _ hbody hattributes =>
      exact ⟨blocks, hbody, hattributes.imp fun _ _ ↦ CodeAttribute.inContext_of_reads⟩

/-! ## Taking the code out -/

/-- Of some attributes, the first code has been taken out, if there is any. -/
structure Attribute.Lifted (attributes : List Attribute) (code : Option Code)
    (left : List Attribute) : Prop where
  isSome_iff : code.isSome = true ↔ ∃ body, .code body ∈ attributes
  left_eq : code = none → left = attributes
  /-- At the position of the code, it can be put back. -/
  exists_position : ∀ {body}, code = some body → ∃ position,
    attributes[position]? = some (.code body) ∧
      (∀ other, .code other ∉ attributes.take position) ∧
      left.insertIdx position (.code body) = attributes

theorem insertIdx_length_append {α : Type} (before after : List α) (a : α) :
    (before ++ after).insertIdx before.length a = before ++ a :: after := by
  induction before with
  | nil => rfl
  | cons b before ih => rw [List.cons_append, List.length_cons, List.insertIdx_succ_cons, ih]; rfl

namespace Attribute

theorem code?_eq_some_iff {a : Attribute} {body : Code} : a.code? = some body ↔ a = .code body := by
  cases a <;> simp [code?]

theorem code?_eq_none_iff {a : Attribute} : a.code? = none ↔ ∀ body, a ≠ .code body := by
  cases a <;> simp [code?]

theorem lifted_liftCode (attributes : List Attribute) :
    Lifted attributes (liftCode attributes).1 (liftCode attributes).2 where
  isSome_iff := by
    rw [liftCode, List.findSome?_isSome_iff]
    constructor
    · rintro ⟨a, hmem, hsome⟩
      obtain ⟨body, hbody⟩ := Option.isSome_iff_exists.mp hsome
      exact ⟨body, code?_eq_some_iff.mp hbody ▸ hmem⟩
    · rintro ⟨body, hmem⟩
      exact ⟨_, hmem, rfl⟩
  left_eq := by
    intro hnone
    refine List.eraseP_of_forall_not fun a ha ↦ ?_
    rw [List.findSome?_eq_none_iff.mp hnone a ha]
    exact Bool.false_ne_true
  exists_position := by
    intro body hsome
    obtain ⟨before, a, after, rfl, ha, hbefore⟩ := List.findSome?_eq_some_iff.mp hsome
    obtain rfl := code?_eq_some_iff.mp ha
    have hleft : (liftCode (before ++ .code body :: after)).2 = before ++ after := by
      rw [liftCode, List.eraseP_append_right, List.eraseP_cons_of_pos rfl]
      intro b hb
      rw [hbefore b hb]
      exact Bool.false_ne_true
    refine ⟨before.length, by simp, fun other hother ↦ ?_, ?_⟩
    · rw [List.take_left] at hother
      exact code?_eq_none_iff.mp (hbefore _ hother) other rfl
    · rw [hleft, insertIdx_length_append]

end Attribute

/-! ## Class files -/

/-- The attributes of a class file are read from blocks that stand in the right places, and those
of a method are read before the code is taken out. -/
structure ClassFile.InContext (file : ClassFile) (layout : Layout file.pool) : Prop where
  attributes : List.Forall₂ (Attribute.InContext .classFile) layout.attributes file.attributes
  fields : List.Forall₂
    (fun m f ↦ List.Forall₂ (Attribute.InContext .field) m.attributes f.attributes)
    layout.fields file.fields
  methods : List.Forall₂
    (fun m method ↦ ∃ attributes, Lifted attributes method.code method.attributes ∧
      List.Forall₂ (Attribute.InContext .method) m.attributes attributes)
    layout.methods file.methods

namespace ClassFile

theorem IsLaidOut.inContext {file : ClassFile} {layout : Layout file.pool}
    (h : file.IsLaidOut layout) : file.InContext layout where
  attributes := h.attributes.reads.imp fun _ _ ↦ inContext_of_reads
  fields := h.fields.imp fun _ _ hf ↦ hf.attributes.reads.imp fun _ _ ↦ inContext_of_reads
  methods := h.methods.imp fun m method hm ↦ by
    obtain ⟨attributes, hblocks, hlifted⟩ := hm.attributes
    have hlift := lifted_liftCode attributes
    rw [hlifted] at hlift
    exact ⟨attributes, hlift, hblocks.reads.imp fun _ _ ↦ inContext_of_reads⟩

/-- **Attributes are interpreted where they belong**, and nowhere else. In every list of attributes
that is read, of a declaration or of code, each attribute respects the place of its block. A block
that means nothing there, or that is passed over, is never refused. And in every class file that is
read, the same is true of the attributes of the class, of its fields, and of its methods. -/
theorem attributes_in_context :
    (∀ (pool : Pool) (owner : Declaration),
      Accepts (decodeAll pool owner) (counted Block.bytes)
        (List.Forall₂ (@Attribute.InContext pool owner))) ∧
    (∀ pool : Pool, Accepts (counted fun _ ↦ CodeAttribute.decode pool) (Bytes.counted Block.bytes)
      (List.Forall₂ (@CodeAttribute.InContext pool))) ∧
    (∀ (pool : Pool) (owner : Declaration) (block : Block pool), block.name ∉ owner.recognised →
      Reads (Attribute.decode pool owner) block.bytes (.unknown block.name block.body)) ∧
    (∀ (pool : Pool) (block : Block pool), block.name ∈ CodeAttribute.skippedNames →
      Reads (CodeAttribute.decode pool) block.bytes (.skipped block.name block.body.length)) ∧
    (∀ (pool : Pool) (block : Block pool), block.name ∉ CodeAttribute.recognised →
      Reads (CodeAttribute.decode pool) block.bytes (.unknown block.name block.body)) ∧
    (∀ (input rest : Bytes) (file : ClassFile), decode input = .ok file rest →
      ∃ layout : Layout file.pool,
        layout.bytes = input ∧ file.IsLaidOut layout ∧ file.InContext layout) := by
  refine ⟨fun pool owner ↦ ?_, fun pool ↦ ?_, fun _ _ _ ↦ reads_unknown,
    fun _ _ ↦ CodeAttribute.reads_skipped, fun _ _ ↦ CodeAttribute.reads_unknown,
    fun input rest file hrun ↦ ?_⟩
  · exact (accepts_decodeAll pool owner).imp fun _ _ h ↦ h.reads.imp fun _ _ ↦ inContext_of_reads
  · exact (accepts_counted fun _ ↦ accepts_framed pool CodeAttribute.contents).imp
      fun _ _ h ↦ h.2.imp fun _ _ ↦ CodeAttribute.inContext_of_reads
  · obtain ⟨layout, hbytes, hlaidOut⟩ := exists_layout hrun
    exact ⟨layout, hbytes, hlaidOut, hlaidOut.inContext⟩

/-- The class `Counter`, whose method has two attributes `Code`. With its pool, a source file on a
method, a table that is passed over, and code in code are read whatever they hold. -/
theorem attributes_in_context_counter : ∃ (file : ClassFile) (layout : Layout file.pool)
    (source table code : Block file.pool),
    decode ClassDraft.counter.encode = .ok file [] ∧
    layout.bytes = ClassDraft.counter.encode ∧ file.InContext layout ∧
    file.methods.map (·.code.isSome) = [true] ∧
    Reads (Attribute.decode file.pool .method) source.bytes (.unknown "SourceFile" [9]) ∧
    Reads (CodeAttribute.decode file.pool) table.bytes (.skipped "StackMapTable" 3) ∧
    Reads (CodeAttribute.decode file.pool) code.bytes (.unknown "Code" [7]) := by
  have haccepted : ∃ r ∈ (decode ClassDraft.counter.encode).ok?, r.2 = [] ∧
      r.1.pool.text? 11 = some "SourceFile" ∧ r.1.pool.text? 10 = some "StackMapTable" ∧
      r.1.pool.text? 8 = some "Code" ∧ r.1.methods.map (·.code.isSome) = [true] := by
    decide +kernel
  obtain ⟨⟨file, _⟩, hfile, rfl, hsource, htable, hcode, hmethods⟩ := haccepted
  have hfile := Result.ok?_eq_some_iff.mp hfile
  obtain ⟨layout, hbytes, -, hcontext⟩ := attributes_in_context.2.2.2.2.2 _ _ _ hfile
  let source : Block file.pool := ⟨11, "SourceFile", [9], hsource, by decide⟩
  let table : Block file.pool := ⟨10, "StackMapTable", [1, 2, 3], htable, by decide⟩
  let code : Block file.pool := ⟨8, "Code", [7], hcode, by decide⟩
  have hmisplaced : source.name ∉ Declaration.method.recognised :=
    show "SourceFile" ∉ Declaration.method.recognised by decide
  have hskipped : table.name ∈ CodeAttribute.skippedNames :=
    show "StackMapTable" ∈ CodeAttribute.skippedNames by decide
  have hnested : code.name ∉ CodeAttribute.recognised :=
    show "Code" ∉ CodeAttribute.recognised by decide
  exact ⟨file, layout, source, table, code, hfile, hbytes, hcontext, hmethods,
    attributes_in_context.2.2.1 file.pool .method source hmisplaced,
    attributes_in_context.2.2.2.1 file.pool table hskipped,
    attributes_in_context.2.2.2.2.1 file.pool code hnested⟩

end ClassFile

end JavaClass
