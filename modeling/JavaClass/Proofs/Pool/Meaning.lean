import JavaClass.Pool.Resolve
import JavaClass.Proofs.Run

/-!
# What a table of raw constants means

A table of raw constants can be given a meaning without an order of work: each reference is
followed in the table itself, where its target stands from the beginning. `RawPool.meaning` is the
pool that comes of this. It is total, with empty strings where a reference leads nowhere;
`RawPool.Resolvable` says that there is no such reference.

Where there is one, the first is of interest. `RawPool.references` lists the references of a table
by the kinds of the constants that make them, and for each kind by index.
-/

namespace JavaClass

namespace Tag

def kind : Tag → ConstantKind
  | utf8 => .utf8
  | integer => .integer
  | long => .long
  | string => .string
  | classRef => .classRef
  | nameAndType => .nameAndType
  | member _ => .member
  | unsupported _ => .unsupported

theorem kind_eq_utf8_iff {tag : Tag} : tag.kind = .utf8 ↔ tag = .utf8 := by
  cases tag <;> simp [kind]

theorem kind_eq_classRef_iff {tag : Tag} : tag.kind = .classRef ↔ tag = .classRef := by
  cases tag <;> simp [kind]

theorem kind_eq_nameAndType_iff {tag : Tag} :
    tag.kind = .nameAndType ↔ tag = .nameAndType := by
  cases tag <;> simp [kind]

end Tag

/-- That a constant refers to another one. -/
structure Reference where
  /-- The index of the constant that refers. -/
  referrer : UInt16
  /-- The index that it refers to. -/
  target : UInt16
  /-- The kind that it needs there. -/
  expected : ConstantKind
  deriving DecidableEq, Repr

/-- The report of a reference that leads nowhere. -/
def Reference.error (r : Reference) : DecodeError :=
  .danglingReference (.constant r.referrer) r.target (.kind r.expected)

/-- The references of the constant at `index`, in the order in which it has them. -/
def RawConstant.references (index : UInt16) : RawConstant → List Reference
  | string text => [⟨index, text, .utf8⟩]
  | nameAndType name descriptor => [⟨index, name, .utf8⟩, ⟨index, descriptor, .utf8⟩]
  | classRef name => [⟨index, name, .utf8⟩]
  | member _ owner description => [⟨index, owner, .classRef⟩, ⟨index, description, .nameAndType⟩]
  | _ => []

namespace RawPool

/-! ## References in a table -/

def raw? (table : RawPool) (index : UInt16) : Option RawConstant := table[index.toNat]?.join

def tag? (table : RawPool) (index : UInt16) : Option Tag := (table.raw? index).map RawConstant.tag

/-- The reference leads to a constant of the kind that it needs. -/
def Meets (table : RawPool) (r : Reference) : Prop :=
  (table.tag? r.target).map Tag.kind = some r.expected

instance (table : RawPool) (r : Reference) : Decidable (table.Meets r) :=
  inferInstanceAs (Decidable (_ = _))

/-- The references of the constants of one kind. -/
def referencesOf (table : RawPool) (kind : ConstantKind) : List Reference :=
  (table.entries.filter (·.2.tag.kind = kind)).flatMap fun (index, c) => c.references index

/-- All references: those of strings, of names and types, of classes, and of members. -/
def references (table : RawPool) : List Reference :=
  table.referencesOf .string ++ table.referencesOf .nameAndType ++ table.referencesOf .classRef ++
    table.referencesOf .member

end RawPool

/-- The references of a constant lead to what they need. -/
def RawConstant.Resolves (table : RawPool) : RawConstant → Prop
  | string text => table.tag? text = some .utf8
  | nameAndType name descriptor =>
    table.tag? name = some .utf8 ∧ table.tag? descriptor = some .utf8
  | classRef name => table.tag? name = some .utf8
  | member _ owner description =>
    table.tag? owner = some .classRef ∧ table.tag? description = some .nameAndType
  | _ => True

namespace RawPool

/-- Every reference leads to what it needs, before or after the constant that makes it. -/
def Resolvable (table : RawPool) : Prop :=
  ∀ index c, table.raw? index = some c → c.Resolves table

/-! ## Meanings -/

def text (table : RawPool) (index : UInt16) : String :=
  match table.raw? index with
  | some (.utf8 bytes) => readText bytes
  | _ => ""

def className (table : RawPool) (index : UInt16) : String :=
  match table.raw? index with
  | some (.classRef name) => table.text name
  | _ => ""

def nameAndType (table : RawPool) (index : UInt16) : String × String :=
  match table.raw? index with
  | some (.nameAndType name descriptor) => (table.text name, table.text descriptor)
  | _ => ("", "")

/-- An index with the text that it leads to. -/
def symbol (table : RawPool) (index : UInt16) : Symbol := ⟨index, table.text index⟩

/-- An index with the name of the class that it leads to. -/
def classSymbol (table : RawPool) (index : UInt16) : Symbol := ⟨index, table.className index⟩

end RawPool

/-- A raw constant with the strings that it leads to. -/
def RawConstant.meaning (table : RawPool) : RawConstant → Constant
  | utf8 bytes => .utf8 bytes (readText bytes)
  | integer value => .integer value
  | long value => .long value
  | unsupported kind payload => .unsupported kind payload
  | string text => .string (table.symbol text)
  | nameAndType name descriptor => .nameAndType (table.symbol name) (table.symbol descriptor)
  | classRef name => .classRef (table.symbol name)
  | member kind owner description =>
    let (name, descriptor) := table.nameAndType description
    .member kind (table.classSymbol owner) description name descriptor

/-- The pool of the meanings. -/
def RawPool.meaning (table : RawPool) : Pool :=
  ⟨table.map fun slot => slot.map (RawConstant.meaning table)⟩

/-! ## Indices and entries -/

namespace RawPool

variable {table : RawPool} {index : UInt16} {c : RawConstant}

theorem tag?_eq_some_iff {tag : Tag} :
    table.tag? index = some tag ↔ ∃ c, table.raw? index = some c ∧ c.tag = tag :=
  Option.map_eq_some_iff

theorem toNat_ofNat_of_mem_zipIdx (hsize : table.size ≤ 65536) {slot : Option RawConstant}
    {position : Nat} (h : (slot, position) ∈ table.toList.zipIdx) :
    (UInt16.ofNat position).toNat = position := by
  rw [List.mk_mem_zipIdx_iff_getElem?, Array.getElem?_toList] at h
  have hlt : position < table.size := (Array.getElem?_eq_some_iff.mp h).1
  exact UInt16.toNat_ofNat_of_lt' (Nat.lt_of_lt_of_le hlt hsize)

theorem mem_entries_iff (hsize : table.size ≤ 65536) :
    (index, c) ∈ table.entries ↔ table.raw? index = some c := by
  rw [entries, List.mem_filterMap, raw?, Option.join_eq_some_iff]
  constructor
  · rintro ⟨⟨slot, position⟩, hmem, hentry⟩
    obtain ⟨c', rfl, ⟨⟩⟩ := Option.map_eq_some_iff.mp hentry
    rw [toNat_ofNat_of_mem_zipIdx hsize hmem]
    rwa [List.mk_mem_zipIdx_iff_getElem?, Array.getElem?_toList] at hmem
  · intro hslot
    refine ⟨(some c, index.toNat), ?_, by simp⟩
    rwa [List.mk_mem_zipIdx_iff_getElem?, Array.getElem?_toList]

theorem entries_pairwise_lt (hsize : table.size ≤ 65536) :
    table.entries.Pairwise (·.1 < ·.1) := by
  have hpositions : table.toList.zipIdx.Pairwise (·.2 < ·.2) := by
    rw [← List.pairwise_map (f := Prod.snd) (R := (· < ·)), List.zipIdx_map_snd]
    exact List.pairwise_lt_range'
  rw [entries, List.pairwise_filterMap]
  refine hpositions.imp_of_mem ?_
  rintro ⟨slot, i⟩ ⟨slot', j⟩ hi hj hlt _ hentry _ hentry'
  obtain ⟨c, _, rfl⟩ := Option.map_eq_some_iff.mp hentry
  obtain ⟨c', _, rfl⟩ := Option.map_eq_some_iff.mp hentry'
  rw [UInt16.lt_iff_toNat_lt, toNat_ofNat_of_mem_zipIdx hsize hi,
    toNat_ofNat_of_mem_zipIdx hsize hj]
  exact hlt

/-! ## References that lead somewhere -/

theorem resolves_iff : c.Resolves table ↔ ∀ r ∈ c.references index, table.Meets r := by
  cases c <;> simp [RawConstant.Resolves, RawConstant.references, Meets, Option.map_eq_some_iff,
    Tag.kind_eq_utf8_iff, Tag.kind_eq_classRef_iff, Tag.kind_eq_nameAndType_iff]

theorem mem_referencesOf_iff (hsize : table.size ≤ 65536) {kind : ConstantKind} {r : Reference} :
    r ∈ table.referencesOf kind ↔
      ∃ index c, table.raw? index = some c ∧ c.tag.kind = kind ∧ r ∈ c.references index := by
  simp only [referencesOf, List.mem_flatMap, List.mem_filter, decide_eq_true_eq, Prod.exists,
    mem_entries_iff hsize, and_assoc]

/-- Only strings, names and types, classes and members refer to other constants. -/
theorem mem_references_iff (hsize : table.size ≤ 65536) {r : Reference} :
    r ∈ table.references ↔ ∃ index c, table.raw? index = some c ∧ r ∈ c.references index := by
  simp only [references, List.mem_append, mem_referencesOf_iff hsize]
  constructor
  · rintro (((⟨i, c, hc, _, hr⟩ | ⟨i, c, hc, _, hr⟩) | ⟨i, c, hc, _, hr⟩) | ⟨i, c, hc, _, hr⟩) <;>
      exact ⟨i, c, hc, hr⟩
  · rintro ⟨i, c, hc, hr⟩
    cases c with
    | string text => exact .inl (.inl (.inl ⟨i, _, hc, rfl, hr⟩))
    | nameAndType name descriptor => exact .inl (.inl (.inr ⟨i, _, hc, rfl, hr⟩))
    | classRef name => exact .inl (.inr ⟨i, _, hc, rfl, hr⟩)
    | member kind owner description => exact .inr ⟨i, _, hc, rfl, hr⟩
    | _ => cases hr

theorem resolvable_iff (hsize : table.size ≤ 65536) :
    table.Resolvable ↔ ∀ r ∈ table.references, table.Meets r := by
  constructor
  · intro h r hr
    obtain ⟨index, c, hc, hr⟩ := (mem_references_iff hsize).mp hr
    exact resolves_iff.mp (h index c hc) r hr
  · intro h index c hc
    exact resolves_iff.mpr fun r hr ↦ h r ((mem_references_iff hsize).mpr ⟨index, c, hc, hr⟩)

/-! ## Scanned tables -/

theorem size_of_scanFrom {done table : RawPool} {n : Nat} {input rest : Bytes}
    (h : scanFrom done n input = .ok table rest) : table.size = done.size + n := by
  fun_induction scanFrom done n generalizing input with
  | case1 done =>
    cases h
    rfl
  | case2 done =>
    obtain ⟨c, mid, _, ⟨⟩⟩ := EStateM.bind_eq_ok_iff.mp h
    simp
  | case3 done n ihWide ih =>
    obtain ⟨c, mid, _, h⟩ := EStateM.bind_eq_ok_iff.mp h
    split at h
    · have := ihWide c h
      simp at this
      omega
    · have := ih c h
      simp at this
      omega

theorem size_of_scan {count : UInt16} {table : RawPool} {input rest : Bytes}
    (h : scan count input = .ok table rest) : table.size = max count.toNat 1 := by
  have hsize := size_of_scanFrom h
  simp at hsize
  omega

theorem size_le_of_scan {count : UInt16} {table : RawPool} {input rest : Bytes}
    (h : scan count input = .ok table rest) : table.size ≤ 65536 := by
  have hcount := count.toNat_lt
  rw [size_of_scan h]
  omega

end RawPool

end JavaClass
