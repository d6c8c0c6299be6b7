import JavaClass.Frame
import JavaClass.Proofs.Attribute.Grammar
import Mathlib.Data.List.Induction

/-!
# Which source line an address belongs to

Code may have any number of line number tables, and nothing orders their entries. An address belongs
to the line of the entry that begins closest before it. Where several entries begin together, the
one that has been decoded last decides, and that is the last one of the last table that has one.

So the order of entries matters only among those that begin together. `Code.closest?` is the look-up
in a list of entries; all that it depends on are the entries of each beginning, in their order.

## Main definitions

* `Code.tables`: the line number tables of some code.
* `Code.Decides`: the entry that an address belongs to.

## Main statements

* `Code.closest?_eq_some_iff`: what is found in a list of entries.
* `Code.lineAt?_lawful`: the line of an address.
-/

namespace JavaClass

open Bytes Decoder EStateM

/-- The entries of a line number table. -/
def CodeAttribute.table? : CodeAttribute → Option (List LineNumber)
  | lineNumberTable entries => some entries
  | _ => none

namespace Code

/-- The line number tables, in the order in which they have been decoded. -/
def tables (code : Code) : List (List LineNumber) :=
  code.attributes.filterMap CodeAttribute.table?

/-- An address belongs to an entry: no other entry that does not begin after the address begins
later, and no entry that has been decoded after it begins with it. -/
structure Decides (code : Code) (pc : UInt16) (e : LineNumber) : Prop where
  le : e.startPc ≤ pc
  greatest : ∀ table ∈ code.tables, ∀ x ∈ table, x.startPc ≤ pc → x.startPc ≤ e.startPc
  last : ∃ earlier before after later, code.tables = earlier ++ (before ++ e :: after) :: later ∧
    ∀ x ∈ after ++ later.flatten, x.startPc ≠ e.startPc

variable {code : Code} {pc start : UInt16} {e x : LineNumber} {lines lines' : List LineNumber}

theorem lines_eq_flatten_tables (code : Code) : code.lines = code.tables.flatten := by
  rw [lines, tables]
  induction code.attributes with
  | nil => rfl
  | cons a attributes ih =>
    rw [List.flatMap_cons, ih]
    cases a <;> rfl

/-! ## Looking up in a list -/

/-- The entry that is found for an address. -/
def closest? (pc : UInt16) (lines : List LineNumber) : Option LineNumber :=
  (lines.filter (·.startPc ≤ pc)).foldl closer none

/-- The entries that begin at an address. -/
def startingAt (start : UInt16) (lines : List LineNumber) : List LineNumber :=
  lines.filter (·.startPc = start)

theorem lineAt?_eq_map_closest? (code : Code) (pc : UInt16) :
    code.lineAt? pc = (closest? pc code.lines).map LineNumber.line := rfl

theorem closest?_append_singleton :
    closest? pc (lines ++ [x]) =
      if x.startPc ≤ pc then closer (closest? pc lines) x else closest? pc lines := by
  rw [closest?, List.filter_append]
  by_cases hx : x.startPc ≤ pc <;> simp [closest?, hx]

theorem startingAt_append_singleton :
    startingAt start (lines ++ [x]) =
      if x.startPc = start then startingAt start lines ++ [x] else startingAt start lines := by
  rw [startingAt, List.filter_append]
  by_cases hx : x.startPc = start <;> simp [startingAt, hx]

theorem getLast?_startingAt_eq_some_iff :
    (startingAt start lines).getLast? = some e ↔ e.startPc = start ∧
      ∃ before after, lines = before ++ e :: after ∧ ∀ x ∈ after, x.startPc ≠ start := by
  rw [startingAt, List.getLast?_eq_head?_reverse, ← List.filter_reverse, List.head?_filter,
    List.find?_eq_some_iff_append]
  simp only [decide_eq_true_eq, Bool.not_eq_true', decide_eq_false_iff_not]
  refine and_congr_right fun _ ↦ ⟨?_, ?_⟩
  · rintro ⟨after, before, hlines, hafter⟩
    refine ⟨before.reverse, after.reverse, ?_, by simpa using hafter⟩
    rw [← List.reverse_reverse lines, hlines]
    simp
  · rintro ⟨before, after, rfl, hafter⟩
    exact ⟨after.reverse, before.reverse, by simp, by simpa using hafter⟩

theorem forall_mem_append_singleton {p : LineNumber → Prop} :
    (∀ y ∈ lines ++ [x], p y) ↔ (∀ y ∈ lines, p y) ∧ p x := by
  rw [List.forall_mem_append, List.forall_mem_singleton]

theorem closest?_eq_none_iff : closest? pc lines = none ↔ ∀ x ∈ lines, ¬ x.startPc ≤ pc := by
  induction lines using List.reverseRecOn with
  | nil => simp [closest?]
  | append_singleton lines x ih =>
    rw [closest?_append_singleton, forall_mem_append_singleton, ← ih]
    split
    · next hx =>
      refine iff_of_false ?_ fun h ↦ h.2 hx
      cases closest? pc lines with
      | none => simp [closer]
      | some b => by_cases hb : b.startPc ≤ x.startPc <;> simp [closer, hb]
    · next hx => exact (and_iff_left hx).symm

/-- What is found begins closest before the address, and it is the last entry that begins there. -/
theorem of_closest?_eq_some (h : closest? pc lines = some e) :
    e.startPc ≤ pc ∧ (∀ x ∈ lines, x.startPc ≤ pc → x.startPc ≤ e.startPc) ∧
      (startingAt e.startPc lines).getLast? = some e := by
  -- entries are looked at from the front, so the step is one more entry at the end
  induction lines using List.reverseRecOn generalizing e with
  | nil => cases h
  | append_singleton lines x ih =>
    have hlast : (startingAt x.startPc (lines ++ [x])).getLast? = some x := by
      rw [startingAt_append_singleton, if_pos rfl, List.getLast?_concat]
    rw [closest?_append_singleton] at h
    rw [forall_mem_append_singleton]
    split at h
    · next hx =>
      cases hfound : closest? pc lines with
      | none =>
        rw [hfound] at h
        cases h
        have hnone := closest?_eq_none_iff.mp hfound
        exact ⟨hx, ⟨fun y hy hle ↦ absurd hle (hnone y hy), fun _ ↦ UInt16.le_refl _⟩, hlast⟩
      | some b =>
        obtain ⟨hb, hgreatest, hlast'⟩ := ih hfound
        rw [hfound, closer] at h
        split at h
        · next hbx =>
          cases h
          exact ⟨hx, ⟨fun y hy hle ↦ UInt16.le_trans (hgreatest y hy hle) hbx,
            fun _ ↦ UInt16.le_refl _⟩, hlast⟩
        · next hbx =>
          cases h
          have hxb : x.startPc < e.startPc := UInt16.not_le.mp hbx
          refine ⟨hb, ⟨hgreatest, fun _ ↦ UInt16.le_of_lt hxb⟩, ?_⟩
          rw [startingAt_append_singleton, if_neg (UInt16.ne_of_lt hxb), hlast']
    · next hx =>
      obtain ⟨he, hgreatest, hlast'⟩ := ih h
      refine ⟨he, ⟨hgreatest, fun hle ↦ absurd hle hx⟩, ?_⟩
      rw [startingAt_append_singleton, if_neg fun heq : x.startPc = e.startPc ↦ hx (heq ▸ he),
        hlast']

/-- **What is found in a list of entries.** -/
theorem closest?_eq_some_iff : closest? pc lines = some e ↔ e.startPc ≤ pc ∧
    (∀ x ∈ lines, x.startPc ≤ pc → x.startPc ≤ e.startPc) ∧
      (startingAt e.startPc lines).getLast? = some e := by
  refine ⟨of_closest?_eq_some, fun ⟨he, hgreatest, hlast⟩ ↦ ?_⟩
  have hmem : e ∈ lines := List.mem_of_mem_filter (List.mem_of_getLast? hlast)
  cases hfound : closest? pc lines with
  | none => exact absurd he (closest?_eq_none_iff.mp hfound e hmem)
  | some b =>
    obtain ⟨hb, hgreatest', hlast'⟩ := of_closest?_eq_some hfound
    have hmem' : b ∈ lines := List.mem_of_mem_filter (List.mem_of_getLast? hlast')
    have heq : b.startPc = e.startPc :=
      UInt16.le_antisymm (hgreatest b hmem' hb) (hgreatest' e hmem he)
    rw [← hlast, ← heq, hlast']

/-- **Only the order among entries that begin together matters.** -/
theorem closest?_eq_of_startingAt_eq
    (h : ∀ start, startingAt start lines' = startingAt start lines) :
    closest? pc lines' = closest? pc lines := by
  have hmem (x : LineNumber) : x ∈ lines' ↔ x ∈ lines := by
    have hx : x ∈ startingAt x.startPc lines' ↔ x ∈ startingAt x.startPc lines := by rw [h]
    simpa [startingAt] using hx
  ext e
  simp only [closest?_eq_some_iff, h, hmem]

/-- Where no two entries begin together, there is no such order. -/
theorem startingAt_eq_of_perm (hperm : lines'.Perm lines)
    (hdistinct : (lines.map LineNumber.startPc).Nodup) (start : UInt16) :
    startingAt start lines' = startingAt start lines := by
  have hsame : (startingAt start lines').Perm (startingAt start lines) := hperm.filter _
  have hstarts : ((startingAt start lines).map LineNumber.startPc).Nodup :=
    hdistinct.sublist (List.filter_sublist.map _)
  have hstart (x : LineNumber) (hx : x ∈ startingAt start lines) : x.startPc = start := by
    simpa using List.of_mem_filter hx
  rcases hentries : startingAt start lines with _ | ⟨x, _ | ⟨y, rest⟩⟩ <;>
    rw [hentries] at hsame hstarts hstart
  · exact hsame.eq_nil
  · exact hsame.eq_singleton
  · have hxy : x.startPc = y.startPc := (hstart x (by simp)).trans (hstart y (by simp)).symm
    simp [hxy] at hstarts

/-! ## Looking up in the tables -/

/-- The entry that is found in all tables together is the one that decides. -/
theorem decides_iff : code.Decides pc e ↔ closest? pc code.lines = some e := by
  rw [closest?_eq_some_iff, getLast?_startingAt_eq_some_iff, lines_eq_flatten_tables]
  constructor
  · rintro ⟨he, hgreatest, earlier, before, after, later, htables, hlast⟩
    refine ⟨he, fun x hx ↦ ?_, rfl, earlier.flatten ++ before, after ++ later.flatten, ?_, hlast⟩
    · obtain ⟨table, htable, hx⟩ := List.mem_flatten.mp hx
      exact hgreatest table htable x hx
    · simp [htables]
  · rintro ⟨he, hgreatest, -, before, after, hlines, hlast⟩
    refine ⟨he, fun table htable x hx ↦ hgreatest x (List.mem_flatten.mpr ⟨table, htable, hx⟩), ?_⟩
    -- what stands before the entry ends with a table, or in the middle of one
    rcases List.flatten_eq_append_iff.mp hlines with
      ⟨earlier, later, htables, -, hrest⟩ | ⟨earlier, before', e', after', later, htables, -, hrest⟩
    · obtain ⟨empty, after', later', rfl, -, rfl⟩ := List.flatten_eq_cons_iff.mp hrest.symm
      exact ⟨earlier ++ empty, [], after', later', by simp [htables], hlast⟩
    · obtain ⟨rfl, rfl⟩ := List.cons.inj hrest
      exact ⟨earlier, before', after', later, htables, hlast⟩

theorem forall₂_tables {pool : Pool} {blocks : List (Attribute.Block pool)}
    {attributes : List CodeAttribute}
    (h : List.Forall₂ (fun block a ↦ Reads (CodeAttribute.decode pool) block.bytes a) blocks
      attributes) :
    List.Forall₂ (fun block table ↦ block.body = counted LineNumber.encode table)
      (blocks.filter (·.name = "LineNumberTable")) (attributes.filterMap CodeAttribute.table?) := by
  induction h with
  | nil => exact .nil
  | @cons block _ _ _ hfirst _ ih =>
    rw [List.filter_cons, List.filterMap_cons]
    cases CodeAttribute.meansInCode_of_reads hfirst with
    | lineNumberTable hname hbody => simpa [hname, CodeAttribute.table?] using ⟨hbody, ih⟩
    | skipped hname =>
      simpa [CodeAttribute.ne_of_mem_skippedNames hname, CodeAttribute.table?] using ih
    | unknown hname =>
      have hne : block.name ≠ "LineNumberTable" := fun heq ↦
        hname (CodeAttribute.mem_recognised_iff.mpr (.inl heq))
      simpa [hne, CodeAttribute.table?] using ih

/-- **The line of an address.** There is none exactly if every entry of every table begins after the
address; otherwise it is that of the entry that decides. The tables are those that have been
decoded, in this order. Another order of the entries makes no difference as long as those that begin
together keep theirs; in particular none does if no two begin together. A frame is on the line of
its address, as far as line numbers can express addresses. -/
theorem lineAt?_lawful (code : Code) (pc : UInt16) :
    (code.lineAt? pc = none ↔ ∀ table ∈ code.tables, ∀ e ∈ table, ¬ e.startPc ≤ pc) ∧
    (∀ line, code.lineAt? pc = some line ↔ ∃ e, code.Decides pc e ∧ e.line = line) ∧
    (∀ (pool : Pool) (input rest : Bytes), Code.decode pool input = .ok code rest →
      ∃ blocks : List (Attribute.Block pool),
        input = code.head ++ counted Attribute.Block.bytes blocks ++ rest ∧
          List.Forall₂ (fun block table ↦ block.body = counted LineNumber.encode table)
            (blocks.filter (·.name = "LineNumberTable")) code.tables) ∧
    (∀ code' : Code,
      ((∀ start, startingAt start code'.tables.flatten = startingAt start code.tables.flatten) →
        code'.lineAt? pc = code.lineAt? pc) ∧
      (code'.tables.flatten.Perm code.tables.flatten →
        (code.tables.flatten.map LineNumber.startPc).Nodup →
          code'.lineAt? pc = code.lineAt? pc)) ∧
    ∀ f : Frame, f.code = code →
      (f.pc = pc.toNat → f.line? = code.lineAt? pc) ∧ (65535 < f.pc → f.line? = none) := by
  have hreorder (code' : Code)
      (h : ∀ start, startingAt start code'.tables.flatten = startingAt start code.tables.flatten) :
      code'.lineAt? pc = code.lineAt? pc := by
    rw [lineAt?_eq_map_closest?, lines_eq_flatten_tables, closest?_eq_of_startingAt_eq h,
      ← lines_eq_flatten_tables, ← lineAt?_eq_map_closest?]
  refine ⟨?_, fun line ↦ ?_, fun pool input rest hdecode ↦ ?_, fun code' ↦ ⟨hreorder code',
    fun hperm hdistinct ↦ hreorder code' (startingAt_eq_of_perm hperm hdistinct)⟩, ?_⟩
  · rw [lineAt?_eq_map_closest?, Option.map_eq_none_iff, closest?_eq_none_iff,
      lines_eq_flatten_tables, List.forall_mem_flatten]
  · simp only [lineAt?_eq_map_closest?, Option.map_eq_some_iff, decides_iff]
  · obtain ⟨blocks, hinput, hblocks⟩ := Code.accepts_decode pool hdecode
    exact ⟨blocks, hinput, forall₂_tables hblocks⟩
  · rintro f rfl
    refine ⟨fun hpc ↦ ?_, fun hpc ↦ if_neg (Nat.not_lt.mpr hpc)⟩
    rw [Frame.line?, hpc, if_pos pc.toNat_lt, UInt16.ofNat_toNat]

/-- Code that has these tables, and nothing besides. -/
def ofTables (tables : List (List LineNumber)) : Code where
  maxStack := 0
  maxLocals := 0
  instructions := []
  exceptions := []
  attributes := tables.map .lineNumberTable

/-- Two tables out of order, with two entries that begin together in different tables; and two in
which no entries begin together, the second way round. -/
theorem lineAt?_lawful_twoTables :
    let pool : Pool := ⟨#[none, some (.utf8 "LineNumberTable".toUTF8.toList "LineNumberTable")]⟩
    let code := ofTables [[⟨8, 12⟩, ⟨0, 10⟩], [⟨4, 11⟩, ⟨0, 20⟩]]
    let input : Bytes := [0, 0, 0, 0, 0, 0, 0, 0, 0, 0, 0, 2,
      0, 1, 0, 0, 0, 10, 0, 2, 0, 8, 0, 12, 0, 0, 0, 10,
      0, 1, 0, 0, 0, 10, 0, 2, 0, 4, 0, 11, 0, 0, 0, 20]
    Code.decode pool input = .ok code [] ∧ code.lineAt? 3 = some 20 ∧
      (∃ blocks : List (Attribute.Block pool),
        input = code.head ++ counted Attribute.Block.bytes blocks ++ [] ∧
          List.Forall₂ (fun block table ↦ block.body = counted LineNumber.encode table)
            (blocks.filter (·.name = "LineNumberTable")) code.tables) ∧
      (ofTables [[⟨4, 11⟩], [⟨0, 10⟩, ⟨8, 12⟩]]).lineAt? 6 =
        (ofTables [[⟨8, 12⟩, ⟨0, 10⟩], [⟨4, 11⟩]]).lineAt? 6 := by
  intro pool code input
  have hdecode : Code.decode pool input = .ok code [] := by rfl
  have hdecides : code.Decides 3 ⟨0, 20⟩ :=
    ⟨by decide, by decide, [[⟨8, 12⟩, ⟨0, 10⟩]], [⟨4, 11⟩], [], [], rfl, by simp⟩
  obtain ⟨-, hline, htables, -⟩ := lineAt?_lawful code 3
  refine ⟨hdecode, (hline 20).mpr ⟨_, hdecides, rfl⟩, htables pool input [] hdecode, ?_⟩
  exact ((lineAt?_lawful (ofTables [[⟨8, 12⟩, ⟨0, 10⟩], [⟨4, 11⟩]]) 6).2.2.2.1 _).2
    (by decide) (by decide)

end Code

end JavaClass
