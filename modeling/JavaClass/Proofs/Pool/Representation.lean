import JavaClass.Proofs.Pool.Encoding

/-!
# What a pool looks like that has been read

A pool is filled in two halves, and each of them contributes to what can be relied on afterwards.
The scan decides which indices have a constant: all but index zero and the ones that follow a 64-bit
number. This is an invariant of the table while it grows (`RawPool.Spaced`); one more slot keeps it
if the slot is left empty just where the last constant takes two indices. Resolving then puts a
string beside each index, and as the pool is the meaning of its table, that is the string which the
index still leads to in the finished pool.

## Main statements

* `RawPool.spaced_scan`: which slots a scan leaves empty.
* `Pool.wellFormed_of_decode`: the form of every pool that is read.
-/

namespace JavaClass

/-! ## The form of a pool -/

namespace Constant

/-- The 64-bit numbers. -/
def IsWide : Constant → Prop
  | long _ | unsupported .double _ => True
  | _ => False

/-- The strings in a constant are those that its bytes and its indices stand for. -/
def AgreesWith (pool : Pool) : Constant → Prop
  | utf8 bytes text => text = readText bytes
  | string text => pool.text? text.index = some text.text
  | classRef name => pool.text? name.index = some name.text
  | nameAndType name descriptor =>
    pool.text? name.index = some name.text ∧ pool.text? descriptor.index = some descriptor.text
  | member _ owner description name descriptor =>
    pool.className? owner.index = some owner.text ∧
      ∃ n d, pool.entry? description = some (.nameAndType n d) ∧ n.text = name ∧ d.text = descriptor
  | integer _ | long _ | unsupported .. => True

end Constant

namespace Pool

/-- The index is the one after that of a 64-bit number. -/
def FollowsWide (pool : Pool) (index : UInt16) : Prop :=
  ∃ before c, pool.entry? before = some c ∧ c.IsWide ∧ index.toNat = before.toNat + 1

/-- The form of the pools with this count. -/
structure WellFormed (pool : Pool) (count : UInt16) : Prop where
  size_eq : pool.size = max count.toNat 1
  entry?_zero : pool.entry? 0 = none
  /-- The second index of a 64-bit number has no constant. -/
  entry?_of_followsWide : ∀ index, pool.FollowsWide index → pool.entry? index = none
  /-- Every other index has one. -/
  exists_entry? : ∀ index, 0 < index → index < count → ¬ pool.FollowsWide index →
    ∃ c, pool.entry? index = some c
  agrees : ∀ index c, pool.entry? index = some c → c.AgreesWith pool

end Pool

/-! ## Which slots are empty -/

namespace RawPool

variable {table done : RawPool} {i : Nat}

/-- No constant begins at this position: it is zero, or the one before has a wide constant. -/
def Skips (table : RawPool) (i : Nat) : Prop :=
  i = 0 ∨ ∃ c, table[i - 1]? = some (some c) ∧ c.tag.isWide = true

/-- The slots without a constant are those at which none begins. -/
def Spaced (table : RawPool) : Prop :=
  ∀ i < table.size, table[i]? = some none ↔ table.Skips i

theorem skips_push_iff {slot : Option RawConstant} (hi : i ≤ table.size) :
    Skips (table.push slot) i ↔ table.Skips i := by
  refine or_congr_right' fun hzero ↦ ?_
  rw [Array.getElem?_push, if_neg (by omega)]

theorem Spaced.push {slot : Option RawConstant} (h : table.Spaced)
    (hslot : slot = none ↔ table.Skips table.size) : Spaced (table.push slot) := by
  intro i hi
  rw [Array.size_push] at hi
  rw [skips_push_iff (by omega), Array.getElem?_push]
  split
  · next hlast =>
    rw [hlast, Option.some_inj, hslot]
  · exact h i (by omega)

theorem skips_size_push_iff {slot : Option RawConstant} :
    Skips (table.push slot) (table.size + 1) ↔ ∃ c, slot = some c ∧ c.tag.isWide = true := by
  simp [Skips]

theorem spaced_scanFrom {n : Nat} {input rest : Bytes} (h : scanFrom done n input = .ok table rest)
    (hdone : done.Spaced) (hnext : 0 < n → ¬ done.Skips done.size) : table.Spaced := by
  fun_induction scanFrom done n generalizing input with
  | case1 done =>
    cases h
    exact hdone
  | case2 done =>
    obtain ⟨c, mid, _, ⟨⟩⟩ := EStateM.bind_eq_ok_iff.mp h
    exact hdone.push (by simpa using hnext Nat.one_pos)
  | case3 done n ihWide ih =>
    obtain ⟨c, mid, _, h⟩ := EStateM.bind_eq_ok_iff.mp h
    have hfirst : Spaced (done.push (some c)) :=
      hdone.push (by simpa using hnext (Nat.succ_pos _))
    split at h
    · next hwide =>
      -- the slot after a wide constant is skipped, and the one after that is not
      refine ihWide c h (hfirst.push ?_) fun _ ↦ ?_
      · rw [Array.size_push, skips_size_push_iff]
        simpa using hwide
      · rw [Array.size_push, skips_size_push_iff]
        simp
    · next hnarrow =>
      refine ih c h hfirst fun _ ↦ ?_
      rw [Array.size_push, skips_size_push_iff]
      simpa using hnarrow

/-- **What a scan leaves empty.** These are the slot at zero and the ones after wide constants. -/
theorem spaced_scan {count : UInt16} {input rest : Bytes} (h : scan count input = .ok table rest) :
    table.Spaced := by
  refine spaced_scanFrom h ?_ fun _ ↦ ?_
  · intro i hi
    obtain rfl : i = 0 := by simpa using hi
    simp [Skips]
  · simp [Skips]

theorem raw?_eq_none_iff {index : UInt16} (h : table.Spaced) (hindex : index.toNat < table.size) :
    table.raw? index = none ↔ table.Skips index.toNat := by
  rw [← h _ hindex, raw?, Array.getElem?_eq_getElem hindex]
  simp

end RawPool

/-! ## The meaning of a table -/

namespace RawConstant

variable {table : RawPool} {c : RawConstant}

theorem isWide_meaning_iff : (c.meaning table).IsWide ↔ c.tag.isWide = true := by
  cases c with
  | unsupported kind payload =>
    cases kind <;> simp [meaning, Constant.IsWide, tag, Tag.isWide]
  | _ => simp [meaning, Constant.IsWide, tag, Tag.isWide]

/-- Where each reference leads to what it needs, the pool has the string that was looked up. -/
theorem agreesWith_meaning (h : c.Resolves table) :
    (c.meaning table).AgreesWith table.meaning := by
  cases c with
  | string text => exact Pool.text?_meaning h
  | classRef name => exact Pool.text?_meaning h
  | nameAndType name descriptor => exact ⟨Pool.text?_meaning h.1, Pool.text?_meaning h.2⟩
  | member kind owner description =>
    refine ⟨Pool.className?_meaning h.1, ?_⟩
    obtain ⟨d, hd, htag⟩ := RawPool.tag?_eq_some_iff.mp h.2
    cases d with
    | nameAndType name descriptor =>
      refine ⟨table.symbol name, table.symbol descriptor, ?_, ?_, ?_⟩
      · rw [Pool.entry?_meaning, hd]
        rfl
      · simp [hd, RawPool.symbol]
      · simp [hd, RawPool.symbol]
    | _ => cases htag
  | utf8 bytes => exact rfl
  | _ => trivial

end RawConstant

namespace Pool

open RawPool

variable {table : RawPool} {index : UInt16}

theorem skips_iff : table.Skips index.toNat ↔ index = 0 ∨ table.meaning.FollowsWide index := by
  rw [Skips, ← UInt16.toNat_inj]
  refine or_congr_right' fun hzero ↦ ⟨?_, ?_⟩
  · rintro ⟨c, hc, hwide⟩
    have hbefore : (UInt16.ofNat (index.toNat - 1)).toNat = index.toNat - 1 :=
      UInt16.toNat_ofNat_of_lt' (Nat.lt_of_le_of_lt (Nat.sub_le _ _) index.toNat_lt)
    have hraw : table.raw? (UInt16.ofNat (index.toNat - 1)) = some c := by
      rw [raw?, hbefore, hc]
      rfl
    refine ⟨UInt16.ofNat (index.toNat - 1), c.meaning table, ?_, ?_, ?_⟩
    · rw [entry?_meaning, hraw]
      rfl
    · exact RawConstant.isWide_meaning_iff.mpr hwide
    · rw [hbefore]
      exact (Nat.sub_add_cancel (Nat.pos_of_ne_zero hzero)).symm
  · rintro ⟨before, d, hd, hwide, hindex⟩
    rw [entry?_meaning, Option.map_eq_some_iff] at hd
    obtain ⟨c, hc, rfl⟩ := hd
    rw [hindex, Nat.add_sub_cancel]
    exact ⟨c, Option.join_eq_some_iff.mp hc, RawConstant.isWide_meaning_iff.mp hwide⟩

theorem entry?_meaning_eq_none_iff (h : table.Spaced) (hindex : index.toNat < table.size) :
    table.meaning.entry? index = none ↔ index = 0 ∨ table.meaning.FollowsWide index := by
  rw [entry?_meaning, Option.map_eq_none_iff, raw?_eq_none_iff h hindex, skips_iff]

theorem entry?_meaning_of_le (hindex : table.size ≤ index.toNat) :
    table.meaning.entry? index = none := by
  rw [entry?_meaning, raw?, Array.getElem?_eq_none hindex]
  rfl

theorem agreesWith_of_decode {count : UInt16} {input rest : Bytes} {pool : Pool}
    (h : Pool.decode count input = .ok pool rest) {c : Constant}
    (hc : pool.entry? index = some c) : c.AgreesWith pool := by
  obtain ⟨table, _, hresolvable, rfl⟩ := decode_eq_ok_iff.mp h
  rw [entry?_meaning, Option.map_eq_some_iff] at hc
  obtain ⟨c, hc, rfl⟩ := hc
  exact RawConstant.agreesWith_meaning (hresolvable index c hc)

/-- **The form of a pool.** Whatever bytes a pool is read from, it has as many indices as its count
says. The ones without a constant are zero and the second index of each 64-bit number. The strings
in its constants are those that the indices beside them lead to. -/
theorem wellFormed_of_decode {count : UInt16} {input rest : Bytes} {pool : Pool}
    (h : Pool.decode count input = .ok pool rest) : pool.WellFormed count := by
  obtain ⟨table, hscan, -, rfl⟩ := decode_eq_ok_iff.mp h
  have hsize := size_of_scan hscan
  have hspaced := spaced_scan hscan
  have hzero : (0 : UInt16).toNat < table.size := by simp [hsize]
  refine ⟨by rw [size_meaning, hsize], ?_, fun index hfollows ↦ ?_, fun index hpos hlt hnot ↦ ?_,
    fun index c hc ↦ agreesWith_of_decode h hc⟩
  · exact (entry?_meaning_eq_none_iff hspaced hzero).mpr (.inl rfl)
  · rcases Nat.lt_or_ge index.toNat table.size with hindex | hindex
    · exact (entry?_meaning_eq_none_iff hspaced hindex).mpr (.inr hfollows)
    · exact entry?_meaning_of_le hindex
  · have hindex : index.toNat < table.size := by
      rw [hsize]
      exact Nat.lt_of_lt_of_le (UInt16.lt_iff_toNat_lt.mp hlt) (Nat.le_max_left _ _)
    have hne : index ≠ 0 := by
      rintro rfl
      exact absurd hpos (by decide)
    rw [← Option.ne_none_iff_exists', Ne, entry?_meaning_eq_none_iff hspaced hindex]
    exact not_or.mpr ⟨hne, hnot⟩

/-- A field before its class and its type, these before their strings, then a `long`, and last a
`double` that has only one index. -/
def fieldFirst : Bytes :=
  [9, 0, 2, 0, 3, 7, 0, 4, 12, 0, 4, 0, 5, 1, 0, 1, 65, 1, 0, 1, 73, 5, 0, 0, 0, 0, 0, 0, 0, 9,
    6, 64, 9, 0, 0, 0, 0, 0, 0]

theorem wellFormed_of_decode_fieldFirst : ∃ pool, Pool.decode 9 fieldFirst = .ok pool [] ∧
    pool.WellFormed 9 ∧ pool.FollowsWide 7 ∧ pool.entry? 7 = none ∧
      pool.entry? 1 = some (.member .field ⟨2, "A"⟩ 3 "A" "I") := by
  have hread : ∃ r ∈ (Pool.decode 9 fieldFirst).ok?, r.2 = [] ∧ Pool.entry? r.1 6 = some (.long 9) ∧
      Pool.entry? r.1 1 = some (.member .field ⟨2, "A"⟩ 3 "A" "I") := by decide +kernel
  obtain ⟨⟨pool, _⟩, hpool, rfl, hlong, hfield⟩ := hread
  have hpool := EStateM.Result.ok?_eq_some_iff.mp hpool
  have hfollows : pool.FollowsWide 7 := ⟨6, .long 9, hlong, trivial, rfl⟩
  have hform := wellFormed_of_decode hpool
  exact ⟨pool, hpool, hform, hfollows, hform.entry?_of_followsWide 7 hfollows, hfield⟩

end Pool

end JavaClass
