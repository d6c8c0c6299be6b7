import JavaClass.Proofs.Draft.Meaning
import JavaClass.Proofs.Pool.Resolution
import JavaClass.Proofs.Reading
import Mathlib.Data.List.ReduceOption

/-!
# Bytes and pools determine each other

A constant has only one form in which it is written: its tag, and then numbers of fixed width and
blocks whose length is known. So a constant is read exactly from what is written for it, and a table
exactly from what is written for the constants that fill it. Resolving keeps all that was read,
since it puts texts beside the indices and takes nothing away.

How many indices the constants of a pool take is part of the matter, since a pool ends by its count
and not by its bytes. A wide constant takes two, except that as the last one it may be left with the
only index that there still is.

## Main statements

* `RawPool.scan_eq_ok_iff`: what a table is scanned from.
* `Pool.decode_inverse_encode`: reading and writing are inverse to each other.
-/

namespace JavaClass

open Reader

/-! ## Constants -/

theorem Tag.byte_of_ofByte? {b : UInt8} {tag : Tag} (h : Tag.ofByte? b = some tag) :
    tag.byte = b := by
  rw [Tag.ofByte?.eq_def] at h
  split at h <;> cases h <;> rfl

namespace RawConstant

variable {c : RawConstant} {constants : List RawConstant} {input rest : Bytes} {index : UInt16}

theorem of_payload_eq_ok {tag : Tag} (h : payload tag input = .ok c rest) :
    c.tag = tag ∧ c.Fits ∧ input = c.payloadBytes ++ rest := by
  cases tag with
  | utf8 =>
    obtain ⟨length, mid, hlength, hblock⟩ := EStateM.bind_eq_ok_iff.mp h
    obtain ⟨bytes, hbytes, rfl⟩ := EStateM.map_eq_ok_iff.mp hblock
    obtain ⟨rfl, hsize⟩ := take_eq_ok_iff.mp hbytes
    obtain rfl := of_u16_eq_ok hlength
    have hfits : bytes.length < 0x10000 := hsize ▸ length.toNat_lt
    exact ⟨rfl, hfits, by rw [payloadBytes, hsize, List.append_assoc]⟩
  | integer =>
    obtain ⟨value, hvalue, rfl⟩ := EStateM.map_eq_ok_iff.mp h
    exact ⟨rfl, trivial, of_i32_eq_ok hvalue⟩
  | long =>
    obtain ⟨value, hvalue, rfl⟩ := EStateM.map_eq_ok_iff.mp h
    exact ⟨rfl, trivial, of_i64_eq_ok hvalue⟩
  | string =>
    obtain ⟨text, htext, rfl⟩ := EStateM.map_eq_ok_iff.mp h
    exact ⟨rfl, trivial, of_u16_eq_ok htext⟩
  | classRef =>
    obtain ⟨name, hname, rfl⟩ := EStateM.map_eq_ok_iff.mp h
    exact ⟨rfl, trivial, of_u16_eq_ok hname⟩
  | nameAndType =>
    obtain ⟨name, mid, hname, hrest⟩ := EStateM.bind_eq_ok_iff.mp h
    obtain ⟨descriptor, last, hdescriptor, ⟨⟩⟩ := EStateM.bind_eq_ok_iff.mp hrest
    obtain rfl := of_u16_eq_ok hname
    obtain rfl := of_u16_eq_ok hdescriptor
    exact ⟨rfl, trivial, (List.append_assoc _ _ _).symm⟩
  | member kind =>
    obtain ⟨owner, mid, howner, hrest⟩ := EStateM.bind_eq_ok_iff.mp h
    obtain ⟨description, last, hdescription, ⟨⟩⟩ := EStateM.bind_eq_ok_iff.mp hrest
    obtain rfl := of_u16_eq_ok howner
    obtain rfl := of_u16_eq_ok hdescription
    exact ⟨rfl, trivial, (List.append_assoc _ _ _).symm⟩
  | unsupported kind =>
    obtain ⟨data, hdata, rfl⟩ := EStateM.map_eq_ok_iff.mp h
    obtain ⟨rfl, hfits⟩ := take_eq_ok_iff.mp hdata
    exact ⟨rfl, hfits, rfl⟩

/-- **A constant is read exactly from what is written for it.** -/
theorem decode_eq_ok_iff :
    decode index input = .ok c rest ↔ c.Fits ∧ input = c.encode ++ rest := by
  constructor
  · intro h
    obtain ⟨byte, mid, hbyte, hpayload⟩ := EStateM.bind_eq_ok_iff.mp h
    obtain rfl := of_u8_eq_ok (Decoder.read_eq_ok_iff.mp hbyte)
    cases htag : Tag.ofByte? byte with
    | none =>
      rw [htag] at hpayload
      cases hpayload
    | some tag =>
      rw [htag] at hpayload
      obtain ⟨rfl, hfits, rfl⟩ := of_payload_eq_ok (Decoder.read_eq_ok_iff.mp hpayload)
      exact ⟨hfits, by rw [encode, Tag.byte_of_ofByte? htag, List.cons_append]⟩
  · rintro ⟨hfits, rfl⟩
    exact decode_encode hfits index rest

/-! ## Filling a table -/

/-- The constants fill `n` indices: they take so many, or one more, if the last of them is wide and
what it does not get is its second index. -/
def Fill (n : Nat) (constants : List RawConstant) : Prop :=
  slots constants = n ∨ slots constants = n + 1 ∧ ∃ c ∈ constants.getLast?, c.tag.isWide = true

theorem slots_cons (c : RawConstant) (constants : List RawConstant) :
    slots (c :: constants) = c.tag.slots + slots constants := rfl

theorem length_le_slots (constants : List RawConstant) : constants.length ≤ slots constants := by
  induction constants with
  | nil => exact Nat.le_refl 0
  | cons c constants ih =>
    rw [slots_cons, Tag.slots, List.length_cons]
    split <;> omega

theorem length_lt_slots (hc : c ∈ constants) (hwide : c.tag.isWide = true) :
    constants.length < slots constants := by
  induction constants with
  | nil => cases hc
  | cons d constants ih =>
    rw [slots_cons, Tag.slots, List.length_cons]
    have hle := length_le_slots constants
    rcases List.mem_cons.mp hc with rfl | hc
    · rw [if_pos hwide]
      omega
    · have hlt := ih hc
      split <;> omega

theorem Fill.length_le {n : Nat} (h : Fill n constants) : constants.length ≤ n := by
  rcases h with h | ⟨h, c, hc, hwide⟩
  · exact h ▸ length_le_slots constants
  · have hlt := length_lt_slots (List.mem_of_mem_getLast? hc) hwide
    omega

theorem fill_zero_iff : Fill 0 constants ↔ constants = [] := by
  constructor
  · exact fun h ↦ List.eq_nil_of_length_eq_zero (Nat.le_zero.mp h.length_le)
  · rintro rfl
    exact .inl rfl

/-- With one index left, a constant takes it whether it is wide or not. -/
theorem fill_one_iff : Fill 1 constants ↔ ∃ c, constants = [c] := by
  constructor
  · intro h
    have hle := h.length_le
    match constants with
    | [] => rcases h with h | ⟨h, _⟩ <;> cases h
    | [c] => exact ⟨c, rfl⟩
    | _ :: _ :: _ => simp at hle
  · rintro ⟨c, rfl⟩
    by_cases hwide : c.tag.isWide = true
    · exact .inr ⟨by simp [slots, Tag.slots, hwide], c, rfl, hwide⟩
    · exact .inl (by simp [slots, Tag.slots, hwide])

theorem fill_cons_iff {n : Nat} : Fill (n + 2) (c :: constants) ↔
    if c.tag.isWide then Fill n constants else Fill (n + 1) constants := by
  cases constants with
  | nil =>
    rw [Fill, Fill, Fill, slots_cons, Tag.slots]
    split
    · next hwide => simpa [slots, hwide] using eq_comm
    · next hwide => simp [slots, hwide]
  | cons d constants =>
    rw [Fill, Fill, Fill, slots_cons, Tag.slots, List.getLast?_cons_cons]
    split <;> exact or_congr (by omega) (and_congr_left fun _ ↦ by omega)

theorem not_fill_nil {n : Nat} : ¬ Fill (n + 1) [] := by
  rintro (h | ⟨h, _⟩) <;> cases h

theorem length_flatMap_spread (constants : List RawConstant) :
    (constants.flatMap spread).length = slots constants := by
  induction constants with
  | nil => rfl
  | cons c constants ih =>
    rw [List.flatMap_cons, List.length_append, ih, slots_cons, spread, Tag.slots]
    split <;> rfl

theorem reduceOption_flatMap_spread (constants : List RawConstant) :
    (constants.flatMap spread).reduceOption = constants := by
  induction constants with
  | nil => rfl
  | cons c constants ih =>
    rw [List.flatMap_cons, List.reduceOption_append, ih, spread]
    split <;> rfl

theorem Fill.reduceOption_take {n : Nat} (h : Fill n constants) :
    ((constants.flatMap spread).take n).reduceOption = constants := by
  have hlength := length_flatMap_spread constants
  rcases h with h | ⟨h, c, hc, hwide⟩
  · rw [List.take_of_length_le (by omega), reduceOption_flatMap_spread]
  · -- it is the second index of the last constant
    obtain ⟨before, rfl⟩ : ∃ before, before ++ [c] = constants :=
      ⟨_, List.dropLast_append_getLast? c hc⟩
    have hspread :
        (before ++ [c]).flatMap spread = before.flatMap spread ++ [some c] ++ [none] := by
      simp [spread, hwide]
    rw [hspread, List.length_append, List.length_singleton] at hlength
    have htake : n = (before.flatMap spread ++ [some c]).length := by omega
    rw [hspread, htake, List.take_left, List.reduceOption_append, reduceOption_flatMap_spread]
    rfl

end RawConstant

namespace RawPool

open RawConstant

variable {table done : RawPool} {constants : List RawConstant} {input rest : Bytes} {n : Nat}
  {count : UInt16}

/-- The table below `count` in which these constants follow each other, from index one on. -/
def layOut (count : UInt16) (constants : List RawConstant) : RawPool :=
  (none :: (constants.flatMap spread).take (count.toNat - 1)).toArray

/-- Where the constants take exactly the indices below the count, nothing is cut off. -/
theorem layOut_of_slots (h : count.toNat = slots constants + 1) :
    layOut count constants = ofConstants constants := by
  have hlength := length_flatMap_spread constants
  rw [layOut, ofConstants, List.take_of_length_le (by omega)]

theorem scanFrom_eq_ok_iff : scanFrom done n input = .ok table rest ↔
    ∃ constants, Fill n constants ∧ (∀ c ∈ constants, c.Fits) ∧
      input = constants.flatMap RawConstant.encode ++ rest ∧
        table = done ++ ((constants.flatMap spread).take n).toArray := by
  fun_induction scanFrom done n generalizing input with
  | case1 done =>
    simp only [fill_zero_iff]
    constructor
    · rintro ⟨⟩
      exact ⟨[], rfl, by simp⟩
    · rintro ⟨_, rfl, _, rfl, rfl⟩
      simp
  | case2 done =>
    simp only [fill_one_iff, EStateM.bind_eq_ok_iff, RawConstant.decode_eq_ok_iff]
    constructor
    · rintro ⟨c, mid, ⟨hfits, rfl⟩, ⟨⟩⟩
      refine ⟨[c], ⟨c, rfl⟩, by simpa using hfits, by simp, ?_⟩
      rw [List.flatMap_singleton, spread]
      split <;> simp
    · rintro ⟨_, ⟨c, rfl⟩, hfits, rfl, rfl⟩
      refine ⟨c, rest, ⟨by simpa using hfits, by simp⟩, ?_⟩
      rw [List.flatMap_singleton, spread]
      split <;> simp
  | case3 done n ihWide ih =>
    simp only [EStateM.bind_eq_ok_iff, RawConstant.decode_eq_ok_iff]
    -- what comes after the first constant, however many indices that one takes
    have hrest (c : RawConstant) (mid : Bytes) :
        (if c.tag.isWide then scanFrom ((done.push (some c)).push none) n
          else scanFrom (done.push (some c)) (n + 1)) mid = .ok table rest ↔
        ∃ constants, Fill (n + 2) (c :: constants) ∧ (∀ c ∈ constants, c.Fits) ∧
          mid = constants.flatMap RawConstant.encode ++ rest ∧
            table = done ++ (((c :: constants).flatMap spread).take (n + 2)).toArray := by
      by_cases hwide : c.tag.isWide = true
      · simp [fill_cons_iff, hwide, ihWide c, spread]
      · simp [fill_cons_iff, hwide, ih c, spread]
    constructor
    · rintro ⟨c, mid, ⟨hfits, rfl⟩, h⟩
      obtain ⟨constants, hfill, hall, rfl, rfl⟩ := (hrest c mid).mp h
      exact ⟨c :: constants, hfill, by simpa using ⟨hfits, hall⟩, by simp, rfl⟩
    · rintro ⟨constants, hfill, hfits, rfl, rfl⟩
      cases constants with
      | nil => exact absurd hfill not_fill_nil
      | cons c constants =>
        obtain ⟨hfirst, hall⟩ := List.forall_mem_cons.mp hfits
        exact ⟨c, _, ⟨hfirst, by simp⟩, (hrest c _).mpr ⟨constants, hfill, hall, rfl, rfl⟩⟩

/-- **A table is scanned exactly from what is written for the constants that fill it.** -/
theorem scan_eq_ok_iff : scan count input = .ok table rest ↔
    ∃ constants, Fill (count.toNat - 1) constants ∧ (∀ c ∈ constants, c.Fits) ∧
      input = constants.flatMap RawConstant.encode ++ rest ∧ table = layOut count constants := by
  have hfirst (constants : List RawConstant) :
      #[none] ++ ((constants.flatMap spread).take (count.toNat - 1)).toArray =
        layOut count constants := by
    rw [layOut, List.append_toArray, List.singleton_append]
  simp only [scan, scanFrom_eq_ok_iff, hfirst]

theorem reduceOption_layOut (h : Fill (count.toNat - 1) constants) :
    (layOut count constants).toList.reduceOption = constants :=
  h.reduceOption_take

/-! ## Entries -/

theorem entries_map_snd (table : RawPool) :
    table.entries.map (·.2) = table.toList.reduceOption := by
  have hslots : table.toList.zipIdx.map (·.1) = table.toList := List.zipIdx_map_fst 0 table.toList
  conv_rhs => rw [← hslots]
  simp [entries, List.map_filterMap, List.reduceOption, List.filterMap_map, Function.comp_def]

theorem encode_eq_flatMap (table : RawPool) :
    table.encode = table.toList.reduceOption.flatMap RawConstant.encode := by
  rw [RawPool.encode]
  generalize table.toList = slots
  induction slots with
  | nil => rfl
  | cons slot slots ih =>
    rw [List.flatMap_cons, ih]
    cases slot <;> rfl

end RawPool

namespace Pool

open RawConstant RawPool

theorem raw_meaning (table : RawPool) (c : RawConstant) : (c.meaning table).raw = c := by
  cases c <;> rfl

theorem entries_meaning (table : RawPool) : table.meaning.entries =
    table.entries.map fun (index, c) ↦ (index, c.meaning table) := by
  rw [Pool.entries, RawPool.meaning, RawPool.entries, Array.toList_map, List.zipIdx_map,
    List.filterMap_map, List.map_filterMap]
  refine List.filterMap_congr fun e _ ↦ ?_
  simp [Function.comp_def]

theorem entries_map_raw (table : RawPool) :
    table.meaning.entries.map (·.2.raw) = table.toList.reduceOption := by
  rw [entries_meaning, List.map_map, ← entries_map_snd]
  exact List.map_congr_left fun e _ ↦ raw_meaning table e.2

theorem encode_meaning (table : RawPool) : table.meaning.encode = table.encode := by
  rw [encode_eq_flatMap, ← entries_map_raw, List.flatMap_map]
  rfl

/-- A pool has come of a table in which every reference leads to what it needs. -/
theorem decode_eq_ok_iff {count : UInt16} {input rest : Bytes} {pool : Pool} :
    Pool.decode count input = .ok pool rest ↔
      ∃ table, scan count input = .ok table rest ∧ table.Resolvable ∧ table.meaning = pool := by
  constructor
  · intro h
    obtain ⟨table, mid, hscan, hresolve⟩ := EStateM.bind_eq_ok_iff.mp h
    have hsize := size_le_of_scan hscan
    by_cases hresolvable : table.Resolvable
    · rw [resolve_of_resolvable hsize hresolvable] at hresolve
      cases hresolve
      exact ⟨table, hscan, hresolvable, rfl⟩
    · obtain ⟨_, _, _, _, _, _, herror⟩ := resolve_of_not_resolvable hsize hresolvable
      rw [herror] at hresolve
      cases hresolve
  · rintro ⟨table, hscan, hresolvable, rfl⟩
    rw [decode_of_scan hscan, resolve_of_resolvable (size_le_of_scan hscan) hresolvable]

theorem mem_entries_meaning_iff {table : RawPool} (hsize : table.size ≤ 65536) {index : UInt16}
    {c : Constant} : (index, c) ∈ table.meaning.entries ↔ table.meaning.entry? index = some c := by
  rw [entries_meaning, List.mem_map, entry?_meaning, Option.map_eq_some_iff]
  constructor
  · rintro ⟨⟨_, raw⟩, hmem, ⟨⟩⟩
    exact ⟨raw, (mem_entries_iff hsize).mp hmem, rfl⟩
  · rintro ⟨raw, hraw, rfl⟩
    exact ⟨(index, raw), (mem_entries_iff hsize).mpr hraw, rfl⟩

/-- **The bytes of a pool and the pool determine each other.** If a pool comes of some bytes, then
these are what is written for its constants by ascending index, and what was left unread. And what
is written for constants that fill the indices below the count and refer to what they may refer to
is read, up to the last byte of them, as a pool of just these constants. -/
theorem decode_inverse_encode (count : UInt16) :
    (∀ input pool rest, Pool.decode count input = .ok pool rest →
      input = pool.encode ++ rest ∧ pool.entries.Pairwise (·.1 < ·.1) ∧
        ∀ index c, (index, c) ∈ pool.entries ↔ pool.entry? index = some c) ∧
    ∀ constants rest, (∀ c ∈ constants, c.Fits) → Fill (count.toNat - 1) constants →
      (layOut count constants).Resolvable →
        ∃ pool, Pool.decode count (constants.flatMap RawConstant.encode ++ rest) = .ok pool rest ∧
          pool.entries.map (·.2.raw) = constants := by
  constructor
  · intro input pool rest h
    obtain ⟨table, hscan, -, rfl⟩ := decode_eq_ok_iff.mp h
    have hsize := size_le_of_scan hscan
    obtain ⟨constants, hfill, -, rfl, rfl⟩ := scan_eq_ok_iff.mp hscan
    refine ⟨?_, ?_, fun _ _ ↦ mem_entries_meaning_iff hsize⟩
    · rw [encode_meaning, encode_eq_flatMap, reduceOption_layOut hfill]
    · rw [entries_meaning, List.pairwise_map]
      exact entries_pairwise_lt hsize
  · intro constants rest hfits hfill hresolvable
    have hscan : scan count (constants.flatMap RawConstant.encode ++ rest) =
        .ok (layOut count constants) rest :=
      scan_eq_ok_iff.mpr ⟨constants, hfill, hfits, rfl, rfl⟩
    refine ⟨_, decode_eq_ok_iff.mpr ⟨_, hscan, hresolvable, rfl⟩, ?_⟩
    rw [entries_map_raw, reduceOption_layOut hfill]

/-- A class before its name, and a 64-bit number that gets the last index of the pool. -/
theorem decode_inverse_encode_forward :
    ∃ pool, Pool.decode 4 [7, 0, 2, 1, 0, 1, 65, 5, 0, 0, 0, 0, 0, 0, 1, 0, 171, 205] =
        .ok pool [171, 205] ∧
      pool.entries.map (·.2.raw) = [.classRef 2, .utf8 [65], .long 256] ∧
      pool.encode = [7, 0, 2, 1, 0, 1, 65, 5, 0, 0, 0, 0, 0, 0, 1, 0] := by
  have hresolvable : (layOut 4 [.classRef 2, .utf8 [65], .long 256]).Resolvable :=
    (resolvable_iff (by decide)).mpr (by decide)
  obtain ⟨pool, hdecode, hraw⟩ := (decode_inverse_encode 4).2 [.classRef 2, .utf8 [65], .long 256]
    [171, 205] (by decide) (.inr ⟨by decide, _, rfl, rfl⟩) hresolvable
  have hbytes := ((decode_inverse_encode 4).1 _ _ _ hdecode).1
  exact ⟨pool, hdecode, hraw, (List.append_cancel_right hbytes).symm⟩

end Pool

end JavaClass
