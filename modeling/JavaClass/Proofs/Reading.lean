import JavaClass.ClassFile.Draft
import JavaClass.Proofs.Lookahead
import Mathlib.Data.List.Forall2

/-!
# Reading what has been written

A decoder reads some bytes as a value if it does so whatever comes after the bytes, and leaves that
alone. This is closed under everything that decoders are made of, and each step of the proof that a
format can be read takes the bytes of one part off the front: so the proof follows the layout.

Numbers and blocks have only one form in which they are written, so for these the converse holds as
well: what a reader has taken off the front of an input is what is written for the value.

## Main statements

* `EStateM.Reads.bind`: parts that follow each other.
* `Reader.number_eq_ok_iff`: numbers, in both directions.
* `Decoder.reads_counted`: repeated parts.
* `Attribute.reads_framed`: attributes.
-/

namespace EStateM

open JavaClass

variable {ε α β : Type} {bytes bytes' : Bytes} {a : α} {b : β}

/-- The bytes are read as `a`, and what comes after them is left. -/
def Reads (read : EStateM ε Bytes α) (bytes : Bytes) (a : α) : Prop :=
  ∀ rest, read (bytes ++ rest) = .ok a rest

theorem Reads.unique {read : EStateM ε Bytes α} {b : α} (h : Reads read bytes a)
    (h' : Reads read bytes b) : a = b :=
  (Result.ok.inj ((h []).symm.trans (h' []))).1

theorem reads_pure (a : α) : Reads (pure a : EStateM ε Bytes α) [] a := fun _ ↦ rfl

/-- What comes first is read, and the run goes on behind it. -/
theorem Reads.bind_append {read : EStateM ε Bytes α} (h : Reads read bytes a)
    (next : α → EStateM ε Bytes β) (rest : Bytes) :
    (read >>= next) (bytes ++ rest) = next a rest := by
  rw [bind_apply, h]

theorem Reads.bind {read : EStateM ε Bytes α} {next : α → EStateM ε Bytes β}
    (h : Reads read bytes a) (hnext : Reads (next a) bytes' b) :
    Reads (read >>= next) (bytes ++ bytes') b := by
  intro rest
  rw [List.append_assoc, h.bind_append]
  exact hnext rest

theorem Reads.bind_last {read : EStateM ε Bytes α} {next : α → EStateM ε Bytes β}
    (h : Reads read bytes a) (hnext : Reads (next a) [] b) : Reads (read >>= next) bytes b := by
  rw [← List.append_nil bytes]
  exact h.bind hnext

theorem Reads.map {read : EStateM ε Bytes α} (h : Reads read bytes a) (f : α → β) :
    Reads (f <$> read) bytes (f a) := by
  intro rest
  rw [map_apply, h]

end EStateM

namespace JavaClass

open EStateM Bytes

variable {α β : Type} {bytes bytes' : Bytes} {a : α} {b : β}

/-! ## Numbers and blocks -/

theorem Bytes.ofNat_bigEndian (bytes : Bytes) : ofNat bytes.length (bigEndian bytes) = bytes := by
  -- the last digit comes off first
  suffices h : ∀ reversed : Bytes, ofNat reversed.length (bigEndian reversed.reverse) =
      reversed.reverse by simpa using h bytes.reverse
  intro reversed
  induction reversed with
  | nil => rfl
  | cons byte reversed ih =>
    have hlt := byte.toNat_lt
    have hhigh : (bigEndian reversed.reverse * 256 + byte.toNat) / 256 =
        bigEndian reversed.reverse := by omega
    have hlow : UInt8.ofNat (bigEndian reversed.reverse * 256 + byte.toNat) = byte := by
      rw [← UInt8.toNat_inj, UInt8.toNat_ofNat']
      omega
    rw [List.reverse_cons, List.length_cons, bigEndian_append_singleton, ofNat, hhigh, hlow, ih]

theorem Bytes.exists_ofNat_append {width : Nat} {input : Bytes} (h : width ≤ input.length) :
    ∃ n rest, n < limit width ∧ input = ofNat width n ++ rest := by
  have hlength : (input.take width).length = width := List.length_take_of_le h
  have hlt := bigEndian_lt (input.take width)
  have hdigits := ofNat_bigEndian (input.take width)
  rw [hlength] at hlt hdigits
  exact ⟨_, input.drop width, hlt, by rw [hdigits, List.take_append_drop]⟩

namespace Reader

theorem reads_u16 (n : UInt16) : Reads u16 (ofWord n) n := by
  intro rest
  rw [ofWord, u16_ofNat, UInt16.ofNat_toNat]

theorem reads_take (block : Bytes) : Reads (take block.length) block block := take_append block

variable {input rest block : Bytes}

theorem take_eq_ok_iff {n : Nat} :
    take n input = .ok block rest ↔ input = block ++ rest ∧ block.length = n := by
  constructor
  · intro h
    rcases Nat.lt_or_ge input.length n with hlt | hle
    · rw [take_of_lt hlt] at h
      cases h
    · rw [take_of_le hle] at h
      cases h
      simp [Nat.min_eq_left hle]
  · rintro ⟨rfl, rfl⟩
    exact take_append block rest

theorem number_eq_ok_iff {width n : Nat} :
    number width input = .ok n rest ↔ input = ofNat width n ++ rest ∧ n < limit width := by
  rw [number, map_eq_ok_iff]
  constructor
  · rintro ⟨block, htake, rfl⟩
    obtain ⟨rfl, rfl⟩ := take_eq_ok_iff.mp htake
    exact ⟨by rw [ofNat_bigEndian], bigEndian_lt block⟩
  · rintro ⟨rfl, hlt⟩
    refine ⟨ofNat width n, take_eq_ok_iff.mpr ⟨rfl, length_ofNat width n⟩, ?_⟩
    rw [bigEndian_ofNat, Nat.mod_eq_of_lt hlt]

theorem of_u8_eq_ok {n : UInt8} (h : u8 input = .ok n rest) : input = n :: rest := by
  obtain ⟨k, hk, rfl⟩ := map_eq_ok_iff.mp h
  obtain ⟨rfl, _⟩ := number_eq_ok_iff.mp hk
  rfl

theorem of_u16_eq_ok {n : UInt16} (h : u16 input = .ok n rest) :
    input = ofNat 2 n.toNat ++ rest := by
  obtain ⟨k, hk, rfl⟩ := map_eq_ok_iff.mp h
  obtain ⟨rfl, hlt⟩ := number_eq_ok_iff.mp hk
  rw [UInt16.toNat_ofNat_of_lt' hlt]

theorem of_u32_eq_ok {n : UInt32} (h : u32 input = .ok n rest) :
    input = ofNat 4 n.toNat ++ rest := by
  obtain ⟨k, hk, rfl⟩ := map_eq_ok_iff.mp h
  obtain ⟨rfl, hlt⟩ := number_eq_ok_iff.mp hk
  rw [UInt32.toNat_ofNat_of_lt' hlt]

theorem of_i32_eq_ok {n : Int32} (h : i32 input = .ok n rest) :
    input = ofNat 4 n.toUInt32.toNat ++ rest := by
  obtain ⟨k, hk, rfl⟩ := map_eq_ok_iff.mp h
  obtain ⟨rfl, hlt⟩ := number_eq_ok_iff.mp hk
  have hdigits : (Int32.ofNat k).toUInt32.toNat = k := UInt32.toNat_ofNat_of_lt' hlt
  rw [hdigits]

theorem of_i64_eq_ok {n : Int64} (h : i64 input = .ok n rest) :
    input = ofNat 8 n.toUInt64.toNat ++ rest := by
  obtain ⟨k, hk, rfl⟩ := map_eq_ok_iff.mp h
  obtain ⟨rfl, hlt⟩ := number_eq_ok_iff.mp hk
  have hdigits : (Int64.ofNat k).toUInt64.toNat = k := UInt64.toNat_ofNat_of_lt' hlt
  rw [hdigits]

end Reader

open Reader

/-! ## Parts of decoders -/

namespace Decoder

theorem reads_lift {read : Reader α} (h : Reads read bytes a) :
    Reads (liftM read : Decoder α) bytes a :=
  fun rest ↦ read_eq_ok_iff.mpr (h rest)

theorem reads_check {check : Except DecodeError α} (h : check = .ok a) :
    Reads (liftM check : Decoder α) [] a :=
  fun _ ↦ check_eq_ok_iff.mpr ⟨h, rfl⟩

theorem reads_check_bind {check : Except DecodeError α} {next : α → Decoder β}
    (h : check = .ok a) (hnext : Reads (next a) bytes b) :
    Reads ((liftM check : Decoder α) >>= next) bytes b := (reads_check h).bind hnext

theorem reads_collect {item : Nat → Decoder β} {write : α → Bytes} {items : List α}
    {values : List β}
    (h : List.Forall₂ (fun a b ↦ ∀ position, Reads (item position) (write a) b) items values)
    (done : Array β) :
    Reads (collect item done items.length) (items.flatMap write) (done ++ values.toArray) := by
  induction h generalizing done with
  | nil => simpa [collect] using reads_pure done
  | @cons a b items values hfirst _ ih =>
    have hdone : done ++ (b :: values).toArray = done.push b ++ values.toArray := by simp
    rw [hdone]
    exact (hfirst done.size).bind (ih (done.push b))

theorem reads_counted_of_forall₂ {item : Nat → Decoder β} {write : α → Bytes} {items : List α}
    {values : List β} (hlength : items.length < 0x10000)
    (h : List.Forall₂ (fun a b ↦ ∀ position, Reads (item position) (write a) b) items values) :
    Reads (counted item) (Bytes.counted write items) values := by
  have hcount : (UInt16.ofNat items.length).toNat = items.length :=
    UInt16.toNat_ofNat_of_lt' hlength
  have hitems := reads_collect h #[]
  rw [← hcount, Array.empty_append] at hitems
  refine (reads_lift (u16_ofNat items.length)).bind (hitems.bind_last ?_)
  exact reads_pure _

theorem reads_counted {item : Nat → Decoder β} {write : α → Bytes} {value : α → β}
    {items : List α} (hlength : items.length < 0x10000)
    (h : ∀ position, ∀ a ∈ items, Reads (item position) (write a) (value a)) :
    Reads (counted item) (Bytes.counted write items) (items.map value) := by
  refine reads_counted_of_forall₂ hlength (List.forall₂_map_right_iff.mpr ?_)
  exact List.forall₂_same.mpr fun a ha position ↦ h position a ha

end Decoder

open Decoder

/-! ## Attributes -/

namespace Attribute

/-- Contents that take up the whole body. -/
theorem exactly_of_reads {inner : Decoder α} {body : Bytes} (h : Reads inner body a)
    (name : String) : exactly name inner body = .ok a := by
  have hrun := h []
  rw [List.append_nil] at hrun
  rw [exactly, hrun]

theorem reads_framed {Body : Type} {write : Body → Bytes} {d : AttributeDraft Body} {pool : Pool}
    {contents : String → Bytes → Except DecodeError α} {name : Symbol}
    (hname : pool.requireText .attributeName d.nameIndex = .ok name)
    (hlength : (write d.body).length < 0x100000000)
    (hcontents : contents name.text (write d.body) = .ok a) :
    Reads (framed pool contents) (d.encode write) a := by
  have hcount : (UInt32.ofNat (write d.body).length).toNat = (write d.body).length :=
    UInt32.toNat_ofNat_of_lt' hlength
  have hbody : Reads (take (UInt32.ofNat (write d.body).length).toNat) (write d.body)
      (write d.body) := by
    rw [hcount]
    exact reads_take _
  rw [AttributeDraft.encode, List.append_assoc]
  refine (reads_lift (reads_u16 d.nameIndex)).bind ?_
  refine (reads_lift (u32_ofNat (write d.body).length)).bind ?_
  refine reads_check_bind hname ?_
  exact (reads_lift hbody).bind_last (reads_check hcontents)

end Attribute

end JavaClass
