import JavaClass.Proofs.Run
import JavaClass.Proofs.Text.Utf16
import JavaClass.Text.ModifiedUtf8

/-!
# The sequences of modified UTF-8

Bytes that can be read fall into sequences, each of which spells one unit. A `Sequence` has the
bounds of its bytes with it, so that a list of sequences is just what is well formed at this level,
and `units_eq_ok_iff` says that nothing else is read. The first byte tells how long a sequence is,
so there is only one way in which bytes fall into sequences.

A unit can be spelled in up to three ways. The one that is written is `Sequence.ofUnit`; a sequence
that is longer than this is overlong.
-/

namespace JavaClass

/-! ## Bytes as numbers -/

theorem toNat_byteOfNat {n : Nat} (h : n < 0x100) : (UInt8.ofNat n).toNat = n :=
  UInt8.toNat_ofNat_of_lt' h

theorem byteOfNat_le_byteOfNat {k n : Nat} (h : k ≤ n) (hn : n < 0x100) :
    UInt8.ofNat k ≤ UInt8.ofNat n := by
  rw [UInt8.le_iff_toNat_le, toNat_byteOfNat hn, toNat_byteOfNat (by omega)]
  exact h

theorem byteOfNat_lt_byteOfNat {k n : Nat} (h : k < n) (hn : n < 0x100) :
    UInt8.ofNat k < UInt8.ofNat n := by
  rw [UInt8.lt_iff_toNat_lt, toNat_byteOfNat hn, toNat_byteOfNat (by omega)]
  exact h

namespace ModifiedUtf8

/-! ## Sequences -/

/-- The bytes that spell one unit. -/
inductive Sequence where
  | one (b : UInt8) (range : 0 < b ∧ b < 0x80)
  | two (lead low : UInt8) (range : 0xC0 ≤ lead ∧ lead < 0xE0) (follow : isContinuation low = true)
  | three (lead mid low : UInt8) (range : 0xE0 ≤ lead ∧ lead < 0xF0)
    (follow : isContinuation mid = true ∧ isContinuation low = true)

theorem isContinuation_iff {b : UInt8} :
    isContinuation b = true ↔ 0x80 ≤ b.toNat ∧ b.toNat < 0xC0 := by
  simp [isContinuation, UInt8.le_iff_toNat_le, UInt8.lt_iff_toNat_lt]

theorem toNat_unitOfTwo (lead low : UInt8) :
    (unitOfTwo lead low).toNat = lead.toNat % 32 * 64 + low.toNat % 64 :=
  UInt16.toNat_ofNat_of_lt' (by simp only [UInt16.size]; omega)

theorem toNat_unitOfThree (lead mid low : UInt8) : (unitOfThree lead mid low).toNat =
    lead.toNat % 16 * 4096 + mid.toNat % 64 * 64 + low.toNat % 64 :=
  UInt16.toNat_ofNat_of_lt' (by simp only [UInt16.size]; omega)

/-- The bytes with which a sequence of this form starts. -/
def Form.Leads (lead : UInt8) : Form → Prop
  | .one => 0 < lead ∧ lead < 0x80
  | .two => 0xC0 ≤ lead ∧ lead < 0xE0
  | .three => 0xE0 ≤ lead ∧ lead < 0xF0

theorem Form.ofLead?_eq_some_iff {lead : UInt8} {form : Form} :
    ofLead? lead = some form ↔ form.Leads lead := by
  cases form <;> simp only [ofLead?, Leads] <;> grind

namespace Sequence

def bytes : Sequence → Bytes
  | one b _ => [b]
  | two lead low _ _ => [lead, low]
  | three lead mid low _ _ => [lead, mid, low]

/-- The unit that the bytes spell. -/
def unit : Sequence → UInt16
  | one b _ => b.toUInt16
  | two lead low _ _ => unitOfTwo lead low
  | three lead mid low _ _ => unitOfThree lead mid low

end Sequence

/-! ## Reading -/

variable {read us : List UInt16} {offset : Nat} {d : Bytes}

theorem unitsAfter_bytes (q : Sequence) (read : List UInt16) (offset : Nat) (rest : Bytes) :
    unitsAfter read offset (q.bytes ++ rest) =
      unitsAfter (q.unit :: read) (offset + q.bytes.length) rest := by
  cases q with
  | one b range =>
    have hform : Form.ofLead? b = some .one := Form.ofLead?_eq_some_iff.mpr range
    rw [Sequence.bytes, List.singleton_append, unitsAfter.eq_def]
    simp only [hform]
    rfl
  | two lead low range follow =>
    have hform : Form.ofLead? lead = some .two := Form.ofLead?_eq_some_iff.mpr range
    rw [Sequence.bytes, List.cons_append, List.singleton_append, unitsAfter.eq_def]
    simp only [hform, follow, if_true]
    rfl
  | three lead mid low range follow =>
    have hform : Form.ofLead? lead = some .three := Form.ofLead?_eq_some_iff.mpr range
    rw [Sequence.bytes, List.cons_append, List.cons_append, List.singleton_append,
      unitsAfter.eq_def]
    simp only [hform, follow.1, follow.2, if_true]
    rfl

/-- Reading goes on behind the sequences at the front. -/
theorem unitsAfter_flatMap_append (sequences : List Sequence) (read : List UInt16) (offset : Nat)
    (rest : Bytes) : unitsAfter read offset (sequences.flatMap Sequence.bytes ++ rest) =
      unitsAfter ((sequences.map Sequence.unit).reverse ++ read)
        (offset + (sequences.flatMap Sequence.bytes).length) rest := by
  induction sequences generalizing read offset with
  | nil => rfl
  | cons q sequences ih =>
    rw [List.flatMap_cons, List.append_assoc, unitsAfter_bytes, ih]
    simp [Nat.add_assoc]

theorem unitsAfter_flatMap (sequences : List Sequence) (read : List UInt16) (offset : Nat) :
    unitsAfter read offset (sequences.flatMap Sequence.bytes) =
      .ok (read.reverse ++ sequences.map Sequence.unit) := by
  simpa [unitsAfter] using unitsAfter_flatMap_append sequences read offset []

theorem exists_flatMap_cons (q : Sequence) {rest : Bytes}
    (h : ∃ sequences : List Sequence, sequences.flatMap Sequence.bytes = rest ∧
      (q.unit :: read).reverse ++ sequences.map Sequence.unit = us) :
    ∃ sequences : List Sequence, sequences.flatMap Sequence.bytes = q.bytes ++ rest ∧
      read.reverse ++ sequences.map Sequence.unit = us := by
  obtain ⟨sequences, rfl, rfl⟩ := h
  exact ⟨q :: sequences, rfl, by simp⟩

theorem exists_of_unitsAfter (h : unitsAfter read offset d = .ok us) :
    ∃ sequences : List Sequence, sequences.flatMap Sequence.bytes = d ∧
      read.reverse ++ sequences.map Sequence.unit = us := by
  fun_induction unitsAfter read offset d with
  | case1 read =>
    cases h
    exact ⟨[], rfl, by simp⟩
  | case3 read offset b rest hform ih =>
    exact exists_flatMap_cons (.one b (Form.ofLead?_eq_some_iff.mp hform)) (ih h)
  | case5 read offset lead hform low rest hlow ih =>
    exact exists_flatMap_cons (.two lead low (Form.ofLead?_eq_some_iff.mp hform) hlow) (ih h)
  | case9 read offset lead hform mid hmid low rest hlow ih =>
    exact exists_flatMap_cons
      (.three lead mid low (Form.ofLead?_eq_some_iff.mp hform) ⟨hmid, hlow⟩) (ih h)
  | _ => cases h

/-- **What can be read.** The units of bytes are those of the sequences into which they fall. -/
theorem units_eq_ok_iff : units d = .ok us ↔ ∃ sequences : List Sequence,
    sequences.flatMap Sequence.bytes = d ∧ sequences.map Sequence.unit = us := by
  constructor
  · intro h
    simpa using exists_of_unitsAfter h
  · rintro ⟨sequences, rfl, rfl⟩
    simpa [units] using unitsAfter_flatMap sequences [] 0

theorem decode_eq_ok_iff {s : String} : decode d = .ok s ↔ ∃ sequences : List Sequence,
    sequences.flatMap Sequence.bytes = d ∧ sequences.map Sequence.unit = Utf16.encode s := by
  rw [← units_eq_ok_iff, decode, Except.bind_eq_ok_iff]
  constructor
  · rintro ⟨us, hus, htext⟩
    cases hs : Utf16.decode? us with
    | none =>
      rw [hs] at htext
      cases htext
    | some s =>
      rw [hs] at htext
      cases htext
      rwa [Utf16.decode?_eq_some_iff.mp hs]
  · intro h
    refine ⟨Utf16.encode s, h, ?_⟩
    rw [Utf16.decode?_eq_some_iff.mpr rfl]
    rfl

/-! ## Which bytes there are -/

theorem Sequence.range_of_mem_bytes {q : Sequence} {b : UInt8} (hb : b ∈ q.bytes) :
    b ≠ 0 ∧ b < 0xF0 := by
  have hrange_of_continuation {b : UInt8} (h : isContinuation b = true) : b ≠ 0 ∧ b < 0xF0 := by
    grind [isContinuation]
  cases q with
  | one b' range =>
    obtain rfl : b = b' := by simpa [bytes] using hb
    grind
  | two lead low range follow =>
    obtain rfl | rfl : b = lead ∨ b = low := by simpa [bytes] using hb
    · grind
    · exact hrange_of_continuation follow
  | three lead mid low range follow =>
    obtain rfl | rfl | rfl : b = lead ∨ b = mid ∨ b = low := by simpa [bytes] using hb
    · grind
    · exact hrange_of_continuation follow.1
    · exact hrange_of_continuation follow.2

/-! ## Overlong sequences -/

namespace Sequence

theorem isContinuation_ofNat (n : Nat) : isContinuation (UInt8.ofNat (0x80 + n % 64)) = true := by
  rw [isContinuation_iff, toNat_byteOfNat (by omega)]
  omega

/-- The sequence that is written for a unit. -/
def ofUnit (u : UInt16) : Sequence :=
  if hone : 0 < u.toNat ∧ u.toNat < 0x80 then
    .one (UInt8.ofNat u.toNat) ⟨byteOfNat_lt_byteOfNat (k := 0) hone.1 (by omega),
      byteOfNat_lt_byteOfNat (n := 0x80) hone.2 (by decide)⟩
  else if htwo : u.toNat < 0x800 then
    .two (UInt8.ofNat (0xC0 + u.toNat / 64)) (UInt8.ofNat (0x80 + u.toNat % 64))
      ⟨byteOfNat_le_byteOfNat (k := 0xC0) (by omega) (by omega),
        byteOfNat_lt_byteOfNat (n := 0xE0) (by omega) (by decide)⟩ (isContinuation_ofNat _)
  else
    have hlt : u.toNat < 0x10000 := u.toNat_lt
    .three (UInt8.ofNat (0xE0 + u.toNat / 4096)) (UInt8.ofNat (0x80 + u.toNat / 64 % 64))
      (UInt8.ofNat (0x80 + u.toNat % 64))
      ⟨byteOfNat_le_byteOfNat (k := 0xE0) (by omega) (by omega),
        byteOfNat_lt_byteOfNat (n := 0xF0) (by omega) (by decide)⟩
      ⟨isContinuation_ofNat _, isContinuation_ofNat _⟩

@[simp] theorem bytes_ofUnit (u : UInt16) : (ofUnit u).bytes = bytesOfUnit u := by
  rw [ofUnit, bytesOfUnit]
  split
  · rfl
  · split <;> rfl

@[simp] theorem unit_ofUnit (u : UInt16) : (ofUnit u).unit = u := by
  have hlt : u.toNat < 0x10000 := u.toNat_lt
  rw [← UInt16.toNat_inj, ofUnit]
  split
  · simp only [unit, UInt8.toNat_toUInt16]
    rw [toNat_byteOfNat (by omega)]
  · split
    · simp only [unit, toNat_unitOfTwo]
      rw [toNat_byteOfNat (by omega), toNat_byteOfNat (by omega)]
      omega
    · simp only [unit, toNat_unitOfThree]
      rw [toNat_byteOfNat (by omega), toNat_byteOfNat (by omega), toNat_byteOfNat (by omega)]
      omega

/-- The sequence is longer than what is written for its unit. -/
def IsOverlong (q : Sequence) : Prop :=
  match q with
  | one .. => False
  | two .. => q.unit ≠ 0 ∧ q.unit < 0x80
  | three .. => q.unit < 0x800

instance : DecidablePred IsOverlong
  | one .. => inferInstanceAs (Decidable False)
  | two .. => inferInstanceAs (Decidable (_ ∧ _))
  | three .. => inferInstanceAs (Decidable (_ < _))

theorem bytesOfUnit_one {u : UInt16} (h : 0 < u.toNat ∧ u.toNat < 0x80) :
    bytesOfUnit u = [UInt8.ofNat u.toNat] := if_pos h

theorem bytesOfUnit_two {u : UInt16} (h : ¬ (0 < u.toNat ∧ u.toNat < 0x80))
    (hlt : u.toNat < 0x800) : bytesOfUnit u =
      [UInt8.ofNat (0xC0 + u.toNat / 64), UInt8.ofNat (0x80 + u.toNat % 64)] := by
  rw [bytesOfUnit, if_neg h, if_pos hlt]

theorem bytesOfUnit_three {u : UInt16} (h : 0x800 ≤ u.toNat) : bytesOfUnit u =
    [UInt8.ofNat (0xE0 + u.toNat / 4096), UInt8.ofNat (0x80 + u.toNat / 64 % 64),
      UInt8.ofNat (0x80 + u.toNat % 64)] := by
  rw [bytesOfUnit, if_neg (by omega), if_neg (by omega)]

theorem isOverlong_two_iff {lead low : UInt8} {range follow} :
    (two lead low range follow).IsOverlong ↔
      0 < (unitOfTwo lead low).toNat ∧ (unitOfTwo lead low).toNat < 0x80 := by
  rw [IsOverlong, Ne, ← UInt16.toNat_inj, UInt16.lt_iff_toNat_lt, Nat.pos_iff_ne_zero]
  rfl

theorem isOverlong_three_iff {lead mid low : UInt8} {range follow} :
    (three lead mid low range follow).IsOverlong ↔ (unitOfThree lead mid low).toNat < 0x800 := by
  rw [IsOverlong, UInt16.lt_iff_toNat_lt]
  rfl

theorem bytesOfUnit_unit_of_not_isOverlong {q : Sequence} (h : ¬ q.IsOverlong) :
    bytesOfUnit q.unit = q.bytes := by
  cases q with
  | one b range =>
    simp only [UInt8.lt_iff_toNat_lt, UInt8.reduceToNat] at range
    have hunit : b.toUInt16.toNat = b.toNat := UInt8.toNat_toUInt16 b
    rw [unit, bytesOfUnit_one (by rwa [hunit]), hunit, UInt8.ofNat_toNat]
    rfl
  | two lead low range follow =>
    rw [isOverlong_two_iff] at h
    rw [isContinuation_iff] at follow
    simp only [UInt8.le_iff_toNat_le, UInt8.lt_iff_toNat_lt, UInt8.reduceToNat] at range
    have hunit := toNat_unitOfTwo lead low
    have hlead : 0xC0 + (unitOfTwo lead low).toNat / 64 = lead.toNat := by omega
    have hlow : 0x80 + (unitOfTwo lead low).toNat % 64 = low.toNat := by omega
    rw [unit, bytesOfUnit_two h (by omega), hlead, hlow, UInt8.ofNat_toNat, UInt8.ofNat_toNat]
    rfl
  | three lead mid low range follow =>
    rw [isOverlong_three_iff] at h
    rw [isContinuation_iff, isContinuation_iff] at follow
    simp only [UInt8.le_iff_toNat_le, UInt8.lt_iff_toNat_lt, UInt8.reduceToNat] at range
    have hunit := toNat_unitOfThree lead mid low
    have hlead : 0xE0 + (unitOfThree lead mid low).toNat / 4096 = lead.toNat := by omega
    have hmid : 0x80 + (unitOfThree lead mid low).toNat / 64 % 64 = mid.toNat := by omega
    have hlow : 0x80 + (unitOfThree lead mid low).toNat % 64 = low.toNat := by omega
    rw [unit, bytesOfUnit_three (by omega), hlead, hmid, hlow, UInt8.ofNat_toNat,
      UInt8.ofNat_toNat, UInt8.ofNat_toNat]
    rfl

theorem length_lt_of_isOverlong {q : Sequence} (h : q.IsOverlong) :
    (bytesOfUnit q.unit).length < q.bytes.length := by
  cases q with
  | one b range => exact h.elim
  | two lead low range follow =>
    rw [isOverlong_two_iff] at h
    rw [unit, bytesOfUnit_one h]
    simp [bytes]
  | three lead mid low range follow =>
    rw [isOverlong_three_iff] at h
    rw [unit]
    by_cases hone : 0 < (unitOfThree lead mid low).toNat ∧ (unitOfThree lead mid low).toNat < 0x80
    · rw [bytesOfUnit_one hone]
      simp [bytes]
    · rw [bytesOfUnit_two hone h]
      simp [bytes]

end Sequence

end ModifiedUtf8

end JavaClass
