import JavaClass.Proofs.Text.Sequence
import Mathlib.Algebra.Order.BigOperators.Group.List
import Mathlib.Algebra.Order.Group.Nat

/-!
# Modified UTF-8 in both directions

What is written for a text is read as that text. The other way round there are bytes that are not
written for the text that they are read as, since a unit can be spelled at greater length than
necessary. To write what has been read replaces each sequence by the one that is written for its
unit, so the bytes come back exactly where no sequence is overlong, and fewer of them otherwise.
-/

namespace JavaClass.ModifiedUtf8

variable {d : Bytes} {s : String} {sequences : List Sequence}

theorem encode_eq_flatMap_ofUnit (s : String) :
    encode s = ((Utf16.encode s).map Sequence.ofUnit).flatMap Sequence.bytes := by
  simp [encode, List.flatMap_map]

theorem decode_encode (s : String) : decode (encode s) = .ok s := by
  have hunits : ((Utf16.encode s).map Sequence.ofUnit).map Sequence.unit = Utf16.encode s := by
    simp [Function.comp_def]
  exact decode_eq_ok_iff.mpr ⟨_, (encode_eq_flatMap_ofUnit s).symm, hunits⟩

theorem range_of_decode (h : decode d = .ok s) {b : UInt8} (hb : b ∈ d) : b ≠ 0 ∧ b < 0xF0 := by
  obtain ⟨sequences, rfl, -⟩ := decode_eq_ok_iff.mp h
  obtain ⟨q, -, hq⟩ := List.mem_flatMap.mp hb
  exact Sequence.range_of_mem_bytes hq

/-- What is written for the text of some sequences is written for each of them by itself. -/
theorem encode_eq_flatMap_of_decode (h : decode (sequences.flatMap Sequence.bytes) = .ok s) :
    encode s = sequences.flatMap fun q ↦ bytesOfUnit q.unit := by
  have hunits : units (sequences.flatMap Sequence.bytes) = .ok (sequences.map Sequence.unit) :=
    units_eq_ok_iff.mpr ⟨sequences, rfl, rfl⟩
  have htext := units_eq_ok_iff.mpr (decode_eq_ok_iff.mp h)
  rw [hunits] at htext
  rw [encode, ← Except.ok.inj htext, List.flatMap_map]

theorem length_bytesOfUnit_unit_le (q : Sequence) :
    (bytesOfUnit q.unit).length ≤ q.bytes.length := by
  by_cases h : q.IsOverlong
  · exact (Sequence.length_lt_of_isOverlong h).le
  · rw [Sequence.bytesOfUnit_unit_of_not_isOverlong h]

theorem length_encode_le (h : decode d = .ok s) : (encode s).length ≤ d.length := by
  obtain ⟨sequences, rfl, -⟩ := decode_eq_ok_iff.mp h
  rw [encode_eq_flatMap_of_decode h, List.length_flatMap, List.length_flatMap]
  exact List.sum_le_sum fun q _ ↦ length_bytesOfUnit_unit_le q

theorem length_encode_lt (h : decode (sequences.flatMap Sequence.bytes) = .ok s) {q : Sequence}
    (hq : q ∈ sequences) (hoverlong : q.IsOverlong) :
    (encode s).length < (sequences.flatMap Sequence.bytes).length := by
  rw [encode_eq_flatMap_of_decode h, List.length_flatMap, List.length_flatMap]
  exact List.sum_lt_sum _ _ (fun q _ ↦ length_bytesOfUnit_unit_le q)
    ⟨q, hq, Sequence.length_lt_of_isOverlong hoverlong⟩

theorem encode_eq_iff (h : decode (sequences.flatMap Sequence.bytes) = .ok s) :
    encode s = sequences.flatMap Sequence.bytes ↔ ∀ q ∈ sequences, ¬ q.IsOverlong := by
  constructor
  · intro heq q hq hoverlong
    exact absurd (congrArg List.length heq) (length_encode_lt h hq hoverlong).ne
  · intro hall
    rw [encode_eq_flatMap_of_decode h]
    exact List.flatMap_congr fun q hq ↦
      Sequence.bytesOfUnit_unit_of_not_isOverlong (hall q hq)

/-- **Both directions.** A text is written without zero bytes and without bytes of value `0xF0` or
above, and read back from what is written. What is written for a text that has been read is never
longer than what it was read from, and the same if and only if none of the sequences of that is
overlong. -/
theorem round_trips :
    (∀ s, decode (encode s) = .ok s ∧ ∀ b ∈ encode s, b ≠ 0 ∧ b < 0xF0) ∧
    ∀ d s, decode d = .ok s → (encode s).length ≤ d.length ∧
      (∃ sequences : List Sequence, sequences.flatMap Sequence.bytes = d) ∧
      ∀ sequences : List Sequence, sequences.flatMap Sequence.bytes = d →
        (encode s = d ↔ ∀ q ∈ sequences, ¬ q.IsOverlong) := by
  refine ⟨fun s ↦ ⟨decode_encode s, fun b ↦ range_of_decode (decode_encode s)⟩, fun d s h ↦ ?_⟩
  obtain ⟨sequences, hsequences, -⟩ := decode_eq_ok_iff.mp h
  refine ⟨length_encode_le h, ⟨sequences, hsequences⟩, ?_⟩
  rintro sequences rfl
  exact encode_eq_iff h

/-- A letter that is spelled with two bytes, the unit zero, and a character above `0xFFFF`. -/
theorem round_trips_overlong :
    let d : Bytes := [0xC1, 0x81, 0xC0, 0x80, 0xED, 0xA0, 0xBD, 0xED, 0xB8, 0x80]
    decode d = .ok "A\x00😀" ∧ (encode "A\x00😀").length ≤ 10 ∧ encode "A\x00😀" ≠ d ∧
      decode (encode "A\x00😀") = .ok "A\x00😀" := by
  intro d
  have hd : decode d = .ok "A\x00😀" := by rfl
  obtain ⟨hle, -, hiff⟩ := round_trips.2 d _ hd
  let letter : Sequence := .two 0xC1 0x81 (by decide) (by decide)
  have hsequences : [letter, .two 0xC0 0x80 (by decide) (by decide),
      .three 0xED 0xA0 0xBD (by decide) (by decide),
      .three 0xED 0xB8 0x80 (by decide) (by decide)].flatMap Sequence.bytes = d := rfl
  refine ⟨hd, hle, fun heq ↦ ?_, (round_trips.1 _).1⟩
  exact (hiff _ hsequences).mp heq letter List.mem_cons_self (by decide +kernel)

end JavaClass.ModifiedUtf8
