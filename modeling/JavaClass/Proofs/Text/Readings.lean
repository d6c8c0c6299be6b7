import JavaClass.Proofs.Pool.Representation
import JavaClass.Proofs.Text.RoundTrip
import JavaClass.Proofs.Text.Utf8

/-!
# One reader for two encodings

A string constant does not say which encoding it is in. The reader takes the modified one where all
of the bytes can be read in it, and it has to be shown that it is never misled by bytes of the
standard one. The two encodings differ on the character zero and on those above `0xFFFF`, and
nowhere else. For these the standard encoding has a zero byte or one of value `0xF0` or above, which
cannot be read as modified UTF-8; so either there is no difference, or the standard reading is
taken.
-/

namespace JavaClass

open ModifiedUtf8

variable {c : Char} {s : String}

/-! ## Where the encodings agree -/

/-- A character that both encodings write in the same way. -/
def IsPlain (c : Char) : Prop := 0 < c.toNat ∧ c.toNat < 0x10000

theorem utf8EncodeChar_of_isPlain (h : IsPlain c) :
    String.utf8EncodeChar c = (Utf16.unitsOfChar c).flatMap bytesOfUnit := by
  obtain ⟨hpos, hlt⟩ := h
  have hunit : (UInt16.ofNat c.toNat).toNat = c.toNat := Utf16.toNat_ofNat hlt
  rw [Utf16.unitsOfChar_of_lt hlt, List.flatMap_singleton]
  by_cases hone : c.toNat < 0x80
  · rw [Utf8.utf8EncodeChar_one hone, Sequence.bytesOfUnit_one (by omega), hunit]
  by_cases htwo : c.toNat < 0x800
  · rw [Utf8.utf8EncodeChar_two (by omega) htwo,
      Sequence.bytesOfUnit_two (by omega) (by omega), hunit]
  · rw [Utf8.utf8EncodeChar_three (by omega) hlt, Sequence.bytesOfUnit_three (by omega), hunit]

theorem encode_eq_encode (h : ∀ c ∈ s.toList, IsPlain c) :
    Utf8.encode s = ModifiedUtf8.encode s := by
  rw [Utf8.encode_eq_flatMap, ModifiedUtf8.encode, Utf16.encode, List.flatMap_assoc]
  exact List.flatMap_congr fun c hc ↦ utf8EncodeChar_of_isPlain (h c hc)

theorem isPlain_of_range (h : ∀ b ∈ String.utf8EncodeChar c, b ≠ 0 ∧ b < 0xF0) : IsPlain c := by
  have hvalid := Utf16.isValidChar_toNat c
  by_contra hnot
  rcases Nat.lt_or_ge c.toNat 0x10000 with hlt | hge
  · have hzero : c.toNat = 0 := by
      rw [IsPlain] at hnot
      omega
    rw [Utf8.utf8EncodeChar_one (by omega), hzero] at h
    exact (h 0 List.mem_cons_self).1 rfl
  · rw [Utf8.utf8EncodeChar_four hge] at h
    have hlead : 0xF0 ≤ UInt8.ofNat (0xF0 + c.toNat / 262144) :=
      byteOfNat_le_byteOfNat (k := 0xF0) (by omega) (by omega)
    exact absurd (h _ List.mem_cons_self).2 (UInt8.not_lt.mpr hlead)

/-! ## Reading -/

theorem readText_modified (s : String) : readText (ModifiedUtf8.encode s) = s := by
  rw [readText, ModifiedUtf8.decode_encode]

theorem readText_standard (s : String) : readText (Utf8.encode s) = s := by
  rw [readText]
  cases hmodified : ModifiedUtf8.decode (Utf8.encode s) with
  | ok t =>
    have hplain : ∀ c ∈ s.toList, IsPlain c := by
      intro c hc
      refine isPlain_of_range fun b hb ↦ range_of_decode hmodified ?_
      rw [Utf8.encode_eq_flatMap]
      exact List.mem_flatMap.mpr ⟨c, hc, hb⟩
    rw [encode_eq_encode hplain, ModifiedUtf8.decode_encode] at hmodified
    exact (Except.ok.inj hmodified).symm
  | error e => exact Utf8.decodeLossy_encode s

/-- **Either encoding is read faithfully.** What is written for a text, be it in modified or in
standard UTF-8, is read as that text; and so every string constant of a pool that was written in one
of the two ways has the text that it was written for. -/
theorem readText_faithful :
    (∀ s, readText (ModifiedUtf8.encode s) = s ∧ readText (Utf8.encode s) = s) ∧
    ∀ count input pool rest, Pool.decode count input = .ok pool rest →
      ∀ s bytes, bytes = ModifiedUtf8.encode s ∨ bytes = Utf8.encode s →
        ∀ index text, pool.entry? index = some (.utf8 bytes text) →
          text = s ∧ pool.text? index = some s := by
  refine ⟨fun s ↦ ⟨readText_modified s, readText_standard s⟩, ?_⟩
  intro count input pool rest hpool s bytes hbytes index text hentry
  have hread : readText bytes = s := by
    rcases hbytes with rfl | rfl
    · exact readText_modified s
    · exact readText_standard s
  have htext : text = s := ((Pool.wellFormed_of_decode hpool).agrees index _ hentry).trans hread
  refine ⟨htext, ?_⟩
  rw [Pool.text?, hentry, ← htext]
  rfl

/-- A letter, the character zero and one above `0xFFFF`: first in modified and then in standard
UTF-8. -/
theorem readText_faithful_twice :
    let modified : Bytes := [65, 0xC0, 0x80, 0xED, 0xA0, 0xBD, 0xED, 0xB8, 0x80]
    let standard : Bytes := [65, 0, 0xF0, 0x9F, 0x98, 0x80]
    ∃ pool, Pool.decode 3 ([1, 0, 9] ++ modified ++ [1, 0, 6] ++ standard) = .ok pool [] ∧
      pool.text? 1 = some "A\x00😀" ∧ pool.text? 2 = some "A\x00😀" := by
  intro modified standard
  have hmodified : modified = ModifiedUtf8.encode "A\x00😀" := by rfl
  have hstandard : standard = Utf8.encode "A\x00😀" := by rfl
  have hread : ∃ r ∈ (Pool.decode 3 ([1, 0, 9] ++ modified ++ [1, 0, 6] ++ standard)).ok?,
      r.2 = [] ∧ (∃ text, Pool.entry? r.1 1 = some (.utf8 modified text)) ∧
        ∃ text, Pool.entry? r.1 2 = some (.utf8 standard text) :=
    ⟨_, rfl, rfl, ⟨_, rfl⟩, ⟨_, rfl⟩⟩
  obtain ⟨⟨pool, _⟩, hpool, rfl, ⟨first, hfirst⟩, ⟨second, hsecond⟩⟩ := hread
  have hpool := EStateM.Result.ok?_eq_some_iff.mp hpool
  have hfaithful := readText_faithful.2 _ _ _ _ hpool "A\x00😀"
  exact ⟨pool, hpool, (hfaithful _ (.inl hmodified) 1 first hfirst).2,
    (hfaithful _ (.inr hstandard) 2 second hsecond).2⟩

end JavaClass
