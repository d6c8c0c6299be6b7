import JavaClass.Proofs.Text.Sequence
import JavaClass.Text.Utf8
import Mathlib.Data.List.Forall2

/-!
# Standard UTF-8 is read as it is

The forgiving reader replaces what is not well formed, so on what is written for a text it must not
replace anything. It is a machine over single bytes; from one character to the next it is closed,
and what the bytes of one character do to a closed machine is to write that character.
-/

namespace JavaClass.Utf8

/-- The bytes of a text in standard UTF-8. -/
def encode (s : String) : Bytes := s.toUTF8.data.toList

theorem encode_eq_flatMap (s : String) : encode s = s.toList.flatMap String.utf8EncodeChar := by
  rw [encode, String.toUTF8_eq_toByteArray, ← String.utf8Encode_toList, List.utf8Encode,
    List.toList_data_toByteArray]

/-! ## The bytes of a character -/

section Characters

variable {c : Char}

theorem utf8EncodeChar_one (h : c.toNat < 0x80) :
    String.utf8EncodeChar c = [UInt8.ofNat c.toNat] := by
  rw [String.utf8EncodeChar]
  exact if_pos (Nat.le_of_lt_succ h)

theorem utf8EncodeChar_two (h : 0x80 ≤ c.toNat) (hlt : c.toNat < 0x800) :
    String.utf8EncodeChar c =
      [UInt8.ofNat (0xC0 + c.toNat / 64), UInt8.ofNat (0x80 + c.toNat % 64)] := by
  simp only [String.utf8EncodeChar, Char.toNat_val]
  rw [if_neg (by omega), if_pos (by omega), Nat.mod_eq_of_lt (a := c.toNat / 64) (by omega),
    Nat.add_comm 0xC0, Nat.add_comm 0x80]

theorem utf8EncodeChar_three (h : 0x800 ≤ c.toNat) (hlt : c.toNat < 0x10000) :
    String.utf8EncodeChar c = [UInt8.ofNat (0xE0 + c.toNat / 4096),
      UInt8.ofNat (0x80 + c.toNat / 64 % 64), UInt8.ofNat (0x80 + c.toNat % 64)] := by
  simp only [String.utf8EncodeChar, Char.toNat_val]
  rw [if_neg (by omega), if_neg (by omega), if_pos (by omega),
    Nat.mod_eq_of_lt (a := c.toNat / 4096) (by omega), Nat.add_comm 0xE0, Nat.add_comm 0x80,
    Nat.add_comm 0x80]

theorem utf8EncodeChar_four (h : 0x10000 ≤ c.toNat) :
    String.utf8EncodeChar c = [UInt8.ofNat (0xF0 + c.toNat / 262144),
      UInt8.ofNat (0x80 + c.toNat / 4096 % 64), UInt8.ofNat (0x80 + c.toNat / 64 % 64),
      UInt8.ofNat (0x80 + c.toNat % 64)] := by
  have hvalid := Utf16.isValidChar_toNat c
  simp only [String.utf8EncodeChar, Char.toNat_val]
  rw [if_neg (by omega), if_neg (by omega), if_neg (by omega),
    Nat.mod_eq_of_lt (a := c.toNat / 262144) (by omega), Nat.add_comm 0xF0, Nat.add_comm 0x80,
    Nat.add_comm 0x80, Nat.add_comm 0x80]

end Characters

/-! ### The bits in a byte -/

theorem leadBits_two {n : Nat} (h : n < 32) : leadBits (UInt8.ofNat (0xC0 + n)) = n := by
  simp only [leadBits, UInt8.lt_iff_toNat_lt, UInt8.reduceToNat]
  rw [toNat_byteOfNat (by omega), if_neg (by omega), if_pos (by omega)]
  omega

theorem leadBits_three {n : Nat} (h : n < 16) : leadBits (UInt8.ofNat (0xE0 + n)) = n := by
  simp only [leadBits, UInt8.lt_iff_toNat_lt, UInt8.reduceToNat]
  rw [toNat_byteOfNat (by omega), if_neg (by omega), if_neg (by omega), if_pos (by omega)]
  omega

theorem leadBits_four {n : Nat} (h : n < 8) : leadBits (UInt8.ofNat (0xF0 + n)) = n := by
  simp only [leadBits, UInt8.lt_iff_toNat_lt, UInt8.reduceToNat]
  rw [toNat_byteOfNat (by omega), if_neg (by omega), if_neg (by omega), if_neg (by omega)]
  omega

/-! ## What may follow a first byte -/

theorem continuations?_one {lead : UInt8} (h : lead < 0x80) : continuations? lead = some [] :=
  if_pos h

theorem continuations?_two :
    ∀ n < 32, 2 ≤ n → continuations? (UInt8.ofNat (0xC0 + n)) = some [(0x80, 0xBF)] := by
  decide

/-- The second byte excludes what is overlong and what is a surrogate. -/
theorem continuations?_three : ∀ n < 16, continuations? (UInt8.ofNat (0xE0 + n)) =
    some [(UInt8.ofNat (if n = 0 then 0xA0 else 0x80),
      UInt8.ofNat (if n = 13 then 0x9F else 0xBF)), (0x80, 0xBF)] := by
  decide

/-- The second byte excludes what is overlong and what is above the last character. -/
theorem continuations?_four : ∀ n < 5, continuations? (UInt8.ofNat (0xF0 + n)) =
    some [(UInt8.ofNat (if n = 0 then 0x90 else 0x80),
      UInt8.ofNat (if n = 4 then 0x8F else 0xBF)), (0x80, 0xBF), (0x80, 0xBF)] := by
  decide

/-! ## The machine -/

def Fits (b : UInt8) (range : UInt8 × UInt8) : Prop := range.1 ≤ b ∧ b ≤ range.2

theorem fits_continuation (n : Nat) : Fits (UInt8.ofNat (0x80 + n % 64)) (0x80, 0xBF) :=
  ⟨byteOfNat_le_byteOfNat (k := 0x80) (by omega) (by omega),
    byteOfNat_le_byteOfNat (n := 0xBF) (by omega) (by omega)⟩

def addBits (bits : Nat) (b : UInt8) : Nat := bits * 64 + b.toNat % 64

theorem addBits_continuation (bits n : Nat) :
    addBits bits (UInt8.ofNat (0x80 + n % 64)) = bits * 64 + n % 64 := by
  rw [addBits, toNat_byteOfNat (by omega)]
  omega

namespace Machine

variable {m : Machine} {lead : UInt8} {bytes : Bytes} {ranges : List (UInt8 × UInt8)}

theorem feed_of_expected_nil (h : m.expected = []) (b : UInt8) : m.feed b = m.start b := by
  rw [feed, h]

/-- Bytes that fit one after the other make an open machine write a character. -/
theorem foldl_feed_of_fits (hfits : List.Forall₂ Fits bytes ranges) (h : m.expected = ranges)
    (hopen : ranges ≠ []) :
    bytes.foldl feed m = m.emit (Char.ofNat (bytes.foldl addBits m.bits)) := by
  induction hfits generalizing m with
  | nil => exact absurd rfl hopen
  | @cons b range bytes ranges hb hfits ih =>
    obtain ⟨low, high⟩ := range
    replace hb : low ≤ b ∧ b ≤ high := hb
    simp only [List.foldl_cons, feed, h, if_pos hb]
    cases hfits with
    | nil => rfl
    | cons => exact ih rfl (List.cons_ne_nil _ _)

/-- So do they after a first byte that opens a closed machine. -/
theorem foldl_feed_cons (h : m.expected = []) (hlead : continuations? lead = some ranges)
    (hopen : ranges ≠ []) (hfits : List.Forall₂ Fits bytes ranges) :
    (lead :: bytes).foldl feed m = m.emit (Char.ofNat (bytes.foldl addBits (leadBits lead))) := by
  have hstart : m.start lead = { m with bits := leadBits lead, expected := ranges } := by
    rw [start, hlead]
    split <;> simp_all
  rw [List.foldl_cons, feed_of_expected_nil h, hstart]
  exact foldl_feed_of_fits hfits rfl hopen

/-! ### Characters

A first byte that narrows the range of the second does so because of what the number of a character
can be, and that is known of the number here. -/

variable {c : Char}

theorem foldl_feed_char_one (h : m.expected = []) (hlt : c.toNat < 0x80) :
    (String.utf8EncodeChar c).foldl feed m = m.emit c := by
  have hlead : UInt8.ofNat c.toNat < 0x80 := byteOfNat_lt_byteOfNat (n := 0x80) hlt (by decide)
  have hnumber : (UInt8.ofNat c.toNat).toNat = c.toNat := toNat_byteOfNat (by omega)
  rw [utf8EncodeChar_one hlt, List.foldl_cons, feed_of_expected_nil h, start,
    continuations?_one hlead]
  simp only [hnumber, Char.ofNat_toNat]
  rfl

theorem foldl_feed_char_two (h : m.expected = []) (hle : 0x80 ≤ c.toNat) (hlt : c.toNat < 0x800) :
    (String.utf8EncodeChar c).foldl feed m = m.emit c := by
  have hnumber : c.toNat / 64 * 64 + c.toNat % 64 = c.toNat := by omega
  rw [utf8EncodeChar_two hle hlt,
    foldl_feed_cons h (continuations?_two _ (by omega) (by omega)) nofun
      (.cons (fits_continuation _) .nil),
    leadBits_two (by omega)]
  simp only [List.foldl_cons, List.foldl_nil, addBits_continuation, hnumber, Char.ofNat_toNat]

theorem foldl_feed_char_three (h : m.expected = []) (hle : 0x800 ≤ c.toNat)
    (hlt : c.toNat < 0x10000) : (String.utf8EncodeChar c).foldl feed m = m.emit c := by
  have hvalid := Utf16.isValidChar_toNat c
  have hnumber : (c.toNat / 4096 * 64 + c.toNat / 64 % 64) * 64 + c.toNat % 64 = c.toNat := by
    omega
  have hsecond : Fits (UInt8.ofNat (0x80 + c.toNat / 64 % 64))
      (UInt8.ofNat (if c.toNat / 4096 = 0 then 0xA0 else 0x80),
        UInt8.ofNat (if c.toNat / 4096 = 13 then 0x9F else 0xBF)) :=
    ⟨byteOfNat_le_byteOfNat (by split <;> omega) (by omega),
      byteOfNat_le_byteOfNat (by split <;> omega) (by split <;> omega)⟩
  rw [utf8EncodeChar_three hle hlt,
    foldl_feed_cons h (continuations?_three _ (by omega)) nofun
      (.cons hsecond (.cons (fits_continuation _) .nil)),
    leadBits_three (by omega)]
  simp only [List.foldl_cons, List.foldl_nil, addBits_continuation, hnumber, Char.ofNat_toNat]

theorem foldl_feed_char_four (h : m.expected = []) (hle : 0x10000 ≤ c.toNat) :
    (String.utf8EncodeChar c).foldl feed m = m.emit c := by
  have hvalid := Utf16.isValidChar_toNat c
  have hnumber : ((c.toNat / 262144 * 64 + c.toNat / 4096 % 64) * 64 + c.toNat / 64 % 64) * 64 +
      c.toNat % 64 = c.toNat := by omega
  have hsecond : Fits (UInt8.ofNat (0x80 + c.toNat / 4096 % 64))
      (UInt8.ofNat (if c.toNat / 262144 = 0 then 0x90 else 0x80),
        UInt8.ofNat (if c.toNat / 262144 = 4 then 0x8F else 0xBF)) :=
    ⟨byteOfNat_le_byteOfNat (by split <;> omega) (by omega),
      byteOfNat_le_byteOfNat (by split <;> omega) (by split <;> omega)⟩
  rw [utf8EncodeChar_four hle,
    foldl_feed_cons h (continuations?_four _ (by omega)) nofun
      (.cons hsecond (.cons (fits_continuation _) (.cons (fits_continuation _) .nil))),
    leadBits_four (by omega)]
  simp only [List.foldl_cons, List.foldl_nil, addBits_continuation, hnumber, Char.ofNat_toNat]

theorem foldl_feed_utf8EncodeChar (h : m.expected = []) (c : Char) :
    (String.utf8EncodeChar c).foldl feed m = m.emit c := by
  by_cases hone : c.toNat < 0x80
  · exact foldl_feed_char_one h hone
  by_cases htwo : c.toNat < 0x800
  · exact foldl_feed_char_two h (by omega) htwo
  by_cases hthree : c.toNat < 0x10000
  · exact foldl_feed_char_three h (by omega) hthree
  · exact foldl_feed_char_four h (by omega)

theorem foldl_feed_flatMap (cs : List Char) (h : m.expected = []) :
    ((cs.flatMap String.utf8EncodeChar).foldl feed m).finish = m.read.reverse ++ cs := by
  induction cs generalizing m with
  | nil => simp [finish, h]
  | cons c cs ih =>
    rw [List.flatMap_cons, List.foldl_append, foldl_feed_utf8EncodeChar h, ih rfl]
    simp [emit]

end Machine

/-- **Standard UTF-8 is read as it is.** -/
theorem decodeLossy_encode (s : String) : decodeLossy (encode s) = s := by
  have hread : ((encode s).foldl Machine.feed {}).finish = s.toList := by
    simpa [encode_eq_flatMap] using Machine.foldl_feed_flatMap (m := {}) s.toList rfl
  rw [decodeLossy, hread, String.ofList_toList]

end JavaClass.Utf8
