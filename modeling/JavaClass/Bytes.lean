/-!
# Bytes

A class file is a sequence of bytes, and every number in it is written most significant byte
first. Both directions of that rule are here; reading numbers off the front of an input, with its
one way to fail, is in `JavaClass.Bytes.Reader`.

Bytes are a plain list: the input left over after a read is then literally a suffix of the input
before it, which is how every statement about a decoder says what it consumed.
-/

namespace JavaClass

/-- The contents of a file, or of a part of one. -/
abbrev Bytes := List UInt8

namespace Bytes

/-- The number that `bytes` spell, most significant byte first. -/
def bigEndian (bytes : Bytes) : Nat :=
  bytes.foldl (fun high byte => high * 256 + byte.toNat) 0

/-- How many numbers `width` bytes can spell. -/
def limit : (width : Nat) → Nat
  | 0 => 1
  | width + 1 => limit width * 256

/-- The last `width` base-256 digits of `n`, most significant first. -/
def ofNat : (width n : Nat) → Bytes
  | 0, _ => []
  | width + 1, n => ofNat width (n / 256) ++ [UInt8.ofNat n]

@[simp] theorem length_ofNat (width n : Nat) : (ofNat width n).length = width := by
  induction width generalizing n with
  | zero => rfl
  | succ width ih => simp [ofNat, ih]

@[simp] theorem bigEndian_nil : bigEndian [] = 0 := rfl

theorem bigEndian_append_singleton (bytes : Bytes) (byte : UInt8) :
    bigEndian (bytes ++ [byte]) = bigEndian bytes * 256 + byte.toNat := by
  simp [bigEndian]

/-- A number is read back from its digits, up to the digits that did not fit. -/
theorem bigEndian_ofNat (width n : Nat) : bigEndian (ofNat width n) = n % limit width := by
  induction width generalizing n with
  | zero => simp [ofNat, limit, Nat.mod_one]
  | succ width ih =>
    have hdigit : (UInt8.ofNat n).toNat = n % 256 := by simp
    rw [ofNat, bigEndian_append_singleton, ih, hdigit, limit, Nat.mul_comm (limit width),
      Nat.mod_mul]
    omega

theorem bigEndian_lt (bytes : Bytes) : bigEndian bytes < limit bytes.length := by
  suffices h : ∀ high, bytes.foldl (fun high byte => high * 256 + byte.toNat) high <
      (high + 1) * limit bytes.length by simpa [bigEndian] using h 0
  induction bytes with
  | nil => simp [limit]
  | cons byte bytes ih =>
    intro high
    have hbyte := byte.toNat_lt
    calc (byte :: bytes).foldl (fun high byte => high * 256 + byte.toNat) high
        < (high * 256 + byte.toNat + 1) * limit bytes.length := ih _
      _ ≤ (high + 1) * 256 * limit bytes.length := Nat.mul_le_mul_right _ (by omega)
      _ = (high + 1) * limit (byte :: bytes).length := by
        rw [List.length_cons, limit, Nat.mul_assoc, Nat.mul_comm 256]

end Bytes

end JavaClass
