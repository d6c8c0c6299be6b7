import JavaClass.Bytes
import Mathlib.Data.List.Induction
import Mathlib.Tactic.Ring

/-!
# Numbers in halves

Bytes that are cut in two spell the number that the halves spell as digits, the first half being the
higher one. With a sign this holds as well, the sign being that of the higher half; but that half
must have a byte, since the sign is in its first bit.

## Main statements

* `Bytes.bigEndian_append`, `Bytes.twosComplement_append`: the number that two halves spell.
-/

namespace JavaClass

namespace Bytes

theorem limit_eq_pow (width : Nat) : limit width = 256 ^ width := by
  induction width with
  | zero => rfl
  | succ width ih => rw [limit, ih, Nat.pow_succ]

theorem bigEndian_lt_pow (bytes : Bytes) : bigEndian bytes < 256 ^ bytes.length :=
  limit_eq_pow bytes.length ▸ bigEndian_lt bytes

theorem bigEndian_append (high low : Bytes) :
    bigEndian (high ++ low) = bigEndian high * 256 ^ low.length + bigEndian low := by
  induction low using List.reverseRecOn with
  | nil => simp
  | append_singleton low byte ih =>
    rw [← List.append_assoc, bigEndian_append_singleton, ih, bigEndian_append_singleton,
      List.length_append, List.length_singleton]
    ring

/-- The number that bytes spell in two's complement: if their first bit is set, it is negative. -/
def twosComplement (bytes : Bytes) : ℤ :=
  if 256 ^ bytes.length ≤ 2 * bigEndian bytes then bigEndian bytes - 256 ^ bytes.length
  else bigEndian bytes

/-- The residue nearest to zero is the number in two's complement. -/
theorem bmod_bigEndian (bytes : Bytes) :
    Int.bmod (bigEndian bytes) (limit bytes.length) = twosComplement bytes := by
  have hlt : (bigEndian bytes : ℤ) < limit bytes.length := by exact_mod_cast bigEndian_lt bytes
  have hlimit : (256 : ℤ) ^ bytes.length = limit bytes.length := by
    exact_mod_cast (limit_eq_pow bytes.length).symm
  rw [Int.bmod, Int.emod_eq_of_lt (by omega) hlt, twosComplement, hlimit, ← limit_eq_pow]
  split <;> split <;> omega

/-- The first bit of a number is that of its higher half. -/
theorem pow_le_two_mul_bigEndian_append_iff {high : Bytes} (h : high ≠ []) (low : Bytes) :
    256 ^ (high ++ low).length ≤ 2 * bigEndian (high ++ low) ↔
      256 ^ high.length ≤ 2 * bigEndian high := by
  obtain ⟨n, hn⟩ := Nat.exists_eq_succ_of_ne_zero fun h0 ↦ h (List.length_eq_zero_iff.mp h0)
  have hlow := bigEndian_lt_pow low
  have hdiv : bigEndian (high ++ low) / 256 ^ low.length = bigEndian high := by
    rw [bigEndian_append, Nat.mul_comm, Nat.mul_add_div (by omega), Nat.div_eq_of_lt hlow,
      Nat.add_zero]
  -- Half of the limit is a multiple of what the lower half can reach, because `high` has a byte.
  calc 256 ^ (high ++ low).length ≤ 2 * bigEndian (high ++ low)
      ↔ 128 * 256 ^ n * 256 ^ low.length ≤ bigEndian (high ++ low) := by
        have heven : 256 ^ (n + 1 + low.length) = 2 * (128 * 256 ^ n * 256 ^ low.length) := by ring
        rw [List.length_append, hn, heven]
        omega
    _ ↔ 128 * 256 ^ n ≤ bigEndian high := by
        rw [← Nat.le_div_iff_mul_le (by omega), hdiv]
    _ ↔ 256 ^ high.length ≤ 2 * bigEndian high := by
        rw [hn, Nat.pow_succ]
        omega

theorem twosComplement_append {high : Bytes} (h : high ≠ []) (low : Bytes) :
    twosComplement (high ++ low) = twosComplement high * 256 ^ low.length + bigEndian low := by
  rw [twosComplement, twosComplement, if_congr (pow_le_two_mul_bigEndian_append_iff h low) rfl rfl,
    bigEndian_append, List.length_append]
  split <;> push_cast <;> ring

end Bytes

end JavaClass
