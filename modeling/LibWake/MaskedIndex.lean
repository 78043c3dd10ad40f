import Mathlib.Data.Nat.Bitwise

/-!
# Masked indices

The check that a size is a power of two, and the index which a probe loop
computes by masking a 64-bit sum with `size - 1`.
-/

namespace LibWake

/-- `x > 0 && (x & (x - 1)) == 0`. -/
def isPowerOf2 (x : ℕ) : Bool := 0 < x && x &&& (x - 1) == 0

theorem pos_of_isPowerOf2 {x : ℕ} (hx : isPowerOf2 x = true) : 0 < x := by
  simp only [isPowerOf2, Bool.and_eq_true, decide_eq_true_eq] at hx
  exact hx.1

theorem exists_pow_of_isPowerOf2 {x : ℕ} (hx : isPowerOf2 x = true) : ∃ k, x = 2 ^ k := by
  simp only [isPowerOf2, Bool.and_eq_true, decide_eq_true_eq, beq_iff_eq] at hx
  exact Nat.ne_zero_and_sub_one_eq_zero_iff_isPowerOfTwo.mp ⟨hx.1.ne', hx.2⟩

/-- Masking with `size - 1` gives an index below `size`. -/
theorem toNat_and_ofNat_pred_lt (x : UInt64) {size : ℕ} (hpos : 0 < size)
    (hle : size ≤ 2 ^ 64) :
    (x &&& UInt64.ofNat (size - 1)).toNat < size := by
  have hmask : (UInt64.ofNat (size - 1)).toNat = size - 1 := by
    simp only [UInt64.toNat_ofNat']
    exact Nat.mod_eq_of_lt (by omega)
  have hand : (x &&& UInt64.ofNat (size - 1)).toNat ≤ size - 1 := by
    rw [UInt64.toNat_and, hmask]
    exact Nat.and_le_right
  omega

/-- Masking with `size - 1` is the remainder when the size is a power of two. -/
theorem toNat_and_ofNat_pred_eq_mod (x : UInt64) {k : ℕ} (hk : k ≤ 64) :
    (x &&& UInt64.ofNat (2 ^ k - 1)).toNat = x.toNat % 2 ^ k := by
  have hpow : 2 ^ k ≤ 2 ^ 64 := Nat.pow_le_pow_right (by decide) hk
  have hmask : (UInt64.ofNat (2 ^ k - 1)).toNat = 2 ^ k - 1 := by
    simp only [UInt64.toNat_ofNat']
    exact Nat.mod_eq_of_lt (by omega)
  rw [UInt64.toNat_and, hmask, Nat.and_two_pow_sub_one_eq_mod]

/-- The distance from the home slot gives the number of the probe back. -/
theorem gap_mod_eq {size home idx probe : ℕ} (hhome : home < size)
    (hidx : (home + probe) % size = idx) : (idx + size - home) % size = probe % size := by
  have hrest : probe % size < size := Nat.mod_lt _ (by omega)
  have hsum : (home + probe % size) % size = idx := by rw [Nat.add_mod_mod, hidx]
  by_cases hwrap : home + probe % size < size
  · rw [Nat.mod_eq_of_lt hwrap] at hsum
    have hgap : idx + size - home = probe % size + size := by omega
    rw [hgap, Nat.add_mod_right, Nat.mod_mod]
  · have hwrapped : (home + probe % size) % size = home + probe % size - size := by
      rw [Nat.mod_eq_sub_mod (by omega), Nat.mod_eq_of_lt (by omega)]
    have hgap : idx + size - home = probe % size := by omega
    rw [hgap, Nat.mod_mod]

end LibWake
