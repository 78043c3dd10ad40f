import Mathlib.Data.List.Basic
import Mathlib.Data.Nat.Digits.Defs
import Mathlib.Tactic.Ring

/-!
# Little-endian bytes

Fixed-width unsigned integers as little-endian byte strings, and back.
-/

namespace LibWake

/-- The low `n` bytes of `x`, least significant first. -/
def leBytes : ℕ → ℕ → List UInt8
  | 0, _ => []
  | n + 1, x => UInt8.ofNat (x % 256) :: leBytes n (x / 256)

/-- The natural number spelled by little-endian bytes. -/
def leNat : List UInt8 → ℕ
  | [] => 0
  | byte :: rest => byte.toNat + 256 * leNat rest

@[simp] theorem leBytes_length (n x : ℕ) : (leBytes n x).length = n := by
  induction n generalizing x with
  | zero => rfl
  | succ n ih => simp [leBytes, ih]

theorem leNat_leBytes {n x : ℕ} (hx : x < 256 ^ n) : leNat (leBytes n x) = x := by
  induction n generalizing x with
  | zero =>
      simp only [pow_zero, Nat.lt_one_iff] at hx
      simp [leBytes, leNat, hx]
  | succ n ih =>
      have hquot : x / 256 < 256 ^ n := by
        rw [pow_succ] at hx
        omega
      simp only [leBytes, leNat, ih hquot]
      simp only [UInt8.toNat_ofNat']
      omega

theorem leBytes_injective {n x y : ℕ} (hx : x < 256 ^ n) (hy : y < 256 ^ n)
    (heq : leBytes n x = leBytes n y) : x = y := by
  have hread := congrArg leNat heq
  rwa [leNat_leBytes hx, leNat_leBytes hy] at hread

theorem or_shiftLeft {x y k : ℕ} (hlt : y < 2 ^ k) : y ||| x <<< k = y + 2 ^ k * x := by
  rw [Nat.or_comm, ← Nat.shiftLeft_add_eq_or_of_lt hlt, Nat.shiftLeft_eq]
  ring

end LibWake
