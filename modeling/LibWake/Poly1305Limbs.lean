import Mathlib.Data.Nat.ModEq
import Mathlib.Tactic.LinearCombination
import LibWake.MonocypherBytes

/-!
# One block of Poly1305

`poly_blocks` holds the accumulator in five words and delays the carries.  No product and no sum
overflows while the top word of the accumulator stays at most 4 and the key is clamped, and the
block step is then multiplication by the key modulo 2^130 - 5.
-/

namespace LibWake
namespace Monocypher

/-- The prime 2^130 - 5. -/
def p1305 : ℕ := 2 ^ 130 - 5

structure Words4 where
  w0 : UInt32
  w1 : UInt32
  w2 : UInt32
  w3 : UInt32
  deriving DecidableEq, Repr

/-- The accumulator `h`. -/
structure Limbs where
  h0 : UInt32
  h1 : UInt32
  h2 : UInt32
  h3 : UInt32
  h4 : UInt32
  deriving DecidableEq, Repr

def Words4.value (w : Words4) : ℕ :=
  w.w0.toNat + 2 ^ 32 * w.w1.toNat + 2 ^ 64 * w.w2.toNat + 2 ^ 96 * w.w3.toNat

def Limbs.value (h : Limbs) : ℕ :=
  h.h0.toNat + 2 ^ 32 * h.h1.toNat + 2 ^ 64 * h.h2.toNat + 2 ^ 96 * h.h3.toNat +
    2 ^ 128 * h.h4.toNat

/-- The low word of a sum. -/
def lowWord (x : UInt64) : UInt64 := x &&& 0xffffffff

/-- The product without its carries. -/
structure Columns where
  x0 : UInt64
  x1 : UInt64
  x2 : UInt64
  x3 : UInt64
  x4 : UInt32
  deriving DecidableEq, Repr

def Columns.value (x : Columns) : ℕ :=
  x.x0.toNat + 2 ^ 32 * x.x1.toNat + 2 ^ 64 * x.x2.toNat + 2 ^ 96 * x.x3.toNat +
    2 ^ 128 * x.x4.toNat

/-- `(h + c) * r`, without carry propagation. -/
def polyProduct (r : Words4) (s0 s1 s2 s3 : UInt64) (s4 : UInt32) : Columns :=
  let rr0 := (r.w0 >>> 2) * 5
  let rr1 := (r.w1 >>> 2) + r.w1
  let rr2 := (r.w2 >>> 2) + r.w2
  let rr3 := (r.w3 >>> 2) + r.w3
  let rr4 := r.w0 &&& 3
  ⟨s0 * r.w0.toUInt64 + s1 * rr3.toUInt64 + s2 * rr2.toUInt64 + s3 * rr1.toUInt64 +
      (s4 * rr0).toUInt64,
    s0 * r.w1.toUInt64 + s1 * r.w0.toUInt64 + s2 * rr3.toUInt64 + s3 * rr2.toUInt64 +
      (s4 * rr1).toUInt64,
    s0 * r.w2.toUInt64 + s1 * r.w1.toUInt64 + s2 * r.w0.toUInt64 + s3 * rr3.toUInt64 +
      (s4 * rr2).toUInt64,
    s0 * r.w3.toUInt64 + s1 * r.w2.toUInt64 + s2 * r.w1.toUInt64 + s3 * r.w0.toUInt64 +
      (s4 * rr3).toUInt64,
    s4 * rr4⟩

/-- The partial reduction modulo 2^130 - 5. -/
def polyReduce (x : Columns) : Limbs :=
  let u5 := (x.x4.toUInt64 + (x.x3 >>> 32)).toUInt32
  let u0 := ((u5 >>> 2) * 5).toUInt64 + lowWord x.x0
  let u1 := (u0 >>> 32) + lowWord x.x1 + (x.x0 >>> 32)
  let u2 := (u1 >>> 32) + lowWord x.x2 + (x.x1 >>> 32)
  let u3 := (u2 >>> 32) + lowWord x.x3 + (x.x2 >>> 32)
  let u4 := ((u3 >>> 32) + (u5 &&& 3).toUInt64).toUInt32
  ⟨(lowWord u0).toUInt32, (lowWord u1).toUInt32, (lowWord u2).toUInt32, (lowWord u3).toUInt32, u4⟩

/-- One iteration of `poly_blocks`. -/
def polyBlock (r : Words4) (h : Limbs) (input : List UInt8) (last : UInt32) : Limbs :=
  polyReduce (polyProduct r (h.h0.toUInt64 + (load32Le input).toUInt64)
    (h.h1.toUInt64 + (load32Le (input.drop 4)).toUInt64)
    (h.h2.toUInt64 + (load32Le (input.drop 8)).toUInt64)
    (h.h3.toUInt64 + (load32Le (input.drop 12)).toUInt64) (h.h4 + last))

/-- The key as `crypto_poly1305_init` clamps it. -/
structure Clamped (r : Words4) : Prop where
  low : r.w0.toNat < 2 ^ 28
  rest : ∀ w ∈ [r.w1, r.w2, r.w3], w.toNat < 2 ^ 28 ∧ w.toNat % 4 = 0

/-! ## Words without overflow -/

theorem toNat_add_of_lt {a b : UInt64} (hlt : a.toNat + b.toNat < 2 ^ 64) :
    (a + b).toNat = a.toNat + b.toNat := by
  rw [UInt64.toNat_add]
  exact Nat.mod_eq_of_lt hlt

theorem toNat_mul_of_lt {a b : UInt64} (hlt : a.toNat * b.toNat < 2 ^ 64) :
    (a * b).toNat = a.toNat * b.toNat := by
  rw [UInt64.toNat_mul]
  exact Nat.mod_eq_of_lt hlt

theorem toNat_add32_of_lt {a b : UInt32} (hlt : a.toNat + b.toNat < 2 ^ 32) :
    (a + b).toNat = a.toNat + b.toNat := by
  rw [UInt32.toNat_add]
  exact Nat.mod_eq_of_lt hlt

theorem toNat_mul32_of_lt {a b : UInt32} (hlt : a.toNat * b.toNat < 2 ^ 32) :
    (a * b).toNat = a.toNat * b.toNat := by
  rw [UInt32.toNat_mul]
  exact Nat.mod_eq_of_lt hlt

theorem toNat_shiftRight32 (x : UInt64) : (x >>> 32).toNat = x.toNat / 2 ^ 32 := by
  rw [UInt64.toNat_shiftRight, Nat.shiftRight_eq_div_pow]
  rfl

theorem toNat_shiftRight2 (x : UInt32) : (x >>> 2).toNat = x.toNat / 4 := by
  rw [UInt32.toNat_shiftRight, Nat.shiftRight_eq_div_pow]
  rfl

theorem toNat_and3 (x : UInt32) : (x &&& 3).toNat = x.toNat % 4 := by
  rw [UInt32.toNat_and]
  exact Nat.and_two_pow_sub_one_eq_mod x.toNat 2

theorem lowWord_toNat (x : UInt64) : (lowWord x).toNat = x.toNat % 2 ^ 32 := by
  rw [lowWord, UInt64.toNat_and]
  exact Nat.and_two_pow_sub_one_eq_mod x.toNat 32

theorem lowWord_toUInt32_toNat (x : UInt64) : (lowWord x).toUInt32.toNat = x.toNat % 2 ^ 32 := by
  rw [UInt64.toNat_toUInt32, lowWord_toNat, Nat.mod_mod]

/-- A sum of four products of a sum of two words with a key word, and a fifth product. -/
theorem dot_toNat {s0 s1 s2 s3 : UInt64} {a b c d e : UInt32}
    (hs : ∀ s ∈ [s0, s1, s2, s3], s.toNat ≤ 2 ^ 33 - 2)
    (hw : ∀ w ∈ [a, b, c, d], w.toNat ≤ 335544315) :
    (s0 * a.toUInt64 + s1 * b.toUInt64 + s2 * c.toUInt64 + s3 * d.toUInt64 +
        e.toUInt64).toNat =
      s0.toNat * a.toNat + s1.toNat * b.toNat + s2.toNat * c.toNat + s3.toNat * d.toNat +
        e.toNat := by
  have hproduct : ∀ (s : UInt64) (w : UInt32), s ∈ [s0, s1, s2, s3] → w ∈ [a, b, c, d] →
      s.toNat * w.toNat ≤ (2 ^ 33 - 2) * 335544315 :=
    fun s w hsmem hwmem => Nat.mul_le_mul (hs s hsmem) (hw w hwmem)
  have h0 := hproduct s0 a (by simp) (by simp)
  have h1 := hproduct s1 b (by simp) (by simp)
  have h2 := hproduct s2 c (by simp) (by simp)
  have h3 := hproduct s3 d (by simp) (by simp)
  have he := e.toNat_lt
  have hm0 : (s0 * a.toUInt64).toNat = s0.toNat * a.toNat := by
    refine toNat_mul_of_lt ?_
    rw [UInt32.toNat_toUInt64]
    omega
  have hm1 : (s1 * b.toUInt64).toNat = s1.toNat * b.toNat := by
    refine toNat_mul_of_lt ?_
    rw [UInt32.toNat_toUInt64]
    omega
  have hm2 : (s2 * c.toUInt64).toNat = s2.toNat * c.toNat := by
    refine toNat_mul_of_lt ?_
    rw [UInt32.toNat_toUInt64]
    omega
  have hm3 : (s3 * d.toUInt64).toNat = s3.toNat * d.toNat := by
    refine toNat_mul_of_lt ?_
    rw [UInt32.toNat_toUInt64]
    omega
  have ha1 := toNat_add_of_lt (a := s0 * a.toUInt64) (b := s1 * b.toUInt64)
    (by rw [hm0, hm1]; omega)
  rw [hm0, hm1] at ha1
  have ha2 := toNat_add_of_lt (a := s0 * a.toUInt64 + s1 * b.toUInt64) (b := s2 * c.toUInt64)
    (by rw [ha1, hm2]; omega)
  rw [ha1, hm2] at ha2
  have ha3 := toNat_add_of_lt (a := s0 * a.toUInt64 + s1 * b.toUInt64 + s2 * c.toUInt64)
    (b := s3 * d.toUInt64) (by rw [ha2, hm3]; omega)
  rw [ha2, hm3] at ha3
  rw [toNat_add_of_lt (by rw [ha3, UInt32.toNat_toUInt64]; omega), ha3, UInt32.toNat_toUInt64]

/-! ## The block step over the natural numbers -/

/-- The columns of the product, reduced with 2^130 = 5, represent the product. -/
theorem columns_modEq (s0 s1 s2 s3 s4 q0 e0 q1 q2 q3 : ℕ) :
    (s0 * (4 * q0 + e0) + s1 * (5 * q3) + s2 * (5 * q2) + s3 * (5 * q1) + s4 * (5 * q0)) +
        2 ^ 32 * (s0 * (4 * q1) + s1 * (4 * q0 + e0) + s2 * (5 * q3) + s3 * (5 * q2) +
          s4 * (5 * q1)) +
        2 ^ 64 * (s0 * (4 * q2) + s1 * (4 * q1) + s2 * (4 * q0 + e0) + s3 * (5 * q3) +
          s4 * (5 * q2)) +
        2 ^ 96 * (s0 * (4 * q3) + s1 * (4 * q2) + s2 * (4 * q1) + s3 * (4 * q0 + e0) +
          s4 * (5 * q3)) +
        2 ^ 128 * (s4 * e0) ≡
      (s0 + 2 ^ 32 * s1 + 2 ^ 64 * s2 + 2 ^ 96 * s3 + 2 ^ 128 * s4) *
        (4 * q0 + e0 + 2 ^ 32 * (4 * q1) + 2 ^ 64 * (4 * q2) + 2 ^ 96 * (4 * q3))
      [MOD p1305] := by
  refine (Nat.modEq_iff_dvd.mpr ⟨((s1 * q3 + s2 * q2 + s3 * q1 + s4 * q0 +
    2 ^ 32 * (s2 * q3 + s3 * q2 + s4 * q1) + 2 ^ 64 * (s3 * q3 + s4 * q2) +
    2 ^ 96 * (s4 * q3) : ℕ) : ℤ), ?_⟩)
  have hp : ((p1305 : ℕ) : ℤ) = 2 ^ 130 - 5 := by decide
  rw [hp]
  push_cast
  ring

/-- The partial reduction and its carries. -/
theorem carries_modEq {x0 x1 x2 x3 x4 : ℕ} (h0 : x0 < 2 ^ 64) (h1 : x1 < 2 ^ 64)
    (h2 : x2 < 2 ^ 64) (h3 : x3 < 2 ^ 63) (h4 : x4 ≤ 15) :
    let u5 := x4 + x3 / 2 ^ 32
    let u0 := u5 / 4 * 5 + x0 % 2 ^ 32
    let u1 := u0 / 2 ^ 32 + x1 % 2 ^ 32 + x0 / 2 ^ 32
    let u2 := u1 / 2 ^ 32 + x2 % 2 ^ 32 + x1 / 2 ^ 32
    let u3 := u2 / 2 ^ 32 + x3 % 2 ^ 32 + x2 / 2 ^ 32
    let u4 := u3 / 2 ^ 32 + u5 % 4
    u4 ≤ 4 ∧ u0 % 2 ^ 32 + 2 ^ 32 * (u1 % 2 ^ 32) + 2 ^ 64 * (u2 % 2 ^ 32) +
        2 ^ 96 * (u3 % 2 ^ 32) + 2 ^ 128 * u4 ≡
      x0 + 2 ^ 32 * x1 + 2 ^ 64 * x2 + 2 ^ 96 * x3 + 2 ^ 128 * x4 [MOD p1305] := by
  intro u5 u0 u1 u2 u3 u4
  have hu4 : u4 ≤ 4 := by omega
  refine ⟨hu4, Nat.modEq_iff_dvd.mpr ⟨((u5 / 4 : ℕ) : ℤ), ?_⟩⟩
  have hp : ((p1305 : ℕ) : ℤ) = 2 ^ 130 - 5 := by decide
  rw [hp]
  omega

/-! ## The block step over words -/

theorem polyReduce_value {x : Columns} (h3 : x.x3.toNat < 2 ^ 63) (h4 : x.x4.toNat ≤ 15) :
    (polyReduce x).h4.toNat ≤ 4 ∧ (polyReduce x).value ≡ x.value [MOD p1305] := by
  have hx0 := x.x0.toNat_lt
  have hx1 := x.x1.toNat_lt
  have hx2 := x.x2.toNat_lt
  unfold polyReduce
  extract_lets u5 u0 u1 u2 u3 u4
  have h5 : u5.toNat = x.x4.toNat + x.x3.toNat / 2 ^ 32 := by
    have hsum : (x.x4.toUInt64 + (x.x3 >>> 32)).toNat = x.x4.toNat + x.x3.toNat / 2 ^ 32 := by
      rw [toNat_add_of_lt, UInt32.toNat_toUInt64, toNat_shiftRight32]
      rw [UInt32.toNat_toUInt64, toNat_shiftRight32]
      omega
    change (UInt64.toUInt32 _).toNat = _
    rw [UInt64.toNat_toUInt32, hsum]
    exact Nat.mod_eq_of_lt (by omega)
  have hfive : ((u5 >>> 2) * 5).toNat = u5.toNat / 4 * 5 := by
    rw [toNat_mul32_of_lt, toNat_shiftRight2]
    · rfl
    · rw [toNat_shiftRight2]
      change u5.toNat / 4 * 5 < 2 ^ 32
      omega
  have h0 : u0.toNat = u5.toNat / 4 * 5 + x.x0.toNat % 2 ^ 32 := by
    change (UInt64.toNat (_ + _)) = _
    rw [toNat_add_of_lt, UInt32.toNat_toUInt64, hfive, lowWord_toNat]
    rw [UInt32.toNat_toUInt64, hfive, lowWord_toNat]
    omega
  have hcarry : ∀ u low high : UInt64,
      ((u >>> 32) + lowWord low + (high >>> 32)).toNat =
        u.toNat / 2 ^ 32 + low.toNat % 2 ^ 32 + high.toNat / 2 ^ 32 := by
    intro u low high
    have hu := u.toNat_lt
    have hhigh := high.toNat_lt
    have hfirst : ((u >>> 32) + lowWord low).toNat =
        u.toNat / 2 ^ 32 + low.toNat % 2 ^ 32 := by
      rw [toNat_add_of_lt, toNat_shiftRight32, lowWord_toNat]
      rw [toNat_shiftRight32, lowWord_toNat]
      omega
    rw [toNat_add_of_lt, hfirst, toNat_shiftRight32]
    rw [hfirst, toNat_shiftRight32]
    omega
  have h1 : u1.toNat = u0.toNat / 2 ^ 32 + x.x1.toNat % 2 ^ 32 + x.x0.toNat / 2 ^ 32 :=
    hcarry u0 x.x1 x.x0
  have h2 : u2.toNat = u1.toNat / 2 ^ 32 + x.x2.toNat % 2 ^ 32 + x.x1.toNat / 2 ^ 32 :=
    hcarry u1 x.x2 x.x1
  have hu3 : u3.toNat = u2.toNat / 2 ^ 32 + x.x3.toNat % 2 ^ 32 + x.x2.toNat / 2 ^ 32 :=
    hcarry u2 x.x3 x.x2
  have hu4 : u4.toNat = u3.toNat / 2 ^ 32 + u5.toNat % 4 := by
    have hlt := u3.toNat_lt
    have hsum : ((u3 >>> 32) + (u5 &&& 3).toUInt64).toNat = u3.toNat / 2 ^ 32 + u5.toNat % 4 := by
      rw [toNat_add_of_lt, UInt32.toNat_toUInt64, toNat_shiftRight32, toNat_and3]
      rw [UInt32.toNat_toUInt64, toNat_shiftRight32, toNat_and3]
      omega
    change (UInt64.toUInt32 _).toNat = _
    rw [UInt64.toNat_toUInt32, hsum]
    exact Nat.mod_eq_of_lt (by omega)
  have hnat := carries_modEq hx0 hx1 hx2 h3 h4
  simp only [← h5, ← h0, ← h1, ← h2, ← hu3, ← hu4] at hnat
  refine ⟨hnat.1, ?_⟩
  simp only [Limbs.value, lowWord_toUInt32_toNat]
  exact hnat.2

theorem polyProduct_value {r : Words4} {s0 s1 s2 s3 : UInt64} {s4 : UInt32} (hr : Clamped r)
    (hs : ∀ s ∈ [s0, s1, s2, s3], s.toNat ≤ 2 ^ 33 - 2) (h4 : s4.toNat ≤ 5) :
    (polyProduct r s0 s1 s2 s3 s4).x3.toNat < 2 ^ 63 ∧
      (polyProduct r s0 s1 s2 s3 s4).x4.toNat ≤ 15 ∧
      (polyProduct r s0 s1 s2 s3 s4).value ≡
        (s0.toNat + 2 ^ 32 * s1.toNat + 2 ^ 64 * s2.toNat + 2 ^ 96 * s3.toNat +
          2 ^ 128 * s4.toNat) * r.value [MOD p1305] := by
  have hlow := hr.low
  have hw1 := hr.rest r.w1 (by simp)
  have hw2 := hr.rest r.w2 (by simp)
  have hw3 := hr.rest r.w3 (by simp)
  have hrr0 : ((r.w0 >>> 2) * 5).toNat = 5 * (r.w0.toNat / 4) := by
    rw [toNat_mul32_of_lt, toNat_shiftRight2, Nat.mul_comm]
    · rfl
    · rw [toNat_shiftRight2]
      change r.w0.toNat / 4 * 5 < 2 ^ 32
      omega
  have hrest : ∀ w ∈ [r.w1, r.w2, r.w3], ((w >>> 2) + w).toNat = 5 * (w.toNat / 4) := by
    intro w hw
    obtain ⟨hlt, hmod⟩ := hr.rest w hw
    rw [toNat_add32_of_lt, toNat_shiftRight2]
    · omega
    · rw [toNat_shiftRight2]
      omega
  have hrr1 := hrest r.w1 (by simp)
  have hrr2 := hrest r.w2 (by simp)
  have hrr3 := hrest r.w3 (by simp)
  have hrr4 : (r.w0 &&& 3).toNat = r.w0.toNat % 4 := toNat_and3 r.w0
  have hlast : ∀ w : UInt32, w.toNat ≤ 335544315 → (s4 * w).toNat = s4.toNat * w.toNat := by
    intro w hw
    have hprod : s4.toNat * w.toNat ≤ 5 * 335544315 := Nat.mul_le_mul h4 hw
    exact toNat_mul32_of_lt (by omega)
  unfold polyProduct
  extract_lets rr0 rr1 rr2 rr3 rr4
  change rr0.toNat = _ at hrr0
  change rr1.toNat = _ at hrr1
  change rr2.toNat = _ at hrr2
  change rr3.toNat = _ at hrr3
  change rr4.toNat = _ at hrr4
  have hsmall : ∀ w ∈ [r.w0, r.w1, r.w2, r.w3, rr0, rr1, rr2, rr3], w.toNat ≤ 335544315 := by
    intro w hw
    simp only [List.mem_cons, List.not_mem_nil, or_false] at hw
    rcases hw with rfl | rfl | rfl | rfl | rfl | rfl | rfl | rfl <;> omega
  have hkey : ∀ a b c d : UInt32, [a, b, c, d] ⊆ [r.w0, r.w1, r.w2, r.w3, rr0, rr1, rr2, rr3] →
      ∀ w ∈ [a, b, c, d], w.toNat ≤ 335544315 :=
    fun a b c d hsub w hw => hsmall w (hsub hw)
  have hx0 := dot_toNat (e := s4 * rr0) hs (hkey r.w0 rr3 rr2 rr1 (by simp))
  have hx1 := dot_toNat (e := s4 * rr1) hs (hkey r.w1 r.w0 rr3 rr2 (by simp))
  have hx2 := dot_toNat (e := s4 * rr2) hs (hkey r.w2 r.w1 r.w0 rr3 (by simp))
  have hx3 := dot_toNat (e := s4 * rr3) hs (hkey r.w3 r.w2 r.w1 r.w0 (by simp))
  have hx4 := hlast rr4 (by omega)
  rw [hlast rr0 (hsmall rr0 (by simp)), hrr0, hrr1, hrr2, hrr3] at hx0
  rw [hlast rr1 (hsmall rr1 (by simp)), hrr1, hrr2, hrr3] at hx1
  rw [hlast rr2 (hsmall rr2 (by simp)), hrr2, hrr3] at hx2
  rw [hlast rr3 (hsmall rr3 (by simp)), hrr3] at hx3
  rw [hrr4] at hx4
  refine ⟨?_, ?_, ?_⟩
  · have htop : ∀ (s : UInt64) (w : UInt32), s.toNat ≤ 2 ^ 33 - 2 → w.toNat < 2 ^ 28 →
        s.toNat * w.toNat ≤ (2 ^ 33 - 2) * (2 ^ 28 - 1) :=
      fun s w hsle hwlt => Nat.mul_le_mul hsle (Nat.le_pred_of_lt hwlt)
    have hp0 := htop s0 r.w3 (hs s0 (by simp)) hw3.1
    have hp1 := htop s1 r.w2 (hs s1 (by simp)) hw2.1
    have hp2 := htop s2 r.w1 (hs s2 (by simp)) hw1.1
    have hp3 := htop s3 r.w0 (hs s3 (by simp)) hlow
    have hp4 : s4.toNat * (5 * (r.w3.toNat / 4)) ≤ 5 * 335544315 :=
      Nat.mul_le_mul h4 (by omega)
    rw [hx3]
    omega
  · have hprod : s4.toNat * (r.w0.toNat % 4) ≤ 5 * 3 := Nat.mul_le_mul h4 (by omega)
    rw [hx4]
    omega
  · have hcolumns := columns_modEq s0.toNat s1.toNat s2.toNat s3.toNat s4.toNat
      (r.w0.toNat / 4) (r.w0.toNat % 4) (r.w1.toNat / 4) (r.w2.toNat / 4) (r.w3.toNat / 4)
    have hr0 : 4 * (r.w0.toNat / 4) + r.w0.toNat % 4 = r.w0.toNat := Nat.div_add_mod _ 4
    have hfour : ∀ w : UInt32, w.toNat < 2 ^ 28 ∧ w.toNat % 4 = 0 →
        4 * (w.toNat / 4) = w.toNat := fun w hw => by omega
    rw [hr0, hfour r.w1 hw1, hfour r.w2 hw2, hfour r.w3 hw3] at hcolumns
    simp only [Columns.value, Words4.value]
    rw [hx0, hx1, hx2, hx3, hx4]
    exact hcolumns

theorem loads_value {input : List UInt8} (hle : 16 ≤ input.length) :
    leNat (input.take 16) = (load32Le input).toNat + 2 ^ 32 * (load32Le (input.drop 4)).toNat +
      2 ^ 64 * (load32Le (input.drop 8)).toNat + 2 ^ 96 * (load32Le (input.drop 12)).toNat := by
  have hword : ∀ s : List UInt8, 4 ≤ s.length → (load32Le s).toNat = leNat (s.take 4) := by
    intro s hs
    match s with
    | a :: b :: c :: d :: rest => exact load32Le_toNat a b c d rest
  have hsplit : ∀ k, k + 4 ≤ 16 → leNat ((input.drop k).take (16 - k)) =
      (load32Le (input.drop k)).toNat +
        2 ^ 32 * leNat ((input.drop (k + 4)).take (16 - (k + 4))) := by
    intro k hk
    have hlong : 4 ≤ (input.drop k).length := by
      rw [List.length_drop]
      omega
    have hcount : 16 - k = 4 + (16 - (k + 4)) := by omega
    rw [hword _ hlong, hcount, List.take_add, leNat_append, List.length_take_of_le hlong,
      List.drop_drop]
    rfl
  have h0 := hsplit 0 (by decide)
  have h4 := hsplit 4 (by decide)
  have h8 := hsplit 8 (by decide)
  have h12 := hsplit 12 (by decide)
  have hend : leNat ((input.drop (12 + 4)).take (16 - (12 + 4))) = 0 := by
    rw [Nat.sub_self, List.take_zero]
    rfl
  rw [hend] at h12
  change leNat (input.take 16) = (load32Le input).toNat +
    2 ^ 32 * leNat ((input.drop 4).take (16 - 4)) at h0
  change leNat ((input.drop 4).take (16 - 4)) = _ + 2 ^ 32 * leNat ((input.drop 8).take (16 - 8))
    at h4
  change leNat ((input.drop 8).take (16 - 8)) = _ + 2 ^ 32 * leNat ((input.drop 12).take (16 - 12))
    at h8
  omega

/-- A block step multiplies by the key what the block is added to. -/
theorem polyBlock_value {r : Words4} {h : Limbs} {input : List UInt8} {last : UInt32}
    (hr : Clamped r) (htop : h.h4.toNat ≤ 4) (hlast : last.toNat ≤ 1)
    (hle : 16 ≤ input.length) :
    (polyBlock r h input last).h4.toNat ≤ 4 ∧
      (polyBlock r h input last).value ≡
        (h.value + (leNat (input.take 16) + 2 ^ 128 * last.toNat)) * r.value [MOD p1305] := by
  have hsum : ∀ a b : UInt32, (a.toUInt64 + b.toUInt64).toNat = a.toNat + b.toNat ∧
      (a.toUInt64 + b.toUInt64).toNat ≤ 2 ^ 33 - 2 := by
    intro a b
    have ha := a.toNat_lt
    have hb := b.toNat_lt
    have heq : (a.toUInt64 + b.toUInt64).toNat = a.toNat + b.toNat := by
      rw [toNat_add_of_lt, UInt32.toNat_toUInt64, UInt32.toNat_toUInt64]
      rw [UInt32.toNat_toUInt64, UInt32.toNat_toUInt64]
      omega
    exact ⟨heq, by omega⟩
  have h4 : (h.h4 + last).toNat = h.h4.toNat + last.toNat := toNat_add32_of_lt (by omega)
  have hs : ∀ s ∈ [h.h0.toUInt64 + (load32Le input).toUInt64,
      h.h1.toUInt64 + (load32Le (input.drop 4)).toUInt64,
      h.h2.toUInt64 + (load32Le (input.drop 8)).toUInt64,
      h.h3.toUInt64 + (load32Le (input.drop 12)).toUInt64], s.toNat ≤ 2 ^ 33 - 2 := by
    intro s hmem
    simp only [List.mem_cons, List.not_mem_nil, or_false] at hmem
    rcases hmem with rfl | rfl | rfl | rfl <;> exact (hsum _ _).2
  obtain ⟨hx3, hx4, hproduct⟩ := polyProduct_value hr hs (by rw [h4]; omega)
  obtain ⟨hnew, hreduce⟩ := polyReduce_value hx3 hx4
  refine ⟨hnew, hreduce.trans ?_⟩
  have hvalue : h.value + (leNat (input.take 16) + 2 ^ 128 * last.toNat) =
      (h.h0.toUInt64 + (load32Le input).toUInt64).toNat +
        2 ^ 32 * (h.h1.toUInt64 + (load32Le (input.drop 4)).toUInt64).toNat +
        2 ^ 64 * (h.h2.toUInt64 + (load32Le (input.drop 8)).toUInt64).toNat +
        2 ^ 96 * (h.h3.toUInt64 + (load32Le (input.drop 12)).toUInt64).toNat +
        2 ^ 128 * (h.h4 + last).toNat := by
    rw [(hsum _ _).1, (hsum _ _).1, (hsum _ _).1, (hsum _ _).1, h4, loads_value hle, Limbs.value]
    ring
  rw [hvalue]
  exact hproduct

end Monocypher
end LibWake
