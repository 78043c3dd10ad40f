import Mathlib.Data.List.GetD
import Mathlib.Tactic.Ring
import LibWake.ByteOrder

/-!
# The utilities of Monocypher

Words as little-endian bytes, the gap to the next multiple of a block size, and the comparison of
two authentication tags without a branch on their bytes.
-/

namespace LibWake
namespace Monocypher

/-! ## Words -/

def load32Le (s : List UInt8) : UInt32 :=
  (s.getD 0 0).toUInt32 ||| (s.getD 1 0).toUInt32 <<< 8 ||| (s.getD 2 0).toUInt32 <<< 16 |||
    (s.getD 3 0).toUInt32 <<< 24

def load64Le (s : List UInt8) : UInt64 :=
  (load32Le s).toUInt64 ||| (load32Le (s.drop 4)).toUInt64 <<< 32

def store32Le (x : UInt32) : List UInt8 :=
  [(x &&& 0xff).toUInt8, ((x >>> 8) &&& 0xff).toUInt8, ((x >>> 16) &&& 0xff).toUInt8,
    ((x >>> 24) &&& 0xff).toUInt8]

def store64Le (x : UInt64) : List UInt8 :=
  store32Le x.toUInt32 ++ store32Le (x >>> 32).toUInt32

/-- `gap`: how many bytes are missing to a multiple of a power of two; `size_t` has 64 bits. -/
def gap (x pow2 : ℕ) : ℕ :=
  ((~~~UInt64.ofNat x + 1) &&& (UInt64.ofNat pow2 - 1)).toNat

theorem leBytes_add (m n x : ℕ) :
    leBytes (m + n) x = leBytes m x ++ leBytes n (x / 256 ^ m) := by
  induction m generalizing x with
  | zero => rw [Nat.zero_add, pow_zero, Nat.div_one, leBytes, List.nil_append]
  | succ m ih =>
      rw [Nat.succ_add, leBytes, ih, Nat.div_div_eq_div_mul, ← pow_succ']
      rfl

theorem leBytes_mod (n x : ℕ) : leBytes n (x % 256 ^ n) = leBytes n x := by
  induction n generalizing x with
  | zero => rfl
  | succ n ih =>
      have hbyte : x % 256 ^ (n + 1) % 256 = x % 256 :=
        Nat.mod_mod_of_dvd x (Dvd.intro_left (256 ^ n) rfl)
      have hrest : x % 256 ^ (n + 1) / 256 = x / 256 % 256 ^ n := by
        rw [pow_succ', Nat.mod_mul_right_div_self]
      rw [leBytes, leBytes, hbyte, hrest, ih]

theorem leNat_lt (bytes : List UInt8) : leNat bytes < 256 ^ bytes.length := by
  induction bytes with
  | nil => exact Nat.one_pos
  | cons byte rest ih =>
      have hbyte := byte.toNat_lt
      simp only [leNat, List.length_cons, pow_succ]
      omega

theorem leNat_injective {a b : List UInt8} (hlength : a.length = b.length)
    (heq : leNat a = leNat b) : a = b := by
  induction a generalizing b with
  | nil => exact (List.eq_nil_of_length_eq_zero hlength.symm).symm
  | cons byte rest ih =>
      cases b with
      | nil => cases hlength
      | cons other others =>
          simp only [leNat] at heq
          have hbyte := byte.toNat_lt
          have hother := other.toNat_lt
          have hsame : byte = other := UInt8.toNat_inj.mp (by omega)
          have hrest : rest = others := ih (Nat.succ.inj hlength) (by omega)
          rw [hsame, hrest]

theorem leNat_append (a b : List UInt8) :
    leNat (a ++ b) = leNat a + 256 ^ a.length * leNat b := by
  induction a with
  | nil => simp [leNat]
  | cons byte rest ih =>
      simp only [List.cons_append, leNat, ih, List.length_cons, pow_succ]
      ring

theorem leNat_replicate_zero (k : ℕ) : leNat (List.replicate k 0) = 0 := by
  induction k with
  | zero => rfl
  | succ k ih => simp [List.replicate_succ, leNat, ih]

theorem load32Le_toNat (a b c d : UInt8) (rest : List UInt8) :
    (load32Le (a :: b :: c :: d :: rest)).toNat = leNat [a, b, c, d] := by
  have ha := a.toNat_lt
  have hb := b.toNat_lt
  have hc := c.toNat_lt
  have hd := d.toNat_lt
  have h8 : (8 : UInt32).toNat % 32 = 8 := rfl
  have h16 : (16 : UInt32).toNat % 32 = 16 := rfl
  have h24 : (24 : UInt32).toNat % 32 = 24 := rfl
  have hshift : ∀ (x : UInt8) (k : ℕ), k ≤ 24 → x.toNat <<< k % 2 ^ 32 = x.toNat <<< k := by
    intro x k hk
    have hx := x.toNat_lt
    have hpow : 2 ^ k ≤ 2 ^ 24 := Nat.pow_le_pow_right (by decide) hk
    refine Nat.mod_eq_of_lt ?_
    rw [Nat.shiftLeft_eq]
    calc x.toNat * 2 ^ k ≤ x.toNat * 2 ^ 24 := Nat.mul_le_mul_left _ hpow
      _ < 2 ^ 32 := by omega
  simp only [load32Le, List.getD_cons_zero, List.getD_cons_succ, UInt32.toNat_or,
    UInt32.toNat_shiftLeft, UInt8.toNat_toUInt32, leNat, h8, h16, h24]
  have hab : a.toNat ||| b.toNat <<< 8 = a.toNat + 2 ^ 8 * b.toNat := or_shiftLeft ha
  have habc : (a.toNat + 2 ^ 8 * b.toNat) ||| c.toNat <<< 16 =
      a.toNat + 2 ^ 8 * b.toNat + 2 ^ 16 * c.toNat := or_shiftLeft (by omega)
  have habcd : (a.toNat + 2 ^ 8 * b.toNat + 2 ^ 16 * c.toNat) ||| d.toNat <<< 24 =
      a.toNat + 2 ^ 8 * b.toNat + 2 ^ 16 * c.toNat + 2 ^ 24 * d.toNat :=
    or_shiftLeft (by omega)
  rw [hshift b 8 (by decide), hshift c 16 (by decide), hshift d 24 (by decide), hab, habc, habcd]
  omega

theorem load64Le_toNat (a b c d e f g h : UInt8) (rest : List UInt8) :
    (load64Le (a :: b :: c :: d :: e :: f :: g :: h :: rest)).toNat =
      leNat [a, b, c, d, e, f, g, h] := by
  have hlow := load32Le_toNat a b c d (e :: f :: g :: h :: rest)
  have hhigh := load32Le_toNat e f g h rest
  have hlowLt := (load32Le (a :: b :: c :: d :: e :: f :: g :: h :: rest)).toNat_lt
  have hhighLt := (load32Le (e :: f :: g :: h :: rest)).toNat_lt
  have h32 : (32 : UInt64).toNat % 64 = 32 := rfl
  have hmod : (load32Le (e :: f :: g :: h :: rest)).toNat <<< 32 % 2 ^ 64 =
      (load32Le (e :: f :: g :: h :: rest)).toNat <<< 32 := by
    rw [Nat.shiftLeft_eq]
    omega
  simp only [load64Le, List.drop_succ_cons, List.drop_zero, UInt64.toNat_or,
    UInt64.toNat_shiftLeft, UInt32.toNat_toUInt64, h32]
  rw [hmod, or_shiftLeft hlowLt, hlow, hhigh]
  simp only [leNat]
  omega

theorem store32Le_eq (x : UInt32) : store32Le x = leBytes 4 x.toNat := by
  have hmask : ∀ y : UInt32, (y &&& 0xff).toUInt8 = UInt8.ofNat (y.toNat % 256) := by
    intro y
    refine UInt8.toNat_inj.mp ?_
    rw [UInt32.toNat_toUInt8, UInt32.toNat_and, UInt8.toNat_ofNat']
    change (y.toNat &&& 2 ^ 8 - 1) % 2 ^ 8 = _
    rw [Nat.and_two_pow_sub_one_eq_mod]
  have h8 : (8 : UInt32).toNat % 32 = 8 := rfl
  have h16 : (16 : UInt32).toNat % 32 = 16 := rfl
  have h24 : (24 : UInt32).toNat % 32 = 24 := rfl
  simp only [store32Le, hmask, leBytes, UInt32.toNat_shiftRight, h8, h16, h24,
    Nat.shiftRight_eq_div_pow, Nat.div_div_eq_div_mul]

theorem store64Le_eq (x : UInt64) : store64Le x = leBytes 8 x.toNat := by
  have h32 : (32 : UInt64).toNat % 64 = 32 := rfl
  have hhigh : (x >>> 32).toUInt32.toNat = x.toNat / 256 ^ 4 := by
    have hx := x.toNat_lt
    rw [UInt64.toNat_toUInt32, UInt64.toNat_shiftRight, h32, Nat.shiftRight_eq_div_pow]
    exact Nat.mod_eq_of_lt (by omega)
  rw [store64Le, store32Le_eq, store32Le_eq, hhigh, UInt64.toNat_toUInt32, leBytes_add 4 4]
  exact congrArg (· ++ _) (leBytes_mod 4 x.toNat)

/-! ## Blocks -/

theorem gap_pow (x k : ℕ) (hk : k ≤ 32) (hx : x < 2 ^ 64) :
    gap x (2 ^ k) = (2 ^ k - x % 2 ^ k) % 2 ^ k := by
  have hpow : 2 ^ k ≤ 2 ^ 32 := Nat.pow_le_pow_right (by decide) hk
  have hpos : 0 < 2 ^ k := Nat.two_pow_pos k
  have hmask : (UInt64.ofNat (2 ^ k) - 1).toNat = 2 ^ k - 1 := by
    have hofNat : (UInt64.ofNat (2 ^ k)).toNat = 2 ^ k :=
      UInt64.toNat_ofNat_of_lt' (by change 2 ^ k < 2 ^ 64; omega)
    rw [UInt64.toNat_sub, hofNat]
    change (2 ^ 64 - 1 + 2 ^ k) % 2 ^ 64 = 2 ^ k - 1
    omega
  have hneg : (~~~UInt64.ofNat x + 1).toNat = (2 ^ 64 - x) % 2 ^ 64 := by
    rw [← UInt64.neg_eq_not_add, UInt64.toNat_neg, UInt64.toNat_ofNat_of_lt' hx]
    rfl
  have hdvd : 2 ^ k ∣ 2 ^ 64 := Nat.pow_dvd_pow 2 (by omega)
  rw [gap, UInt64.toNat_and, hmask, hneg, Nat.and_two_pow_sub_one_eq_mod,
    Nat.mod_mod_of_dvd _ hdvd]
  obtain ⟨m, hm⟩ := hdvd
  have hdiv := Nat.div_add_mod x (2 ^ k)
  have hlt := Nat.mod_lt x hpos
  have hm' : x / 2 ^ k < m := by
    refine Nat.div_lt_of_lt_mul ?_
    rw [← hm]
    exact hx
  have hsub : 2 ^ 64 - x = 2 ^ k * (m - x / 2 ^ k - 1) + (2 ^ k - x % 2 ^ k) := by
    have hmul : 2 ^ k * (m - x / 2 ^ k - 1) = 2 ^ k * m - 2 ^ k * (x / 2 ^ k) - 2 ^ k := by
      rw [Nat.mul_sub, Nat.mul_sub, Nat.mul_one]
    have hle : 2 ^ k * (x / 2 ^ k) + 2 ^ k ≤ 2 ^ k * m := by
      rw [← Nat.mul_succ]
      exact Nat.mul_le_mul_left _ hm'
    omega
  rw [hsub, Nat.mul_add_mod]

/-! ## Comparison -/

/-- `neq0`: 0 if the difference is zero and -1 otherwise. -/
def neq0 (diff : UInt64) : Int32 :=
  let half := (diff >>> 32) ||| diff.toUInt32.toUInt64
  (((1 : UInt64) &&& ((half - 1) >>> 32)) - 1).toUInt32.toInt32

def x16 (a b : List UInt8) : UInt64 :=
  (load64Le a ^^^ load64Le b) ||| (load64Le (a.drop 8) ^^^ load64Le (b.drop 8))

def cryptoVerify16 (a b : List UInt8) : Int32 := neq0 (x16 a b)

theorem half_eq_zero_iff (diff : UInt64) :
    (diff >>> 32) ||| diff.toUInt32.toUInt64 = 0 ↔ diff = 0 := by
  have h32 : (32 : UInt64).toNat % 64 = 32 := rfl
  rw [UInt64.or_eq_zero_iff]
  refine ⟨fun hboth => ?_, fun hzero => ?_⟩
  · have hhigh := congrArg UInt64.toNat hboth.1
    have hlow := congrArg UInt64.toNat hboth.2
    rw [UInt64.toNat_shiftRight, h32, Nat.shiftRight_eq_div_pow] at hhigh
    rw [UInt32.toNat_toUInt64, UInt64.toNat_toUInt32] at hlow
    have hzero : (0 : UInt64).toNat = 0 := rfl
    refine UInt64.toNat_inj.mp ?_
    omega
  · rw [hzero]
    exact ⟨rfl, rfl⟩

theorem half_lt (diff : UInt64) :
    ((diff >>> 32) ||| diff.toUInt32.toUInt64).toNat < 2 ^ 32 := by
  have h32 : (32 : UInt64).toNat % 64 = 32 := rfl
  have hdiff := diff.toNat_lt
  rw [UInt64.toNat_or, UInt64.toNat_shiftRight, h32, Nat.shiftRight_eq_div_pow]
  exact Nat.or_lt_two_pow (by omega) diff.toUInt32.toNat_lt

theorem neq0_eq (diff : UInt64) : neq0 diff = if diff = 0 then 0 else -1 := by
  unfold neq0
  simp only
  split_ifs with hzero
  · rw [hzero]
    rfl
  · have hlt := half_lt diff
    have hne : (diff >>> 32) ||| diff.toUInt32.toUInt64 ≠ 0 :=
      fun heq => hzero ((half_eq_zero_iff diff).mp heq)
    generalize (diff >>> 32) ||| diff.toUInt32.toUInt64 = half at hlt hne
    have hpos : half.toNat ≠ 0 := fun heq => hne (UInt64.toNat_inj.mp heq)
    have h32 : (32 : UInt64).toNat % 64 = 32 := rfl
    have hone : (1 : UInt64).toNat = 1 := rfl
    have hshift : (half - 1) >>> 32 = 0 := by
      refine UInt64.toNat_inj.mp ?_
      rw [UInt64.toNat_shiftRight, h32, Nat.shiftRight_eq_div_pow, UInt64.toNat_sub, hone]
      change (2 ^ 64 - 1 + half.toNat) % 2 ^ 64 / 2 ^ 32 = 0
      omega
    rw [hshift]
    rfl

theorem load64Le_eq_iff {a b : List UInt8} (ha : 8 ≤ a.length) (hb : 8 ≤ b.length) :
    load64Le a = load64Le b ↔ a.take 8 = b.take 8 := by
  have hload : ∀ s : List UInt8, 8 ≤ s.length → (load64Le s).toNat = leNat (s.take 8) := by
    intro s hs
    match s with
    | s0 :: s1 :: s2 :: s3 :: s4 :: s5 :: s6 :: s7 :: rest =>
        exact load64Le_toNat s0 s1 s2 s3 s4 s5 s6 s7 rest
  rw [← UInt64.toNat_inj, hload a ha, hload b hb]
  refine ⟨fun heq => leNat_injective ?_ heq, fun heq => congrArg leNat heq⟩
  rw [List.length_take_of_le ha, List.length_take_of_le hb]

/-- The comparison answers 0 if the tags are the same and -1 otherwise. -/
theorem cryptoVerify16_eq {a b : List UInt8} (ha : a.length = 16) (hb : b.length = 16) :
    cryptoVerify16 a b = if a = b then 0 else -1 := by
  have hadrop : (a.drop 8).length = 8 := by
    rw [List.length_drop, ha]
  have hbdrop : (b.drop 8).length = 8 := by
    rw [List.length_drop, hb]
  have hatail : (a.drop 8).take 8 = a.drop 8 := List.take_of_length_le hadrop.le
  have hbtail : (b.drop 8).take 8 = b.drop 8 := List.take_of_length_le hbdrop.le
  have hsplit : x16 a b = 0 ↔ a = b := by
    rw [x16, UInt64.or_eq_zero_iff, UInt64.xor_eq_zero_iff, UInt64.xor_eq_zero_iff,
      load64Le_eq_iff (by omega) (by omega), load64Le_eq_iff hadrop.ge hbdrop.ge, hatail, hbtail]
    refine ⟨fun hboth => ?_, fun heq => heq ▸ ⟨rfl, rfl⟩⟩
    rw [← List.take_append_drop 8 a, ← List.take_append_drop 8 b, hboth.1, hboth.2]
  rw [cryptoVerify16, neq0_eq]
  exact if_congr hsplit rfl rfl

end Monocypher
end LibWake
