import Mathlib.Algebra.Order.Group.Nat
import Mathlib.Data.List.GetD

/-!
# The compression of SHA-512

The message schedule has 80 words.  `sha512_compress` keeps the last sixteen of them in the block
which it compresses, each in the place of the word sixteen before it.
-/

namespace LibWake
namespace Monocypher

def rot (x c : UInt64) : UInt64 := (x >>> c) ||| (x <<< (64 - c))

def ch (x y z : UInt64) : UInt64 := (x &&& y) ^^^ (~~~x &&& z)

def maj (x y z : UInt64) : UInt64 := (x &&& y) ^^^ (x &&& z) ^^^ (y &&& z)

def bigSigma0 (x : UInt64) : UInt64 := rot x 28 ^^^ rot x 34 ^^^ rot x 39

def bigSigma1 (x : UInt64) : UInt64 := rot x 14 ^^^ rot x 18 ^^^ rot x 41

def litSigma0 (x : UInt64) : UInt64 := rot x 1 ^^^ rot x 8 ^^^ (x >>> 7)

def litSigma1 (x : UInt64) : UInt64 := rot x 19 ^^^ rot x 61 ^^^ (x >>> 6)

def roundConstants : List UInt64 :=
  [0x428a2f98d728ae22, 0x7137449123ef65cd, 0xb5c0fbcfec4d3b2f, 0xe9b5dba58189dbbc,
    0x3956c25bf348b538, 0x59f111f1b605d019, 0x923f82a4af194f9b, 0xab1c5ed5da6d8118,
    0xd807aa98a3030242, 0x12835b0145706fbe, 0x243185be4ee4b28c, 0x550c7dc3d5ffb4e2,
    0x72be5d74f27b896f, 0x80deb1fe3b1696b1, 0x9bdc06a725c71235, 0xc19bf174cf692694,
    0xe49b69c19ef14ad2, 0xefbe4786384f25e3, 0x0fc19dc68b8cd5b5, 0x240ca1cc77ac9c65,
    0x2de92c6f592b0275, 0x4a7484aa6ea6e483, 0x5cb0a9dcbd41fbd4, 0x76f988da831153b5,
    0x983e5152ee66dfab, 0xa831c66d2db43210, 0xb00327c898fb213f, 0xbf597fc7beef0ee4,
    0xc6e00bf33da88fc2, 0xd5a79147930aa725, 0x06ca6351e003826f, 0x142929670a0e6e70,
    0x27b70a8546d22ffc, 0x2e1b21385c26c926, 0x4d2c6dfc5ac42aed, 0x53380d139d95b3df,
    0x650a73548baf63de, 0x766a0abb3c77b2a8, 0x81c2c92e47edaee6, 0x92722c851482353b,
    0xa2bfe8a14cf10364, 0xa81a664bbc423001, 0xc24b8b70d0f89791, 0xc76c51a30654be30,
    0xd192e819d6ef5218, 0xd69906245565a910, 0xf40e35855771202a, 0x106aa07032bbd1b8,
    0x19a4c116b8d2d0c8, 0x1e376c085141ab53, 0x2748774cdf8eeb99, 0x34b0bcb5e19b48a8,
    0x391c0cb3c5c95a63, 0x4ed8aa4ae3418acb, 0x5b9cca4f7763e373, 0x682e6ff3d6b2b8a3,
    0x748f82ee5defb2fc, 0x78a5636f43172f60, 0x84c87814a1f0ab72, 0x8cc702081a6439ec,
    0x90befffa23631e28, 0xa4506cebde82bde9, 0xbef9a3f7b2c67915, 0xc67178f2e372532b,
    0xca273eceea26619c, 0xd186b8c721c0c207, 0xeada7dd6cde0eb1e, 0xf57d4f7fee6ed178,
    0x06f067aa72176fba, 0x0a637dc5a2c898a6, 0x113f9804bef90dae, 0x1b710b35131c471b,
    0x28db77f523047d84, 0x32caab7b40c72493, 0x3c9ebe0a15c9bebc, 0x431d67c49c100d4c,
    0x4cc5d4becb3e42b6, 0x597f299cfc657e2a, 0x5fcb6fab3ad6faec, 0x6c44198c4a475817]

/-- The eight words of a hash, and the eight variables of the rounds. -/
structure Words8 where
  a : UInt64
  b : UInt64
  c : UInt64
  d : UInt64
  e : UInt64
  f : UInt64
  g : UInt64
  h : UInt64
  deriving DecidableEq, Repr

/-- One round, with the word and the constant of the round already added. -/
def sha512Round (s : Words8) (input : UInt64) : Words8 :=
  let t1 := bigSigma1 s.e + ch s.e s.f s.g + s.h + input
  let t2 := bigSigma0 s.a + maj s.a s.b s.c
  ⟨t1 + t2, s.a, s.b, s.c, s.d + t1, s.e, s.f, s.g⟩

def Words8.add (x y : Words8) : Words8 :=
  ⟨x.a + y.a, x.b + y.b, x.c + y.c, x.d + y.d, x.e + y.e, x.f + y.f, x.g + y.g, x.h + y.h⟩

/-- `(j - k) & 15`, with the subtraction modulo 2^64. -/
def back (j k : ℕ) : ℕ := ((UInt64.ofNat j - UInt64.ofNat k) &&& 15).toNat

def addInto (input : List UInt64) (j : ℕ) (x : UInt64) : List UInt64 :=
  input.set j (input.getD j 0 + x)

/-- The three additions to `input[j]`. -/
def extendInput (input : List UInt64) (j : ℕ) : List UInt64 :=
  let input := addInto input j (litSigma1 (input.getD (back j 2) 0))
  let input := addInto input j (litSigma0 (input.getD (back j 15) 0))
  addInto input j (input.getD (back j 7) 0)

/-- The block and the variables in the middle of a compression. -/
structure Rounds where
  input : List UInt64
  s : Words8
  deriving DecidableEq, Repr

def firstRound (rounds : Rounds) (j : ℕ) : Rounds :=
  { rounds with
    s := sha512Round rounds.s (roundConstants.getD j 0 + rounds.input.getD j 0) }

def laterRound (i16 : ℕ) (rounds : Rounds) (j : ℕ) : Rounds :=
  let input := extendInput rounds.input j
  ⟨input, sha512Round rounds.s (roundConstants.getD (i16 + j) 0 + input.getD j 0)⟩

/-- `sha512_compress`: the hash behind the block, and what is left of the block. -/
def sha512Compress (hash : Words8) (input : List UInt64) : Words8 × List UInt64 :=
  let first := (List.range 16).foldl firstRound ⟨input, hash⟩
  let last := (List.range' 1 4).foldl
    (fun rounds i => (List.range 16).foldl (laterRound (16 * i)) rounds) first
  (hash.add last.s, last.input)

/-! ## The message schedule -/

/-- The next word of a schedule. -/
def nextWord (w : List UInt64) : UInt64 :=
  litSigma1 (w.getD (w.length - 2) 0) + w.getD (w.length - 7) 0 +
    litSigma0 (w.getD (w.length - 15) 0) + w.getD (w.length - 16) 0

/-- The words of the message and `n` words behind them. -/
def schedule (m : List UInt64) : ℕ → List UInt64
  | 0 => m
  | n + 1 => schedule m n ++ [nextWord (schedule m n)]

def scheduleRound (w : List UInt64) (s : Words8) (t : ℕ) : Words8 :=
  sha512Round s (roundConstants.getD t 0 + w.getD t 0)

/-- The compression of a hash and sixteen words, with the whole schedule written out. -/
def compress (hash : Words8) (m : List UInt64) : Words8 :=
  hash.add ((List.range 80).foldl (scheduleRound (schedule m 64)) hash)

theorem schedule_length (m : List UInt64) (n : ℕ) : (schedule m n).length = m.length + n := by
  induction n with
  | zero => rfl
  | succ n ih => rw [schedule, List.length_append, List.length_singleton, ih, Nat.add_assoc]

theorem schedule_getD {m : List UInt64} {n k t : ℕ} (hle : n ≤ k) (ht : t < m.length + n) :
    (schedule m k).getD t 0 = (schedule m n).getD t 0 := by
  induction k, hle using Nat.le_induction with
  | base => rfl
  | succ k hle ih =>
      have hlt : t < (schedule m k).length := by
        rw [schedule_length]
        omega
      rw [schedule, List.getD_append _ _ _ _ hlt, ih]

/-- The places of the block hold the last sixteen words of the schedule. -/
structure Rolled (w input : List UInt64) : Prop where
  size : input.length = 16
  enough : 16 ≤ w.length
  recent : ∀ k, w.length - 16 ≤ k → k < w.length → input.getD (k % 16) 0 = w.getD k 0

theorem back_eq : ∀ j < 16, ∀ k < 16, back j k = (j + (16 - k)) % 16 := by
  decide

theorem addInto_getD_self {input : List UInt64} {j : ℕ} (hj : j < input.length) (x : UInt64) :
    (addInto input j x).getD j 0 = input.getD j 0 + x := by
  rw [addInto, List.getD_eq_getElem _ _ (by rwa [List.length_set]), List.getElem_set_self]

theorem addInto_getD_ne {j k : ℕ} (hne : j ≠ k) (input : List UInt64) (x : UInt64) :
    (addInto input j x).getD k 0 = input.getD k 0 := by
  simp only [addInto, List.getD_eq_getElem?_getD, List.getElem?_set_ne hne]

theorem addInto_length (input : List UInt64) (j : ℕ) (x : UInt64) :
    (addInto input j x).length = input.length := List.length_set

/-- The additions leave the other places alone, and read none but these. -/
theorem extendInput_getD {input : List UInt64} (hsize : input.length = 16) {j : ℕ} (hj : j < 16) :
    (extendInput input j).length = 16 ∧
      (extendInput input j).getD j 0 =
        input.getD j 0 + litSigma1 (input.getD (back j 2) 0) +
          litSigma0 (input.getD (back j 15) 0) + input.getD (back j 7) 0 ∧
      ∀ k, k ≠ j → (extendInput input j).getD k 0 = input.getD k 0 := by
  have hback : ∀ k, 0 < k → k < 16 → j ≠ back j k := by
    intro k hpos hk
    rw [back_eq j hj k hk]
    omega
  have h15 := hback 15 (by decide) (by decide)
  have h7 := hback 7 (by decide) (by decide)
  unfold extendInput
  extract_lets first second
  have hfirst : first.length = 16 := by rw [addInto_length, hsize]
  have hsecond : second.length = 16 := by rw [addInto_length, hfirst]
  refine ⟨by rw [addInto_length, hsecond], ?_, fun k hk => ?_⟩
  · rw [addInto_getD_self (by omega), addInto_getD_self (by omega), addInto_getD_self (by omega),
      addInto_getD_ne h15, addInto_getD_ne h7, addInto_getD_ne h7]
  · rw [addInto_getD_ne (Ne.symm hk), addInto_getD_ne (Ne.symm hk), addInto_getD_ne (Ne.symm hk)]

theorem Rolled.extend {w input : List UInt64} (hrolled : Rolled w input) :
    Rolled (w ++ [nextWord w]) (extendInput input (w.length % 16)) := by
  have henough := hrolled.enough
  have hj : w.length % 16 < 16 := Nat.mod_lt _ (by decide)
  obtain ⟨hlength, hnew, hold⟩ := extendInput_getD hrolled.size hj
  have hread : ∀ k, 0 < k → k < 16 →
      input.getD (back (w.length % 16) k) 0 = w.getD (w.length - k) 0 := by
    intro k hpos hk
    rw [back_eq _ hj k hk, ← hrolled.recent (w.length - k) (by omega) (by omega)]
    refine congrArg (input.getD · 0) ?_
    omega
  have hfar : input.getD (w.length % 16) 0 = w.getD (w.length - 16) 0 := by
    rw [← hrolled.recent (w.length - 16) le_rfl (by omega)]
    refine congrArg (input.getD · 0) ?_
    omega
  refine ⟨hlength, ?_, fun k hge hlt => ?_⟩
  · rw [List.length_append]
    omega
  · rw [List.length_append, List.length_singleton] at hge hlt
    rcases Nat.lt_succ_iff_lt_or_eq.mp hlt with hbefore | rfl
    · have hne : k % 16 ≠ w.length % 16 := by omega
      rw [hold _ hne, hrolled.recent k (by omega) hbefore, List.getD_append _ _ _ _ hbefore]
    · rw [hnew, hfar, hread 2 (by decide) (by decide), hread 15 (by decide) (by decide),
        hread 7 (by decide) (by decide), List.getD_append_right _ _ _ _ le_rfl, Nat.sub_self,
        List.getD_cons_zero, nextWord]
      ac_rfl

/-- Where the compression is before round `t`. -/
structure Reached (m : List UInt64) (hash : Words8) (t : ℕ) (rounds : Rounds) : Prop where
  rolled : Rolled (schedule m (t - 16)) rounds.input
  later : 16 ≤ t
  done : rounds.s = (List.range t).foldl (scheduleRound (schedule m 64)) hash

theorem reached_first {m : List UInt64} (hm : m.length = 16) (hash : Words8) :
    Reached m hash 16 ((List.range 16).foldl firstRound ⟨m, hash⟩) := by
  have hsteps : ∀ n ≤ 16, (List.range n).foldl firstRound ⟨m, hash⟩ =
      ⟨m, (List.range n).foldl (scheduleRound (schedule m 64)) hash⟩ := by
    intro n hn
    induction n with
    | zero => rfl
    | succ n ih =>
        have hword : (schedule m 64).getD n 0 = m.getD n 0 :=
          schedule_getD (Nat.zero_le 64) (by omega)
        rw [List.range_succ, List.foldl_append, List.foldl_append, ih (by omega),
          List.foldl_cons, List.foldl_nil, List.foldl_cons, List.foldl_nil, firstRound,
          scheduleRound, hword]
  rw [hsteps 16 le_rfl]
  refine ⟨⟨hm, hm.ge, fun k _ hk => ?_⟩, le_rfl, rfl⟩
  change k < m.length at hk
  rw [Nat.mod_eq_of_lt (hm ▸ hk)]
  rfl

theorem Reached.round {m : List UInt64} (hm : m.length = 16) {hash : Words8} {i16 j : ℕ}
    {rounds : Rounds} (hreached : Reached m hash (i16 + j) rounds) (hi16 : 16 ∣ i16)
    (hj : j < 16) (hlt : i16 + j < 80) :
    Reached m hash (i16 + (j + 1)) (laterRound i16 rounds j) := by
  have hlater := hreached.later
  have hlength : (schedule m (i16 + j - 16)).length = i16 + j := by
    rw [schedule_length, hm]
    omega
  have hplace : (schedule m (i16 + j - 16)).length % 16 = j := by
    rw [hlength]
    omega
  have hcount : i16 + (j + 1) - 16 = i16 + j - 16 + 1 := by omega
  have hextend := hreached.rolled.extend
  rw [hplace] at hextend
  have hword : (extendInput rounds.input j).getD j 0 = (schedule m 64).getD (i16 + j) 0 := by
    have hmod : (i16 + j) % 16 = j := by omega
    have hrecent := hextend.recent (i16 + j)
      (by rw [List.length_append, List.length_singleton, hlength]; omega)
      (by rw [List.length_append, List.length_singleton, hlength]; omega)
    rw [hmod] at hrecent
    rw [hrecent, schedule_getD (show i16 + j - 16 + 1 ≤ 64 by omega) (by omega)]
    rfl
  refine ⟨?_, by omega, ?_⟩
  · rw [hcount]
    exact hextend
  · rw [← Nat.add_assoc, List.range_succ, List.foldl_append, ← hreached.done, List.foldl_cons,
      List.foldl_nil, laterRound, hword, scheduleRound]

theorem Reached.rounds {m : List UInt64} (hm : m.length = 16) {hash : Words8} {rounds : Rounds}
    {i : ℕ} (hreached : Reached m hash (16 * i) rounds) (hi : i < 5) :
    Reached m hash (16 * (i + 1)) ((List.range 16).foldl (laterRound (16 * i)) rounds) := by
  have hsteps : ∀ n ≤ 16,
      Reached m hash (16 * i + n) ((List.range n).foldl (laterRound (16 * i)) rounds) := by
    intro n hn
    induction n with
    | zero => exact hreached
    | succ n ih =>
        rw [List.range_succ, List.foldl_append]
        exact (ih (by omega)).round hm (Nat.dvd_mul_right 16 i) (by omega) (by omega)
  exact hsteps 16 le_rfl

theorem Reached.all {m : List UInt64} (hm : m.length = 16) {hash : Words8} {rounds : Rounds}
    (hreached : Reached m hash 16 rounds) :
    Reached m hash 80 ((List.range' 1 4).foldl
      (fun rounds i => (List.range 16).foldl (laterRound (16 * i)) rounds) rounds) := by
  have hsteps : ∀ n ≤ 4, Reached m hash (16 * (1 + n)) ((List.range' 1 n).foldl
      (fun rounds i => (List.range 16).foldl (laterRound (16 * i)) rounds) rounds) := by
    intro n hn
    induction n with
    | zero =>
        rw [List.range'_zero, List.foldl_nil]
        exact hreached
    | succ n ih =>
        rw [List.range'_1_concat, List.foldl_append, List.foldl_cons, List.foldl_nil]
        exact (ih (by omega)).rounds hm (by omega)
  exact hsteps 4 le_rfl

/-- The rolling block computes the whole schedule. -/
theorem sha512Compress_hash {m : List UInt64} (hm : m.length = 16) (hash : Words8) :
    (sha512Compress hash m).1 = compress hash m := by
  rw [sha512Compress, compress, ((reached_first hm hash).all hm).done]

theorem sha512Compress_length {m : List UInt64} (hm : m.length = 16) (hash : Words8) :
    (sha512Compress hash m).2.length = 16 := by
  have hsize := ((reached_first hm hash).all hm).rolled.size
  simp only [sha512Compress, hsize]

end Monocypher
end LibWake
