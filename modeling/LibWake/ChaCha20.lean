import Mathlib.Data.List.Induction
import LibWake.MonocypherBytes

/-!
# ChaCha20

The cipher text is the plain text, byte by byte, in exclusive or with the blocks of a 64-bit
counter; the counter is kept as two words, and a call returns the counter of the next whole block.
-/

namespace LibWake
namespace Monocypher

/-- Sixteen words, as `chacha20_rounds` keeps them. -/
structure Words16 where
  t0 : UInt32
  t1 : UInt32
  t2 : UInt32
  t3 : UInt32
  t4 : UInt32
  t5 : UInt32
  t6 : UInt32
  t7 : UInt32
  t8 : UInt32
  t9 : UInt32
  t10 : UInt32
  t11 : UInt32
  t12 : UInt32
  t13 : UInt32
  t14 : UInt32
  t15 : UInt32
  deriving DecidableEq, Repr

def Words16.toList (t : Words16) : List UInt32 :=
  [t.t0, t.t1, t.t2, t.t3, t.t4, t.t5, t.t6, t.t7, t.t8, t.t9, t.t10, t.t11, t.t12, t.t13,
    t.t14, t.t15]

def rotl32 (x n : UInt32) : UInt32 := (x <<< n) ^^^ (x >>> (32 - n))

def quarterRound (a b c d : UInt32) : UInt32 × UInt32 × UInt32 × UInt32 :=
  let a := a + b
  let d := rotl32 (d ^^^ a) 16
  let c := c + d
  let b := rotl32 (b ^^^ c) 12
  let a := a + b
  let d := rotl32 (d ^^^ a) 8
  let c := c + d
  let b := rotl32 (b ^^^ c) 7
  (a, b, c, d)

/-- A round on the columns and a round on the diagonals. -/
def doubleRound (t : Words16) : Words16 :=
  let (t0, t4, t8, t12) := quarterRound t.t0 t.t4 t.t8 t.t12
  let (t1, t5, t9, t13) := quarterRound t.t1 t.t5 t.t9 t.t13
  let (t2, t6, t10, t14) := quarterRound t.t2 t.t6 t.t10 t.t14
  let (t3, t7, t11, t15) := quarterRound t.t3 t.t7 t.t11 t.t15
  let (t0, t5, t10, t15) := quarterRound t0 t5 t10 t15
  let (t1, t6, t11, t12) := quarterRound t1 t6 t11 t12
  let (t2, t7, t8, t13) := quarterRound t2 t7 t8 t13
  let (t3, t4, t9, t14) := quarterRound t3 t4 t9 t14
  ⟨t0, t1, t2, t3, t4, t5, t6, t7, t8, t9, t10, t11, t12, t13, t14, t15⟩

def chacha20Rounds (t : Words16) : Words16 := doubleRound^[10] t

/-- "expand 32-byte k". -/
def chacha20Constant : List UInt8 :=
  [0x65, 0x78, 0x70, 0x61, 0x6e, 0x64, 0x20, 0x33, 0x32, 0x2d, 0x62, 0x79, 0x74, 0x65, 0x20, 0x6b]

/-- The words of the constant, of the key and of sixteen further bytes. -/
def loadBlock (key : List UInt8) (w12 w13 w14 w15 : UInt32) : Words16 where
  t0 := load32Le chacha20Constant
  t1 := load32Le (chacha20Constant.drop 4)
  t2 := load32Le (chacha20Constant.drop 8)
  t3 := load32Le (chacha20Constant.drop 12)
  t4 := load32Le key
  t5 := load32Le (key.drop 4)
  t6 := load32Le (key.drop 8)
  t7 := load32Le (key.drop 12)
  t8 := load32Le (key.drop 16)
  t9 := load32Le (key.drop 20)
  t10 := load32Le (key.drop 24)
  t11 := load32Le (key.drop 28)
  t12 := w12
  t13 := w13
  t14 := w14
  t15 := w15

def store32LeBuf (words : List UInt32) : List UInt8 := words.flatMap store32Le

/-- HChaCha20: the first and the last four words behind the rounds. -/
def cryptoChacha20H (key input : List UInt8) : List UInt8 :=
  let block := chacha20Rounds (loadBlock key (load32Le input) (load32Le (input.drop 4))
    (load32Le (input.drop 8)) (load32Le (input.drop 12)))
  store32LeBuf [block.t0, block.t1, block.t2, block.t3] ++
    store32LeBuf [block.t12, block.t13, block.t14, block.t15]

def chacha20Input (key nonce : List UInt8) (ctr : UInt64) : Words16 :=
  loadBlock key ctr.toUInt32 (ctr >>> 32).toUInt32 (load32Le nonce) (load32Le (nonce.drop 4))

/-- `pool[j] + input[j]` behind the rounds. -/
def poolWords (input : Words16) : List UInt32 :=
  List.zipWith (· + ·) (chacha20Rounds input).toList input.toList

/-- The words of a block over the words of the plain text. -/
def xorWords : List UInt32 → List UInt8 → List UInt8
  | [], _ => []
  | p :: rest, plainText =>
      store32Le (p ^^^ load32Le plainText) ++ xorWords rest (plainText.drop 4)

def incrementCounter (input : Words16) : Words16 :=
  let input := { input with t12 := input.t12 + 1 }
  if input.t12 = 0 then { input with t13 := input.t13 + 1 } else input

/-- One whole block; without a plain text the words themselves. -/
def wholeBlock (input : Words16) : Option (List UInt8) → List UInt8
  | some text => xorWords (poolWords input) text
  | none => store32LeBuf (poolWords input)

def wholeBlocks : ℕ → Words16 → Option (List UInt8) → List UInt8 × Words16
  | 0, input, _ => ([], input)
  | nbBlocks + 1, input, plainText =>
      let rest := wholeBlocks nbBlocks (incrementCounter input) (plainText.map (·.drop 64))
      (wholeBlock input plainText ++ rest.1, rest.2)

def zero128 : List UInt8 := List.replicate 128 0

/-- `crypto_chacha20_djb`: the cipher text and the counter of the next block. -/
def cryptoChacha20Djb (plainText : Option (List UInt8)) (textSize : ℕ) (key nonce : List UInt8)
    (ctr : UInt64) : List UInt8 × UInt64 :=
  let nbBlocks := textSize >>> 6
  let whole := wholeBlocks nbBlocks (chacha20Input key nonce ctr) plainText
  let input := whole.2
  let remaining := textSize &&& 63
  let last :=
    if 0 < remaining then
      let text := (plainText.map (·.drop (64 * nbBlocks))).getD zero128
      let tmp := store32LeBuf (poolWords input)
      (List.range remaining).map fun i => tmp.getD i 0 ^^^ text.getD i 0
    else []
  (whole.1 ++ last, input.t12.toUInt64 + (input.t13.toUInt64 <<< 32) +
    if 0 < remaining then 1 else 0)

/-! ## The key stream -/

/-- The block of one counter. -/
def keyBlock (key nonce : List UInt8) (ctr : UInt64) : List UInt8 :=
  store32LeBuf (poolWords (chacha20Input key nonce ctr))

def keyByte (key nonce : List UInt8) (ctr : UInt64) (i : ℕ) : UInt8 :=
  (keyBlock key nonce (ctr + UInt64.ofNat (i / 64))).getD (i % 64) 0

/-- The byte of the plain text; without one it is zero. -/
def textByte (plainText : Option (List UInt8)) (i : ℕ) : UInt8 :=
  (plainText.getD []).getD i 0

/-! ## Words and bytes -/

theorem store32Le_length (x : UInt32) : (store32Le x).length = 4 := rfl

theorem store32LeBuf_length (words : List UInt32) :
    (store32LeBuf words).length = 4 * words.length := by
  induction words with
  | nil => rfl
  | cons word rest ih =>
      rw [store32LeBuf, List.flatMap_cons, List.length_append, store32Le_length, List.length_cons,
        Nat.mul_succ, Nat.add_comm]
      exact congrArg (· + 4) ih

theorem store32Le_xor (x y : UInt32) :
    store32Le (x ^^^ y) = List.zipWith (· ^^^ ·) (store32Le x) (store32Le y) := by
  have hand : ∀ a b : UInt32, (a ^^^ b) &&& 0xff = (a &&& 0xff) ^^^ (b &&& 0xff) := by
    intro a b
    refine UInt32.toNat_inj.mp ?_
    simp only [UInt32.toNat_and, UInt32.toNat_xor, Nat.and_xor_distrib_right]
  simp only [store32Le, UInt32.shiftRight_xor, hand, UInt32.toUInt8_xor, List.zipWith_cons_cons,
    List.zipWith_nil_right]

theorem leBytes_leNat (bytes : List UInt8) : leBytes bytes.length (leNat bytes) = bytes := by
  refine leNat_injective (leBytes_length _ _) ?_
  exact leNat_leBytes (leNat_lt bytes)

theorem store32Le_load32Le {text : List UInt8} (hle : 4 ≤ text.length) :
    store32Le (load32Le text) = text.take 4 := by
  match text with
  | a :: b :: c :: d :: rest =>
      rw [store32Le_eq, load32Le_toNat]
      exact leBytes_leNat [a, b, c, d]

theorem zipWith_eq_range {f : UInt8 → UInt8 → UInt8} {a b : List UInt8}
    (hle : a.length ≤ b.length) :
    List.zipWith f a b =
      (List.range a.length).map fun i => f (a.getD i 0) (b.getD i 0) := by
  refine List.ext_getElem ?_ fun i hi hi' => ?_
  · rw [List.length_zipWith, List.length_map, List.length_range, Nat.min_eq_left hle]
  · rw [List.length_map, List.length_range] at hi'
    rw [List.getElem_zipWith, List.getElem_map, List.getElem_range,
      List.getD_eq_getElem _ _ hi', List.getD_eq_getElem _ _ (Nat.lt_of_lt_of_le hi' hle)]

theorem xorWords_eq {words : List UInt32} {text : List UInt8}
    (hle : 4 * words.length ≤ text.length) :
    xorWords words text = List.zipWith (· ^^^ ·) (store32LeBuf words) text := by
  induction words generalizing text with
  | nil => rfl
  | cons word rest ih =>
      rw [List.length_cons] at hle
      have hword : 4 ≤ text.length := by omega
      have htake : (store32Le word).length = (text.take 4).length := by
        rw [List.length_take_of_le hword]
        rfl
      have hrest : 4 * rest.length ≤ (text.drop 4).length := by
        rw [List.length_drop]
        omega
      conv_rhs => rw [← List.take_append_drop 4 text, store32LeBuf, List.flatMap_cons]
      rw [List.zipWith_append htake, xorWords, ih hrest, store32Le_xor, store32Le_load32Le hword]
      rfl

/-! ## The counter -/

theorem poolWords_length (input : Words16) : (poolWords input).length = 16 := rfl

theorem keyBlock_length (key nonce : List UInt8) (ctr : UInt64) :
    (keyBlock key nonce ctr).length = 64 := by
  rw [keyBlock, store32LeBuf_length, poolWords_length]

theorem incrementCounter_input (key nonce : List UInt8) (ctr : UInt64) :
    incrementCounter (chacha20Input key nonce ctr) = chacha20Input key nonce (ctr + 1) := by
  have hctr := ctr.toNat_lt
  have hone : (1 : UInt64).toNat = 1 := rfl
  have hone32 : (1 : UInt32).toNat = 1 := rfl
  have h32 : (32 : UInt64).toNat % 64 = 32 := rfl
  have hlow : ctr.toUInt32 + 1 = (ctr + 1).toUInt32 := (UInt64.toUInt32_add ctr 1).symm
  have hzero : ctr.toUInt32 + 1 = 0 ↔ ctr.toNat % 2 ^ 32 = 2 ^ 32 - 1 := by
    rw [← UInt32.toNat_inj, UInt32.toNat_add, UInt64.toNat_toUInt32, hone32]
    change (ctr.toNat % 2 ^ 32 + 1) % 2 ^ 32 = 0 ↔ _
    omega
  have hhigh : ((ctr + 1) >>> 32).toUInt32 =
      if ctr.toUInt32 + 1 = 0 then (ctr >>> 32).toUInt32 + 1 else (ctr >>> 32).toUInt32 := by
    refine UInt32.toNat_inj.mp ?_
    split_ifs with hwrap
    · rw [hzero] at hwrap
      rw [UInt32.toNat_add, UInt64.toNat_toUInt32, UInt64.toNat_toUInt32,
        UInt64.toNat_shiftRight, UInt64.toNat_shiftRight, h32, Nat.shiftRight_eq_div_pow,
        Nat.shiftRight_eq_div_pow, UInt64.toNat_add, hone, hone32]
      omega
    · rw [hzero] at hwrap
      rw [UInt64.toNat_toUInt32, UInt64.toNat_toUInt32, UInt64.toNat_shiftRight,
        UInt64.toNat_shiftRight, h32, Nat.shiftRight_eq_div_pow, Nat.shiftRight_eq_div_pow,
        UInt64.toNat_add, hone]
      omega
  rw [chacha20Input, chacha20Input, hhigh, ← hlow]
  unfold incrementCounter loadBlock
  simp only
  split_ifs <;> rfl

/-- The two words of the counter. -/
theorem joined_counter (key nonce : List UInt8) (ctr : UInt64) :
    (chacha20Input key nonce ctr).t12.toUInt64 +
      ((chacha20Input key nonce ctr).t13.toUInt64 <<< 32) = ctr := by
  have hctr := ctr.toNat_lt
  have h32 : (32 : UInt64).toNat % 64 = 32 := rfl
  change ctr.toUInt32.toUInt64 + ((ctr >>> 32).toUInt32.toUInt64 <<< 32) = ctr
  refine UInt64.toNat_inj.mp ?_
  rw [UInt64.toNat_add, UInt64.toNat_shiftLeft, UInt32.toNat_toUInt64, UInt32.toNat_toUInt64,
    UInt64.toNat_toUInt32, UInt64.toNat_toUInt32, UInt64.toNat_shiftRight, h32,
    Nat.shiftRight_eq_div_pow, Nat.shiftLeft_eq]
  omega

/-! ## The stream -/

theorem counter_add (ctr : UInt64) (m n : ℕ) :
    ctr + UInt64.ofNat m + UInt64.ofNat n = ctr + UInt64.ofNat (m + n) := by
  rw [UInt64.add_assoc, UInt64.ofNat_add]

theorem keyByte_skip (key nonce : List UInt8) (ctr : UInt64) (n i : ℕ) :
    keyByte key nonce ctr (64 * n + i) = keyByte key nonce (ctr + UInt64.ofNat n) i := by
  have hdiv : (64 * n + i) / 64 = n + i / 64 := Nat.mul_add_div (by decide) n i
  have hmod : (64 * n + i) % 64 = i % 64 := Nat.mul_add_mod 64 n i
  rw [keyByte, keyByte, hdiv, hmod, counter_add]

theorem keyByte_first {i : ℕ} (hi : i < 64) (key nonce : List UInt8) (ctr : UInt64) :
    keyByte key nonce ctr i = (keyBlock key nonce ctr).getD i 0 := by
  rw [keyByte, Nat.div_eq_of_lt hi, Nat.mod_eq_of_lt hi]
  exact congrArg (fun c => (keyBlock key nonce c).getD i 0) (UInt64.add_zero ctr)

theorem textByte_skip (plainText : Option (List UInt8)) (n i : ℕ) :
    textByte (plainText.map (·.drop n)) i = textByte plainText (n + i) := by
  cases plainText with
  | none => simp [textByte]
  | some text => simp [textByte, List.getD_eq_getElem?_getD]

/-- The bytes from `start` on, in exclusive or with the stream of the counter. -/
def streamed (plainText : Option (List UInt8)) (size : ℕ) (key nonce : List UInt8)
    (ctr : UInt64) : List UInt8 :=
  (List.range size).map fun i => keyByte key nonce ctr i ^^^ textByte plainText i

theorem streamed_add (plainText : Option (List UInt8)) (n size : ℕ) (key nonce : List UInt8)
    (ctr : UInt64) :
    streamed plainText (64 * n + size) key nonce ctr =
      streamed plainText (64 * n) key nonce ctr ++
        streamed (plainText.map (·.drop (64 * n))) size key nonce (ctr + UInt64.ofNat n) := by
  rw [streamed, List.range_add, List.map_append, List.map_map]
  refine congrArg (streamed plainText (64 * n) key nonce ctr ++ ·) (List.map_congr_left ?_)
  intro i _
  rw [Function.comp_apply, keyByte_skip, textByte_skip]

theorem zero128_getD (i : ℕ) : zero128.getD i 0 = 0 := by
  rw [zero128, List.getD_eq_getElem?_getD, List.getElem?_replicate]
  split_ifs <;> rfl

theorem wholeBlock_streamed {plainText : Option (List UInt8)} (key nonce : List UInt8)
    (ctr : UInt64) (hlong : ∀ text ∈ plainText, 64 ≤ text.length) :
    wholeBlock (chacha20Input key nonce ctr) plainText =
      streamed plainText 64 key nonce ctr := by
  have hlength := keyBlock_length key nonce ctr
  have hbytes : streamed plainText 64 key nonce ctr = (List.range 64).map fun i =>
      (keyBlock key nonce ctr).getD i 0 ^^^ textByte plainText i := by
    refine List.map_congr_left fun i hi => ?_
    rw [keyByte_first (List.mem_range.mp hi)]
  rw [hbytes]
  cases plainText with
  | none =>
      refine List.ext_getElem ?_ fun i hi hi' => ?_
      · rw [List.length_map, List.length_range]
        exact hlength
      · rw [List.getElem_map, List.getElem_range]
        have hget := List.getD_eq_getElem (keyBlock key nonce ctr) 0 hi
        rw [hget]
        exact UInt8.xor_zero.symm
  | some text =>
      have htext : 4 * (poolWords (chacha20Input key nonce ctr)).length ≤ text.length :=
        hlong text rfl
      rw [wholeBlock, xorWords_eq htext, zipWith_eq_range (by rwa [store32LeBuf_length])]
      rw [store32LeBuf_length, poolWords_length]
      rfl

theorem wholeBlocks_eq {nbBlocks : ℕ} {plainText : Option (List UInt8)} (key nonce : List UInt8)
    (ctr : UInt64) (hlong : ∀ text ∈ plainText, 64 * nbBlocks ≤ text.length) :
    wholeBlocks nbBlocks (chacha20Input key nonce ctr) plainText =
      (streamed plainText (64 * nbBlocks) key nonce ctr,
        chacha20Input key nonce (ctr + UInt64.ofNat nbBlocks)) := by
  induction nbBlocks generalizing plainText ctr with
  | zero =>
      rw [wholeBlocks]
      exact congrArg (fun c => ([], chacha20Input key nonce c)) (UInt64.add_zero ctr).symm
  | succ nbBlocks ih =>
      have hfirst : ∀ text ∈ plainText, 64 ≤ text.length := by
        intro text hmem
        have hle := hlong text hmem
        omega
      have hrest : ∀ text ∈ plainText.map (·.drop 64), 64 * nbBlocks ≤ text.length := by
        intro text hmem
        obtain ⟨whole, hwhole, rfl⟩ := Option.mem_map.mp hmem
        have hle := hlong whole hwhole
        rw [List.length_drop]
        omega
      have hsize : 64 * (nbBlocks + 1) = 64 * 1 + 64 * nbBlocks := by omega
      have hnext : ctr + 1 + UInt64.ofNat nbBlocks = ctr + UInt64.ofNat (nbBlocks + 1) := by
        rw [Nat.add_comm nbBlocks]
        exact counter_add ctr 1 nbBlocks
      rw [wholeBlocks, wholeBlock_streamed key nonce ctr hfirst, incrementCounter_input, ih _ hrest,
        hsize, streamed_add, hnext]
      rfl

/-- A call is the exclusive or with the stream, and returns the counter of the first block it has
not used. -/
theorem djb_streamed {plainText : Option (List UInt8)} {textSize : ℕ} (key nonce : List UInt8)
    (ctr : UInt64) (hsize : ∀ text ∈ plainText, text.length = textSize) :
    cryptoChacha20Djb plainText textSize key nonce ctr =
      (streamed plainText textSize key nonce ctr,
        ctr + UInt64.ofNat ((textSize + 63) / 64)) := by
  have hcount : textSize >>> 6 = textSize / 64 := Nat.shiftRight_eq_div_pow _ 6
  have hmask : textSize &&& 63 = textSize % 64 := Nat.and_two_pow_sub_one_eq_mod textSize 6
  have hlong : ∀ text ∈ plainText, 64 * (textSize / 64) ≤ text.length := by
    intro text hmem
    rw [hsize text hmem]
    omega
  have hmod := Nat.mod_lt textSize (show 0 < 64 by decide)
  have hsplit : textSize = 64 * (textSize / 64) + textSize % 64 := (Nat.div_add_mod _ _).symm
  have hstream : streamed plainText textSize key nonce ctr =
      streamed plainText (64 * (textSize / 64)) key nonce ctr ++
        streamed (plainText.map (·.drop (64 * (textSize / 64)))) (textSize % 64) key nonce
          (ctr + UInt64.ofNat (textSize / 64)) := by
    rw [← streamed_add, ← hsplit]
  unfold cryptoChacha20Djb
  simp only [hcount, hmask, wholeBlocks_eq key nonce ctr hlong, joined_counter]
  rw [hstream]
  by_cases hwhole : textSize % 64 = 0
  · have hblocks : (textSize + 63) / 64 = textSize / 64 := by omega
    rw [hwhole, hblocks, if_neg (Nat.lt_irrefl 0), if_neg (Nat.lt_irrefl 0)]
    exact congrArg (Prod.mk _) (UInt64.add_zero _)
  · have hblocks : (textSize + 63) / 64 = textSize / 64 + 1 := by omega
    have hpos : 0 < textSize % 64 := Nat.pos_of_ne_zero hwhole
    rw [hblocks, if_pos hpos, if_pos hpos]
    refine Prod.ext (congrArg (streamed plainText _ key nonce ctr ++ ·) ?_)
      (counter_add ctr (textSize / 64) 1)
    refine List.map_congr_left fun i hi => ?_
    have hlt : i < textSize % 64 := List.mem_range.mp hi
    rw [keyByte_first (by omega)]
    refine congrArg ((keyBlock key nonce _).getD i 0 ^^^ ·) ?_
    cases plainText with
    | none => exact zero128_getD i
    | some text => rfl

@[simp] theorem streamed_length (plainText : Option (List UInt8)) (size : ℕ)
    (key nonce : List UInt8) (ctr : UInt64) :
    (streamed plainText size key nonce ctr).length = size := by
  rw [streamed, List.length_map, List.length_range]

theorem textByte_streamed {size i : ℕ} (hi : i < size) (plainText : Option (List UInt8))
    (key nonce : List UInt8) (ctr : UInt64) :
    textByte (some (streamed plainText size key nonce ctr)) i =
      keyByte key nonce ctr i ^^^ textByte plainText i := by
  simp [textByte, streamed, List.getD_eq_getElem?_getD, hi]

/-- The stream over what it has encrypted is the text. -/
theorem streamed_streamed (text key nonce : List UInt8) (ctr : UInt64) :
    streamed (some (streamed (some text) text.length key nonce ctr)) text.length key nonce ctr =
      text := by
  refine List.ext_getElem (streamed_length _ _ _ _ _) fun i hi hi' => ?_
  have hbyte := textByte_streamed hi' (some (streamed (some text) text.length key nonce ctr)) key
    nonce ctr
  have htext := textByte_streamed hi' (some text) key nonce ctr
  rw [htext, ← UInt8.xor_assoc, UInt8.xor_self, UInt8.zero_xor, textByte, textByte,
    Option.getD_some, Option.getD_some, List.getD_eq_getElem _ _ hi,
    List.getD_eq_getElem _ _ hi'] at hbyte
  exact hbyte

/-- Calls in turn, each with the counter which the one before has returned. -/
def djbCalls (key nonce : List UInt8) (ctr : UInt64) (pieces : List (List UInt8)) :
    List UInt8 × UInt64 :=
  pieces.foldl (fun done piece =>
    let call := cryptoChacha20Djb (some piece) piece.length key nonce done.2
    (done.1 ++ call.1, call.2)) ([], ctr)

theorem djb_append {first : List UInt8} (hwhole : 64 ∣ first.length) (rest key nonce : List UInt8)
    (ctr : UInt64) :
    streamed (some (first ++ rest)) (first ++ rest).length key nonce ctr =
        streamed (some first) first.length key nonce ctr ++
          streamed (some rest) rest.length key nonce
            (ctr + UInt64.ofNat ((first.length + 63) / 64)) ∧
      ctr + UInt64.ofNat ((first.length + 63) / 64) +
          UInt64.ofNat ((rest.length + 63) / 64) =
        ctr + UInt64.ofNat (((first ++ rest).length + 63) / 64) := by
  obtain ⟨count, hcount⟩ := hwhole
  have hblocks : (first.length + 63) / 64 = count := by omega
  have hdrop : (some (first ++ rest)).map (·.drop (64 * count)) = some rest := by
    rw [Option.map_some, ← hcount, List.drop_left]
  have hfirst : streamed (some (first ++ rest)) (64 * count) key nonce ctr =
      streamed (some first) (64 * count) key nonce ctr := by
    refine List.map_congr_left fun i hi => ?_
    have hlt : i < first.length := hcount ▸ List.mem_range.mp hi
    refine congrArg (keyByte key nonce ctr i ^^^ ·) ?_
    rw [textByte, textByte, Option.getD_some, Option.getD_some,
      List.getD_append _ _ _ _ hlt]
  refine ⟨?_, ?_⟩
  · rw [List.length_append, hcount, streamed_add, hdrop, hfirst, ← hcount, hblocks]
  · rw [counter_add, hblocks, List.length_append]
    refine congrArg (fun n => ctr + UInt64.ofNat n) ?_
    omega

theorem djb_text (text key nonce : List UInt8) (ctr : UInt64) :
    cryptoChacha20Djb (some text) text.length key nonce ctr =
      (streamed (some text) text.length key nonce ctr,
        ctr + UInt64.ofNat ((text.length + 63) / 64)) :=
  djb_streamed key nonce ctr fun _ hmem => congrArg List.length (Option.some.inj hmem).symm

theorem djbCalls_snoc {pieces : List (List UInt8)} {key nonce : List UInt8} {ctr : UInt64}
    (hfront : djbCalls key nonce ctr pieces =
      (streamed (some pieces.flatten) pieces.flatten.length key nonce ctr,
        ctr + UInt64.ofNat ((pieces.flatten.length + 63) / 64)))
    (hwhole : 64 ∣ pieces.flatten.length) (piece : List UInt8) :
    djbCalls key nonce ctr (pieces ++ [piece]) =
      (streamed (some (pieces ++ [piece]).flatten) (pieces ++ [piece]).flatten.length key nonce ctr,
        ctr + UInt64.ofNat (((pieces ++ [piece]).flatten.length + 63) / 64)) := by
  obtain ⟨hstream, hcounter⟩ := djb_append hwhole piece key nonce ctr
  have hflatten : (pieces ++ [piece]).flatten = pieces.flatten ++ piece := by
    rw [List.flatten_append, List.flatten_singleton]
  rw [hflatten, hstream, ← hcounter]
  unfold djbCalls at hfront ⊢
  rw [List.foldl_append, hfront, List.foldl_cons, List.foldl_nil, djb_text]

theorem djbCalls_whole {pieces : List (List UInt8)} (key nonce : List UInt8) (ctr : UInt64)
    (hwhole : ∀ piece ∈ pieces, 64 ∣ piece.length) :
    djbCalls key nonce ctr pieces =
        (streamed (some pieces.flatten) pieces.flatten.length key nonce ctr,
          ctr + UInt64.ofNat ((pieces.flatten.length + 63) / 64)) ∧
      64 ∣ pieces.flatten.length := by
  induction pieces using List.reverseRecOn with
  | nil => exact ⟨congrArg (Prod.mk []) (UInt64.add_zero ctr).symm, Nat.dvd_zero 64⟩
  | append_singleton front piece ih =>
      obtain ⟨hfront, hdvd⟩ := ih fun p hp => hwhole p (List.mem_append_left _ hp)
      refine ⟨djbCalls_snoc hfront hdvd piece, ?_⟩
      rw [List.flatten_append, List.flatten_singleton, List.length_append]
      exact Nat.dvd_add hdvd (hwhole piece (List.mem_append_right _ (List.mem_singleton_self _)))

/-- Calls in turn are one call, and calls on the cipher text, cut in any other way at whole
blocks, give the text back. -/
theorem chacha20_in_pieces {pieces : List (List UInt8)} (last key nonce : List UInt8)
    (ctr : UInt64) (hwhole : ∀ piece ∈ pieces, 64 ∣ piece.length) :
    djbCalls key nonce ctr (pieces ++ [last]) =
        (streamed (some (pieces ++ [last]).flatten) (pieces ++ [last]).flatten.length key nonce ctr,
          ctr + UInt64.ofNat (((pieces ++ [last]).flatten.length + 63) / 64)) ∧
      ∀ (others : List (List UInt8)) (final : List UInt8),
        (∀ other ∈ others, 64 ∣ other.length) →
        (others ++ [final]).flatten = (djbCalls key nonce ctr (pieces ++ [last])).1 →
        (djbCalls key nonce ctr (others ++ [final])).1 = (pieces ++ [last]).flatten := by
  obtain ⟨hfront, hdvd⟩ := djbCalls_whole key nonce ctr hwhole
  have hcalls := djbCalls_snoc hfront hdvd last
  refine ⟨hcalls, fun others final hothers hcipher => ?_⟩
  obtain ⟨hothersFront, hothersDvd⟩ := djbCalls_whole key nonce ctr hothers
  have hback := djbCalls_snoc hothersFront hothersDvd final
  rw [hcalls] at hcipher
  rw [hback, hcipher, streamed_length, streamed_streamed]

theorem chacha20_in_pieces_two :
    djbCalls (List.replicate 32 1) (List.replicate 8 2) 0xffffffff
          ([List.replicate 64 (3 : UInt8)] ++ [[4]]) =
        (streamed (some ([List.replicate 64 (3 : UInt8)] ++ [[4]]).flatten)
            ([List.replicate 64 (3 : UInt8)] ++ [[4]]).flatten.length (List.replicate 32 1)
            (List.replicate 8 2) 0xffffffff,
          0xffffffff +
            UInt64.ofNat ((([List.replicate 64 (3 : UInt8)] ++ [[4]]).flatten.length + 63) / 64)) ∧
      ∀ (others : List (List UInt8)) (final : List UInt8),
        (∀ other ∈ others, 64 ∣ other.length) →
        (others ++ [final]).flatten =
          (djbCalls (List.replicate 32 1) (List.replicate 8 2) 0xffffffff
            ([List.replicate 64 (3 : UInt8)] ++ [[4]])).1 →
        (djbCalls (List.replicate 32 1) (List.replicate 8 2) 0xffffffff (others ++ [final])).1 =
          ([List.replicate 64 (3 : UInt8)] ++ [[4]]).flatten :=
  chacha20_in_pieces [4] (List.replicate 32 1) (List.replicate 8 2) 0xffffffff (by decide)

end Monocypher
end LibWake
