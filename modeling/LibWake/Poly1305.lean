import LibWake.BlockBuffer
import LibWake.Poly1305Limbs

/-!
# Poly1305

A message is fed in pieces of any lengths.  The tag is the polynomial whose coefficients are the
numbers of the blocks, evaluated at the clamped key modulo 2^130 - 5, plus the pad modulo 2^128.
-/

namespace LibWake
namespace Monocypher

open BlockBuffer (Buffer feed blocks)

/-- `crypto_poly1305_ctx`. -/
structure Poly1305Ctx where
  c : List UInt8
  cIdx : ℕ
  r : Words4
  pad : Words4
  h : Limbs
  deriving DecidableEq, Repr

def polyBlocks (last : UInt32) : ℕ → Poly1305Ctx → List UInt8 → Poly1305Ctx
  | 0, ctx, _ => ctx
  | nbBlocks + 1, ctx, input =>
      polyBlocks last nbBlocks { ctx with h := polyBlock ctx.r ctx.h input last } (input.drop 16)

def load32LeBuf4 (src : List UInt8) : Words4 :=
  ⟨load32Le src, load32Le (src.drop 4), load32Le (src.drop 8), load32Le (src.drop 12)⟩

def clampWords (r : Words4) : Words4 :=
  ⟨r.w0 &&& 0x0fffffff, r.w1 &&& 0x0ffffffc, r.w2 &&& 0x0ffffffc, r.w3 &&& 0x0ffffffc⟩

def cryptoPoly1305Init (ctx : Poly1305Ctx) (key : List UInt8) : Poly1305Ctx :=
  { ctx with
    h := ⟨0, 0, 0, 0, 0⟩
    cIdx := 0
    r := clampWords (load32LeBuf4 key)
    pad := load32LeBuf4 (key.drop 16) }

def Poly1305Ctx.putByte (ctx : Poly1305Ctx) (byte : UInt8) : Poly1305Ctx :=
  { ctx with c := ctx.c.set ctx.cIdx byte, cIdx := ctx.cIdx + 1 }

/-- A complete block is processed. -/
def processComplete (ctx : Poly1305Ctx) : Poly1305Ctx :=
  if ctx.cIdx = 16 then { polyBlocks 1 1 ctx ctx.c with cIdx := 0 } else ctx

/-- The message block by block, and the remaining bytes. -/
def processMessage (ctx : Poly1305Ctx) (message : List UInt8) : Poly1305Ctx :=
  let nbBlocks := message.length >>> 4
  ((message.drop (nbBlocks <<< 4)).take (message.length &&& 15)).foldl Poly1305Ctx.putByte
    (polyBlocks 1 nbBlocks ctx message)

def cryptoPoly1305Update (ctx : Poly1305Ctx) (message : List UInt8) : Poly1305Ctx :=
  if message.length = 0 then ctx
  else
    let aligned := min (gap ctx.cIdx 16) message.length
    processMessage (processComplete ((message.take aligned).foldl Poly1305Ctx.putByte ctx))
      (message.drop aligned)

/-- The carry out of `h + 5`, shifted back to the beginning. -/
def finalCarry (h : Limbs) : UInt64 :=
  let c := (5 + h.h0.toUInt64) >>> 32
  let c := (c + h.h1.toUInt64) >>> 32
  let c := (c + h.h2.toUInt64) >>> 32
  let c := (c + h.h3.toUInt64) >>> 32
  let c := c + h.h4.toUInt64
  (c >>> 2) * 5

def finalMac (h : Limbs) (pad : Words4) (c : UInt64) : List UInt8 :=
  let c0 := c + (h.h0.toUInt64 + pad.w0.toUInt64)
  let c1 := (c0 >>> 32) + (h.h1.toUInt64 + pad.w1.toUInt64)
  let c2 := (c1 >>> 32) + (h.h2.toUInt64 + pad.w2.toUInt64)
  let c3 := (c2 >>> 32) + (h.h3.toUInt64 + pad.w3.toUInt64)
  store32Le c0.toUInt32 ++ store32Le c1.toUInt32 ++ store32Le c2.toUInt32 ++
    store32Le c3.toUInt32

/-- The last block, with a one behind the remaining input and zeros behind it. -/
def lastBlock (ctx : Poly1305Ctx) : List UInt8 :=
  (ctx.c.take ctx.cIdx ++ List.replicate (16 - ctx.cIdx) 0).set ctx.cIdx 1

def cryptoPoly1305Final (ctx : Poly1305Ctx) : List UInt8 :=
  let ctx :=
    if ctx.cIdx ≠ 0 then
      let ctx := { ctx with c := lastBlock ctx }
      polyBlocks 0 1 ctx ctx.c
    else ctx
  finalMac ctx.h ctx.pad (finalCarry ctx.h)

def cryptoPoly1305 (ctx : Poly1305Ctx) (message key : List UInt8) : List UInt8 :=
  cryptoPoly1305Final (cryptoPoly1305Update (cryptoPoly1305Init ctx key) message)

/-! ## The polynomial -/

/-- The number of a block: its bytes from the lowest, with a one behind them. -/
def blockNumber (block : List UInt8) : ℕ := leNat (block ++ [1])

def multiplyAdd (r : ℕ) (acc : ℕ) (block : List UInt8) : ℕ :=
  (acc + blockNumber block) * r % p1305

/-- The polynomial of the message at a point. -/
def polynomialAt (r : ℕ) (message : List UInt8) : ℕ :=
  (blocks 16 message).foldl (multiplyAdd r) 0

/-- The evaluation point: the first half of the key with 22 of its bits cleared. -/
def clamp (r : ℕ) : ℕ := r &&& 0x0ffffffc0ffffffc0ffffffc0fffffff

def poly1305 (key message : List UInt8) : List UInt8 :=
  leBytes 16 ((polynomialAt (clamp (leNat (key.take 16))) message +
    leNat ((key.drop 16).take 16)) % 2 ^ 128)

/-! ## The key -/

theorem and_join {k a b m n : ℕ} (ha : a < 2 ^ k) (hm : m < 2 ^ k) :
    (a + 2 ^ k * b) &&& (m + 2 ^ k * n) = (a &&& m) + 2 ^ k * (b &&& n) := by
  have hpos : 0 < 2 ^ k := Nat.two_pow_pos k
  have hlow : ((a + 2 ^ k * b) &&& (m + 2 ^ k * n)) % 2 ^ k = a &&& m := by
    rw [Nat.and_mod_two_pow, Nat.add_mul_mod_self_left, Nat.add_mul_mod_self_left,
      Nat.mod_eq_of_lt ha, Nat.mod_eq_of_lt hm]
  have hhigh : ((a + 2 ^ k * b) &&& (m + 2 ^ k * n)) / 2 ^ k = b &&& n := by
    rw [Nat.and_div_two_pow, Nat.add_mul_div_left _ _ hpos, Nat.add_mul_div_left _ _ hpos,
      Nat.div_eq_of_lt ha, Nat.div_eq_of_lt hm, Nat.zero_add, Nat.zero_add]
  rw [← hlow, ← hhigh]
  exact (Nat.mod_add_div _ _).symm

theorem clampWords_clamped (r : Words4) : Clamped (clampWords r) := by
  have hlow : (clampWords r).w0.toNat < 2 ^ 28 := by
    change (r.w0 &&& 0x0fffffff).toNat < 2 ^ 28
    rw [UInt32.toNat_and]
    exact Nat.lt_of_le_of_lt Nat.and_le_right (by decide)
  have hword : ∀ w : UInt32, (w &&& 0x0ffffffc).toNat < 2 ^ 28 ∧
      (w &&& 0x0ffffffc).toNat % 4 = 0 := by
    intro w
    rw [UInt32.toNat_and]
    refine ⟨Nat.lt_of_le_of_lt Nat.and_le_right (by decide), ?_⟩
    change (w.toNat &&& 0x0ffffffc) % 2 ^ 2 = 0
    rw [Nat.and_mod_two_pow]
    exact Nat.and_zero _
  refine ⟨hlow, fun w hw => ?_⟩
  simp only [clampWords, List.mem_cons, List.not_mem_nil, or_false] at hw
  rcases hw with rfl | rfl | rfl
  · exact hword r.w1
  · exact hword r.w2
  · exact hword r.w3

theorem load32LeBuf4_value {src : List UInt8} (hle : 16 ≤ src.length) :
    (load32LeBuf4 src).value = leNat (src.take 16) := (loads_value hle).symm

theorem clampWords_value (r : Words4) : (clampWords r).value = clamp r.value := by
  have h0 := r.w0.toNat_lt
  have h1 := r.w1.toNat_lt
  have h2 := r.w2.toNat_lt
  have hmask : 0x0ffffffc0ffffffc0ffffffc0fffffff = 0x0fffffff +
      2 ^ 32 * (0x0ffffffc + 2 ^ 32 * (0x0ffffffc + 2 ^ 32 * 0x0ffffffc)) := by norm_num
  have hvalue : r.value = r.w0.toNat +
      2 ^ 32 * (r.w1.toNat + 2 ^ 32 * (r.w2.toNat + 2 ^ 32 * r.w3.toNat)) := by
    rw [Words4.value]
    ring
  rw [clamp, hvalue, hmask, and_join h0 (by norm_num), and_join h1 (by norm_num),
    and_join h2 (by norm_num), Words4.value]
  simp only [clampWords, UInt32.toNat_and]
  change (r.w0.toNat &&& 0x0fffffff) + 2 ^ 32 * (r.w1.toNat &&& 0x0ffffffc) +
    2 ^ 64 * (r.w2.toNat &&& 0x0ffffffc) + 2 ^ 96 * (r.w3.toNat &&& 0x0ffffffc) = _
  ring

/-! ## Pieces of a message -/

def absorbBlock (r : Words4) (h : Limbs) (block : List UInt8) : Limbs := polyBlock r h block 1

/-- The context holds the open block in the first places of `c`. -/
structure Follows (r pad : Words4) (ctx : Poly1305Ctx) (buffer : Buffer Limbs UInt8) : Prop where
  room : ctx.c.length = 16
  index : ctx.cIdx = buffer.pending.length
  bytes : ctx.c.take ctx.cIdx = buffer.pending
  state : ctx.h = buffer.state
  key : ctx.r = r
  padding : ctx.pad = pad

theorem load32Le_take {k : ℕ} (hk : 4 ≤ k) (input : List UInt8) :
    load32Le (input.take k) = load32Le input := by
  obtain ⟨j, rfl⟩ := Nat.exists_eq_add_of_le' hk
  match input with
  | [] => rfl
  | [_] => rfl
  | [_, _] => rfl
  | [_, _, _] => rfl
  | _ :: _ :: _ :: _ :: _ => rfl

theorem polyBlock_take (r : Words4) (h : Limbs) (input : List UInt8) (last : UInt32) :
    polyBlock r h (input.take 16) last = polyBlock r h input last := by
  simp only [polyBlock, List.drop_take]
  rw [load32Le_take (by decide), load32Le_take (by decide), load32Le_take (by decide),
    load32Le_take (by decide)]

theorem polyBlocks_eq (last : UInt32) (nbBlocks : ℕ) (ctx : Poly1305Ctx) (input : List UInt8) :
    polyBlocks last nbBlocks ctx input =
      { ctx with
        h := BlockBuffer.absorb 16 (fun h block => polyBlock ctx.r h block last) nbBlocks ctx.h
          input } := by
  induction nbBlocks generalizing ctx input with
  | zero => rfl
  | succ nbBlocks ih => rw [polyBlocks, ih, BlockBuffer.absorb, polyBlock_take]

variable {r pad : Words4} {ctx : Poly1305Ctx} {buffer : Buffer Limbs UInt8}

theorem Follows.putByte (hfollows : Follows r pad ctx buffer) (hlt : buffer.pending.length < 16)
    (byte : UInt8) :
    Follows r pad (ctx.putByte byte) ⟨buffer.state, buffer.pending ++ [byte]⟩ where
  room := by rw [Poly1305Ctx.putByte, List.length_set, hfollows.room]
  index := by rw [Poly1305Ctx.putByte, hfollows.index, List.length_append, List.length_singleton]
  bytes := by
    have hin : ctx.cIdx < (ctx.c.set ctx.cIdx byte).length := by
      rw [List.length_set, hfollows.room, hfollows.index]
      exact hlt
    change (ctx.c.set ctx.cIdx byte).take (ctx.cIdx + 1) = buffer.pending ++ [byte]
    rw [List.take_succ_eq_append_getElem hin, List.getElem_set_self, List.take_set_of_le le_rfl,
      hfollows.bytes]
  state := hfollows.state
  key := hfollows.key
  padding := hfollows.padding

theorem Follows.putBytes (hfollows : Follows r pad ctx buffer) (bytes : List UInt8)
    (hle : buffer.pending.length + bytes.length ≤ 16) :
    Follows r pad (bytes.foldl Poly1305Ctx.putByte ctx)
      ⟨buffer.state, buffer.pending ++ bytes⟩ := by
  induction bytes generalizing ctx buffer with
  | nil =>
      rw [List.append_nil]
      exact hfollows
  | cons byte rest ih =>
      rw [List.length_cons] at hle
      have hnext := ih (hfollows.putByte (by omega) byte) (by
        rw [List.length_append, List.length_singleton]
        omega)
      rw [List.append_assoc, List.singleton_append] at hnext
      exact hnext

theorem Follows.polyBlocks (hfollows : Follows r pad ctx buffer) (nbBlocks : ℕ)
    (input : List UInt8) :
    Follows r pad (polyBlocks 1 nbBlocks ctx input)
      ⟨BlockBuffer.absorb 16 (absorbBlock r) nbBlocks buffer.state input, buffer.pending⟩ := by
  rw [polyBlocks_eq]
  exact ⟨hfollows.room, hfollows.index, hfollows.bytes, by
    rw [hfollows.key, hfollows.state]
    rfl, hfollows.key, hfollows.padding⟩

theorem Follows.flush (hfollows : Follows r pad ctx buffer) (hfull : buffer.pending.length = 16) :
    Follows r pad { Monocypher.polyBlocks 1 1 ctx ctx.c with cIdx := 0 }
      ⟨absorbBlock r buffer.state buffer.pending, []⟩ := by
  have hall : ctx.c = buffer.pending := by
    rw [← hfollows.bytes, hfollows.index, hfull]
    exact (List.take_of_length_le hfollows.room.le).symm
  have hblocks := hfollows.polyBlocks 1 ctx.c
  have htake : ctx.c.take 16 = buffer.pending := by
    rw [List.take_of_length_le hfollows.room.le, hall]
  refine ⟨hblocks.room, rfl, rfl, ?_, hblocks.key, hblocks.padding⟩
  change (Monocypher.polyBlocks 1 1 ctx ctx.c).h = _
  rw [hblocks.state, BlockBuffer.absorb, BlockBuffer.absorb, htake]

theorem Follows.processMessage {state : Limbs} (hfollows : Follows r pad ctx ⟨state, []⟩)
    (message : List UInt8) :
    Follows r pad (Monocypher.processMessage ctx message)
      (feed 16 (absorbBlock r) ⟨state, []⟩ message) := by
  have hcount : message.length >>> 4 = message.length / 16 := Nat.shiftRight_eq_div_pow _ 4
  have hshift : (message.length / 16) <<< 4 = 16 * (message.length / 16) := by
    rw [Nat.shiftLeft_eq, Nat.mul_comm]
  have hmask : message.length &&& 15 = message.length % 16 :=
    Nat.and_two_pow_sub_one_eq_mod message.length 4
  have hlength : (message.drop (16 * (message.length / 16))).length = message.length % 16 := by
    rw [List.length_drop]
    omega
  rw [BlockBuffer.feed_from_empty (by decide), Monocypher.processMessage]
  simp only [hcount, hshift, hmask, List.take_of_length_le hlength.le]
  refine (hfollows.polyBlocks (message.length / 16) message).putBytes _ ?_
  rw [List.length_nil, hlength]
  omega

/-- The update takes a piece of the message as if it were fed byte by byte. -/
theorem Follows.update (hfollows : Follows r pad ctx buffer) (hlt : buffer.pending.length < 16)
    (message : List UInt8) :
    Follows r pad (cryptoPoly1305Update ctx message)
      (feed 16 (absorbBlock r) buffer message) := by
  unfold cryptoPoly1305Update
  split_ifs with hempty
  · have hnil : message = [] := List.eq_nil_of_length_eq_zero hempty
    rw [hnil]
    exact hfollows
  · have hgap : gap ctx.cIdx 16 = (16 - buffer.pending.length) % 16 := by
      rw [hfollows.index]
      have hpow := gap_pow buffer.pending.length 4 (by decide) (by omega)
      rwa [Nat.mod_eq_of_lt (show buffer.pending.length < 2 ^ 4 from hlt)] at hpow
    rw [hgap]
    extract_lets aligned
    have hshort : buffer.pending.length + (message.take aligned).length ≤ 16 := by
      rw [List.length_take]
      omega
    have hfilled := hfollows.putBytes (message.take aligned) hshort
    have hindex := hfilled.index
    rw [List.length_append, List.length_take_of_le (Nat.min_le_right _ _)] at hindex
    rw [BlockBuffer.feed_in_three hlt rfl, processComplete]
    simp only [hindex]
    change Follows r pad _ (if buffer.pending.length + aligned = 16 then _ else _)
    split_ifs with hfull hall
    · refine (hfilled.flush ?_).processMessage _
      rw [List.length_append, List.length_take_of_le (Nat.min_le_right _ _), hfull]
    · have hnil : message.drop aligned = [] := List.drop_of_length_le hall
      rw [hnil]
      exact hfilled
    · -- nothing was missing, and the open block is empty
      have hnone : buffer.pending.length + (message.take aligned).length = 0 := by
        rw [List.length_take]
        omega
      have hempty : buffer.pending ++ message.take aligned = [] := by
        rw [← List.length_eq_zero_iff, List.length_append, hnone]
      rw [hempty] at hfilled
      exact hfilled.processMessage _

/-! ## The tag -/

theorem finalCarry_toNat {h : Limbs} (htop : h.h4.toNat ≤ 4) :
    (finalCarry h).toNat = (h.value + 5) / 2 ^ 130 * 5 := by
  have h0 := h.h0.toNat_lt
  have h1 := h.h1.toNat_lt
  have h2 := h.h2.toNat_lt
  have h3 := h.h3.toNat_lt
  have hcarry : ∀ (c : UInt64) (w : UInt32), c.toNat ≤ 5 →
      ((c + w.toUInt64) >>> 32).toNat = (c.toNat + w.toNat) / 2 ^ 32 := by
    intro c w hc
    have hw := w.toNat_lt
    rw [toNat_shiftRight32, toNat_add_of_lt, UInt32.toNat_toUInt64]
    rw [UInt32.toNat_toUInt64]
    omega
  unfold finalCarry
  extract_lets c1 c2 c3 c4 c5
  have hc1 : c1.toNat = (5 + h.h0.toNat) / 2 ^ 32 := hcarry 5 h.h0 (by decide)
  have hc2 : c2.toNat = (c1.toNat + h.h1.toNat) / 2 ^ 32 := hcarry c1 h.h1 (by omega)
  have hc3 : c3.toNat = (c2.toNat + h.h2.toNat) / 2 ^ 32 := hcarry c2 h.h2 (by omega)
  have hc4 : c4.toNat = (c3.toNat + h.h3.toNat) / 2 ^ 32 := hcarry c3 h.h3 (by omega)
  have hc5 : c5.toNat = c4.toNat + h.h4.toNat := by
    change (c4 + h.h4.toUInt64).toNat = _
    rw [toNat_add_of_lt, UInt32.toNat_toUInt64]
    rw [UInt32.toNat_toUInt64]
    omega
  have hquarter : (c5 >>> 2).toNat = c5.toNat / 4 := by
    rw [UInt64.toNat_shiftRight, Nat.shiftRight_eq_div_pow]
    rfl
  have hfive : (5 : UInt64).toNat = 5 := rfl
  rw [toNat_mul_of_lt, hquarter, hfive, Limbs.value]
  · omega
  · rw [hquarter, hfive]
    omega

theorem finalMac_eq {h : Limbs} {pad : Words4} {c : UInt64} (hc : c.toNat ≤ 5) :
    finalMac h pad c = leBytes 16 ((h.value + pad.value + c.toNat) % 2 ^ 128) := by
  have hword : ∀ (carry : UInt64) (a b : UInt32), carry.toNat < 2 ^ 32 →
      (carry + (a.toUInt64 + b.toUInt64)).toNat = carry.toNat + (a.toNat + b.toNat) := by
    intro carry a b hcarry
    have ha := a.toNat_lt
    have hb := b.toNat_lt
    have hsum : (a.toUInt64 + b.toUInt64).toNat = a.toNat + b.toNat := by
      rw [toNat_add_of_lt, UInt32.toNat_toUInt64, UInt32.toNat_toUInt64]
      rw [UInt32.toNat_toUInt64, UInt32.toNat_toUInt64]
      omega
    rw [toNat_add_of_lt, hsum]
    rw [hsum]
    omega
  have hhigh : ∀ x : UInt64, (x >>> 32).toNat < 2 ^ 32 := fun x => by
    have hx := x.toNat_lt
    rw [toNat_shiftRight32]
    omega
  have hstore : ∀ (x : UInt64) (n : ℕ), x.toNat % 2 ^ 32 = n % 2 ^ 32 →
      store32Le x.toUInt32 = leBytes 4 n := by
    intro x n heq
    rw [store32Le_eq, UInt64.toNat_toUInt32, heq]
    exact leBytes_mod 4 n
  unfold finalMac
  extract_lets c0 c1 c2 c3
  have h0 : c0.toNat = c.toNat + (h.h0.toNat + pad.w0.toNat) :=
    hword c h.h0 pad.w0 (by omega)
  have h1 : c1.toNat = c0.toNat / 2 ^ 32 + (h.h1.toNat + pad.w1.toNat) := by
    rw [← toNat_shiftRight32]
    exact hword _ h.h1 pad.w1 (hhigh c0)
  have h2 : c2.toNat = c1.toNat / 2 ^ 32 + (h.h2.toNat + pad.w2.toNat) := by
    rw [← toNat_shiftRight32]
    exact hword _ h.h2 pad.w2 (hhigh c1)
  have h3 : c3.toNat = c2.toNat / 2 ^ 32 + (h.h3.toNat + pad.w3.toNat) := by
    rw [← toNat_shiftRight32]
    exact hword _ h.h3 pad.w3 (hhigh c2)
  have htotal : h.value + pad.value + c.toNat = c0.toNat +
      2 ^ 32 * (h.h1.toNat + pad.w1.toNat) + 2 ^ 64 * (h.h2.toNat + pad.w2.toNat) +
      2 ^ 96 * (h.h3.toNat + pad.w3.toNat) + 2 ^ 128 * h.h4.toNat := by
    rw [h0, Limbs.value, Words4.value]
    ring
  rw [htotal]
  generalize h.h1.toNat + pad.w1.toNat = s1 at h1 ⊢
  generalize h.h2.toNat + pad.w2.toNat = s2 at h2 ⊢
  generalize h.h3.toNat + pad.w3.toNat = s3 at h3 ⊢
  generalize hT : (c0.toNat + 2 ^ 32 * s1 + 2 ^ 64 * s2 + 2 ^ 96 * s3 +
    2 ^ 128 * h.h4.toNat) % 2 ^ 128 = T
  rw [leBytes_add 4 12, leBytes_add 4 8, leBytes_add 4 4, hstore c0 T, hstore c1 (T / 256 ^ 4),
    hstore c2 (T / 256 ^ 4 / 256 ^ 4), hstore c3 (T / 256 ^ 4 / 256 ^ 4 / 256 ^ 4),
    List.append_assoc, List.append_assoc]
  · omega
  · omega
  · omega
  · omega

theorem final_eq {h : Limbs} {pad : Words4} (htop : h.h4.toNat ≤ 4) :
    finalMac h pad (finalCarry h) =
      leBytes 16 ((h.value % p1305 + pad.value) % 2 ^ 128) := by
  have h0 := h.h0.toNat_lt
  have h1 := h.h1.toNat_lt
  have h2 := h.h2.toNat_lt
  have h3 := h.h3.toNat_lt
  have hvalue : h.value < 5 * 2 ^ 128 := by
    rw [Limbs.value]
    omega
  have hcarry := finalCarry_toNat htop
  have hc : (finalCarry h).toNat ≤ 5 := by
    rw [hcarry]
    omega
  have hp : p1305 = 2 ^ 130 - 5 := rfl
  have hmod : h.value % p1305 = h.value - p1305 * ((h.value + 5) / 2 ^ 130) := by
    rw [hp]
    omega
  rw [finalMac_eq hc, hcarry, hmod]
  refine congrArg (leBytes 16) ?_
  rw [hp]
  omega

/-! ## The polynomial of the pieces -/

/-- The accumulator stands for a residue. -/
structure Represents (h : Limbs) (acc : ℕ) : Prop where
  top : h.h4.toNat ≤ 4
  residue : h.value % p1305 = acc

theorem blockNumber_eq (block : List UInt8) :
    blockNumber block = leNat block + 256 ^ block.length := by
  rw [blockNumber, leNat_append]
  exact congrArg _ (Nat.mul_one _)

theorem Represents.block {r : Words4} {h : Limbs} {acc : ℕ} (hr : Clamped r)
    (hrep : Represents h acc) {input : List UInt8} {last : UInt32} (hlast : last.toNat ≤ 1)
    (hlength : input.length = 16) {block : List UInt8}
    (hblock : blockNumber block = leNat input + 2 ^ 128 * last.toNat) :
    Represents (polyBlock r h input last) (multiplyAdd r.value acc block) := by
  obtain ⟨htop, hvalue⟩ := polyBlock_value hr hrep.top hlast hlength.ge
  rw [List.take_of_length_le hlength.le, ← hblock] at hvalue
  refine ⟨htop, hvalue.trans ?_⟩
  rw [← hrep.residue]
  exact ((Nat.mod_modEq h.value p1305).symm.add_right _).mul_right _

theorem absorbBlock_represents {r : Words4} (hr : Clamped r) (h : Limbs) (acc : ℕ)
    (block : List UInt8) (hrep : Represents h acc) (hlength : block.length = 16) :
    Represents (absorbBlock r h block) (multiplyAdd r.value acc block) := by
  refine hrep.block hr (by decide) hlength ?_
  rw [blockNumber_eq, hlength]
  rfl

theorem init_follows (ctx : Poly1305Ctx) (hroom : ctx.c.length = 16) (key : List UInt8) :
    Follows (clampWords (load32LeBuf4 key)) (load32LeBuf4 (key.drop 16))
      (cryptoPoly1305Init ctx key) ⟨⟨0, 0, 0, 0, 0⟩, []⟩ :=
  ⟨hroom, rfl, rfl, rfl, rfl, rfl⟩

theorem pieces_follow (hfollows : Follows r pad ctx buffer) (hlt : buffer.pending.length < 16)
    (pieces : List (List UInt8)) :
    Follows r pad (pieces.foldl cryptoPoly1305Update ctx)
      (feed 16 (absorbBlock r) buffer pieces.flatten) := by
  induction pieces generalizing ctx buffer with
  | nil => exact hfollows
  | cons piece rest ih =>
      rw [List.foldl_cons, List.flatten_cons, BlockBuffer.feed_append]
      exact ih (hfollows.update hlt piece) (BlockBuffer.feed_pending_lt (by decide) hlt piece)

/-- The last block is processed with its one at the end of the remaining input. -/
theorem Follows.final (hfollows : Follows r pad ctx buffer) (hlt : buffer.pending.length < 16)
    (hr : Clamped r) {acc : ℕ} (hrep : Represents buffer.state acc) :
    cryptoPoly1305Final ctx = leBytes 16
      (((if buffer.pending = [] then acc else multiplyAdd r.value acc buffer.pending) +
        pad.value) % 2 ^ 128) := by
  unfold cryptoPoly1305Final
  have hindex := hfollows.index
  have hpad := hfollows.padding
  by_cases hempty : buffer.pending = []
  · rw [hempty, List.length_nil] at hindex
    simp only [hindex, ne_eq, not_true_eq_false, if_false, if_pos hempty]
    rw [hpad, hfollows.state, final_eq hrep.top, hrep.residue]
  · have hpos : ctx.cIdx ≠ 0 := by
      rw [hindex]
      exact fun hzero => hempty (List.eq_nil_of_length_eq_zero hzero)
    have hlast : lastBlock ctx =
        (buffer.pending ++ [1]) ++ List.replicate (15 - buffer.pending.length) 0 := by
      have hzeros : 16 - buffer.pending.length = (15 - buffer.pending.length) + 1 := by omega
      rw [lastBlock, hfollows.bytes, hindex, hzeros, List.replicate_succ,
        List.set_append_right _ _ le_rfl, Nat.sub_self, List.set_cons_zero, List.append_assoc,
        List.singleton_append]
    have hlength : (lastBlock ctx).length = 16 := by
      rw [hlast, List.length_append, List.length_append, List.length_singleton,
        List.length_replicate]
      omega
    have hnumber : blockNumber buffer.pending =
        leNat (lastBlock ctx) + 2 ^ 128 * (0 : UInt32).toNat := by
      rw [hlast, leNat_append, leNat_replicate_zero]
      rfl
    have hnew : Represents (polyBlock r buffer.state (lastBlock ctx) 0)
        (multiplyAdd r.value acc buffer.pending) :=
      hrep.block hr (by decide) hlength hnumber
    simp only [hpos, ne_eq, not_false_eq_true, if_true, if_neg hempty]
    rw [Monocypher.polyBlocks, Monocypher.polyBlocks]
    simp only
    rw [hpad, hfollows.state, hfollows.key, final_eq hnew.top, hnew.residue]

theorem Follows.final_message {message : List UInt8} (hr : Clamped r)
    (hfollows : Follows r pad ctx (feed 16 (absorbBlock r) ⟨⟨0, 0, 0, 0, 0⟩, []⟩ message)) :
    cryptoPoly1305Final ctx =
      leBytes 16 ((polynomialAt r.value message + pad.value) % 2 ^ 128) := by
  have hzero : Represents ⟨0, 0, 0, 0, 0⟩ 0 := ⟨by decide, by decide⟩
  obtain ⟨hpending, hrep⟩ :=
    BlockBuffer.feed_related (absorbBlock_represents hr) hzero [] message
  have hlt : (feed 16 (absorbBlock r) ⟨⟨0, 0, 0, 0, 0⟩, []⟩ message).pending.length < 16 :=
    BlockBuffer.feed_pending_lt (by decide) (by decide) message
  rw [hfollows.final hlt hr hrep, hpending, polynomialAt,
    BlockBuffer.foldl_blocks (by decide)]

theorem final_pieces {key : List UInt8} (hroom : ctx.c.length = 16) (hkey : 32 ≤ key.length)
    (pieces : List (List UInt8)) :
    cryptoPoly1305Final (pieces.foldl cryptoPoly1305Update (cryptoPoly1305Init ctx key)) =
      poly1305 key pieces.flatten := by
  have hfollows := pieces_follow (init_follows ctx hroom key) (by decide) pieces
  have hlower : (load32LeBuf4 key).value = leNat (key.take 16) :=
    load32LeBuf4_value (by omega)
  have hupper : (load32LeBuf4 (key.drop 16)).value = leNat ((key.drop 16).take 16) :=
    load32LeBuf4_value (by
      rw [List.length_drop]
      omega)
  rw [hfollows.final_message (clampWords_clamped _), clampWords_value, hlower, hupper, poly1305]

/-- The tag does not depend on how the message is cut into pieces, nor on what the context was
used for before; the call for a message in one piece makes it too. -/
theorem crypto_poly1305_pieces {key : List UInt8} (hroom : ctx.c.length = 16)
    (hkey : key.length = 32) (pieces : List (List UInt8)) :
    cryptoPoly1305Final (pieces.foldl cryptoPoly1305Update (cryptoPoly1305Init ctx key)) =
        poly1305 key pieces.flatten ∧
      cryptoPoly1305 ctx pieces.flatten key = poly1305 key pieces.flatten := by
  refine ⟨final_pieces hroom hkey.ge pieces, ?_⟩
  have hwhole : cryptoPoly1305 ctx pieces.flatten key = poly1305 key [pieces.flatten].flatten :=
    final_pieces hroom hkey.ge [pieces.flatten]
  rwa [List.flatten_singleton] at hwhole

theorem crypto_poly1305_pieces_two :
    cryptoPoly1305Final ([[1, 2, 3], List.replicate 40 4].foldl cryptoPoly1305Update
        (cryptoPoly1305Init ⟨List.replicate 16 9, 3, ⟨1, 1, 1, 1⟩, ⟨1, 1, 1, 1⟩, ⟨1, 1, 1, 1, 1⟩⟩
          (List.replicate 32 7))) =
        poly1305 (List.replicate 32 7) [[1, 2, 3], List.replicate 40 4].flatten ∧
      cryptoPoly1305 ⟨List.replicate 16 9, 3, ⟨1, 1, 1, 1⟩, ⟨1, 1, 1, 1⟩, ⟨1, 1, 1, 1, 1⟩⟩
          [[1, 2, 3], List.replicate 40 4].flatten (List.replicate 32 7) =
        poly1305 (List.replicate 32 7) [[1, 2, 3], List.replicate 40 4].flatten :=
  crypto_poly1305_pieces rfl rfl _

end Monocypher
end LibWake
