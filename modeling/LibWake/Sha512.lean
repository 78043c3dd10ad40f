import LibWake.BlockBuffer
import LibWake.MonocypherBytes
import LibWake.Sha512Rounds

/-!
# SHA-512

The context keeps the open block in words.  Bytes are put into words one by one at the edges of a
piece, and read eight at a time between them.
-/

namespace LibWake
namespace Monocypher

open BlockBuffer (Buffer feed blocks)

def load64Be (s : List UInt8) : UInt64 :=
  (s.getD 0 0).toUInt64 <<< 56 ||| (s.getD 1 0).toUInt64 <<< 48 ||| (s.getD 2 0).toUInt64 <<< 40 |||
    (s.getD 3 0).toUInt64 <<< 32 ||| (s.getD 4 0).toUInt64 <<< 24 |||
    (s.getD 5 0).toUInt64 <<< 16 ||| (s.getD 6 0).toUInt64 <<< 8 ||| (s.getD 7 0).toUInt64

def store64Be (x : UInt64) : List UInt8 :=
  [((x >>> 56) &&& 0xff).toUInt8, ((x >>> 48) &&& 0xff).toUInt8, ((x >>> 40) &&& 0xff).toUInt8,
    ((x >>> 32) &&& 0xff).toUInt8, ((x >>> 24) &&& 0xff).toUInt8, ((x >>> 16) &&& 0xff).toUInt8,
    ((x >>> 8) &&& 0xff).toUInt8, (x &&& 0xff).toUInt8]

def load64BeBuf (src : List UInt8) : ℕ → List UInt64
  | 0 => []
  | size + 1 => load64Be src :: load64BeBuf (src.drop 8) size

/-- `crypto_sha512_ctx`; the two words of `input_size` are `sizeHigh` and `sizeLow`. -/
structure Sha512Ctx where
  hash : Words8
  input : List UInt64
  sizeHigh : UInt64
  sizeLow : UInt64
  inputIdx : ℕ
  deriving DecidableEq, Repr

/-- Writes one input byte. -/
def Sha512Ctx.setInput (ctx : Sha512Ctx) (input : UInt8) : Sha512Ctx :=
  let word := ctx.inputIdx >>> 3
  let byte := ctx.inputIdx &&& 7
  { ctx with
    input := ctx.input.set word
      (ctx.input.getD word 0 ||| input.toUInt64 <<< UInt64.ofNat (8 * (7 - byte))) }

def Sha512Ctx.incr (ctx : Sha512Ctx) (y : UInt64) : Sha512Ctx :=
  let low := ctx.sizeLow + y
  { ctx with
    sizeLow := low
    sizeHigh := if low < y then ctx.sizeHigh + 1 else ctx.sizeHigh }

def Sha512Ctx.compress (ctx : Sha512Ctx) : Sha512Ctx :=
  let compressed := sha512Compress ctx.hash ctx.input
  { ctx with hash := compressed.1, input := compressed.2 }

def Sha512Ctx.zeroInput (ctx : Sha512Ctx) (size : ℕ) : Sha512Ctx :=
  { ctx with input := List.replicate size 0 ++ ctx.input.drop size }

def sha512Iv : Words8 :=
  ⟨0x6a09e667f3bcc908, 0xbb67ae8584caa73b, 0x3c6ef372fe94f82b, 0xa54ff53a5f1d36f1,
    0x510e527fade682d1, 0x9b05688c2b3e6c1f, 0x1f83d9abfb41bd6b, 0x5be0cd19137e2179⟩

def cryptoSha512Init : Sha512Ctx := ⟨sha512Iv, List.replicate 16 0, 0, 0, 0⟩

/-- Some first bytes of the message, one by one. -/
def Sha512Ctx.putBytes (ctx : Sha512Ctx) (bytes : List UInt8) : Sha512Ctx :=
  bytes.foldl (fun ctx byte =>
    let ctx := ctx.setInput byte
    { ctx with inputIdx := ctx.inputIdx + 1 }) ctx

/-- Some first words of the message. -/
def Sha512Ctx.putWords (ctx : Sha512Ctx) (message : List UInt8) (nbWords : ℕ) : Sha512Ctx :=
  let word := ctx.inputIdx >>> 3
  { ctx with
    input := ctx.input.take word ++ load64BeBuf message nbWords ++ ctx.input.drop (word + nbWords)
    inputIdx := ctx.inputIdx + nbWords <<< 3 }

/-- A full block is counted in bits, compressed and cleared. -/
def Sha512Ctx.flush (ctx : Sha512Ctx) : Sha512Ctx :=
  let ctx := (ctx.incr 1024).compress
  { ctx with inputIdx := 0 }.zeroInput 16

/-- Aligns with word boundaries; what is left of the message. -/
def alignBytes (ctx : Sha512Ctx) (message : List UInt8) : Sha512Ctx × List UInt8 :=
  if ctx.inputIdx &&& 7 ≠ 0 then
    let nbBytes := min (gap ctx.inputIdx 8) message.length
    (ctx.putBytes (message.take nbBytes), message.drop nbBytes)
  else (ctx, message)

/-- Aligns with block boundaries. -/
def alignWords (ctx : Sha512Ctx) (message : List UInt8) : Sha512Ctx × List UInt8 :=
  if ctx.inputIdx &&& 127 ≠ 0 then
    let nbWords := min (gap ctx.inputIdx 128) message.length >>> 3
    (ctx.putWords message nbWords, message.drop (nbWords <<< 3))
  else (ctx, message)

def compressFull (ctx : Sha512Ctx) : Sha512Ctx :=
  if ctx.inputIdx = 128 then ctx.flush else ctx

/-- The message block by block. -/
def messageBlocks : ℕ → Sha512Ctx → List UInt8 → Sha512Ctx
  | 0, ctx, _ => ctx
  | count + 1, ctx, message =>
      messageBlocks count { ctx with input := load64BeBuf message 16 }.flush (message.drop 128)

/-- The remaining words and the remaining bytes. -/
def remaining (ctx : Sha512Ctx) (message : List UInt8) : Sha512Ctx :=
  if message.length ≠ 0 then
    let nbWords := message.length >>> 3
    let ctx :=
      { ctx with
        input := load64BeBuf message nbWords ++ ctx.input.drop nbWords
        inputIdx := ctx.inputIdx + nbWords <<< 3 }
    ctx.putBytes (message.drop (nbWords <<< 3))
  else ctx

def cryptoSha512Update (ctx : Sha512Ctx) (message : List UInt8) : Sha512Ctx :=
  if message.length = 0 then ctx
  else
    let bytes := alignBytes ctx message
    let words := alignWords bytes.1 bytes.2
    let ctx := compressFull words.1
    let message := words.2
    let count := message.length >>> 7
    let ctx := messageBlocks count ctx message
    remaining ctx ((message.drop (128 * count)).take (message.length &&& 127))

def Words8.bytes (x : Words8) : List UInt8 :=
  store64Be x.a ++ store64Be x.b ++ store64Be x.c ++ store64Be x.d ++ store64Be x.e ++
    store64Be x.f ++ store64Be x.g ++ store64Be x.h

def cryptoSha512Final (ctx : Sha512Ctx) : List UInt8 :=
  let ctx := if ctx.inputIdx = 0 then ctx.zeroInput 16 else ctx
  let ctx := ctx.setInput 128
  let ctx := ctx.incr (UInt64.ofNat (ctx.inputIdx * 8))
  let ctx := if 111 < ctx.inputIdx then ctx.compress.zeroInput 14 else ctx
  let ctx := { ctx with input := (ctx.input.set 14 ctx.sizeHigh).set 15 ctx.sizeLow }
  ctx.compress.hash.bytes

def cryptoSha512 (message : List UInt8) : List UInt8 :=
  cryptoSha512Final (cryptoSha512Update cryptoSha512Init message)

def wakeSha512 (data : List UInt8) : List UInt8 := cryptoSha512 data

/-! ## The padded message -/

/-- A number in sixteen bytes, from the highest. -/
def beBytes16 (x : ℕ) : List UInt8 := (leBytes 16 x).reverse

def padded (message : List UInt8) : List UInt8 :=
  message ++ [128] ++ List.replicate ((239 - message.length % 128) % 128) 0 ++
    beBytes16 (8 * message.length)

def compressBlock (hash : Words8) (block : List UInt8) : Words8 :=
  compress hash (load64BeBuf block 16)

def sha512 (message : List UInt8) : List UInt8 :=
  ((blocks 128 (padded message)).foldl compressBlock sha512Iv).bytes

/-! ## Words and bytes -/

theorem load64Be_congr {a b : List UInt8} (h : ∀ i < 8, a.getD i 0 = b.getD i 0) :
    load64Be a = load64Be b := by
  simp only [load64Be, h 0 (by decide), h 1 (by decide), h 2 (by decide), h 3 (by decide),
    h 4 (by decide), h 5 (by decide), h 6 (by decide), h 7 (by decide)]

theorem load64Be_append {a : List UInt8} (ha : 8 ≤ a.length) (b : List UInt8) :
    load64Be (a ++ b) = load64Be a :=
  load64Be_congr fun i hi => List.getD_append _ _ _ _ (by omega)

theorem getD_set {α : Type*} {l : List α} {i : ℕ} (hi : i < l.length) (x d : α) (j : ℕ) :
    (l.set i x).getD j d = if i = j then x else l.getD j d := by
  rw [List.getD_eq_getElem?_getD, List.getD_eq_getElem?_getD, List.getElem?_set]
  split_ifs with heq
  · rfl
  · rfl

def orAll (g : ℕ → UInt64) : ℕ → UInt64
  | 0 => 0
  | n + 1 => orAll g n ||| g n

theorem load64Be_orAll (s : List UInt8) :
    load64Be s = orAll (fun i => (s.getD i 0).toUInt64 <<< UInt64.ofNat (8 * (7 - i))) 8 := by
  have hlast : (s.getD 7 0).toUInt64 <<< UInt64.ofNat (8 * (7 - 7)) = (s.getD 7 0).toUInt64 :=
    UInt64.shiftLeft_zero
  simp only [orAll, UInt64.zero_or, hlast]
  rfl

theorem orAll_congr {g other : ℕ → UInt64} {n : ℕ} (h : ∀ k < n, other k = g k) :
    orAll other n = orAll g n := by
  induction n with
  | zero => rfl
  | succ n ih =>
      rw [orAll, orAll, ih fun k hk => h k (Nat.lt_succ_of_lt hk), h n (Nat.lt_succ_self n)]

theorem orAll_update {g other : ℕ → UInt64} {n i : ℕ} (hi : i < n) (hzero : g i = 0)
    (h : ∀ k, k ≠ i → other k = g k) : orAll other n = orAll g n ||| other i := by
  induction n with
  | zero => exact absurd hi (Nat.not_lt_zero i)
  | succ n ih =>
      rcases Nat.lt_succ_iff_lt_or_eq.mp hi with hlt | rfl
      · rw [orAll, orAll, ih hlt, h n (Nat.ne_of_gt hlt), UInt64.or_assoc, UInt64.or_assoc,
          UInt64.or_comm (other i)]
      · rw [orAll, orAll, hzero, UInt64.or_zero,
          orAll_congr fun k hk => h k (Nat.ne_of_lt hk)]

/-- A byte where there was none is or'ed into its word. -/
theorem load64Be_set {s : List UInt8} {i : ℕ} (hi : i < 8) (hlength : i < s.length)
    (hzero : s.getD i 0 = 0) (byte : UInt8) :
    load64Be (s.set i byte) =
      load64Be s ||| byte.toUInt64 <<< UInt64.ofNat (8 * (7 - i)) := by
  rw [load64Be_orAll, load64Be_orAll, orAll_update hi]
  · rw [getD_set hlength, if_pos rfl]
  · rw [hzero]
    exact UInt64.zero_shiftLeft
  · intro k hk
    rw [getD_set hlength, if_neg (Ne.symm hk)]

/-! ## Blocks of words -/

theorem load64BeBuf_length (src : List UInt8) (n : ℕ) : (load64BeBuf src n).length = n := by
  induction n generalizing src with
  | zero => rfl
  | succ n ih => rw [load64BeBuf, List.length_cons, ih]

theorem load64BeBuf_append {a : List UInt8} {m : ℕ} (ha : a.length = 8 * m) (b : List UInt8)
    (n : ℕ) : load64BeBuf (a ++ b) (m + n) = load64BeBuf a m ++ load64BeBuf b n := by
  induction m generalizing a with
  | zero =>
      have hnil : a = [] := List.eq_nil_of_length_eq_zero ha
      rw [hnil, Nat.zero_add]
      rfl
  | succ m ih =>
      have hfirst : 8 ≤ a.length := by omega
      have hrest : (a.drop 8).length = 8 * m := by
        rw [List.length_drop]
        omega
      rw [Nat.succ_add, load64BeBuf, load64BeBuf, load64Be_append hfirst,
        List.drop_append_of_le_length hfirst, ih hrest, List.cons_append]

theorem load64BeBuf_take {n : ℕ} {src : List UInt8} (hle : 8 * n ≤ src.length) :
    load64BeBuf (src.take (8 * n)) n = load64BeBuf src n := by
  have hsplit := load64BeBuf_append (List.length_take_of_le hle) (src.drop (8 * n)) 0
  rw [List.take_append_drop, Nat.add_zero] at hsplit
  rw [hsplit]
  exact (List.append_nil _).symm

theorem load64BeBuf_zeros (n : ℕ) :
    load64BeBuf (List.replicate (8 * n) 0) n = List.replicate n 0 := by
  induction n with
  | zero => rfl
  | succ n ih =>
      have hsize : 8 * (n + 1) = 8 + 8 * n := by omega
      have hword : load64Be (List.replicate 8 0 ++ List.replicate (8 * n) 0) = 0 :=
        load64Be_append (by decide) _
      rw [hsize, List.replicate_add, load64BeBuf, hword, List.replicate_succ,
        List.drop_append_of_le_length (by decide)]
      exact congrArg (0 :: ·) ih

theorem load64BeBuf_set {n k : ℕ} {bytes : List UInt8} (hk : k < 8 * n)
    (hlength : k < bytes.length) (hzero : bytes.getD k 0 = 0) (byte : UInt8) :
    load64BeBuf (bytes.set k byte) n = (load64BeBuf bytes n).set (k / 8)
      ((load64BeBuf bytes n).getD (k / 8) 0 |||
        byte.toUInt64 <<< UInt64.ofNat (8 * (7 - k % 8))) := by
  induction n generalizing k bytes with
  | zero => omega
  | succ n ih =>
      rcases Nat.lt_or_ge k 8 with hfirst | hlater
      · have hdrop : (bytes.set k byte).drop 8 = bytes.drop 8 := List.drop_set_of_lt hfirst
        rw [load64BeBuf, load64BeBuf, Nat.div_eq_of_lt hfirst, Nat.mod_eq_of_lt hfirst,
          List.set_cons_zero, List.getD_cons_zero, hdrop, load64Be_set hfirst hlength hzero]
      · have hdiv : k / 8 = (k - 8) / 8 + 1 := by omega
        have hmod : k % 8 = (k - 8) % 8 := by omega
        have hdrop : (bytes.set k byte).drop 8 = (bytes.drop 8).set (k - 8) byte := by
          rw [List.drop_set, if_neg (Nat.not_lt.mpr hlater)]
        have hhead : load64Be (bytes.set k byte) = load64Be bytes :=
          load64Be_congr fun i hi => by rw [getD_set hlength, if_neg (by omega)]
        have hrest : (bytes.drop 8).getD (k - 8) 0 = 0 := by
          rw [← hzero, List.getD_eq_getElem?_getD, List.getD_eq_getElem?_getD, List.getElem?_drop]
          congr 2
          omega
        have hshort : k - 8 < (bytes.drop 8).length := by
          rw [List.length_drop]
          omega
        rw [load64BeBuf, load64BeBuf, hdrop, hhead, ih (by omega) hshort hrest, hdiv, hmod,
          List.set_cons_succ, List.getD_cons_succ]

/-! ## Pieces of a message -/

/-- The open block with zeros behind it. -/
def openBlock (pending : List UInt8) : List UInt8 :=
  pending ++ List.replicate (128 - pending.length) 0

/-- The number of bits in the two words of the size. -/
def Sha512Ctx.bits (ctx : Sha512Ctx) : ℕ := 2 ^ 64 * ctx.sizeHigh.toNat + ctx.sizeLow.toNat

/-- The context holds the open block in words, and has counted the blocks before it. -/
structure Sha512Follows (ctx : Sha512Ctx) (buffer : Buffer Words8 UInt8) (flushed : ℕ) : Prop where
  state : ctx.hash = buffer.state
  index : ctx.inputIdx = buffer.pending.length
  words : ctx.input = load64BeBuf (openBlock buffer.pending) 16
  counted : ctx.bits = 8 * flushed % 2 ^ 128

theorem openBlock_length {pending : List UInt8} (hle : pending.length ≤ 128) :
    (openBlock pending).length = 128 := by
  rw [openBlock, List.length_append, List.length_replicate]
  omega

theorem openBlock_set {pending : List UInt8} (hlt : pending.length < 128) (byte : UInt8) :
    (openBlock pending).set pending.length byte = openBlock (pending ++ [byte]) := by
  have hzeros : 128 - pending.length = (128 - (pending ++ [byte]).length) + 1 := by
    rw [List.length_append, List.length_singleton]
    omega
  rw [openBlock, openBlock, hzeros, List.replicate_succ, List.set_append_right _ _ le_rfl,
    Nat.sub_self, List.set_cons_zero, List.append_assoc, List.singleton_append]

theorem openBlock_words {pending : List UInt8} {k : ℕ} (hpending : pending.length = 8 * k)
    (hk : k ≤ 16) :
    load64BeBuf (openBlock pending) 16 =
      load64BeBuf pending k ++ List.replicate (16 - k) 0 := by
  have hzeros : 128 - pending.length = 8 * (16 - k) := by omega
  have hsplit : (16 : ℕ) = k + (16 - k) := by omega
  conv_lhs => rw [openBlock, hzeros, hsplit, load64BeBuf_append hpending]
  rw [Nat.add_sub_cancel_left, load64BeBuf_zeros]

theorem incr_bits (ctx : Sha512Ctx) (y : UInt64) :
    (ctx.incr y).bits = (ctx.bits + y.toNat) % 2 ^ 128 := by
  have hhigh := ctx.sizeHigh.toNat_lt
  have hlow := ctx.sizeLow.toNat_lt
  have hy := y.toNat_lt
  have hone : (1 : UInt64).toNat = 1 := rfl
  have hwrap : ctx.sizeLow + y < y ↔ 2 ^ 64 ≤ ctx.sizeLow.toNat + y.toNat := by
    rw [UInt64.lt_iff_toNat_lt, UInt64.toNat_add]
    omega
  unfold Sha512Ctx.bits Sha512Ctx.incr
  simp only [hwrap]
  split_ifs with hcarry
  · rw [UInt64.toNat_add, UInt64.toNat_add, hone]
    omega
  · rw [UInt64.toNat_add]
    omega

variable {ctx : Sha512Ctx} {hash : Words8} {pending : List UInt8} {flushed : ℕ}

theorem Sha512Follows.setInput (hfollows : Sha512Follows ctx ⟨hash, pending⟩ flushed)
    (hlt : pending.length < 128) (byte : UInt8) :
    (ctx.setInput byte).input = load64BeBuf (openBlock (pending ++ [byte])) 16 := by
  have hzero : (openBlock pending).getD pending.length 0 = 0 := by
    rw [openBlock, List.getD_append_right _ _ _ _ le_rfl, Nat.sub_self,
      List.getD_replicate _ (by omega)]
  have hword : ctx.inputIdx >>> 3 = pending.length / 8 := by
    rw [hfollows.index]
    exact Nat.shiftRight_eq_div_pow _ 3
  have hbyte : ctx.inputIdx &&& 7 = pending.length % 8 := by
    rw [hfollows.index]
    exact Nat.and_two_pow_sub_one_eq_mod _ 3
  have hin : pending.length < (openBlock pending).length := by
    rw [openBlock_length hlt.le]
    exact hlt
  rw [← openBlock_set hlt, load64BeBuf_set (by omega) hin hzero]
  simp only [Sha512Ctx.setInput, hword, hbyte, hfollows.words]

theorem Sha512Follows.putBytes (hfollows : Sha512Follows ctx ⟨hash, pending⟩ flushed)
    (bytes : List UInt8) (hle : pending.length + bytes.length ≤ 128) :
    Sha512Follows (ctx.putBytes bytes) ⟨hash, pending ++ bytes⟩ flushed := by
  induction bytes generalizing ctx pending with
  | nil =>
      rw [List.append_nil]
      exact hfollows
  | cons byte rest ih =>
      rw [List.length_cons] at hle
      have hput : Sha512Follows { ctx.setInput byte with inputIdx := ctx.inputIdx + 1 }
          ⟨hash, pending ++ [byte]⟩ flushed := by
        refine ⟨hfollows.state, ?_, hfollows.setInput (by omega) byte, hfollows.counted⟩
        rw [hfollows.index, List.length_append, List.length_singleton]
      have hnext := ih hput (by
        rw [List.length_append, List.length_singleton]
        omega)
      rw [List.append_assoc, List.singleton_append] at hnext
      exact hnext

theorem Sha512Follows.putWords (hfollows : Sha512Follows ctx ⟨hash, pending⟩ flushed)
    {nbWords : ℕ} {message : List UInt8} (hmessage : 8 * nbWords ≤ message.length)
    (haligned : 8 ∣ pending.length ∨ nbWords = 0) (hle : pending.length + 8 * nbWords ≤ 128) :
    Sha512Follows (ctx.putWords message nbWords)
      ⟨hash, pending ++ message.take (8 * nbWords)⟩ flushed := by
  have hword : ctx.inputIdx >>> 3 = pending.length / 8 := by
    rw [hfollows.index]
    exact Nat.shiftRight_eq_div_pow _ 3
  have hshift : nbWords <<< 3 = 8 * nbWords := by
    rw [Nat.shiftLeft_eq, Nat.mul_comm]
  have htake : (message.take (8 * nbWords)).length = 8 * nbWords :=
    List.length_take_of_le hmessage
  refine ⟨hfollows.state, ?_, ?_, hfollows.counted⟩
  · simp only [Sha512Ctx.putWords, hshift, hfollows.index, List.length_append, htake]
  · rcases Nat.eq_zero_or_pos nbWords with rfl | hpos
    · simp only [Sha512Ctx.putWords, load64BeBuf, List.append_nil, Nat.add_zero,
        List.take_append_drop, Nat.mul_zero, List.take_zero]
      exact hfollows.words
    · obtain ⟨k, hk⟩ := haligned.resolve_right (Nat.ne_of_gt hpos)
      have hdiv : pending.length / 8 = k := by omega
      have hlength : (pending ++ message.take (8 * nbWords)).length = 8 * (k + nbWords) := by
        rw [List.length_append, htake]
        omega
      have hfront : (load64BeBuf pending k).length = k := load64BeBuf_length _ _
      rw [openBlock_words hlength (by omega), load64BeBuf_append hk, load64BeBuf_take hmessage]
      simp only [Sha512Ctx.putWords, hword, hdiv, hfollows.words]
      rw [openBlock_words hk (by omega), List.take_left' hfront, List.drop_append,
        List.drop_of_length_le (by omega), hfront, Nat.add_sub_cancel_left, List.nil_append,
        List.drop_replicate, Nat.sub_sub]

theorem openBlock_full {block : List UInt8} (hfull : block.length = 128) :
    openBlock block = block := by
  rw [openBlock, hfull]
  exact List.append_nil block

theorem openBlock_nil : load64BeBuf (openBlock []) 16 = List.replicate 16 0 :=
  load64BeBuf_zeros 16

/-- A full block is compressed, whatever place the next byte would have had. -/
theorem flush_follows {block : List UInt8} (hhash : ctx.hash = hash)
    (hwords : ctx.input = load64BeBuf block 16) (hbits : ctx.bits = 8 * flushed % 2 ^ 128) :
    Sha512Follows ctx.flush ⟨compressBlock hash block, []⟩ (flushed + 128) := by
  have hlength : (load64BeBuf block 16).length = 16 := load64BeBuf_length _ _
  have hkilo : (1024 : UInt64).toNat = 1024 := rfl
  have hcounted := incr_bits ctx 1024
  rw [hbits, hkilo] at hcounted
  refine ⟨?_, rfl, ?_, ?_⟩
  · simp only [Sha512Ctx.flush, Sha512Ctx.zeroInput, Sha512Ctx.compress, Sha512Ctx.incr, hhash,
      hwords, sha512Compress_hash hlength, compressBlock]
  · simp only [Sha512Ctx.flush, Sha512Ctx.zeroInput, Sha512Ctx.compress, Sha512Ctx.incr, hhash,
      hwords, List.drop_of_length_le (sha512Compress_length hlength hash).le, List.append_nil,
      openBlock_nil]
  · simp only [Sha512Ctx.bits, Sha512Ctx.flush, Sha512Ctx.zeroInput, Sha512Ctx.compress]
    simp only [Sha512Ctx.bits] at hcounted
    omega

theorem Sha512Follows.messageBlocks {count : ℕ} {message : List UInt8}
    (hfollows : Sha512Follows ctx ⟨hash, []⟩ flushed) (hle : 128 * count ≤ message.length) :
    Sha512Follows (messageBlocks count ctx message)
      ⟨BlockBuffer.absorb 128 compressBlock count hash message, []⟩ (flushed + 128 * count) := by
  induction count generalizing ctx hash message flushed with
  | zero => exact hfollows
  | succ count ih =>
      have hfirst : 128 ≤ message.length := by omega
      have hwords : load64BeBuf message 16 = load64BeBuf (message.take 128) 16 :=
        (load64BeBuf_take hfirst).symm
      have hflush : Sha512Follows { ctx with input := load64BeBuf message 16 }.flush
          ⟨compressBlock hash (message.take 128), []⟩ (flushed + 128) :=
        flush_follows hfollows.state hwords hfollows.counted
      have hrest : 128 * count ≤ (message.drop 128).length := by
        rw [List.length_drop]
        omega
      have hnext := ih hflush hrest
      have hsum : flushed + 128 + 128 * count = flushed + 128 * (count + 1) := by omega
      rw [hsum] at hnext
      exact hnext

theorem Sha512Follows.remaining (hfollows : Sha512Follows ctx ⟨hash, pending⟩ flushed)
    (message : List UInt8) (hempty : pending = [] ∨ message.length < 8)
    (hlt : pending.length + message.length < 128) :
    Sha512Follows (remaining ctx message) ⟨hash, pending ++ message⟩ flushed := by
  unfold Monocypher.remaining
  split_ifs with hsome
  · have hshift : (message.length >>> 3) <<< 3 = 8 * (message.length >>> 3) := by
      rw [Nat.shiftLeft_eq, Nat.mul_comm]
    have hcount : message.length >>> 3 = message.length / 8 := Nat.shiftRight_eq_div_pow _ 3
    have hle : 8 * (message.length >>> 3) ≤ message.length := by omega
    have haligned : 8 ∣ pending.length ∨ message.length >>> 3 = 0 := by
      rcases hempty with rfl | hshort
      · exact Or.inl (Nat.dvd_zero 8)
      · exact Or.inr (by omega)
    have hput := hfollows.putWords hle haligned (by omega)
    have hwords : ctx.putWords message (message.length >>> 3) =
        { ctx with
          input := load64BeBuf message (message.length >>> 3) ++
            ctx.input.drop (message.length >>> 3)
          inputIdx := ctx.inputIdx + (message.length >>> 3) <<< 3 } := by
      rcases hempty with rfl | hshort
      · have hindex : ctx.inputIdx = 0 := hfollows.index
        simp only [Sha512Ctx.putWords, hindex, Nat.zero_shiftRight, List.take_zero,
          List.nil_append, Nat.zero_add]
      · have hnone : message.length >>> 3 = 0 := by omega
        simp only [Sha512Ctx.putWords, hnone, load64BeBuf, List.append_nil, Nat.add_zero,
          List.take_append_drop, List.nil_append, List.drop_zero]
    have hlength : (pending ++ message.take (8 * (message.length >>> 3))).length +
        (message.drop (8 * (message.length >>> 3))).length ≤ 128 := by
      rw [List.length_append, List.length_take_of_le hle, List.length_drop]
      omega
    have hbytes := hput.putBytes (message.drop (8 * (message.length >>> 3))) hlength
    rw [List.append_assoc, List.take_append_drop, hwords, ← hshift] at hbytes
    exact hbytes
  · have hnil : message = [] := List.eq_nil_of_length_eq_zero (not_not.mp hsome)
    rw [hnil, List.append_nil]
    exact hfollows

/-- The bytes which `alignBytes` takes. -/
def bytesTaken (pending message : List UInt8) : ℕ :=
  min ((8 - pending.length % 8) % 8) message.length

theorem alignBytes_follows (hfollows : Sha512Follows ctx ⟨hash, pending⟩ flushed)
    (hlt : pending.length < 128) (message : List UInt8) :
    (alignBytes ctx message).2 = message.drop (bytesTaken pending message) ∧
      Sha512Follows (alignBytes ctx message).1
        ⟨hash, pending ++ message.take (bytesTaken pending message)⟩ flushed := by
  have hmask : ctx.inputIdx &&& 7 = pending.length % 8 := by
    rw [hfollows.index]
    exact Nat.and_two_pow_sub_one_eq_mod _ 3
  have hgap : gap ctx.inputIdx 8 = (8 - pending.length % 8) % 8 := by
    rw [hfollows.index]
    exact gap_pow pending.length 3 (by decide) (by omega)
  unfold alignBytes
  rw [hmask, hgap]
  split_ifs with hopen
  · have hle : pending.length +
        (message.take (bytesTaken pending message)).length ≤ 128 := by
      rw [List.length_take, bytesTaken]
      omega
    exact ⟨rfl, hfollows.putBytes _ hle⟩
  · have hnone : bytesTaken pending message = 0 := by
      rw [bytesTaken]
      omega
    rw [hnone, List.drop_zero, List.take_zero, List.append_nil]
    exact ⟨rfl, hfollows⟩

def wordsTaken (pending message : List UInt8) : ℕ :=
  min ((128 - pending.length % 128) % 128) message.length / 8

theorem alignWords_follows (hfollows : Sha512Follows ctx ⟨hash, pending⟩ flushed)
    (hle : pending.length ≤ 128) {message : List UInt8}
    (haligned : 8 ∣ pending.length ∨ message = []) :
    (alignWords ctx message).2 = message.drop (8 * wordsTaken pending message) ∧
      Sha512Follows (alignWords ctx message).1
        ⟨hash, pending ++ message.take (8 * wordsTaken pending message)⟩ flushed := by
  have hmask : ctx.inputIdx &&& 127 = pending.length % 128 := by
    rw [hfollows.index]
    exact Nat.and_two_pow_sub_one_eq_mod _ 7
  have hgap : gap ctx.inputIdx 128 = (128 - pending.length % 128) % 128 := by
    rw [hfollows.index]
    exact gap_pow pending.length 7 (by decide) (by omega)
  have hcount : min ((128 - pending.length % 128) % 128) message.length >>> 3 =
      wordsTaken pending message := Nat.shiftRight_eq_div_pow _ 3
  unfold alignWords
  rw [hmask, hgap, hcount]
  split_ifs with hopen
  · have hshift : wordsTaken pending message <<< 3 = 8 * wordsTaken pending message := by
      rw [Nat.shiftLeft_eq, Nat.mul_comm]
    have hnone : 8 ∣ pending.length ∨ wordsTaken pending message = 0 := by
      refine haligned.imp_right fun hnil => ?_
      rw [wordsTaken, hnil, List.length_nil, Nat.min_zero]
    refine ⟨congrArg (message.drop ·) hshift, hfollows.putWords ?_ hnone ?_⟩
    · rw [wordsTaken]
      omega
    · rw [wordsTaken]
      omega
  · have hnone : wordsTaken pending message = 0 := by
      rw [wordsTaken]
      omega
    rw [hnone, Nat.mul_zero, List.drop_zero, List.take_zero, List.append_nil]
    exact ⟨rfl, hfollows⟩

/-- Whole blocks, and what is left behind them. -/
def messageRest (ctx : Sha512Ctx) (message : List UInt8) : Sha512Ctx :=
  let count := message.length >>> 7
  remaining (messageBlocks count ctx message)
    ((message.drop (128 * count)).take (message.length &&& 127))

theorem Sha512Follows.messageRest (hfollows : Sha512Follows ctx ⟨hash, []⟩ flushed)
    (message : List UInt8) :
    Sha512Follows (messageRest ctx message) (feed 128 compressBlock ⟨hash, []⟩ message)
      (flushed + 128 * (message.length / 128)) := by
  have hcount : message.length >>> 7 = message.length / 128 := Nat.shiftRight_eq_div_pow _ 7
  have hmask : message.length &&& 127 = message.length % 128 :=
    Nat.and_two_pow_sub_one_eq_mod _ 7
  have hlength : (message.drop (128 * (message.length / 128))).length = message.length % 128 := by
    rw [List.length_drop]
    omega
  have hblocks := hfollows.messageBlocks (Nat.mul_div_le message.length 128)
  rw [BlockBuffer.feed_from_empty (by decide), Monocypher.messageRest, hcount, hmask,
    List.take_of_length_le hlength.le]
  refine hblocks.remaining _ (Or.inl rfl) ?_
  rw [List.length_nil, hlength]
  omega

theorem messageRest_short {message : List UInt8} (hlt : message.length < 128) (ctx : Sha512Ctx) :
    messageRest ctx message = remaining ctx message := by
  have hcount : message.length >>> 7 = 0 := by
    have hdiv : message.length >>> 7 = message.length / 2 ^ 7 := Nat.shiftRight_eq_div_pow _ 7
    omega
  have hmask : message.length &&& 127 = message.length := by
    have hmod : message.length &&& 2 ^ 7 - 1 = message.length % 2 ^ 7 :=
      Nat.and_two_pow_sub_one_eq_mod _ 7
    change message.length &&& 2 ^ 7 - 1 = _
    omega
  rw [messageRest, hcount, hmask, Nat.mul_zero, List.drop_zero, List.take_length]
  rfl

/-- Aligning fills the open block, or ends less than a word before the end of the message. -/
theorem align_follows (hfollows : Sha512Follows ctx ⟨hash, pending⟩ flushed)
    (hlt : pending.length < 128) (message : List UInt8) :
    ∃ k ≤ message.length,
      (alignWords (alignBytes ctx message).1 (alignBytes ctx message).2).2 = message.drop k ∧
      Sha512Follows (alignWords (alignBytes ctx message).1 (alignBytes ctx message).2).1
        ⟨hash, pending ++ message.take k⟩ flushed ∧
      (pending.length + k = 128 ∨ pending = [] ∧ k = 0 ∨
        pending.length + message.length < 128 ∧ message.length - k < 8) := by
  obtain ⟨hrest, hbytes⟩ := alignBytes_follows hfollows hlt message
  rw [hrest]
  have hfirst : bytesTaken pending message =
      min ((8 - pending.length % 8) % 8) message.length := rfl
  generalize bytesTaken pending message = first at hbytes hfirst ⊢
  have hfirstLe : first ≤ message.length := hfirst ▸ Nat.min_le_right _ _
  have htake : (message.take first).length = first := List.length_take_of_le hfirstLe
  have hlength : (pending ++ message.take first).length = pending.length + first := by
    rw [List.length_append, htake]
  have hdrop : (message.drop first).length = message.length - first := List.length_drop
  have haligned : 8 ∣ (pending ++ message.take first).length ∨ message.drop first = [] := by
    rw [hlength]
    rcases Nat.lt_or_ge first message.length with hshort | hall
    · exact Or.inl (by omega)
    · exact Or.inr (List.drop_of_length_le hall)
  obtain ⟨hwordsRest, hwords⟩ := alignWords_follows hbytes (by omega) haligned
  have hsecond : wordsTaken (pending ++ message.take first) (message.drop first) =
      min ((128 - (pending.length + first) % 128) % 128) (message.length - first) / 8 := by
    rw [wordsTaken, hlength, hdrop]
  generalize wordsTaken (pending ++ message.take first) (message.drop first) = second
    at hwordsRest hwords hsecond
  rw [List.drop_drop] at hwordsRest
  rw [List.append_assoc, ← List.take_add] at hwords
  refine ⟨first + 8 * second, by omega, hwordsRest, hwords, ?_⟩
  by_cases hnil : pending = []
  · rw [hnil, List.length_nil] at hfirst hsecond
    exact Or.inr (Or.inl ⟨hnil, by omega⟩)
  · have hpos : 0 < pending.length := List.length_pos_iff.mpr hnil
    rcases Nat.lt_or_ge (pending.length + message.length) 128 with hshort | hlong
    · exact Or.inr (Or.inr ⟨hshort, by omega⟩)
    · exact Or.inl (by omega)

/-- The update takes a piece of the message as if it were fed byte by byte, and counts every block
which it compresses. -/
theorem Sha512Follows.update (hfollows : Sha512Follows ctx ⟨hash, pending⟩ flushed)
    (hlt : pending.length < 128) (message : List UInt8) :
    ∃ now, Sha512Follows (cryptoSha512Update ctx message)
        (feed 128 compressBlock ⟨hash, pending⟩ message) now ∧
      now + (feed 128 compressBlock ⟨hash, pending⟩ message).pending.length =
        flushed + pending.length + message.length := by
  unfold cryptoSha512Update
  split_ifs with hempty
  · have hnil : message = [] := List.eq_nil_of_length_eq_zero hempty
    rw [hnil]
    exact ⟨flushed, hfollows, rfl⟩
  · obtain ⟨k, hk, hrest, haligned, hcases⟩ := align_follows hfollows hlt message
    have hindex := haligned.index
    have htake : (message.take k).length = k := List.length_take_of_le hk
    rw [List.length_append, htake] at hindex
    change ∃ now, Sha512Follows (Monocypher.messageRest (compressFull _) _) _ now ∧ _
    rw [hrest, compressFull, hindex]
    rcases hcases with hfull | ⟨rfl, rfl⟩ | ⟨hshort, hend⟩
    · have hblock : (pending ++ message.take k).length = 128 := by
        rw [List.length_append, htake, hfull]
      have hsome : message.take k ≠ [] := by
        intro hnil
        rw [hnil, List.length_nil] at htake
        omega
      have hwords := haligned.words
      rw [openBlock_full hblock] at hwords
      have hflushed := flush_follows haligned.state hwords haligned.counted
      have hfeed : feed 128 compressBlock ⟨hash, pending⟩ message =
          feed 128 compressBlock ⟨compressBlock hash (pending ++ message.take k), []⟩
            (message.drop k) := by
        conv_lhs => rw [← List.take_append_drop k message]
        rw [BlockBuffer.feed_append, BlockBuffer.feed_fills (by rw [htake, hfull]) hsome]
      rw [if_pos hfull, hfeed]
      refine ⟨_, hflushed.messageRest (message.drop k), ?_⟩
      rw [BlockBuffer.feed_from_empty (by decide)]
      simp only [List.length_drop]
      omega
    · rw [if_neg (by decide), List.drop_zero]
      rw [List.take_zero, List.append_nil] at haligned
      refine ⟨_, haligned.messageRest message, ?_⟩
      rw [BlockBuffer.feed_from_empty (by decide), List.length_drop, List.length_nil]
      omega
    · have hdrop : (message.drop k).length = message.length - k := List.length_drop
      rw [if_neg (by omega), messageRest_short (by omega)]
      have hall : pending ++ message.take k ++ message.drop k = pending ++ message := by
        rw [List.append_assoc, List.take_append_drop]
      have hremaining := haligned.remaining (message.drop k) (Or.inr (by omega)) (by
        rw [List.length_append, htake, hdrop]
        omega)
      rw [hall] at hremaining
      rw [BlockBuffer.feed_within hshort]
      exact ⟨flushed, hremaining, by rw [List.length_append, Nat.add_assoc]⟩

/-! ## The last blocks -/

theorem or_reverse (a b c d e f g h : ℕ) :
    a ||| b ||| c ||| d ||| e ||| f ||| g ||| h = h ||| g ||| f ||| e ||| d ||| c ||| b ||| a := by
  ac_rfl

theorem load64Be_toNat (a b c d e f g h : UInt8) :
    (load64Be [a, b, c, d, e, f, g, h]).toNat = leNat [h, g, f, e, d, c, b, a] := by
  have ha := a.toNat_lt
  have hb := b.toNat_lt
  have hc := c.toNat_lt
  have hd := d.toNat_lt
  have he := e.toNat_lt
  have hf := f.toNat_lt
  have hg := g.toNat_lt
  have hh := h.toNat_lt
  have hshift : ∀ (x : UInt8) (k : ℕ), k ≤ 56 → x.toNat <<< k % 2 ^ 64 = x.toNat <<< k := by
    intro x k hk
    have hx := x.toNat_lt
    have hpow : 2 ^ k ≤ 2 ^ 56 := Nat.pow_le_pow_right (by decide) hk
    refine Nat.mod_eq_of_lt ?_
    rw [Nat.shiftLeft_eq]
    calc x.toNat * 2 ^ k ≤ x.toNat * 2 ^ 56 := Nat.mul_le_mul_left _ hpow
      _ < 2 ^ 64 := by omega
  have h8 : (8 : UInt64).toNat % 64 = 8 := rfl
  have h16 : (16 : UInt64).toNat % 64 = 16 := rfl
  have h24 : (24 : UInt64).toNat % 64 = 24 := rfl
  have h32 : (32 : UInt64).toNat % 64 = 32 := rfl
  have h40 : (40 : UInt64).toNat % 64 = 40 := rfl
  have h48 : (48 : UInt64).toNat % 64 = 48 := rfl
  have h56 : (56 : UInt64).toNat % 64 = 56 := rfl
  simp only [load64Be, List.getD_cons_zero, List.getD_cons_succ, UInt64.toNat_or,
    UInt64.toNat_shiftLeft, UInt8.toNat_toUInt64, leNat, h8, h16, h24, h32, h40, h48, h56]
  rw [hshift g 8 (by decide), hshift f 16 (by decide), hshift e 24 (by decide),
    hshift d 32 (by decide), hshift c 40 (by decide), hshift b 48 (by decide),
    hshift a 56 (by decide), or_reverse]
  have h1 : h.toNat ||| g.toNat <<< 8 = h.toNat + 2 ^ 8 * g.toNat := or_shiftLeft hh
  have h2 : (h.toNat ||| g.toNat <<< 8) ||| f.toNat <<< 16 =
      (h.toNat ||| g.toNat <<< 8) + 2 ^ 16 * f.toNat := or_shiftLeft (by omega)
  have h3 : (h.toNat ||| g.toNat <<< 8 ||| f.toNat <<< 16) ||| e.toNat <<< 24 =
      (h.toNat ||| g.toNat <<< 8 ||| f.toNat <<< 16) + 2 ^ 24 * e.toNat :=
    or_shiftLeft (by omega)
  generalize h.toNat ||| g.toNat <<< 8 ||| f.toNat <<< 16 ||| e.toNat <<< 24 = low at h3 ⊢
  have h4 : low ||| d.toNat <<< 32 = low + 2 ^ 32 * d.toNat := or_shiftLeft (by omega)
  have h5 : (low ||| d.toNat <<< 32) ||| c.toNat <<< 40 =
      (low ||| d.toNat <<< 32) + 2 ^ 40 * c.toNat := or_shiftLeft (by omega)
  have h6 : (low ||| d.toNat <<< 32 ||| c.toNat <<< 40) ||| b.toNat <<< 48 =
      (low ||| d.toNat <<< 32 ||| c.toNat <<< 40) + 2 ^ 48 * b.toNat := or_shiftLeft (by omega)
  have h7 : (low ||| d.toNat <<< 32 ||| c.toNat <<< 40 ||| b.toNat <<< 48) ||| a.toNat <<< 56 =
      (low ||| d.toNat <<< 32 ||| c.toNat <<< 40 ||| b.toNat <<< 48) + 2 ^ 56 * a.toNat :=
    or_shiftLeft (by omega)
  omega

theorem load64Be_reverse (x : ℕ) : load64Be (leBytes 8 x).reverse = UInt64.ofNat x := by
  have hwords : ∀ bytes : List UInt8, bytes.length = 8 →
      (load64Be bytes.reverse).toNat = leNat bytes := by
    intro bytes hlength
    match bytes, hlength with
    | [a, b, c, d, e, f, g, h], _ => exact load64Be_toNat h g f e d c b a
  refine UInt64.toNat_inj.mp ?_
  rw [hwords _ (leBytes_length 8 x), ← leBytes_mod, leNat_leBytes (Nat.mod_lt _ (by decide)),
    UInt64.toNat_ofNat']
  rfl

theorem load64BeBuf_size {front : List UInt8} (hfront : front.length = 112) {high low : UInt64}
    {n : ℕ} (hsize : 2 ^ 64 * high.toNat + low.toNat = n % 2 ^ 128) :
    load64BeBuf (front ++ beBytes16 n) 16 = load64BeBuf front 14 ++ [high, low] := by
  have hhigh := high.toNat_lt
  have hlow := low.toNat_lt
  have hbytes : beBytes16 n = (leBytes 8 (n / 256 ^ 8)).reverse ++ (leBytes 8 n).reverse := by
    rw [beBytes16, leBytes_add 8 8, List.reverse_append]
  have hupper : UInt64.ofNat (n / 256 ^ 8) = high := by
    refine UInt64.toNat_inj.mp ?_
    rw [UInt64.toNat_ofNat']
    omega
  have hlower : UInt64.ofNat n = low := by
    refine UInt64.toNat_inj.mp ?_
    rw [UInt64.toNat_ofNat']
    omega
  have hlength : (leBytes 8 (n / 256 ^ 8)).reverse.length = 8 := by
    rw [List.length_reverse, leBytes_length]
  have hdrop : ((leBytes 8 (n / 256 ^ 8)).reverse ++ (leBytes 8 n).reverse).drop 8 =
      (leBytes 8 n).reverse := List.drop_left' hlength
  have hpair : load64BeBuf ((leBytes 8 (n / 256 ^ 8)).reverse ++ (leBytes 8 n).reverse) 2 =
      [high, low] := by
    rw [load64BeBuf, load64BeBuf, load64BeBuf, hdrop, load64Be_append hlength.ge,
      load64Be_reverse, load64Be_reverse, hupper, hlower]
  rw [load64BeBuf_append hfront _ 2, hbytes, hpair]

theorem set_size {input : List UInt64} (hlength : input.length = 16) (high low : UInt64) :
    (input.set 14 high).set 15 low = input.take 14 ++ [high, low] := by
  have hdrop : (input.drop 14).length = 2 := by rw [List.length_drop, hlength]
  have htake : (input.take 14).length = 14 := List.length_take_of_le (by omega)
  obtain ⟨x, y, hlast⟩ := List.length_eq_two.mp hdrop
  conv_lhs => rw [← List.take_append_drop 14 input, hlast]
  rw [List.set_append_right _ _ htake.le, htake, Nat.sub_self, List.set_cons_zero,
    List.set_append_right _ _ (by omega), htake]
  rfl

/-- What is put behind a message of which `pending` is open. -/
def lastBytes (pending : List UInt8) (total : ℕ) : List UInt8 :=
  [128] ++ List.replicate ((239 - pending.length) % 128) 0 ++ beBytes16 (8 * total)

theorem beBytes16_length (x : ℕ) : (beBytes16 x).length = 16 := by
  rw [beBytes16, List.length_reverse, leBytes_length]

/-- The size is written behind fourteen words of the last block. -/
theorem lastCompress_hash {front : List UInt8} {total : ℕ} (hhash : ctx.hash = hash)
    (hlength : ctx.input.length = 16) (hfront : front.length = 112)
    (hwords : ctx.input.take 14 = load64BeBuf front 14)
    (hbits : ctx.bits = 8 * total % 2 ^ 128) :
    (Sha512Ctx.compress
        { ctx with input := (ctx.input.set 14 ctx.sizeHigh).set 15 ctx.sizeLow }).hash =
      compressBlock hash (front ++ beBytes16 (8 * total)) := by
  have hinput : (ctx.input.set 14 ctx.sizeHigh).set 15 ctx.sizeLow =
      load64BeBuf (front ++ beBytes16 (8 * total)) 16 := by
    rw [set_size hlength, hwords, load64BeBuf_size hfront hbits]
  have hsixteen : (load64BeBuf (front ++ beBytes16 (8 * total)) 16).length = 16 :=
    load64BeBuf_length _ _
  simp only [Sha512Ctx.compress, hinput, hhash, sha512Compress_hash hsixteen, compressBlock]

/-- The last block, or the last two if the size does not fit behind the message. -/
theorem Sha512Follows.final (hfollows : Sha512Follows ctx ⟨hash, pending⟩ flushed)
    (hlt : pending.length < 128) :
    cryptoSha512Final ctx = (feed 128 compressBlock ⟨hash, pending⟩
      (lastBytes pending (flushed + pending.length))).state.bytes := by
  have hinput : ctx.input.length = 16 := by
    rw [hfollows.words, load64BeBuf_length]
  -- clearing an empty block changes nothing
  have hcleared : (if ctx.inputIdx = 0 then ctx.zeroInput 16 else ctx) = ctx := by
    split_ifs with hzero
    · have hnil : pending = [] := List.eq_nil_of_length_eq_zero (hfollows.index ▸ hzero)
      have hwords := hfollows.words
      rw [hnil, openBlock_nil] at hwords
      rw [Sha512Ctx.zeroInput, List.drop_of_length_le hinput.le, List.append_nil, ← hwords]
    · rfl
  have hmarked : ((ctx.setInput 128).incr (UInt64.ofNat (ctx.inputIdx * 8))).input =
      load64BeBuf (openBlock (pending ++ [128])) 16 := hfollows.setInput hlt 128
  have hbits : ((ctx.setInput 128).incr (UInt64.ofNat (ctx.inputIdx * 8))).bits =
      8 * (flushed + pending.length) % 2 ^ 128 := by
    have hsmall : (UInt64.ofNat (pending.length * 8)).toNat = pending.length * 8 :=
      UInt64.toNat_ofNat_of_lt' (by
        change pending.length * 8 < 2 ^ 64
        omega)
    have hsame : (ctx.setInput 128).bits = ctx.bits := rfl
    rw [incr_bits, hsame, hfollows.counted, hfollows.index, hsmall]
    omega
  have hhash : ((ctx.setInput 128).incr (UInt64.ofNat (ctx.inputIdx * 8))).hash = hash :=
    hfollows.state
  have hindex : ((ctx.setInput 128).incr (UInt64.ofNat (ctx.inputIdx * 8))).inputIdx =
      pending.length := hfollows.index
  have hsame : (ctx.setInput 128).inputIdx = ctx.inputIdx := rfl
  unfold cryptoSha512Final
  simp only [hcleared, hsame]
  generalize (ctx.setInput 128).incr (UInt64.ofNat (ctx.inputIdx * 8)) = marked
    at hmarked hbits hhash hindex
  have hsixteen : (load64BeBuf (openBlock (pending ++ [128])) 16).length = 16 :=
    load64BeBuf_length _ _
  refine congrArg Words8.bytes ?_
  rw [hindex]
  split_ifs with hlate
  · have hzeros : (239 - pending.length) % 128 = (127 - pending.length) + 112 := by omega
    have hblock : openBlock (pending ++ [128]) =
        pending ++ ([128] ++ List.replicate (127 - pending.length) 0) := by
      rw [openBlock, List.length_append, List.length_singleton, List.append_assoc, Nat.add_comm,
        ← Nat.sub_sub]
    have hlast : lastBytes pending (flushed + pending.length) =
        ([128] ++ List.replicate (127 - pending.length) 0) ++
          (List.replicate 112 0 ++ beBytes16 (8 * (flushed + pending.length))) := by
      rw [lastBytes, hzeros, List.replicate_add]
      simp only [List.append_assoc]
    have hmiddle : pending.length +
        ([128] ++ List.replicate (127 - pending.length) (0 : UInt8)).length = 128 := by
      rw [List.length_append, List.length_singleton, List.length_replicate]
      omega
    have hend : (List.replicate 112 (0 : UInt8) ++
        beBytes16 (8 * (flushed + pending.length))).length = 128 := by
      rw [List.length_append, List.length_replicate, beBytes16_length]
    have hfirst : feed 128 compressBlock ⟨hash, pending⟩
        ([128] ++ List.replicate (127 - pending.length) 0) =
        ⟨compressBlock hash (openBlock (pending ++ [128])), []⟩ := by
      rw [hblock]
      exact BlockBuffer.feed_fills hmiddle (List.cons_ne_nil _ _)
    have hsecond : feed 128 compressBlock ⟨compressBlock hash (openBlock (pending ++ [128])), []⟩
        (List.replicate 112 0 ++ beBytes16 (8 * (flushed + pending.length))) =
        ⟨compressBlock (compressBlock hash (openBlock (pending ++ [128])))
          (List.replicate 112 0 ++ beBytes16 (8 * (flushed + pending.length))), []⟩ := by
      refine BlockBuffer.feed_fills (by rw [hend]; rfl) fun hnil => ?_
      rw [hnil] at hend
      cases hend
    rw [hlast, BlockBuffer.feed_append, hfirst, hsecond]
    refine lastCompress_hash ?_ ?_ (List.length_replicate ..) ?_ hbits
    · simp only [Sha512Ctx.zeroInput, Sha512Ctx.compress, hhash, hmarked,
        sha512Compress_hash hsixteen, compressBlock]
    · simp only [Sha512Ctx.zeroInput, Sha512Ctx.compress, hmarked, List.length_append,
        List.length_replicate, List.length_drop, sha512Compress_length hsixteen]
    · simp only [Sha512Ctx.zeroInput]
      rw [List.take_left' (List.length_replicate ..)]
      exact (load64BeBuf_zeros 14).symm
  · have hzeros : (239 - pending.length) % 128 = 111 - pending.length := by omega
    have hfront : (pending ++ [128] ++ List.replicate (111 - pending.length) (0 : UInt8)).length =
        112 := by
      rw [List.length_append, List.length_append, List.length_singleton, List.length_replicate]
      omega
    have hblock : openBlock (pending ++ [128]) =
        pending ++ [128] ++ List.replicate (111 - pending.length) 0 ++ List.replicate 16 0 := by
      have hsplit : 128 - (pending ++ [128]).length = (111 - pending.length) + 16 := by
        rw [List.length_append, List.length_singleton]
        omega
      rw [openBlock, hsplit, List.replicate_add, ← List.append_assoc]
    have hlast : pending ++ lastBytes pending (flushed + pending.length) =
        pending ++ [128] ++ List.replicate (111 - pending.length) 0 ++
          beBytes16 (8 * (flushed + pending.length)) := by
      rw [lastBytes, hzeros]
      simp only [List.append_assoc]
    have hend : pending.length + (lastBytes pending (flushed + pending.length)).length = 128 := by
      rw [← List.length_append, hlast, List.length_append, hfront, beBytes16_length]
    have hfeed : feed 128 compressBlock ⟨hash, pending⟩
        (lastBytes pending (flushed + pending.length)) =
        ⟨compressBlock hash (pending ++ lastBytes pending (flushed + pending.length)), []⟩ :=
      BlockBuffer.feed_fills hend (List.cons_ne_nil _ _)
    rw [hfeed, hlast]
    refine lastCompress_hash hhash ?_ hfront ?_ hbits
    · rw [hmarked, hsixteen]
    · rw [hmarked, hblock, load64BeBuf_append hfront _ 2,
        List.take_left' (load64BeBuf_length _ _)]

/-! ## The hash of the pieces -/

theorem sha512_init_follows : Sha512Follows cryptoSha512Init ⟨sha512Iv, []⟩ 0 :=
  ⟨rfl, rfl, openBlock_nil.symm, rfl⟩

theorem sha512_pieces_follow (hfollows : Sha512Follows ctx ⟨hash, pending⟩ flushed)
    (hlt : pending.length < 128) (pieces : List (List UInt8)) :
    ∃ now, Sha512Follows (pieces.foldl cryptoSha512Update ctx)
        (feed 128 compressBlock ⟨hash, pending⟩ pieces.flatten) now ∧
      now + (feed 128 compressBlock ⟨hash, pending⟩ pieces.flatten).pending.length =
        flushed + pending.length + pieces.flatten.length := by
  induction pieces generalizing ctx hash pending flushed with
  | nil => exact ⟨flushed, hfollows, rfl⟩
  | cons piece rest ih =>
      obtain ⟨middle, hpiece, hmiddle⟩ := hfollows.update hlt piece
      have hopen : (feed 128 compressBlock ⟨hash, pending⟩ piece).pending.length < 128 :=
        BlockBuffer.feed_pending_lt (by decide) hlt piece
      obtain ⟨now, hrest, hnow⟩ := ih hpiece hopen
      refine ⟨now, ?_, ?_⟩
      · rw [List.foldl_cons, List.flatten_cons, BlockBuffer.feed_append]
        exact hrest
      · rw [List.flatten_cons, BlockBuffer.feed_append, List.length_append, ← Nat.add_assoc,
          ← hmiddle]
        exact hnow

theorem padded_length (message : List UInt8) : 128 ∣ (padded message).length := by
  rw [padded, List.length_append, List.length_append, List.length_append, List.length_singleton,
    List.length_replicate, beBytes16_length]
  omega

theorem sha512_eq_feed (message : List UInt8) :
    sha512 message = (feed 128 compressBlock ⟨sha512Iv, []⟩ (padded message)).state.bytes := by
  have hwhole : (feed 128 compressBlock ⟨sha512Iv, []⟩ (padded message)).pending = [] := by
    rw [BlockBuffer.feed_from_empty (by decide)]
    refine List.drop_of_length_le ?_
    rw [Nat.mul_div_cancel' (padded_length message)]
  rw [sha512, BlockBuffer.foldl_blocks (by decide), if_pos hwhole]

theorem final_of_pieces (pieces : List (List UInt8)) :
    cryptoSha512Final (pieces.foldl cryptoSha512Update cryptoSha512Init) =
      sha512 pieces.flatten := by
  obtain ⟨now, hfollows, hnow⟩ := sha512_pieces_follow sha512_init_follows (by decide) pieces
  have hopen : (feed 128 compressBlock ⟨sha512Iv, []⟩ pieces.flatten).pending.length < 128 :=
    BlockBuffer.feed_pending_lt (by decide) (by decide) pieces.flatten
  have hmod : (feed 128 compressBlock ⟨sha512Iv, []⟩ pieces.flatten).pending.length =
      pieces.flatten.length % 128 := by
    rw [BlockBuffer.feed_from_empty (by decide), List.length_drop]
    omega
  have hpadded : padded pieces.flatten = pieces.flatten ++
      lastBytes (feed 128 compressBlock ⟨sha512Iv, []⟩ pieces.flatten).pending
        pieces.flatten.length := by
    rw [padded, lastBytes, hmod]
    simp only [List.append_assoc]
  rw [List.length_nil, Nat.add_zero, Nat.zero_add] at hnow
  have hfinal : cryptoSha512Final (pieces.foldl cryptoSha512Update cryptoSha512Init) =
      (feed 128 compressBlock (feed 128 compressBlock ⟨sha512Iv, []⟩ pieces.flatten)
        (lastBytes (feed 128 compressBlock ⟨sha512Iv, []⟩ pieces.flatten).pending (now +
          (feed 128 compressBlock ⟨sha512Iv, []⟩ pieces.flatten).pending.length))).state.bytes :=
    hfollows.final hopen
  rw [hfinal, hnow, sha512_eq_feed, hpadded, BlockBuffer.feed_append]

/-- The hash is that of the padded message, however the message is cut into pieces. -/
theorem crypto_sha512_pieces (pieces : List (List UInt8)) :
    cryptoSha512Final (pieces.foldl cryptoSha512Update cryptoSha512Init) =
        sha512 pieces.flatten ∧
      wakeSha512 pieces.flatten = sha512 pieces.flatten := by
  refine ⟨final_of_pieces pieces, ?_⟩
  have hone := final_of_pieces [pieces.flatten]
  rw [List.flatten_singleton] at hone
  exact hone

/-- The hash of "abc". -/
example : wakeSha512 [97, 98, 99] =
      [221, 175, 53, 161, 147, 97, 122, 186, 204, 65, 115, 73, 174, 32, 65, 49, 18, 230,
      250, 78, 137, 169, 126, 162, 10, 158, 238, 230, 75, 85, 211, 154, 33, 146, 153, 42,
      39, 79, 193, 168, 54, 186, 60, 35, 163, 254, 235, 189, 69, 77, 68, 35, 100, 60, 232,
      14, 42, 154, 201, 79, 165, 76, 164, 159] := by
  decide +kernel

end Monocypher
end LibWake
