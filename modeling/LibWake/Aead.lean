import LibWake.ChaCha20
import LibWake.Poly1305

/-!
# Authenticated encryption

`wake_aead_lock` and `wake_aead_unlock` are a session of one message.  A message is authenticated
under the first block of its key stream and encrypted under the blocks behind it, and the rest of
the first block is the key of the next message of the session.
-/

namespace LibWake
namespace Monocypher

/-- `crypto_aead_ctx`. -/
structure AeadCtx where
  counter : UInt64
  key : List UInt8
  nonce : List UInt8
  deriving DecidableEq, Repr

/-- A context on the stack before `crypto_poly1305_init`. -/
def stackPoly1305 : Poly1305Ctx :=
  ⟨List.replicate 16 0, 0, ⟨0, 0, 0, 0⟩, ⟨0, 0, 0, 0⟩, ⟨0, 0, 0, 0, 0⟩⟩

def lockAuth (authKey ad cipherText : List UInt8) : List UInt8 :=
  let sizes := store64Le (UInt64.ofNat ad.length) ++ store64Le (UInt64.ofNat cipherText.length)
  let ctx := cryptoPoly1305Init stackPoly1305 authKey
  let ctx := cryptoPoly1305Update ctx ad
  let ctx := cryptoPoly1305Update ctx (zero128.take (gap ad.length 16))
  let ctx := cryptoPoly1305Update ctx cipherText
  let ctx := cryptoPoly1305Update ctx (zero128.take (gap cipherText.length 16))
  let ctx := cryptoPoly1305Update ctx sizes
  cryptoPoly1305Final ctx

def cryptoAeadInitX (key nonce : List UInt8) : AeadCtx :=
  ⟨0, cryptoChacha20H key nonce, (nonce.drop 16).take 8⟩

/-- What `crypto_aead_write` writes. -/
structure Written where
  ctx : AeadCtx
  cipherText : List UInt8
  mac : List UInt8
  deriving DecidableEq, Repr

def cryptoAeadWrite (ctx : AeadCtx) (ad : List UInt8) (plainText : Option (List UInt8))
    (textSize : ℕ) : Written :=
  let authKey := (cryptoChacha20Djb none 64 ctx.key ctx.nonce ctx.counter).1
  let cipherText :=
    (cryptoChacha20Djb plainText textSize ctx.key ctx.nonce (ctx.counter + 1)).1
  ⟨{ ctx with key := authKey.drop 32 }, cipherText, lockAuth authKey ad cipherText⟩

/-- What `crypto_aead_read` returns, and what it leaves in the buffer of the plain text. -/
structure ReadBack where
  mismatch : Int32
  ctx : AeadCtx
  plainText : List UInt8
  deriving DecidableEq, Repr

def cryptoAeadRead (ctx : AeadCtx) (plainText mac ad cipherText : List UInt8) : ReadBack :=
  let authKey := (cryptoChacha20Djb none 64 ctx.key ctx.nonce ctx.counter).1
  let realMac := lockAuth authKey ad cipherText
  let mismatch := cryptoVerify16 mac realMac
  if mismatch = 0 then
    ⟨mismatch, { ctx with key := authKey.drop 32 },
      (cryptoChacha20Djb (some cipherText) cipherText.length ctx.key ctx.nonce
        (ctx.counter + 1)).1⟩
  else ⟨mismatch, ctx, plainText⟩

def wakeAeadLock (key nonce ad : List UInt8) (plainText : Option (List UInt8)) (textSize : ℕ) :
    List UInt8 × List UInt8 :=
  let written := cryptoAeadWrite (cryptoAeadInitX key nonce) ad plainText textSize
  (written.cipherText, written.mac)

def wakeAeadUnlock (plainText mac key nonce ad cipherText : List UInt8) : Int32 × List UInt8 :=
  let read := cryptoAeadRead (cryptoAeadInitX key nonce) plainText mac ad cipherText
  (read.mismatch, read.plainText)

/-! ## What is authenticated -/

def padding (size : ℕ) : List UInt8 := List.replicate ((16 - size % 16) % 16) 0

/-- The additional data and the cipher text, each padded to whole blocks, and their sizes. -/
def authenticated (ad cipherText : List UInt8) : List UInt8 :=
  ad ++ padding ad.length ++ cipherText ++ padding cipherText.length ++
    leBytes 8 ad.length ++ leBytes 8 cipherText.length

theorem zero128_take {n : ℕ} (hn : n ≤ 128) : zero128.take n = List.replicate n 0 := by
  rw [zero128, List.take_replicate, Nat.min_eq_left hn]

theorem padding_eq {size : ℕ} (hsize : size < 2 ^ 64) :
    zero128.take (gap size 16) = padding size := by
  have hgap : gap size 16 = (16 - size % 16) % 16 := gap_pow size 4 (by decide) hsize
  rw [hgap, padding, zero128_take]
  omega

theorem lockAuth_eq {authKey ad cipherText : List UInt8} (hkey : 32 ≤ authKey.length)
    (had : ad.length < 2 ^ 64) (hcipher : cipherText.length < 2 ^ 64) :
    lockAuth authKey ad cipherText = poly1305 authKey (authenticated ad cipherText) := by
  have hsize : ∀ n, n < 2 ^ 64 → store64Le (UInt64.ofNat n) = leBytes 8 n := by
    intro n hn
    rw [store64Le_eq, UInt64.toNat_ofNat_of_lt' hn]
  have hroom : stackPoly1305.c.length = 16 := rfl
  have hpieces := final_pieces hroom hkey
    [ad, padding ad.length, cipherText, padding cipherText.length,
      leBytes 8 ad.length ++ leBytes 8 cipherText.length]
  have hflatten : [ad, padding ad.length, cipherText, padding cipherText.length,
      leBytes 8 ad.length ++ leBytes 8 cipherText.length].flatten =
      authenticated ad cipherText := by
    simp only [authenticated, List.flatten_cons, List.flatten_nil, List.append_nil,
      List.append_assoc]
  rw [hflatten] at hpieces
  unfold lockAuth
  simp only
  rw [padding_eq had, padding_eq hcipher, hsize _ had, hsize _ hcipher]
  exact hpieces

theorem authenticated_injective {ad ad' cipherText cipherText' : List UInt8}
    (had : ad.length < 2 ^ 64) (had' : ad'.length < 2 ^ 64)
    (hcipher : cipherText.length < 2 ^ 64) (hcipher' : cipherText'.length < 2 ^ 64)
    (heq : authenticated ad cipherText = authenticated ad' cipherText') :
    ad = ad' ∧ cipherText = cipherText' := by
  have h8 : ∀ x y, (leBytes 8 x).length = (leBytes 8 y).length := fun x y => by
    rw [leBytes_length, leBytes_length]
  obtain ⟨hfront, hsecond⟩ := List.append_inj' heq (h8 _ _)
  obtain ⟨hbody, hfirst⟩ := List.append_inj' hfront (h8 _ _)
  have hadSize : ad.length = ad'.length := leBytes_injective had had' hfirst
  have hcipherSize : cipherText.length = cipherText'.length :=
    leBytes_injective hcipher hcipher' hsecond
  rw [hadSize, hcipherSize] at hbody
  have hinner := List.append_cancel_right hbody
  obtain ⟨hadPadded, hcipherEq⟩ := List.append_inj' hinner hcipherSize
  exact ⟨List.append_cancel_right hadPadded, hcipherEq⟩

/-- The tag of a message is that of a string of whole blocks which no other message shares. -/
theorem lock_auth_encoding {authKey ad cipherText : List UInt8} (hkey : 32 ≤ authKey.length)
    (had : ad.length < 2 ^ 64) (hcipher : cipherText.length < 2 ^ 64) :
    lockAuth authKey ad cipherText = poly1305 authKey (authenticated ad cipherText) ∧
      16 ∣ (authenticated ad cipherText).length ∧
      ∀ ad' cipherText' : List UInt8, ad'.length < 2 ^ 64 → cipherText'.length < 2 ^ 64 →
        authenticated ad' cipherText' = authenticated ad cipherText →
        ad' = ad ∧ cipherText' = cipherText := by
  refine ⟨lockAuth_eq hkey had hcipher, ?_, fun ad' cipherText' had' hcipher' heq =>
    authenticated_injective had' had hcipher' hcipher heq⟩
  simp only [authenticated, padding, List.length_append, List.length_replicate, leBytes_length]
  omega

theorem lock_auth_encoding_short :
    lockAuth (List.replicate 64 1) [2, 3] [4] =
        poly1305 (List.replicate 64 1) (authenticated [2, 3] [4]) ∧
      16 ∣ (authenticated [2, 3] [4]).length ∧
      ∀ ad' cipherText' : List UInt8, ad'.length < 2 ^ 64 → cipherText'.length < 2 ^ 64 →
        authenticated ad' cipherText' = authenticated [2, 3] [4] →
        ad' = [2, 3] ∧ cipherText' = [4] :=
  lock_auth_encoding (by decide) (by decide) (by decide)

/-! ## One message -/

def AeadCtx.authKey (ctx : AeadCtx) : List UInt8 := keyBlock ctx.key ctx.nonce ctx.counter

/-- The context behind a message. -/
def AeadCtx.next (ctx : AeadCtx) : AeadCtx := { ctx with key := ctx.authKey.drop 32 }

def AeadCtx.crypt (ctx : AeadCtx) (text : List UInt8) : List UInt8 :=
  streamed (some text) text.length ctx.key ctx.nonce (ctx.counter + 1)

def AeadCtx.tag (ctx : AeadCtx) (ad cipherText : List UInt8) : List UInt8 :=
  poly1305 ctx.authKey (authenticated ad cipherText)

theorem authKey_eq (ctx : AeadCtx) :
    (cryptoChacha20Djb none 64 ctx.key ctx.nonce ctx.counter).1 = ctx.authKey := by
  have hnone : ∀ text ∈ (none : Option (List UInt8)), text.length = 64 :=
    fun text hmem => absurd hmem (Option.not_mem_none text)
  have hlong : ∀ text ∈ (none : Option (List UInt8)), 64 ≤ text.length :=
    fun text hmem => absurd hmem (Option.not_mem_none text)
  rw [djb_streamed _ _ _ hnone, ← wholeBlock_streamed _ _ _ hlong]
  rfl

theorem authKey_length (ctx : AeadCtx) : ctx.authKey.length = 64 := keyBlock_length _ _ _

theorem poly1305_length (key message : List UInt8) : (poly1305 key message).length = 16 :=
  leBytes_length _ _

theorem crypt_length (ctx : AeadCtx) (text : List UInt8) :
    (ctx.crypt text).length = text.length := streamed_length _ _ _ _ _

theorem crypt_crypt (ctx : AeadCtx) (text : List UInt8) : ctx.crypt (ctx.crypt text) = text := by
  have htwice := streamed_streamed text ctx.key ctx.nonce (ctx.counter + 1)
  rw [AeadCtx.crypt, crypt_length]
  exact htwice

theorem write_eq (ctx : AeadCtx) {ad text : List UInt8} (had : ad.length < 2 ^ 64)
    (htext : text.length < 2 ^ 64) :
    cryptoAeadWrite ctx ad (some text) text.length =
      ⟨ctx.next, ctx.crypt text, ctx.tag ad (ctx.crypt text)⟩ := by
  have hkey : 32 ≤ ctx.authKey.length := by
    rw [authKey_length]
    decide
  have hcipher : (ctx.crypt text).length < 2 ^ 64 := by rwa [crypt_length]
  have hlock := lockAuth_eq hkey had hcipher
  unfold cryptoAeadWrite
  simp only [authKey_eq, djb_text]
  exact congrArg (Written.mk ctx.next (ctx.crypt text)) hlock

theorem read_eq (ctx : AeadCtx) {mac ad cipherText : List UInt8} (hmac : mac.length = 16)
    (had : ad.length < 2 ^ 64) (hcipher : cipherText.length < 2 ^ 64)
    (plainText : List UInt8) :
    cryptoAeadRead ctx plainText mac ad cipherText =
      if mac = ctx.tag ad cipherText then ⟨0, ctx.next, ctx.crypt cipherText⟩
      else ⟨-1, ctx, plainText⟩ := by
  have hkey : 32 ≤ ctx.authKey.length := by
    rw [authKey_length]
    decide
  have hlock : lockAuth ctx.authKey ad cipherText = ctx.tag ad cipherText :=
    lockAuth_eq hkey had hcipher
  have htag : (ctx.tag ad cipherText).length = 16 := poly1305_length _ _
  unfold cryptoAeadRead
  simp only [authKey_eq, hlock, djb_text, cryptoVerify16_eq hmac htag]
  by_cases hsame : mac = ctx.tag ad cipherText
  · simp only [if_pos hsame, if_true]
    rfl
  · have hrefused : ¬ (-1 : Int32) = 0 := by decide
    simp only [if_neg hsame, if_neg hrefused]

/-- Unlocking accepts one tag for each message and leaves the buffer as it is under any other;
what was locked comes back. -/
theorem wake_aead_exact {key nonce ad text mac : List UInt8} (hmac : mac.length = 16)
    (had : ad.length < 2 ^ 64) (htext : text.length < 2 ^ 64) (buffer : List UInt8) :
    wakeAeadUnlock buffer mac key nonce ad text =
        (if mac = (cryptoAeadInitX key nonce).tag ad text
          then (0, (cryptoAeadInitX key nonce).crypt text) else (-1, buffer)) ∧
      wakeAeadUnlock buffer mac key nonce ad
          (wakeAeadLock key nonce ad (some text) text.length).1 =
        (if mac = (wakeAeadLock key nonce ad (some text) text.length).2 then (0, text)
          else (-1, buffer)) := by
  have hunlock : ∀ message : List UInt8, message.length < 2 ^ 64 →
      wakeAeadUnlock buffer mac key nonce ad message =
        if mac = (cryptoAeadInitX key nonce).tag ad message
          then (0, (cryptoAeadInitX key nonce).crypt message) else (-1, buffer) := by
    intro message hmessage
    unfold wakeAeadUnlock
    rw [read_eq _ hmac had hmessage]
    split_ifs <;> rfl
  have hlock : wakeAeadLock key nonce ad (some text) text.length =
      ((cryptoAeadInitX key nonce).crypt text,
        (cryptoAeadInitX key nonce).tag ad ((cryptoAeadInitX key nonce).crypt text)) := by
    unfold wakeAeadLock
    rw [write_eq _ had htext]
  refine ⟨hunlock text htext, ?_⟩
  rw [hlock, hunlock _ (by rwa [crypt_length]), crypt_crypt]

theorem wake_aead_exact_hello :
    wakeAeadUnlock [9, 9] (List.replicate 16 1) (List.replicate 32 2) (List.replicate 24 3) [4]
          [5, 6] =
        (if List.replicate 16 1 =
            (cryptoAeadInitX (List.replicate 32 2) (List.replicate 24 3)).tag [4] [5, 6]
          then (0, (cryptoAeadInitX (List.replicate 32 2) (List.replicate 24 3)).crypt [5, 6])
          else (-1, [9, 9])) ∧
      wakeAeadUnlock [9, 9] (List.replicate 16 1) (List.replicate 32 2) (List.replicate 24 3) [4]
          (wakeAeadLock (List.replicate 32 2) (List.replicate 24 3) [4] (some [5, 6]) 2).1 =
        (if List.replicate 16 1 =
            (wakeAeadLock (List.replicate 32 2) (List.replicate 24 3) [4] (some [5, 6]) 2).2
          then (0, [5, 6]) else (-1, [9, 9])) :=
  wake_aead_exact rfl (by decide) (by decide) [9, 9]

/-! ## A session -/

structure Packet where
  ad : List UInt8
  cipherText : List UInt8
  mac : List UInt8
  deriving DecidableEq, Repr

/-- A message: its additional data and its text. -/
structure Message where
  ad : List UInt8
  text : List UInt8
  deriving DecidableEq, Repr

def sendOne (ctx : AeadCtx) (message : Message) : AeadCtx × Packet :=
  let written := cryptoAeadWrite ctx message.ad (some message.text) message.text.length
  (written.ctx, ⟨message.ad, written.cipherText, written.mac⟩)

def sendAll (ctx : AeadCtx) (messages : List Message) : AeadCtx :=
  messages.foldl (fun ctx message => (sendOne ctx message).1) ctx

/-- The reader keeps the texts of the packets which it accepts. -/
def readOne (reader : AeadCtx × List (List UInt8)) (packet : Packet) :
    AeadCtx × List (List UInt8) :=
  let read := cryptoAeadRead reader.1 [] packet.mac packet.ad packet.cipherText
  if read.mismatch = 0 then (read.ctx, reader.2 ++ [read.plainText]) else (read.ctx, reader.2)

/-- The packets of the writer in their order, among others which do not have the tag that the
writer's context gives them. -/
inductive Delivery : AeadCtx → List Message → List Packet → Prop
  | done (ctx : AeadCtx) : Delivery ctx [] []
  | genuine (ctx : AeadCtx) (message : Message) (messages : List Message) (packets : List Packet)
      (had : message.ad.length < 2 ^ 64) (htext : message.text.length < 2 ^ 64)
      (hrest : Delivery (sendOne ctx message).1 messages packets) :
      Delivery ctx (message :: messages) ((sendOne ctx message).2 :: packets)
  | forged (ctx : AeadCtx) (packet : Packet) (messages : List Message) (packets : List Packet)
      (had : packet.ad.length < 2 ^ 64) (hcipher : packet.cipherText.length < 2 ^ 64)
      (hmac : packet.mac.length = 16)
      (htag : packet.mac ≠ ctx.tag packet.ad packet.cipherText)
      (hrest : Delivery ctx messages packets) : Delivery ctx messages (packet :: packets)

theorem readOne_genuine {ctx : AeadCtx} {message : Message} (had : message.ad.length < 2 ^ 64)
    (htext : message.text.length < 2 ^ 64) (texts : List (List UInt8)) :
    readOne (ctx, texts) (sendOne ctx message).2 =
      ((sendOne ctx message).1, texts ++ [message.text]) := by
  have hmac : (ctx.tag message.ad (ctx.crypt message.text)).length = 16 := poly1305_length _ _
  have hcipher : (ctx.crypt message.text).length < 2 ^ 64 := by rwa [crypt_length]
  unfold readOne sendOne
  simp only [write_eq ctx had htext, read_eq ctx hmac had hcipher, if_true, crypt_crypt]

theorem readOne_forged {ctx : AeadCtx} {packet : Packet} (had : packet.ad.length < 2 ^ 64)
    (hcipher : packet.cipherText.length < 2 ^ 64) (hmac : packet.mac.length = 16)
    (htag : packet.mac ≠ ctx.tag packet.ad packet.cipherText) (texts : List (List UInt8)) :
    readOne (ctx, texts) packet = (ctx, texts) := by
  have hrefused : ¬ (-1 : Int32) = 0 := by decide
  unfold readOne
  simp only [read_eq ctx hmac had hcipher, if_neg htag, if_neg hrefused]

/-- Forged packets in between do not move the reader: it ends with the writer's texts, in order,
and in the writer's context. -/
theorem session_in_step {ctx : AeadCtx} {messages : List Message} {packets : List Packet}
    (hdelivery : Delivery ctx messages packets) (texts : List (List UInt8)) :
    packets.foldl readOne (ctx, texts) =
      (sendAll ctx messages, texts ++ messages.map Message.text) := by
  induction hdelivery generalizing texts with
  | done ctx =>
      rw [List.map_nil, List.append_nil]
      rfl
  | genuine ctx message messages packets had htext _ ih =>
      rw [List.foldl_cons, readOne_genuine had htext, ih, List.map_cons, List.append_assoc,
        List.singleton_append]
      rfl
  | forged ctx packet messages packets had hcipher hmac htag _ ih =>
      rw [List.foldl_cons, readOne_forged had hcipher hmac htag, ih]

def sampleSession : AeadCtx := ⟨0, List.replicate 32 1, List.replicate 8 2⟩

theorem session_in_step_two :
    [(sendOne sampleSession ⟨[3], [4, 5]⟩).2, ⟨[3], [4, 5], List.replicate 16 0⟩,
        (sendOne (sendOne sampleSession ⟨[3], [4, 5]⟩).1 ⟨[], [6]⟩).2].foldl readOne
          (sampleSession, []) =
      (sendAll sampleSession [⟨[3], [4, 5]⟩, ⟨[], [6]⟩], [[4, 5], [6]]) := by
  have hlast := Delivery.genuine (sendOne sampleSession ⟨[3], [4, 5]⟩).1 ⟨[], [6]⟩ [] []
    (by decide) (by decide) (Delivery.done _)
  have hforged := Delivery.forged _ ⟨[3], [4, 5], List.replicate 16 0⟩ _ _ (by decide) (by decide)
    rfl (by decide +kernel) hlast
  exact session_in_step
    (Delivery.genuine _ ⟨[3], [4, 5]⟩ _ _ (by decide) (by decide) hforged) []

end Monocypher
end LibWake
