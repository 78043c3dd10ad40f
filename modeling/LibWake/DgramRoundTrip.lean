import LibWake.ByteOrder
import LibWake.DgramModel

/-!
# The codec round-trips

A canonical message has one byte string.  The encoders write it, the decoder
reads it back whatever follows it, and whatever the decoder accepts is
canonical.
-/

namespace LibWake
namespace Dgram

open ByteBuffer Checked

/-! ## Scalars -/

theorem rd16_toNat (a b : UInt8) : (rd16 a b).toNat = leNat [a, b] := by
  have ha := a.toNat_lt
  have hb := b.toNat_lt
  have hshift : b.toNat <<< 8 % 2 ^ 16 = b.toNat <<< 8 := by
    rw [Nat.shiftLeft_eq, Nat.mod_eq_of_lt (by omega)]
  simp only [rd16, UInt16.toNat_or, UInt16.toNat_shiftLeft, UInt8.toNat_toUInt16, leNat]
  rw [show (8 : UInt16).toNat % 16 = 8 from rfl, hshift, or_shiftLeft ha]
  omega

theorem rd32_toNat (a b c d : UInt8) : (rd32 a b c d).toNat = leNat [a, b, c, d] := by
  have ha := a.toNat_lt
  have hb := b.toNat_lt
  have hc := c.toNat_lt
  have hd := d.toNat_lt
  have hshift : ∀ x k : ℕ, x < 2 ^ 8 → k ≤ 24 → x <<< k % 2 ^ 32 = x <<< k := by
    intro x k hx hk
    rw [Nat.shiftLeft_eq, Nat.mod_eq_of_lt]
    calc x * 2 ^ k < 2 ^ 8 * 2 ^ k := Nat.mul_lt_mul_of_pos_right hx (by positivity)
      _ ≤ 2 ^ 8 * 2 ^ 24 := Nat.mul_le_mul_left _ (Nat.pow_le_pow_right (by decide) hk)
      _ = 2 ^ 32 := by decide
  simp only [rd32, UInt32.toNat_or, UInt32.toNat_shiftLeft, UInt8.toNat_toUInt32, leNat]
  rw [show (8 : UInt32).toNat % 32 = 8 from rfl,
    show (16 : UInt32).toNat % 32 = 16 from rfl,
    show (24 : UInt32).toNat % 32 = 24 from rfl, hshift _ 8 hb (by decide),
    hshift _ 16 hc (by decide), hshift _ 24 hd (by decide), or_shiftLeft ha]
  have hlow : a.toNat + 2 ^ 8 * b.toNat < 2 ^ 16 := by omega
  rw [or_shiftLeft hlow]
  have hmiddle : a.toNat + 2 ^ 8 * b.toNat + 2 ^ 16 * c.toNat < 2 ^ 24 := by omega
  rw [or_shiftLeft hmiddle]
  omega

theorem wr16_eq (v : UInt16) : wr16 v = leBytes 2 v.toNat := by
  have hbyte : ∀ w : UInt16, (w &&& 0xff).toUInt8 = UInt8.ofNat (w.toNat % 256) := by
    intro w
    rw [← Nat.and_two_pow_sub_one_eq_mod w.toNat 8]
    rfl
  simp only [wr16, hbyte, leBytes, UInt16.toNat_shiftRight, Nat.shiftRight_eq_div_pow]
  rfl

theorem wr32_eq (v : UInt32) : wr32 v = leBytes 4 v.toNat := by
  have hbyte : ∀ w : UInt32, (w &&& 0xff).toUInt8 = UInt8.ofNat (w.toNat % 256) := by
    intro w
    rw [← Nat.and_two_pow_sub_one_eq_mod w.toNat 8]
    rfl
  simp only [wr32, hbyte, leBytes, UInt32.toNat_shiftRight, Nat.shiftRight_eq_div_pow,
    Nat.div_div_eq_div_mul]
  rfl

@[simp] theorem wr16_length (v : UInt16) : (wr16 v).length = 2 := rfl

@[simp] theorem wr32_length (v : UInt32) : (wr32 v).length = 4 := rfl

variable {buf : List UInt8} {off : ℕ}

theorem byteAt_of_holdsAt {byte : UInt8} (hholds : HoldsAt buf off [byte]) :
    byteAt buf off = .ok byte :=
  readByte_of_holdsAt hholds

theorem rd16At_of_holdsAt {v : UInt16} (hholds : HoldsAt buf off (wr16 v)) :
    rd16At buf off = .ok v := by
  obtain ⟨ha, hb⟩ := holdsAt_cons.mp hholds
  rw [rd16At, byteAt_of_holdsAt ha, ok_bind, byteAt_of_holdsAt hb, ok_bind, pure_eq_ok]
  congr 1
  apply UInt16.toNat_inj.mp
  rw [rd16_toNat]
  calc leNat (wr16 v) = leNat (leBytes 2 v.toNat) := by rw [wr16_eq]
    _ = v.toNat := leNat_leBytes v.toNat_lt

theorem rd32At_of_holdsAt {v : UInt32} (hholds : HoldsAt buf off (wr32 v)) :
    rd32At buf off = .ok v := by
  obtain ⟨ha, hrest⟩ := holdsAt_cons.mp hholds
  obtain ⟨hb, hrest⟩ := holdsAt_cons.mp hrest
  obtain ⟨hc, hd⟩ := holdsAt_cons.mp hrest
  rw [rd32At, byteAt_of_holdsAt ha, ok_bind, byteAt_of_holdsAt hb, ok_bind,
    byteAt_of_holdsAt hc, ok_bind, byteAt_of_holdsAt hd, ok_bind, pure_eq_ok]
  congr 1
  apply UInt32.toNat_inj.mp
  rw [rd32_toNat]
  calc leNat (wr32 v) = leNat (leBytes 4 v.toNat) := by rw [wr32_eq]
    _ = v.toNat := leNat_leBytes v.toNat_lt

/-! ## The bytes of a message -/

def updateBytes (u : Update) : List UInt8 :=
  u.nodeId.toList ++ wr32 u.addr ++ wr16 u.port ++ [u.state] ++ [0] ++
    wr32 u.incarnation ++ wr16 u.piggybackCount ++ wr16 0

def updatesBytes (updates : List Update) : List UInt8 :=
  [UInt8.ofNat updates.length] ++ updates.flatMap updateBytes

def headerBytes (msgType : UInt8) (sender : NodeId) : List UInt8 :=
  [0x57, 0x44, formatVersion, msgType] ++ sender.toList

def gossipBytes (msgId : MsgId) (payload : List UInt8) : List UInt8 :=
  msgId.toList ++ wr16 (UInt16.ofNat payload.length) ++ payload

@[simp] theorem updateBytes_length (u : Update) : (updateBytes u).length = 48 := by
  simp only [updateBytes, List.length_append, List.Vector.toList_length, wr16_length,
    wr32_length, List.length_singleton]
  rfl

@[simp] theorem updatesBytes_length (updates : List Update) :
    (updatesBytes updates).length = 1 + updates.length * 48 := by
  simp [updatesBytes, List.length_flatMap, List.map_const', Nat.add_comm]

@[simp] theorem headerBytes_length (msgType : UInt8) (sender : NodeId) :
    (headerBytes msgType sender).length = 36 := by
  simp only [headerBytes, List.length_append, List.Vector.toList_length]
  rfl

@[simp] theorem gossipBytes_length (msgId : MsgId) (payload : List UInt8) :
    (gossipBytes msgId payload).length = 18 + payload.length := by
  simp only [gossipBytes, List.length_append, List.Vector.toList_length, wr16_length]
  rfl

/-- What `wake_dgram_decode` can return; the fields which the type does not use
are zero. -/
inductive Canonical : Message → Prop
  | swim (msgType : UInt8) (sender : NodeId) (updates : List Update)
      (htype : msgType = swimPing ∨ msgType = swimAck)
      (hlength : updates.length ≤ maxUpdates) :
      Canonical ⟨msgType, sender, NodeId.zero, updates, MsgId.zero, []⟩
  | pingReq (sender target : NodeId) (updates : List Update)
      (hlength : updates.length ≤ maxUpdates) :
      Canonical ⟨swimPingReq, sender, target, updates, MsgId.zero, []⟩
  | gossip (sender : NodeId) (msgId : MsgId) (payload : List UInt8)
      (hlength : payload.length ≤ maxPayload) :
      Canonical ⟨ptGossip, sender, NodeId.zero, [], msgId, payload⟩
  | notice (msgType : UInt8) (sender : NodeId) (msgId : MsgId)
      (htype : msgType = ptIhave ∨ msgType = ptGraft) :
      Canonical ⟨msgType, sender, NodeId.zero, [], msgId, []⟩
  | prune (sender : NodeId) :
      Canonical ⟨ptPrune, sender, NodeId.zero, [], MsgId.zero, []⟩

/-- The bytes behind the header. -/
def tailBytes (m : Message) : List UInt8 :=
  if m.msgType = swimPing ∨ m.msgType = swimAck then updatesBytes m.updates
  else if m.msgType = swimPingReq then m.targetId.toList ++ updatesBytes m.updates
  else if m.msgType = ptGossip then gossipBytes m.msgId m.payload
  else if m.msgType = ptPrune then []
  else m.msgId.toList

def messageBytes (m : Message) : List UInt8 :=
  headerBytes m.msgType m.senderId ++ tailBytes m

/-! ## Decoding the bytes -/

theorem decUpdate_of_holdsAt {u : Update} (hholds : HoldsAt buf off (updateBytes u))
    (hoff : off ≤ buf.length) : decUpdate buf off = .ok u := by
  simp only [updateBytes, holdsAt_append, List.length_append, List.Vector.toList_length,
    wr16_length, wr32_length, List.length_singleton] at hholds
  obtain ⟨⟨⟨⟨⟨⟨⟨hid, haddr⟩, hport⟩, hstate⟩, _⟩, hincarnation⟩, hcount⟩, _⟩ := hholds
  have haddr : rd32At buf (off + 32) = .ok u.addr := rd32At_of_holdsAt haddr
  have hport : rd16At buf (off + 36) = .ok u.port := rd16At_of_holdsAt hport
  have hstate : byteAt buf (off + 38) = .ok u.state := byteAt_of_holdsAt hstate
  have hincarnation : rd32At buf (off + 40) = .ok u.incarnation :=
    rd32At_of_holdsAt hincarnation
  have hcount : rd16At buf (off + 44) = .ok u.piggybackCount := rd16At_of_holdsAt hcount
  rw [decUpdate, readBytes_of_holdsAt hid hoff, ok_bind, haddr, ok_bind, hport, ok_bind,
    hstate, ok_bind, hincarnation, ok_bind, hcount, ok_bind]
  rfl

theorem decUpdateLoop_of_holdsAt {updates : List Update}
    (hholds : HoldsAt buf off (updates.flatMap updateBytes)) (hoff : off ≤ buf.length) :
    decUpdateLoop buf updates.length off = .ok updates := by
  induction updates generalizing off with
  | nil => rfl
  | cons u rest ih =>
      rw [List.flatMap_cons, holdsAt_append, updateBytes_length] at hholds
      have hroom := hholds.1.room hoff
      rw [updateBytes_length] at hroom
      rw [List.length_cons, decUpdateLoop, decUpdate_of_holdsAt hholds.1 hoff, ok_bind,
        show off + swimUpdateSize = off + 48 from rfl, ih hholds.2 hroom, ok_bind,
        pure_eq_ok]

theorem decUpdates_of_holdsAt {updates : List Update}
    (hholds : HoldsAt buf off (updatesBytes updates)) (hoff : off ≤ buf.length)
    (hlength : updates.length ≤ maxUpdates) :
    decUpdates buf off = .ok updates := by
  have hroom := hholds.room hoff
  rw [updatesBytes_length] at hroom
  obtain ⟨hcount, hupdates⟩ := holdsAt_append.mp hholds
  have hvalue : (UInt8.ofNat updates.length).toNat = updates.length := by
    rw [UInt8.toNat_ofNat', Nat.mod_eq_of_lt]
    unfold maxUpdates at hlength
    omega
  have hinside : ¬ off ≥ buf.length := by omega
  have hfits : ¬ off + 1 + updates.length * swimUpdateSize > buf.length := by
    unfold swimUpdateSize
    omega
  rw [decUpdates, if_neg hinside, byteAt_of_holdsAt hcount, ok_bind, hvalue,
    if_neg (Nat.not_lt.mpr hlength), if_neg hfits]
  exact decUpdateLoop_of_holdsAt hupdates (by omega)

theorem decode_of_holdsAt {msgType : UInt8} {sender : NodeId}
    (hholds : HoldsAt buf 0 (headerBytes msgType sender)) :
    decode buf = decBody buf (.header msgType sender) hdrSize := by
  have hroom := hholds.room (Nat.zero_le _)
  rw [headerBytes_length] at hroom
  have hlong : ¬ buf.length < hdrSize := by
    unfold hdrSize
    omega
  obtain ⟨hmagic, hsender⟩ := holdsAt_append.mp hholds
  obtain ⟨hw, hrest⟩ := holdsAt_cons.mp hmagic
  obtain ⟨hd, hrest⟩ := holdsAt_cons.mp hrest
  obtain ⟨hver, htype⟩ := holdsAt_cons.mp hrest
  rw [decode, if_neg hlong, byteAt_of_holdsAt hw, ok_bind, byteAt_of_holdsAt hd, ok_bind,
    if_neg (by decide), byteAt_of_holdsAt hver, ok_bind, if_neg (by decide),
    byteAt_of_holdsAt htype, ok_bind]
  have hread : readBytes Fault.outOfBounds buf 4 nodeIdLen = .ok sender :=
    readBytes_of_holdsAt hsender (Nat.le_trans (by decide) hroom)
  rw [hread, ok_bind]

theorem decGossip_of_holdsAt {out : Message} {msgId : MsgId} {payload : List UInt8}
    (hholds : HoldsAt buf off (gossipBytes msgId payload)) (hoff : off ≤ buf.length)
    (hlength : payload.length ≤ maxPayload) :
    decGossip buf out off = .ok { out with msgId := msgId, payload := payload } := by
  have hroom := hholds.room hoff
  rw [gossipBytes_length] at hroom
  simp only [gossipBytes, holdsAt_append, List.length_append, List.Vector.toList_length,
    wr16_length] at hholds
  obtain ⟨⟨hid, hlen⟩, hpayload⟩ := hholds
  have hvalue : (UInt16.ofNat payload.length).toNat = payload.length := by
    rw [UInt16.toNat_ofNat', Nat.mod_eq_of_lt]
    unfold maxPayload at hlength
    omega
  have hlong : ¬ buf.length < off + msgIdLen + 2 := by
    unfold msgIdLen
    omega
  have hfits : ¬ off + msgIdLen + 2 + (UInt16.ofNat payload.length).toNat >
      buf.length := by
    rw [hvalue]
    unfold msgIdLen
    omega
  have hread : readBytes Fault.outOfBounds buf (off + msgIdLen + 2)
      (UInt16.ofNat payload.length).toNat = .ok ⟨payload, hvalue.symm⟩ :=
    readBytes_of_holdsAt hpayload (by unfold msgIdLen; omega)
  rw [decGossip, if_neg hlong, readBytes_of_holdsAt hid hoff, ok_bind,
    rd16At_of_holdsAt hlen, ok_bind, if_neg (by rw [hvalue]; omega), if_neg hfits, hread]
  rfl

theorem decBody_of_holdsAt {m : Message} (hcanonical : Canonical m)
    (hholds : HoldsAt buf hdrSize (tailBytes m)) (hoff : hdrSize ≤ buf.length) :
    decBody buf (.header m.msgType m.senderId) hdrSize = .ok m := by
  cases hcanonical with
  | swim msgType sender updates htype hlength =>
      simp only [tailBytes, if_pos htype] at hholds
      simp only [decBody, Message.header]
      rw [if_pos htype, decUpdates_of_holdsAt hholds hoff hlength]
      rfl
  | pingReq sender target updates hlength =>
      obtain ⟨htarget, hupdates⟩ := holdsAt_append.mp hholds
      have hroom := htarget.room hoff
      rw [List.Vector.toList_length] at hupdates hroom
      have hlong : ¬ buf.length < hdrSize + nodeIdLen := Nat.not_lt.mpr hroom
      simp only [decBody, Message.header]
      rw [if_neg (by decide), if_pos trivial, if_neg hlong, readBytes_of_holdsAt htarget hoff,
        ok_bind, decUpdates_of_holdsAt hupdates hroom hlength]
      rfl
  | gossip sender msgId payload hlength =>
      simp only [decBody, Message.header]
      rw [if_neg (by decide), if_neg (by decide), if_pos trivial]
      exact decGossip_of_holdsAt hholds hoff hlength
  | notice msgType sender msgId htype =>
      have hid : HoldsAt buf hdrSize msgId.toList := by
        rcases htype with rfl | rfl <;> exact hholds
      have hroom := hid.room hoff
      rw [List.Vector.toList_length] at hroom
      have hlong : ¬ buf.length < hdrSize + msgIdLen := Nat.not_lt.mpr hroom
      have hother : ¬ (msgType = swimPing ∨ msgType = swimAck) ∧
          ¬ msgType = swimPingReq ∧ ¬ msgType = ptGossip := by
        rcases htype with rfl | rfl <;> decide
      simp only [decBody, Message.header]
      rw [if_neg hother.1, if_neg hother.2.1, if_neg hother.2.2, if_pos htype,
        if_neg hlong, readBytes_of_holdsAt hid hoff]
      rfl
  | prune sender => rfl

/-- The decoder reads a canonical message back, whatever follows its bytes. -/
theorem decode_messageBytes {m : Message} (hcanonical : Canonical m)
    (back : List UInt8) : decode (messageBytes m ++ back) = .ok m := by
  obtain ⟨hheader, htail⟩ := holdsAt_append.mp (holdsAt_zero (messageBytes m) back)
  have hroom := hheader.room (Nat.zero_le _)
  rw [headerBytes_length, Nat.zero_add] at htail hroom
  rw [decode_of_holdsAt hheader]
  exact decBody_of_holdsAt hcanonical htail hroom

/-! ## What the decoder accepts -/

theorem decUpdateLoop_length {count : ℕ} {updates : List Update}
    (hloop : decUpdateLoop buf count off = .ok updates) : updates.length = count := by
  induction count generalizing off updates with
  | zero =>
      rw [decUpdateLoop, pure_eq_ok, Except.ok.injEq] at hloop
      simp [← hloop]
  | succ count ih =>
      obtain ⟨u, _, hrest⟩ := bind_eq_ok.mp hloop
      obtain ⟨rest, hrest, hupdates⟩ := bind_eq_ok.mp hrest
      rw [pure_eq_ok, Except.ok.injEq] at hupdates
      rw [← hupdates, List.length_cons, ih hrest]

theorem decUpdates_length {updates : List Update}
    (hdecode : decUpdates buf off = .ok updates) : updates.length ≤ maxUpdates := by
  unfold decUpdates at hdecode
  split_ifs at hdecode with hempty
  · rw [pure_eq_ok, Except.ok.injEq] at hdecode
    simp [← hdecode]
  · obtain ⟨count, _, hrest⟩ := bind_eq_ok.mp hdecode
    split_ifs at hrest with hmany hshort
    rw [decUpdateLoop_length hrest]
    omega

theorem canonical_of_decBody {msgType : UInt8} {sender : NodeId} {m : Message}
    (hdecode : decBody buf (.header msgType sender) off = .ok m) : Canonical m := by
  simp only [decBody, Message.header] at hdecode
  split_ifs at hdecode with hswim hreq hshort hgossip hnotice hshort hprune
  · obtain ⟨updates, hupdates, hm⟩ := bind_eq_ok.mp hdecode
    rw [pure_eq_ok, Except.ok.injEq] at hm
    rw [← hm]
    exact .swim msgType sender updates hswim (decUpdates_length hupdates)
  · obtain ⟨target, _, hrest⟩ := bind_eq_ok.mp hdecode
    obtain ⟨updates, hupdates, hm⟩ := bind_eq_ok.mp hrest
    rw [pure_eq_ok, Except.ok.injEq] at hm
    rw [← hm, hreq]
    exact .pingReq sender target updates (decUpdates_length hupdates)
  · unfold decGossip at hdecode
    split_ifs at hdecode with hshort
    obtain ⟨msgId, _, hrest⟩ := bind_eq_ok.mp hdecode
    obtain ⟨plen, _, hrest⟩ := bind_eq_ok.mp hrest
    split_ifs at hrest with hlong hshort
    obtain ⟨payload, _, hm⟩ := bind_eq_ok.mp hrest
    rw [pure_eq_ok, Except.ok.injEq] at hm
    rw [← hm, hgossip]
    exact .gossip sender msgId payload.toList (by
      rw [List.Vector.toList_length]
      omega)
  · obtain ⟨msgId, _, hm⟩ := bind_eq_ok.mp hdecode
    rw [pure_eq_ok, Except.ok.injEq] at hm
    rw [← hm]
    exact .notice msgType sender msgId hnotice
  · rw [pure_eq_ok, Except.ok.injEq] at hdecode
    rw [← hdecode, hprune]
    exact .prune sender

theorem decBody_of_decode {m : Message} (hdecode : decode buf = .ok m) :
    ∃ msgType sender, decBody buf (.header msgType sender) hdrSize = .ok m := by
  unfold decode at hdecode
  split_ifs at hdecode with hshort
  obtain ⟨w, _, hrest⟩ := bind_eq_ok.mp hdecode
  obtain ⟨d, _, hrest⟩ := bind_eq_ok.mp hrest
  split_ifs at hrest with hmagic
  obtain ⟨ver, _, hrest⟩ := bind_eq_ok.mp hrest
  split_ifs at hrest with hver
  obtain ⟨msgType, _, hrest⟩ := bind_eq_ok.mp hrest
  obtain ⟨sender, _, hbody⟩ := bind_eq_ok.mp hrest
  exact ⟨msgType, sender, hbody⟩

theorem canonical_of_decode {m : Message} (hdecode : decode buf = .ok m) :
    Canonical m := by
  obtain ⟨msgType, sender, hbody⟩ := decBody_of_decode hdecode
  exact canonical_of_decBody hbody

/-! ## What the encoders write -/

theorem put_ok (front back bytes : List UInt8) (hoff : off = front.length)
    (hroom : bytes.length ≤ back.length) :
    ∃ rest, rest.length = back.length - bytes.length ∧
      put (front ++ back) off bytes = .ok (front ++ bytes ++ rest) :=
  writeBytes_append hoff hroom

theorem encUpdate_eq (buf : List UInt8) (off : ℕ) (u : Update) :
    encUpdate buf off u = put buf off (updateBytes u) := by
  have hid : u.nodeId.toList.length = 32 := u.nodeId.toList_length
  unfold encUpdate put updateBytes
  rw [writeBytes_bind _ _ (by simp [hid]), writeBytes_bind _ _ (by simp [hid]),
    writeBytes_bind _ _ (by simp [hid]), writeBytes_bind _ _ (by simp [hid]),
    writeBytes_bind _ _ (by simp [hid]), writeBytes_bind _ _ (by simp [hid]),
    writeBytes_writeBytes _ _ (by simp [hid])]

theorem encUpdateLoop_ok (front back : List UInt8) (updates : List Update)
    (hoff : off = front.length) (hroom : updates.length * 48 ≤ back.length) :
    ∃ rest, encUpdateLoop (front ++ back) off updates =
      .ok (front ++ updates.flatMap updateBytes ++ rest) := by
  induction updates generalizing off front back with
  | nil => exact ⟨back, by simp [encUpdateLoop]⟩
  | cons u others ih =>
      rw [List.length_cons] at hroom
      obtain ⟨middle, hmiddle, hput⟩ := put_ok front back (updateBytes u) hoff
        (by rw [updateBytes_length]; omega)
      rw [updateBytes_length] at hmiddle
      have hnext : off + swimUpdateSize = (front ++ updateBytes u).length := by
        rw [List.length_append, updateBytes_length, hoff]
        rfl
      obtain ⟨rest, hloop⟩ := ih (front ++ updateBytes u) middle hnext (by omega)
      refine ⟨rest, ?_⟩
      rw [encUpdateLoop, encUpdate_eq, hput, ok_bind, hloop]
      simp

theorem encUpdates_ok (front back : List UInt8) (updates : List Update) (hoff : off = front.length)
    (hroom : (updatesBytes updates).length ≤ back.length) :
    ∃ rest, encUpdates (front ++ back) off updates =
      .ok (front ++ updatesBytes updates ++ rest,
        (front ++ updatesBytes updates).length) := by
  rw [updatesBytes_length] at hroom
  obtain ⟨middle, hmiddle, hput⟩ := put_ok front back [UInt8.ofNat updates.length] hoff
    (by rw [List.length_singleton]; omega)
  rw [List.length_singleton] at hmiddle
  have hnext : off + 1 = (front ++ [UInt8.ofNat updates.length]).length := by
    rw [List.length_append, List.length_singleton, hoff]
  obtain ⟨rest, hloop⟩ := encUpdateLoop_ok _ middle updates hnext (by omega)
  have hfits : ¬ (front ++ back).length < off + 1 + updates.length * swimUpdateSize := by
    rw [List.length_append, hoff]
    unfold swimUpdateSize
    omega
  refine ⟨rest, ?_⟩
  rw [encUpdates, if_neg hfits, hput, ok_bind, hloop, ok_bind, pure_eq_ok,
    List.length_append, updatesBytes_length, hoff]
  simp [updatesBytes, swimUpdateSize, Nat.add_assoc]

theorem encHeader_ok (msgType : UInt8) (sender : NodeId) (hroom : 36 ≤ buf.length) :
    ∃ rest, rest.length = buf.length - 36 ∧
      encHeader buf msgType sender = .ok (headerBytes msgType sender ++ rest, hdrSize) := by
  obtain ⟨rest, hrest, hput⟩ := put_ok [] buf (headerBytes msgType sender) rfl
    (by rw [headerBytes_length]; exact hroom)
  rw [headerBytes_length] at hrest
  refine ⟨rest, hrest, ?_⟩
  have hlong : ¬ buf.length < hdrSize := Nat.not_lt.mpr hroom
  rw [encHeader, if_neg hlong]
  unfold put at hput ⊢
  have hnext : 4 = 0 + [0x57, 0x44, formatVersion, msgType].length := rfl
  rw [writeBytes_bind _ _ hnext]
  rw [List.nil_append, List.length_nil, List.nil_append] at hput
  change writeBytes Fault.outOfBounds buf 0 (headerBytes msgType sender) >>= _ = _
  rw [hput]
  rfl

theorem header_end (msgType : UInt8) (sender : NodeId) :
    hdrSize = (headerBytes msgType sender).length :=
  (headerBytes_length msgType sender).symm

/-- The encoder writes exactly the bytes of the message. -/
def Writes (result : Written) (m : Message) : Prop :=
  ∃ rest, result = .ok (messageBytes m ++ rest, (messageBytes m).length)

theorem encodeSwim_writes (buf : List UInt8) {msgType : UInt8} (sender : NodeId)
    (target : Option NodeId) (updates : List Update)
    (htype : msgType = swimPing ∨ msgType = swimAck)
    (hroom : 37 + 48 * min updates.length maxUpdates ≤ buf.length) :
    Writes (encodeSwim buf msgType sender target updates)
      ⟨msgType, sender, NodeId.zero, updates.take maxUpdates, MsgId.zero, []⟩ := by
  obtain ⟨middle, hmiddle, hheader⟩ := encHeader_ok msgType sender
    (show 36 ≤ buf.length by omega)
  obtain ⟨rest, hupdates⟩ := encUpdates_ok (headerBytes msgType sender)
    middle (updates.take maxUpdates) (header_end msgType sender) (by
      rw [updatesBytes_length, List.length_take, Nat.min_comm]
      omega)
  have hother : ¬ msgType = swimPingReq := by
    rcases htype with rfl | rfl <;> decide
  refine ⟨rest, ?_⟩
  rw [encodeSwim, hheader, ok_bind]
  simp only
  rw [if_neg (by decide), if_neg hother, hupdates]
  simp only [messageBytes, tailBytes, if_pos htype]

theorem encodePingReq_writes (buf : List UInt8) (sender target : NodeId) (updates : List Update)
    (hroom : 69 + 48 * min updates.length maxUpdates ≤ buf.length) :
    Writes (encodeSwim buf swimPingReq sender (some target) updates)
      ⟨swimPingReq, sender, target, updates.take maxUpdates, MsgId.zero, []⟩ := by
  obtain ⟨middle, hmiddle, hheader⟩ := encHeader_ok swimPingReq sender
    (show 36 ≤ buf.length by omega)
  have htarget : target.toList.length = 32 := target.toList_length
  obtain ⟨second, hsecond, hput⟩ := put_ok (headerBytes swimPingReq sender) middle
    target.toList (header_end swimPingReq sender) (by omega)
  have hnext : hdrSize + nodeIdLen =
      (headerBytes swimPingReq sender ++ target.toList).length := by
    rw [List.length_append, headerBytes_length, htarget]
    rfl
  obtain ⟨rest, hupdates⟩ := encUpdates_ok _ second (updates.take maxUpdates) hnext (by
      rw [updatesBytes_length, List.length_take, Nat.min_comm]
      omega)
  have hlong : ¬ (headerBytes swimPingReq sender ++ middle).length <
      hdrSize + nodeIdLen := by
    rw [List.length_append, headerBytes_length]
    unfold hdrSize nodeIdLen
    omega
  refine ⟨rest, ?_⟩
  rw [encodeSwim, hheader, ok_bind]
  simp only
  rw [if_neg (by decide), if_pos trivial, if_neg hlong, hput, ok_bind, hupdates,
    List.append_assoc _ target.toList]
  rfl

theorem encodePtGossip_writes (buf : List UInt8) (sender : NodeId) (msgId : MsgId)
    {payload : List UInt8} (hpayload : payload.length ≤ maxPayload)
    (hroom : 54 + payload.length ≤ buf.length) :
    Writes (encodePtGossip buf sender msgId payload)
      ⟨ptGossip, sender, NodeId.zero, [], msgId, payload⟩ := by
  obtain ⟨middle, hmiddle, hheader⟩ := encHeader_ok ptGossip sender
    (show 36 ≤ buf.length by omega)
  have hid : msgId.toList.length = 16 := msgId.toList_length
  obtain ⟨rest, _, hput⟩ := put_ok (headerBytes ptGossip sender) middle
    (gossipBytes msgId payload) (header_end ptGossip sender) (by
      rw [gossipBytes_length]
      omega)
  have hlong : ¬ (headerBytes ptGossip sender ++ middle).length <
      hdrSize + msgIdLen + 2 + payload.length := by
    rw [List.length_append, headerBytes_length]
    unfold hdrSize msgIdLen
    omega
  refine ⟨rest, ?_⟩
  rw [encodePtGossip, if_neg (Nat.not_lt.mpr hpayload), hheader, ok_bind]
  simp only
  rw [if_neg (by decide), if_neg hlong]
  unfold put at hput ⊢
  rw [writeBytes_bind _ _ (show hdrSize + msgIdLen = hdrSize + msgId.toList.length by
    rw [hid]; rfl)]
  rw [writeBytes_bind _ _ (show hdrSize + msgIdLen + 2 = hdrSize + (msgId.toList ++
    wr16 (UInt16.ofNat payload.length)).length by
      rw [List.length_append, hid, wr16_length]; rfl)]
  rw [gossipBytes] at hput
  rw [hput, ok_bind, pure_eq_ok]
  refine congrArg Except.ok (Prod.ext rfl ?_)
  change hdrSize + msgIdLen + 2 + payload.length =
    (headerBytes ptGossip sender ++ gossipBytes msgId payload).length
  rw [List.length_append, headerBytes_length, gossipBytes_length, ← Nat.add_assoc]
  rfl

theorem encodePtCtrl_writes (buf : List UInt8) {msgType : UInt8} (sender : NodeId) (msgId : MsgId)
    (htype : msgType = ptIhave ∨ msgType = ptGraft) (hroom : 52 ≤ buf.length) :
    Writes (encodePtCtrl buf msgType sender msgId)
      ⟨msgType, sender, NodeId.zero, [], msgId, []⟩ := by
  obtain ⟨middle, hmiddle, hheader⟩ := encHeader_ok msgType sender
    (show 36 ≤ buf.length by omega)
  have hid : msgId.toList.length = 16 := msgId.toList_length
  obtain ⟨rest, _, hput⟩ := put_ok (headerBytes msgType sender) middle msgId.toList
    (header_end msgType sender) (by omega)
  have hlong : ¬ (headerBytes msgType sender ++ middle).length < hdrSize + msgIdLen := by
    rw [List.length_append, headerBytes_length]
    unfold hdrSize msgIdLen
    omega
  have hother : ¬ msgType = ptPrune := by
    rcases htype with rfl | rfl <;> decide
  refine ⟨rest, ?_⟩
  rw [encodePtCtrl, hheader, ok_bind]
  simp only
  rw [if_neg (by decide), if_neg hother, if_neg hlong, hput, ok_bind, pure_eq_ok]
  have hbytes : messageBytes ⟨msgType, sender, NodeId.zero, [], msgId, []⟩ =
      headerBytes msgType sender ++ msgId.toList := by
    rcases htype with rfl | rfl <;> rfl
  rw [hbytes, List.length_append, headerBytes_length, hid]
  rfl

theorem encodePrune_writes (buf : List UInt8) (sender : NodeId) (msgId : MsgId)
    (hroom : 36 ≤ buf.length) :
    Writes (encodePtCtrl buf ptPrune sender msgId)
      ⟨ptPrune, sender, NodeId.zero, [], MsgId.zero, []⟩ := by
  obtain ⟨rest, _, hheader⟩ := encHeader_ok ptPrune sender hroom
  have hbytes : messageBytes ⟨ptPrune, sender, NodeId.zero, [], MsgId.zero, []⟩ =
      headerBytes ptPrune sender := List.append_nil _
  refine ⟨rest, ?_⟩
  rw [encodePtCtrl, hheader, ok_bind, hbytes, headerBytes_length]
  rfl

/-- A buffer of the largest length holds every canonical message. -/
theorem reencode_writes {m : Message} (hcanonical : Canonical m)
    (hroom : buf.length = maxLen) : Writes (reencode buf m) m := by
  unfold maxLen at hroom
  cases hcanonical with
  | swim msgType sender updates htype hlength =>
      have hmin : min updates.length maxUpdates ≤ 8 := Nat.min_le_right _ _
      have hwrites := encodeSwim_writes buf sender none updates htype (by omega)
      rw [List.take_of_length_le hlength] at hwrites
      simpa only [reencode, if_pos htype] using hwrites
  | pingReq sender target updates hlength =>
      have hmin : min updates.length maxUpdates ≤ 8 := Nat.min_le_right _ _
      have hwrites := encodePingReq_writes buf sender target updates (by omega)
      rw [List.take_of_length_le hlength] at hwrites
      exact hwrites
  | gossip sender msgId payload hlength =>
      have hpayload : payload.length ≤ 256 := hlength
      have hfits : 54 + payload.length ≤ buf.length := by omega
      exact encodePtGossip_writes buf sender msgId hlength hfits
  | notice msgType sender msgId htype =>
      have hwrites := encodePtCtrl_writes buf sender msgId htype (by omega)
      rcases htype with rfl | rfl <;> exact hwrites
  | prune sender => exact encodePrune_writes buf sender MsgId.zero (by omega)

/-! ## The round trips -/

/-- The encoder succeeds, and what it wrote decodes to the message. -/
def RoundTrips (result : Written) (m : Message) : Prop :=
  ∃ out n, result = .ok (out, n) ∧ 0 < n ∧ decode (out.take n) = .ok m

theorem Writes.take {out : List UInt8} {n : ℕ} {m : Message} {result : Written}
    (hwrites : Writes result m) (hresult : result = .ok (out, n)) :
    out.take n = messageBytes m := by
  obtain ⟨rest, hrest⟩ := hwrites
  rw [hresult, Except.ok.injEq, Prod.mk.injEq] at hrest
  rw [hrest.1, hrest.2, List.take_left]

theorem Writes.roundTrips {result : Written} {m : Message} (hwrites : Writes result m)
    (hcanonical : Canonical m) : RoundTrips result m := by
  obtain ⟨rest, hrest⟩ := hwrites
  refine ⟨_, _, hrest, ?_, ?_⟩
  · rw [messageBytes, List.length_append, headerBytes_length]
    omega
  · rw [List.take_left]
    have hdecode := decode_messageBytes hcanonical []
    rwa [List.append_nil] at hdecode

/-- Both round trips of the codec: every message survives encoding into a
buffer which is large enough, and what the decoder accepts survives encoding
into a buffer of the largest length, with the same bytes each time. -/
theorem codec_round_trips :
    (∀ (buf : List UInt8) (msgType : UInt8) (sender : NodeId) (target : Option NodeId)
      (updates : List Update), msgType = swimPing ∨ msgType = swimAck →
      37 + 48 * min updates.length maxUpdates ≤ buf.length →
      RoundTrips (encodeSwim buf msgType sender target updates)
        ⟨msgType, sender, NodeId.zero, updates.take maxUpdates, MsgId.zero, []⟩) ∧
    (∀ (buf : List UInt8) (sender target : NodeId) (updates : List Update),
      69 + 48 * min updates.length maxUpdates ≤ buf.length →
      RoundTrips (encodeSwim buf swimPingReq sender (some target) updates)
        ⟨swimPingReq, sender, target, updates.take maxUpdates, MsgId.zero, []⟩) ∧
    (∀ (buf : List UInt8) (sender : NodeId) (msgId : MsgId) (payload : List UInt8),
      payload.length ≤ maxPayload → 54 + payload.length ≤ buf.length →
      RoundTrips (encodePtGossip buf sender msgId payload)
        ⟨ptGossip, sender, NodeId.zero, [], msgId, payload⟩) ∧
    (∀ (buf : List UInt8) (msgType : UInt8) (sender : NodeId) (msgId : MsgId),
      msgType = ptIhave ∨ msgType = ptGraft → 52 ≤ buf.length →
      RoundTrips (encodePtCtrl buf msgType sender msgId)
        ⟨msgType, sender, NodeId.zero, [], msgId, []⟩) ∧
    (∀ (buf : List UInt8) (sender : NodeId) (msgId : MsgId), 36 ≤ buf.length →
      RoundTrips (encodePtCtrl buf ptPrune sender msgId)
        ⟨ptPrune, sender, NodeId.zero, [], MsgId.zero, []⟩) ∧
    ∀ (bytes : List UInt8) (m : Message), decode bytes = .ok m →
      ∀ buf : List UInt8, buf.length = maxLen →
        RoundTrips (reencode buf m) m ∧
        ∀ out n m' (buf' : List UInt8), reencode buf m = .ok (out, n) →
          decode (out.take n) = .ok m' → buf'.length = maxLen →
          ∃ out', reencode buf' m' = .ok (out', n) ∧ out'.take n = out.take n := by
  refine ⟨fun buf msgType sender target updates htype hroom => ?_,
    fun buf sender target updates hroom => ?_,
    fun buf sender msgId payload hpayload hroom => ?_,
    fun buf msgType sender msgId htype hroom => ?_,
    fun buf sender msgId hroom => ?_,
    fun bytes m hdecode buf hroom => ?_⟩
  · exact (encodeSwim_writes buf sender target updates htype hroom).roundTrips
      (.swim _ _ _ htype (List.length_take_le _ _))
  · exact (encodePingReq_writes buf sender target updates hroom).roundTrips
      (.pingReq _ _ _ (List.length_take_le _ _))
  · exact (encodePtGossip_writes buf sender msgId hpayload hroom).roundTrips
      (.gossip _ _ _ hpayload)
  · exact (encodePtCtrl_writes buf sender msgId htype hroom).roundTrips (.notice _ _ _ htype)
  · exact (encodePrune_writes buf sender msgId hroom).roundTrips (.prune _)
  · have hcanonical := canonical_of_decode hdecode
    have hwrites := reencode_writes hcanonical hroom
    refine ⟨hwrites.roundTrips hcanonical, fun out n m' buf' hout hagain hroom' => ?_⟩
    have htake := hwrites.take hout
    have hsame := decode_messageBytes hcanonical []
    rw [List.append_nil, ← htake, hagain, Except.ok.injEq] at hsame
    subst hsame
    obtain ⟨rest', hrest'⟩ := reencode_writes hcanonical hroom'
    obtain ⟨rest, hrest⟩ := hwrites
    rw [hout, Except.ok.injEq, Prod.mk.injEq] at hrest
    refine ⟨_, by rw [hrest.2]; exact hrest', ?_⟩
    rw [htake, hrest.2, List.take_left]

/-- Ids which count up from a byte, and an update with every field set. -/
def nodeFrom (b : UInt8) : NodeId := List.Vector.ofFn fun i => b + UInt8.ofNat i.val

def msgFrom (b : UInt8) : MsgId := List.Vector.ofFn fun i => b + UInt8.ofNat i.val

def newsFrom (b : UInt8) : Update := ⟨nodeFrom b, 0x0100007f, 7946, Swim.suspect, 300, 2⟩

/-- A PING from a node which reports two others. -/
def reportingPing : List UInt8 :=
  [0x57, 0x44, formatVersion, swimPing] ++ (nodeFrom 1).toList ++ 2 ::
    [newsFrom 40, newsFrom 80].flatMap fun u => u.nodeId.toList ++
      [0x7f, 0, 0, 1, 0x0a, 0x1f, 1, 0, 0x2c, 1, 0, 0, 2, 0, 0, 0]

def tenReports : List Update := (List.range 10).map fun i => newsFrom (UInt8.ofNat (20 * i))

theorem codec_round_trips_reports :
    RoundTrips (encodeSwim (List.replicate 140 0) swimAck (nodeFrom 1) none
        [newsFrom 40, newsFrom 80])
      ⟨swimAck, nodeFrom 1, NodeId.zero, [newsFrom 40, newsFrom 80], MsgId.zero, []⟩ ∧
    RoundTrips (encodeSwim (List.replicate 453 0) swimPingReq (nodeFrom 1)
        (some (nodeFrom 2)) tenReports)
      ⟨swimPingReq, nodeFrom 1, nodeFrom 2, tenReports.take 8, MsgId.zero, []⟩ ∧
    RoundTrips (encodePtGossip (List.replicate 57 0) (nodeFrom 1) (msgFrom 9) [7, 8, 9])
      ⟨ptGossip, nodeFrom 1, NodeId.zero, [], msgFrom 9, [7, 8, 9]⟩ ∧
    RoundTrips (encodePtCtrl (List.replicate 52 0) ptGraft (nodeFrom 1) (msgFrom 9))
      ⟨ptGraft, nodeFrom 1, NodeId.zero, [], msgFrom 9, []⟩ ∧
    RoundTrips (encodePtCtrl (List.replicate 36 0) ptPrune (nodeFrom 1) (msgFrom 9))
      ⟨ptPrune, nodeFrom 1, NodeId.zero, [], MsgId.zero, []⟩ ∧
    RoundTrips (reencode (List.replicate maxLen 0)
        ⟨swimPing, nodeFrom 1, NodeId.zero, [newsFrom 40, newsFrom 80], MsgId.zero, []⟩)
      ⟨swimPing, nodeFrom 1, NodeId.zero, [newsFrom 40, newsFrom 80], MsgId.zero, []⟩ := by
  obtain ⟨hswim, hpingReq, hgossip, hnotice, hprune, haccepted⟩ := codec_round_trips
  have hdecode : decode reportingPing =
      .ok ⟨swimPing, nodeFrom 1, NodeId.zero, [newsFrom 40, newsFrom 80], MsgId.zero, []⟩ := by
    decide +kernel
  have hroom : 69 + 48 * min tenReports.length maxUpdates ≤
      (List.replicate 453 (0 : UInt8)).length := by
    rw [List.length_replicate]
    decide
  exact ⟨hswim _ _ _ none [newsFrom 40, newsFrom 80] (.inr rfl) (by decide +kernel),
    hpingReq _ _ _ tenReports hroom,
    hgossip _ _ _ [7, 8, 9] (by decide) (by decide +kernel),
    hnotice _ _ _ _ (.inr rfl) (by decide +kernel),
    hprune _ _ (msgFrom 9) (by decide +kernel),
    (haccepted reportingPing _ hdecode _ List.length_replicate).1⟩

end Dgram
end LibWake
