import LibWake.DgramRoundTrip

/-!
# The grammar of the decoder

The byte strings which a datagram may consist of, stated over the bytes alone,
and the proof that the decoder accepts exactly these.  Each part of the decoder
is shown to decide its part of the grammar: it succeeds under a condition on
the bytes and otherwise rejects, and neither way reads outside the buffer.
-/

namespace LibWake
namespace Dgram

open ByteBuffer Checked

/-! ## The grammar -/

/-- No bytes, or a count of at most 8 and that many updates of 48 bytes. -/
def UpdatesGrammar (rest : List UInt8) : Prop :=
  rest = [] ∨
    (rest.getD 0 0).toNat ≤ 8 ∧ 1 + 48 * (rest.getD 0 0).toNat ≤ rest.length

/-- What may follow the header of a datagram of a type. -/
def TailGrammar (msgType : UInt8) (rest : List UInt8) : Prop :=
  (msgType = swimPing ∨ msgType = swimAck) ∧ UpdatesGrammar rest ∨
  msgType = swimPingReq ∧ 32 ≤ rest.length ∧ UpdatesGrammar (rest.drop 32) ∨
  msgType = ptGossip ∧ 18 ≤ rest.length ∧
    leNat [rest.getD 16 0, rest.getD 17 0] ≤ 256 ∧
    18 + leNat [rest.getD 16 0, rest.getD 17 0] ≤ rest.length ∨
  (msgType = ptIhave ∨ msgType = ptGraft) ∧ 16 ≤ rest.length ∨
  msgType = ptPrune

/-- A datagram: `W`, `D`, the version, the type, the sender and the tail. -/
def Grammar (buf : List UInt8) : Prop :=
  36 ≤ buf.length ∧ buf.getD 0 0 = 0x57 ∧ buf.getD 1 0 = 0x44 ∧
    buf.getD 2 0 = 1 ∧ TailGrammar (buf.getD 3 0) (buf.drop 36)

instance (rest : List UInt8) : Decidable (UpdatesGrammar rest) := by
  unfold UpdatesGrammar
  infer_instance

instance (msgType : UInt8) (rest : List UInt8) :
    Decidable (TailGrammar msgType rest) := by
  unfold TailGrammar
  infer_instance

instance (buf : List UInt8) : Decidable (Grammar buf) := by
  unfold Grammar
  infer_instance

/-! ## Deciding a part of the grammar -/

/-- The computation succeeds under the condition, and otherwise rejects the
datagram as malformed. -/
def Decides {α : Type} (result : Except Fault α) (P : Prop) : Prop :=
  P ∧ (∃ x, result = .ok x) ∨ ¬ P ∧ result = .error .malformed

namespace Decides

variable {α β : Type} {result : Except Fault α} {P Q : Prop}

theorem accept (x : α) (hP : P) : Decides (.ok x) P := .inl ⟨hP, x, rfl⟩

theorem reject (hP : ¬ P) : Decides (.error .malformed : Except Fault α) P :=
  .inr ⟨hP, rfl⟩

theorem congr (hdecides : Decides result P) (hiff : P ↔ Q) : Decides result Q := by
  rwa [← propext hiff]

theorem guard {c : Prop} [Decidable c] (hdecides : ¬ c → Decides result P) :
    Decides (if c then .error .malformed else result) (¬ c ∧ P) := by
  by_cases hc : c
  · rw [if_pos hc]
    exact reject fun hboth => hboth.1 hc
  · rw [if_neg hc]
    exact (hdecides hc).congr ⟨fun hP => ⟨hc, hP⟩, fun hboth => hboth.2⟩

theorem bind (hdecides : Decides result P) (f : α → β) :
    Decides (result >>= fun x => .ok (f x)) P := by
  rcases hdecides with ⟨hP, x, rfl⟩ | ⟨hP, rfl⟩
  · exact accept (f x) hP
  · exact reject hP

theorem ok_iff (hdecides : Decides result P) : (∃ x, result = .ok x) ↔ P := by
  rcases hdecides with ⟨hP, hok⟩ | ⟨hP, rfl⟩
  · exact ⟨fun _ => hP, fun _ => hok⟩
  · simp [hP]

theorem ne_outOfBounds (hdecides : Decides result P) (off : ℕ) :
    result ≠ .error (.outOfBounds off) := by
  rcases hdecides with ⟨_, x, rfl⟩ | ⟨_, rfl⟩ <;> simp

end Decides

/-! ## Reads inside the buffer -/

variable {buf : List UInt8} {off : ℕ}

theorem byteAt_of_lt (hlt : off < buf.length) :
    byteAt buf off = .ok (buf.getD off 0) := by
  rw [byteAt, readByte, List.getD_eq_getElem?_getD, List.getElem?_eq_getElem hlt]
  rfl

theorem readBytes_of_le {n : ℕ} (hroom : off + n ≤ buf.length) :
    ∃ bytes : List.Vector UInt8 n, readBytes Fault.outOfBounds buf off n = .ok bytes ∧
      bytes.toList = (buf.drop off).take n := by
  rw [readBytes, dif_pos hroom]
  exact ⟨_, rfl, rfl⟩

theorem rd16At_of_lt (hroom : off + 2 ≤ buf.length) :
    rd16At buf off = .ok (rd16 (buf.getD off 0) (buf.getD (off + 1) 0)) := by
  rw [rd16At, byteAt_of_lt (by omega), ok_bind, byteAt_of_lt (by omega), ok_bind,
    pure_eq_ok]

theorem rd32At_of_lt (hroom : off + 4 ≤ buf.length) :
    rd32At buf off = .ok (rd32 (buf.getD off 0) (buf.getD (off + 1) 0)
      (buf.getD (off + 2) 0) (buf.getD (off + 3) 0)) := by
  rw [rd32At, byteAt_of_lt (by omega), ok_bind, byteAt_of_lt (by omega), ok_bind,
    byteAt_of_lt (by omega), ok_bind, byteAt_of_lt (by omega), ok_bind, pure_eq_ok]

theorem decUpdate_of_le (hroom : off + 48 ≤ buf.length) :
    ∃ u, decUpdate buf off = .ok u := by
  obtain ⟨nodeId, hnodeId, -⟩ :=
    @readBytes_of_le buf off nodeIdLen (by unfold nodeIdLen; omega)
  rw [decUpdate, hnodeId, ok_bind, rd32At_of_lt (by omega), ok_bind,
    rd16At_of_lt (by omega), ok_bind, byteAt_of_lt (by omega), ok_bind,
    rd32At_of_lt (by omega), ok_bind, rd16At_of_lt (by omega), ok_bind]
  exact ⟨_, rfl⟩

theorem decUpdateLoop_of_le {count : ℕ}
    (hroom : off + count * swimUpdateSize ≤ buf.length) :
    ∃ updates, decUpdateLoop buf count off = .ok updates := by
  induction count generalizing off with
  | zero => exact ⟨[], rfl⟩
  | succ count ih =>
      have hsize : swimUpdateSize = 48 := rfl
      rw [Nat.succ_mul] at hroom
      obtain ⟨u, hu⟩ := @decUpdate_of_le buf off (by omega)
      obtain ⟨rest, hrest⟩ := @ih (off + swimUpdateSize) (by omega)
      rw [decUpdateLoop, hu, ok_bind, hrest, ok_bind]
      exact ⟨u :: rest, rfl⟩

theorem getD_drop (n i : ℕ) : (buf.drop n).getD i 0 = buf.getD (n + i) 0 := by
  simp [List.getD_eq_getElem?_getD]

/-! ## The parts of the decoder -/

theorem decUpdates_decides (buf : List UInt8) (off : ℕ) :
    Decides (decUpdates buf off) (UpdatesGrammar (buf.drop off)) := by
  unfold decUpdates UpdatesGrammar
  rw [getD_drop, Nat.add_zero, List.drop_eq_nil_iff, List.length_drop]
  by_cases hempty : buf.length ≤ off
  · rw [if_pos hempty]
    exact .accept [] (.inl hempty)
  · rw [if_neg hempty, byteAt_of_lt (by omega), ok_bind]
    generalize (buf.getD off 0).toNat = count
    have hloop : ¬ off + 1 + count * swimUpdateSize > buf.length →
        Decides (decUpdateLoop buf count (off + 1)) True := by
      intro hfits
      obtain ⟨updates, hupdates⟩ := decUpdateLoop_of_le (Nat.le_of_not_gt hfits)
      rw [hupdates]
      exact .accept updates trivial
    refine (Decides.guard fun _ => .guard hloop).congr ?_
    simp only [maxUpdates, swimUpdateSize, and_true]
    omega

theorem decGossip_decides (out : Message) (hoff : off ≤ buf.length) :
    Decides (decGossip buf out off)
      (18 ≤ (buf.drop off).length ∧
        leNat [(buf.drop off).getD 16 0, (buf.drop off).getD 17 0] ≤ 256 ∧
        18 + leNat [(buf.drop off).getD 16 0, (buf.drop off).getD 17 0] ≤
          (buf.drop off).length) := by
  rw [getD_drop, getD_drop, List.length_drop, ← rd16_toNat]
  have hlen : msgIdLen = 16 := rfl
  unfold decGossip
  by_cases hshort : buf.length < off + msgIdLen + 2
  · rw [if_pos hshort]
    exact .reject (by omega)
  · obtain ⟨msgId, hmsgId, -⟩ := @readBytes_of_le buf off msgIdLen (by omega)
    rw [if_neg hshort, hmsgId, ok_bind, rd16At_of_lt (by omega), ok_bind,
      show off + msgIdLen + 1 = off + 17 from rfl,
      show off + msgIdLen = off + 16 from rfl]
    generalize rd16 (buf.getD (off + 16) 0) (buf.getD (off + 17) 0) = plen
    have hpayload : ¬ off + 16 + 2 + plen.toNat > buf.length →
        Decides (do
          let payload ← readBytes Fault.outOfBounds buf (off + 16 + 2) plen.toNat
          return { out with msgId := msgId, payload := payload.toList }) True := by
      intro hfits
      obtain ⟨payload, hpayload, -⟩ := readBytes_of_le (Nat.le_of_not_gt hfits)
      rw [hpayload, ok_bind]
      exact .accept _ trivial
    refine (Decides.guard fun _ => .guard hpayload).congr ?_
    simp only [maxPayload, and_true]
    omega

/-! ## The `switch` -/

theorem tailGrammar_swim {msgType : UInt8} {rest : List UInt8}
    (htype : msgType = swimPing ∨ msgType = swimAck) :
    TailGrammar msgType rest ↔ UpdatesGrammar rest := by
  rcases htype with rfl | rfl <;>
    simp [TailGrammar, swimPing, swimAck, swimPingReq, ptGossip, ptIhave, ptGraft,
      ptPrune]

theorem tailGrammar_pingReq {rest : List UInt8} :
    TailGrammar swimPingReq rest ↔ 32 ≤ rest.length ∧ UpdatesGrammar (rest.drop 32) := by
  simp [TailGrammar, swimPing, swimAck, swimPingReq, ptGossip, ptIhave, ptGraft, ptPrune]

theorem tailGrammar_gossip {rest : List UInt8} :
    TailGrammar ptGossip rest ↔
      18 ≤ rest.length ∧ leNat [rest.getD 16 0, rest.getD 17 0] ≤ 256 ∧
        18 + leNat [rest.getD 16 0, rest.getD 17 0] ≤ rest.length := by
  simp [TailGrammar, swimPing, swimAck, swimPingReq, ptGossip, ptIhave, ptGraft, ptPrune]

theorem tailGrammar_notice {msgType : UInt8} {rest : List UInt8}
    (htype : msgType = ptIhave ∨ msgType = ptGraft) :
    TailGrammar msgType rest ↔ 16 ≤ rest.length := by
  rcases htype with rfl | rfl <;>
    simp [TailGrammar, swimPing, swimAck, swimPingReq, ptGossip, ptIhave, ptGraft,
      ptPrune]

theorem decBody_decides (out : Message) (hoff : off ≤ buf.length) :
    Decides (decBody buf out off) (TailGrammar out.msgType (buf.drop off)) := by
  unfold decBody
  by_cases hswim : out.msgType = swimPing ∨ out.msgType = swimAck
  · rw [if_pos hswim]
    exact ((decUpdates_decides buf off).bind _).congr (tailGrammar_swim hswim).symm
  rw [if_neg hswim]
  by_cases hreq : out.msgType = swimPingReq
  · rw [if_pos hreq]
    have htarget : ¬ buf.length < off + nodeIdLen →
        Decides (do
          let targetId ← readBytes Fault.outOfBounds buf off nodeIdLen
          let updates ← decUpdates buf (off + nodeIdLen)
          return { out with targetId := targetId, updates := updates })
          (UpdatesGrammar (buf.drop (off + nodeIdLen))) := by
      intro hroom
      obtain ⟨targetId, htargetId, -⟩ := readBytes_of_le (Nat.le_of_not_gt hroom)
      rw [htargetId, ok_bind]
      exact (decUpdates_decides buf _).bind _
    refine (Decides.guard htarget).congr ?_
    rw [hreq, tailGrammar_pingReq, List.drop_drop, List.length_drop]
    unfold nodeIdLen
    constructor
    · exact fun hboth => ⟨by omega, hboth.2⟩
    · exact fun hboth => ⟨by omega, hboth.2⟩
  rw [if_neg hreq]
  by_cases hgossip : out.msgType = ptGossip
  · rw [if_pos hgossip, hgossip]
    exact (decGossip_decides out hoff).congr tailGrammar_gossip.symm
  rw [if_neg hgossip]
  by_cases hnotice : out.msgType = ptIhave ∨ out.msgType = ptGraft
  · rw [if_pos hnotice]
    have hid : ¬ buf.length < off + msgIdLen →
        Decides (do
          let msgId ← readBytes Fault.outOfBounds buf off msgIdLen
          return { out with msgId := msgId }) True := by
      intro hroom
      obtain ⟨msgId, hmsgId, -⟩ := readBytes_of_le (Nat.le_of_not_gt hroom)
      rw [hmsgId, ok_bind]
      exact .accept _ trivial
    refine (Decides.guard hid).congr ?_
    rw [tailGrammar_notice hnotice, List.length_drop]
    simp only [msgIdLen, and_true]
    omega
  rw [if_neg hnotice]
  by_cases hprune : out.msgType = ptPrune
  · rw [if_pos hprune]
    exact .accept out (.inr (.inr (.inr (.inr hprune))))
  · rw [if_neg hprune]
    exact .reject (by unfold TailGrammar; tauto)

theorem decode_decides (buf : List UInt8) : Decides (decode buf) (Grammar buf) := by
  unfold decode Grammar
  by_cases hshort : buf.length < hdrSize
  · rw [if_pos hshort]
    exact .reject (by unfold hdrSize at hshort; omega)
  have hroom : 36 ≤ buf.length := Nat.le_of_not_gt hshort
  rw [if_neg hshort, byteAt_of_lt (by omega), ok_bind, byteAt_of_lt (by omega), ok_bind]
  have hbody : Decides (do
      let msgType ← byteAt buf 3
      let senderId ← readBytes Fault.outOfBounds buf 4 nodeIdLen
      decBody buf (.header msgType senderId) hdrSize)
      (TailGrammar (buf.getD 3 0) (buf.drop 36)) := by
    obtain ⟨senderId, hsenderId, -⟩ := @readBytes_of_le buf 4 nodeIdLen hroom
    rw [byteAt_of_lt (by omega), ok_bind, hsenderId, ok_bind]
    exact decBody_decides (.header (buf.getD 3 0) senderId) hroom
  have hversion : Decides (do
      let ver ← byteAt buf 2
      if ver ≠ formatVersion then throw .malformed
      else do
        let msgType ← byteAt buf 3
        let senderId ← readBytes .outOfBounds buf 4 nodeIdLen
        decBody buf (.header msgType senderId) hdrSize)
      (¬ buf.getD 2 0 ≠ formatVersion ∧ TailGrammar (buf.getD 3 0) (buf.drop 36)) := by
    rw [byteAt_of_lt (by omega), ok_bind]
    exact .guard fun _ => hbody
  refine (Decides.guard fun _ => hversion).congr ?_
  rw [not_or, not_not, not_not, not_not]
  exact ⟨fun h => ⟨hroom, h.1.1, h.1.2, h.2⟩, fun h => ⟨⟨h.2.1, h.2.2.1⟩, h.2.2.2⟩⟩

/-! ## The payload -/

/-- The payload of a GOSSIP is a slice of the buffer; no other type has one. -/
def PayloadInside (buf : List UInt8) (m : Message) : Prop :=
  if m.msgType = ptGossip then
    54 + m.payload.length ≤ buf.length ∧
      m.payload = (buf.drop 54).take m.payload.length
  else m.payload = []

theorem decGossip_payload {out m : Message} (hdecode : decGossip buf out off = .ok m) :
    off + 18 + m.payload.length ≤ buf.length ∧
      m.payload = (buf.drop (off + 18)).take m.payload.length := by
  unfold decGossip at hdecode
  split_ifs at hdecode with hshort
  obtain ⟨msgId, _, hrest⟩ := bind_eq_ok.mp hdecode
  obtain ⟨plen, _, hrest⟩ := bind_eq_ok.mp hrest
  split_ifs at hrest with hmany hlong
  obtain ⟨payload, hpayload, hm⟩ := bind_eq_ok.mp hrest
  obtain ⟨bytes, hbytes, hslice⟩ := readBytes_of_le (Nat.le_of_not_gt hlong)
  rw [hbytes, Except.ok.injEq] at hpayload
  rw [pure_eq_ok, Except.ok.injEq] at hm
  subst hpayload hm
  have hlength : bytes.toList.length = plen.toNat := bytes.toList_length
  refine ⟨?_, ?_⟩
  · rw [hlength]
    exact Nat.le_of_not_gt hlong
  · rw [hlength]
    exact hslice

theorem decBody_msgType {out m : Message} (hdecode : decBody buf out off = .ok m) :
    m.msgType = out.msgType := by
  unfold decBody at hdecode
  split_ifs at hdecode with hswim hreq hshort hgossip hnotice hshort hprune
  · obtain ⟨updates, _, hm⟩ := bind_eq_ok.mp hdecode
    rw [pure_eq_ok, Except.ok.injEq] at hm
    rw [← hm]
  · obtain ⟨target, _, hrest⟩ := bind_eq_ok.mp hdecode
    obtain ⟨updates, _, hm⟩ := bind_eq_ok.mp hrest
    rw [pure_eq_ok, Except.ok.injEq] at hm
    rw [← hm]
  · unfold decGossip at hdecode
    split_ifs at hdecode with hshort
    obtain ⟨msgId, _, hrest⟩ := bind_eq_ok.mp hdecode
    obtain ⟨plen, _, hrest⟩ := bind_eq_ok.mp hrest
    split_ifs at hrest with hmany hlong
    obtain ⟨payload, _, hm⟩ := bind_eq_ok.mp hrest
    rw [pure_eq_ok, Except.ok.injEq] at hm
    rw [← hm]
  · obtain ⟨msgId, _, hm⟩ := bind_eq_ok.mp hdecode
    rw [pure_eq_ok, Except.ok.injEq] at hm
    rw [← hm]
  · rw [pure_eq_ok, Except.ok.injEq] at hdecode
    rw [← hdecode]

theorem Canonical.updates_length_le {m : Message} (hcanonical : Canonical m) :
    m.updates.length ≤ 8 := by
  cases hcanonical with
  | swim _ _ _ _ hlength => exact hlength
  | pingReq _ _ _ hlength => exact hlength
  | gossip => exact Nat.zero_le 8
  | notice => exact Nat.zero_le 8
  | prune => exact Nat.zero_le 8

theorem Canonical.payload_eq_nil {m : Message} (hcanonical : Canonical m)
    (htype : m.msgType ≠ ptGossip) : m.payload = [] := by
  cases hcanonical with
  | gossip => exact absurd rfl htype
  | swim => rfl
  | pingReq => rfl
  | notice => rfl
  | prune => rfl

theorem payloadInside_of_decode {m : Message} (hdecode : decode buf = .ok m) :
    PayloadInside buf m := by
  unfold PayloadInside
  split_ifs with htype
  · obtain ⟨msgType, sender, hbody⟩ := decBody_of_decode hdecode
    have hsame : msgType = ptGossip := (decBody_msgType hbody).symm.trans htype
    subst hsame
    exact decGossip_payload hbody
  · exact (canonical_of_decode hdecode).payload_eq_nil htype

/-- The decoder never reads outside the buffer and accepts exactly the
datagrams of the grammar; what it returns holds at most 8 updates and a payload
inside the buffer. -/
theorem decode_accepts_grammar (buf : List UInt8) :
    (∀ off, decode buf ≠ .error (.outOfBounds off)) ∧
    ((∃ m, decode buf = .ok m) ↔ Grammar buf) ∧
    ∀ m, decode buf = .ok m → m.updates.length ≤ 8 ∧ PayloadInside buf m :=
  ⟨(decode_decides buf).ne_outOfBounds, (decode_decides buf).ok_iff,
    fun _ hdecode => ⟨(canonical_of_decode hdecode).updates_length_le,
      payloadInside_of_decode hdecode⟩⟩

/-- A GOSSIP of one payload byte with one byte of junk behind it. -/
def junkBehindGossip : List UInt8 :=
  [0x57, 0x44, 1, 3] ++ List.replicate 48 0 ++ [1, 0] ++ [9, 0xFF]

theorem decode_accepts_grammar_junkBehindGossip :
    ∃ m, decode junkBehindGossip = .ok m ∧ m.updates.length ≤ 8 ∧
      PayloadInside junkBehindGossip m := by
  obtain ⟨-, haccepts, hinside⟩ := decode_accepts_grammar junkBehindGossip
  obtain ⟨m, hm⟩ := haccepts.mpr (by decide)
  exact ⟨m, hm, hinside m hm⟩

end Dgram
end LibWake
