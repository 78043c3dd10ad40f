import LibWake.DgramRoundTrip

/-!
# Encoders and their capacity

Whatever the capacity, an encoder writes inside its buffer.  It refuses with 0 exactly when
the whole message does not fit, or when there is no message, and otherwise it has written
every byte of it.
-/

namespace LibWake
namespace Dgram

open ByteBuffer Checked

/-! ## Requests -/

/-- One call of an encoder with its arguments. -/
inductive Request where
  | swim (msgType : UInt8) (sender : NodeId) (target : Option NodeId) (updates : List Update)
  | ptGossip (sender : NodeId) (msgId : MsgId) (payload : List UInt8)
  | ptCtrl (msgType : UInt8) (sender : NodeId) (msgId : MsgId)

namespace Request

def encode (buf : List UInt8) : Request → Written
  | .swim msgType sender target updates => encodeSwim buf msgType sender target updates
  | .ptGossip sender msgId payload => encodePtGossip buf sender msgId payload
  | .ptCtrl msgType sender msgId => encodePtCtrl buf msgType sender msgId

/-- The type is one of the encoder. -/
def Typed : Request → Prop
  | .swim msgType _ _ _ => msgType = swimPing ∨ msgType = swimAck ∨ msgType = swimPingReq
  | .ptGossip _ _ _ => True
  | .ptCtrl msgType _ _ => msgType = ptIhave ∨ msgType = ptGraft ∨ msgType = ptPrune

/-- There is no such message: the PING_REQ target is missing, or the payload is too long. -/
def Unsendable : Request → Prop
  | .swim msgType _ target _ => msgType = swimPingReq ∧ target = none
  | .ptGossip _ _ payload => payload.length > maxPayload
  | .ptCtrl _ _ _ => False

/-- The bytes of a message: the header, and the tail for its type. -/
def encodedLength : Request → ℕ
  | .swim msgType _ _ updates =>
      hdrSize + (if msgType = swimPingReq then nodeIdLen else 0) + 1 +
        min updates.length maxUpdates * swimUpdateSize
  | .ptGossip _ _ payload => hdrSize + msgIdLen + 2 + payload.length
  | .ptCtrl msgType _ _ => hdrSize + (if msgType = ptPrune then 0 else msgIdLen)

/-- The message which the bytes stand for. -/
def message : Request → Message
  | .swim msgType sender target updates =>
      { msgType := msgType
        senderId := sender
        targetId := if msgType = swimPingReq then target.getD NodeId.zero else NodeId.zero
        updates := updates.take maxUpdates
        msgId := MsgId.zero
        payload := [] }
  | .ptGossip sender msgId payload =>
      ⟨Dgram.ptGossip, sender, NodeId.zero, [], msgId, payload⟩
  | .ptCtrl msgType sender msgId =>
      { msgType := msgType
        senderId := sender
        targetId := NodeId.zero
        updates := []
        msgId := if msgType = ptPrune then MsgId.zero else msgId
        payload := [] }

end Request

/-! ## The length of the buffer -/

theorem put_length {buf out : List UInt8} {off : ℕ} {bytes : List UInt8}
    (hput : put buf off bytes = .ok out) : out.length = buf.length := by
  unfold put writeBytes at hput
  split_ifs at hput with hroom
  obtain rfl := Except.ok.inj hput
  simp only [List.length_append, List.length_take, List.length_drop]
  omega

theorem encHeader_length {buf out : List UInt8} {msgType : UInt8} {sender : NodeId} {off : ℕ}
    (hheader : encHeader buf msgType sender = .ok (out, off)) : out.length = buf.length := by
  unfold encHeader at hheader
  split_ifs at hheader with hshort
  · obtain ⟨rfl, -⟩ := Prod.mk.inj (Except.ok.inj hheader)
    rfl
  · obtain ⟨front, hfront, hrest⟩ := bind_eq_ok.mp hheader
    obtain ⟨back, hback, hout⟩ := bind_eq_ok.mp hrest
    obtain ⟨rfl, -⟩ := Prod.mk.inj (Except.ok.inj hout)
    rw [put_length hback, put_length hfront]

theorem encUpdateLoop_length {buf out : List UInt8} {off : ℕ} {updates : List Update}
    (hloop : encUpdateLoop buf off updates = .ok out) : out.length = buf.length := by
  induction updates generalizing buf off with
  | nil => rw [Except.ok.inj hloop]
  | cons u rest ih =>
      obtain ⟨next, hnext, hrest⟩ := bind_eq_ok.mp hloop
      rw [encUpdate_eq] at hnext
      rw [ih hrest, put_length hnext]

theorem encUpdates_length {buf out : List UInt8} {off n : ℕ} {updates : List Update}
    (hupdates : encUpdates buf off updates = .ok (out, n)) : out.length = buf.length := by
  unfold encUpdates at hupdates
  split_ifs at hupdates with hshort
  · obtain ⟨rfl, -⟩ := Prod.mk.inj (Except.ok.inj hupdates)
    rfl
  · obtain ⟨front, hfront, hrest⟩ := bind_eq_ok.mp hupdates
    obtain ⟨back, hback, hout⟩ := bind_eq_ok.mp hrest
    obtain ⟨rfl, -⟩ := Prod.mk.inj (Except.ok.inj hout)
    rw [encUpdateLoop_length hback, put_length hfront]

/-- Behind the header an encoder works on a buffer of the same length. -/
theorem length_of_encHeader_bind {buf out : List UInt8} {msgType : UInt8} {sender : NodeId}
    {n : ℕ} {rest : List UInt8 × ℕ → Written}
    (hencode : encHeader buf msgType sender >>= rest = .ok (out, n))
    (hrest : ∀ front off, rest (front, off) = .ok (out, n) → out.length = front.length) :
    out.length = buf.length := by
  obtain ⟨⟨front, off⟩, hheader, htail⟩ := bind_eq_ok.mp hencode
  rw [hrest front off htail, encHeader_length hheader]

theorem encodeSwim_length {buf out : List UInt8} {msgType : UInt8} {sender : NodeId}
    {target : Option NodeId} {updates : List Update} {n : ℕ}
    (hencode : encodeSwim buf msgType sender target updates = .ok (out, n)) :
    out.length = buf.length := by
  refine length_of_encHeader_bind hencode fun front off htail => ?_
  simp only at htail
  split_ifs at htail with hzero hreq hshort
  · rw [(Prod.mk.inj (Except.ok.inj htail)).1]
  · cases target with
    | none => rw [(Prod.mk.inj (Except.ok.inj htail)).1]
    | some targetId => rw [(Prod.mk.inj (Except.ok.inj htail)).1]
  · cases target with
    | none => rw [(Prod.mk.inj (Except.ok.inj htail)).1]
    | some targetId =>
        obtain ⟨next, hput, hupdates⟩ := bind_eq_ok.mp htail
        rw [encUpdates_length hupdates, put_length hput]
  · exact encUpdates_length htail

theorem encodePtGossip_length {buf out : List UInt8} {sender : NodeId} {msgId : MsgId}
    {payload : List UInt8} {n : ℕ}
    (hencode : encodePtGossip buf sender msgId payload = .ok (out, n)) :
    out.length = buf.length := by
  unfold encodePtGossip at hencode
  split_ifs at hencode with hlong
  · rw [(Prod.mk.inj (Except.ok.inj hencode)).1]
  · refine length_of_encHeader_bind hencode fun front off htail => ?_
    simp only at htail
    split_ifs at htail with hzero hshort
    · rw [(Prod.mk.inj (Except.ok.inj htail)).1]
    · rw [(Prod.mk.inj (Except.ok.inj htail)).1]
    · obtain ⟨first, hfirst, hrest⟩ := bind_eq_ok.mp htail
      obtain ⟨second, hsecond, hrest⟩ := bind_eq_ok.mp hrest
      obtain ⟨third, hthird, hout⟩ := bind_eq_ok.mp hrest
      obtain ⟨rfl, -⟩ := Prod.mk.inj (Except.ok.inj hout)
      rw [put_length hthird, put_length hsecond, put_length hfirst]

theorem encodePtCtrl_length {buf out : List UInt8} {msgType : UInt8} {sender : NodeId}
    {msgId : MsgId} {n : ℕ}
    (hencode : encodePtCtrl buf msgType sender msgId = .ok (out, n)) :
    out.length = buf.length := by
  refine length_of_encHeader_bind hencode fun front off htail => ?_
  simp only at htail
  split_ifs at htail with hzero hprune hshort
  · rw [(Prod.mk.inj (Except.ok.inj htail)).1]
  · rw [(Prod.mk.inj (Except.ok.inj htail)).1]
  · rw [(Prod.mk.inj (Except.ok.inj htail)).1]
  · obtain ⟨next, hput, hout⟩ := bind_eq_ok.mp htail
    obtain ⟨rfl, -⟩ := Prod.mk.inj (Except.ok.inj hout)
    exact put_length hput

theorem encode_length {request : Request} {buf out : List UInt8} {n : ℕ}
    (hencode : request.encode buf = .ok (out, n)) : out.length = buf.length := by
  cases request with
  | swim msgType sender target updates => exact encodeSwim_length hencode
  | ptGossip sender msgId payload => exact encodePtGossip_length hencode
  | ptCtrl msgType sender msgId => exact encodePtCtrl_length hencode

/-! ## Refusals -/

/-- The encoder returns 0 and has written nothing outside its buffer. -/
def Refuses (result : Written) : Prop := ∃ out, result = .ok (out, 0)

theorem encHeader_short {buf : List UInt8} (hshort : buf.length < 36) (msgType : UInt8)
    (sender : NodeId) : encHeader buf msgType sender = .ok (buf, 0) := by
  have hlt : buf.length < hdrSize := hshort
  rw [encHeader, if_pos hlt]
  rfl

/-- Without room for the tail an encoder refuses, whether the header fits or not. -/
theorem refuses_of_encHeader_bind {buf : List UInt8} {msgType : UInt8} {sender : NodeId}
    {rest : List UInt8 × ℕ → Written} (hzero : ∀ out, rest (out, 0) = .ok (out, 0))
    (hshort : ∀ front, front.length = buf.length → 36 ≤ front.length →
      Refuses (rest (front, hdrSize))) :
    Refuses (encHeader buf msgType sender >>= rest) := by
  by_cases hroom : 36 ≤ buf.length
  · obtain ⟨back, hback, hheader⟩ := encHeader_ok msgType sender hroom
    have hlength : (headerBytes msgType sender ++ back).length = buf.length := by
      rw [List.length_append, headerBytes_length, hback]
      omega
    rw [hheader, ok_bind]
    exact hshort _ hlength (hlength ▸ hroom)
  · rw [encHeader_short (Nat.lt_of_not_le hroom), ok_bind, hzero]
    exact ⟨buf, rfl⟩

theorem encUpdates_refuses {buf : List UInt8} {off : ℕ} {updates : List Update}
    (hshort : buf.length < off + 1 + updates.length * swimUpdateSize) :
    Refuses (encUpdates buf off updates) := by
  rw [encUpdates, if_pos hshort]
  exact ⟨buf, rfl⟩

theorem encodeSwim_refuses {buf : List UInt8} {msgType : UInt8} {sender : NodeId}
    {target : Option NodeId} {updates : List Update}
    (hrefuse : buf.length < (Request.swim msgType sender target updates).encodedLength ∨
      (Request.swim msgType sender target updates).Unsendable) :
    Refuses (encodeSwim buf msgType sender target updates) := by
  refine refuses_of_encHeader_bind (fun out => rfl) fun front hfront hroom => ?_
  simp only [Request.encodedLength, Request.Unsendable] at hrefuse
  simp only
  rw [if_neg (by decide)]
  by_cases hreq : msgType = swimPingReq
  · rw [if_pos hreq]
    simp only [if_pos hreq] at hrefuse
    cases target with
    | none => exact ⟨front, rfl⟩
    | some targetId =>
        simp only [reduceCtorEq, and_false, or_false] at hrefuse
        by_cases hlong : front.length < hdrSize + nodeIdLen
        · simp only [if_pos hlong]
          exact ⟨front, rfl⟩
        · obtain ⟨next, hput⟩ : ∃ next, put front hdrSize targetId.toList = .ok next := by
            refine ⟨_, if_pos ?_⟩
            rw [targetId.toList_length]
            exact Nat.le_of_not_lt hlong
          simp only [if_neg hlong, hput, ok_bind]
          apply encUpdates_refuses
          rw [put_length hput, hfront, List.length_take, Nat.min_comm]
          exact hrefuse
  · rw [if_neg hreq]
    simp only [hreq, if_false, false_and, or_false] at hrefuse
    apply encUpdates_refuses
    rw [hfront, List.length_take, Nat.min_comm]
    exact hrefuse

theorem encodePtGossip_refuses {buf : List UInt8} {sender : NodeId} {msgId : MsgId}
    {payload : List UInt8}
    (hrefuse : buf.length < (Request.ptGossip sender msgId payload).encodedLength ∨
      (Request.ptGossip sender msgId payload).Unsendable) :
    Refuses (encodePtGossip buf sender msgId payload) := by
  simp only [Request.encodedLength, Request.Unsendable] at hrefuse
  by_cases hlong : payload.length > maxPayload
  · rw [encodePtGossip, if_pos hlong]
    exact ⟨buf, rfl⟩
  · rw [encodePtGossip, if_neg hlong]
    refine refuses_of_encHeader_bind (fun out => rfl) fun front hfront hroom => ?_
    simp only
    rw [if_neg (by decide), if_pos (hfront ▸ hrefuse.resolve_right hlong)]
    exact ⟨front, rfl⟩

theorem encodePtCtrl_refuses {buf : List UInt8} {msgType : UInt8} {sender : NodeId}
    {msgId : MsgId}
    (hshort : buf.length < (Request.ptCtrl msgType sender msgId).encodedLength) :
    Refuses (encodePtCtrl buf msgType sender msgId) := by
  refine refuses_of_encHeader_bind (fun out => rfl) fun front hfront hroom => ?_
  simp only [Request.encodedLength] at hshort
  simp only
  rw [if_neg (by decide)]
  by_cases hprune : msgType = ptPrune
  · -- the header is the whole message
    rw [if_pos hprune, Nat.add_zero, ← hfront] at hshort
    exact absurd hroom (Nat.not_le_of_lt hshort)
  · rw [if_neg hprune, ← hfront] at hshort
    rw [if_neg hprune, if_pos hshort]
    exact ⟨front, rfl⟩

/-! ## Both answers -/

namespace Request

theorem encode_refuses {request : Request} {buf : List UInt8}
    (hrefuse : buf.length < request.encodedLength ∨ request.Unsendable) :
    Refuses (request.encode buf) := by
  cases request with
  | swim msgType sender target updates => exact encodeSwim_refuses hrefuse
  | ptGossip sender msgId payload => exact encodePtGossip_refuses hrefuse
  | ptCtrl msgType sender msgId =>
      exact encodePtCtrl_refuses (hrefuse.resolve_right fun hfalse => hfalse)

theorem encode_writes {request : Request} (htyped : request.Typed) {buf : List UInt8}
    (hroom : request.encodedLength ≤ buf.length) (hsendable : ¬ request.Unsendable) :
    Writes (request.encode buf) request.message := by
  cases request with
  | swim msgType sender target updates =>
      simp only [encodedLength, hdrSize, nodeIdLen, swimUpdateSize] at hroom
      by_cases hreq : msgType = swimPingReq
      · subst hreq
        cases target with
        | none => exact absurd ⟨rfl, rfl⟩ hsendable
        | some targetId =>
            rw [if_pos rfl] at hroom
            exact encodePingReq_writes buf sender targetId updates (by omega)
      · rw [if_neg hreq] at hroom
        have htype : msgType = swimPing ∨ msgType = swimAck := by
          rcases htyped with hping | hack | hother
          · exact .inl hping
          · exact .inr hack
          · exact absurd hother hreq
        rw [message, if_neg hreq]
        exact encodeSwim_writes buf sender target updates htype (by omega)
  | ptGossip sender msgId payload =>
      simp only [encodedLength, hdrSize, msgIdLen] at hroom
      exact encodePtGossip_writes buf sender msgId (Nat.le_of_not_lt hsendable) (by omega)
  | ptCtrl msgType sender msgId =>
      simp only [encodedLength, hdrSize, msgIdLen] at hroom
      by_cases hprune : msgType = ptPrune
      · subst hprune
        rw [if_pos rfl] at hroom
        exact encodePrune_writes buf sender msgId hroom
      · rw [if_neg hprune] at hroom
        have htype : msgType = ptIhave ∨ msgType = ptGraft := by
          rcases htyped with hihave | hgraft | hother
          · exact .inl hihave
          · exact .inr hgraft
          · exact absurd hother hprune
        rw [message, if_neg hprune]
        exact encodePtCtrl_writes buf sender msgId htype hroom

theorem messageBytes_length {request : Request} (htyped : request.Typed) :
    (messageBytes request.message).length = request.encodedLength := by
  rw [messageBytes, List.length_append, headerBytes_length]
  cases request with
  | swim msgType sender target updates =>
      have hupdates : (updatesBytes (updates.take maxUpdates)).length =
          1 + min updates.length maxUpdates * 48 := by
        rw [updatesBytes_length, List.length_take, Nat.min_comm]
      rcases htyped with rfl | rfl | rfl
      · change 36 + (updatesBytes (updates.take maxUpdates)).length =
          36 + 0 + 1 + min updates.length maxUpdates * 48
        omega
      · change 36 + (updatesBytes (updates.take maxUpdates)).length =
          36 + 0 + 1 + min updates.length maxUpdates * 48
        omega
      · change 36 + ((target.getD NodeId.zero).toList ++
          updatesBytes (updates.take maxUpdates)).length =
            36 + 32 + 1 + min updates.length maxUpdates * 48
        have htarget : (target.getD NodeId.zero).toList.length = 32 :=
          (target.getD NodeId.zero).toList_length
        rw [List.length_append]
        omega
  | ptGossip sender msgId payload =>
      change 36 + (gossipBytes msgId payload).length = 36 + 16 + 2 + payload.length
      rw [gossipBytes_length]
      omega
  | ptCtrl msgType sender msgId =>
      have hid : msgId.toList.length = 16 := msgId.toList_length
      rcases htyped with rfl | rfl | rfl
      · exact congrArg (36 + ·) hid
      · exact congrArg (36 + ·) hid
      · rfl

theorem encodedLength_le {request : Request} (hsendable : ¬ request.Unsendable) :
    request.encodedLength ≤ maxLen := by
  cases request with
  | swim msgType sender target updates =>
      have hmin : min updates.length maxUpdates ≤ 8 := Nat.min_le_right _ _
      simp only [encodedLength, hdrSize, nodeIdLen, swimUpdateSize, maxLen]
      split_ifs
      · omega
      · omega
  | ptGossip sender msgId payload =>
      have hpayload : payload.length ≤ 256 := Nat.le_of_not_lt hsendable
      simp only [encodedLength, hdrSize, msgIdLen, maxLen]
      omega
  | ptCtrl msgType sender msgId =>
      simp only [encodedLength]
      split_ifs
      · decide
      · decide

end Request

/-- Every encoder, with every argument and every capacity: it writes inside the buffer only;
it returns 0 exactly when the capacity is below the length of the message or there is no such
message; and otherwise it returns that length, at most `WAKE_DGRAM_MAX_LEN`, and has written
every byte of the message. -/
theorem encoders_respect_capacity (request : Request) (htyped : request.Typed)
    (buf : List UInt8) :
    ∃ out n, request.encode buf = .ok (out, n) ∧ out.length = buf.length ∧
      (n = 0 ↔ buf.length < request.encodedLength ∨ request.Unsendable) ∧
      (n ≠ 0 → n = request.encodedLength ∧ n ≤ maxLen ∧
        out.take n = messageBytes request.message) := by
  by_cases hrefuse : buf.length < request.encodedLength ∨ request.Unsendable
  · obtain ⟨out, hencode⟩ := Request.encode_refuses hrefuse
    exact ⟨out, 0, hencode, encode_length hencode, iff_of_true rfl hrefuse, absurd rfl⟩
  · obtain ⟨hroom, hsendable⟩ := not_or.mp hrefuse
    have hwrites := Request.encode_writes htyped (Nat.le_of_not_lt hroom) hsendable
    have ⟨rest, hencode⟩ := hwrites
    have hlength := Request.messageBytes_length htyped
    have hpos : (messageBytes request.message).length ≠ 0 := by
      rw [messageBytes, List.length_append, headerBytes_length]
      omega
    refine ⟨_, _, hencode, encode_length hencode, iff_of_false hpos hrefuse, fun _ => ?_⟩
    exact ⟨hlength, hlength ▸ Request.encodedLength_le hsendable, hwrites.take hencode⟩

/-- A PING_REQ with ten updates, a GOSSIP, and a GRAFT in a buffer which is one byte short. -/
theorem encoders_respect_capacity_reports :
    (∃ out, (Request.swim swimPingReq (nodeFrom 1) (some (nodeFrom 2)) tenReports).encode
        (List.replicate 460 0) = .ok (out, 453)) ∧
      (∃ out, (Request.ptGossip (nodeFrom 1) (msgFrom 9) [7, 8, 9]).encode
        (List.replicate 57 0) = .ok (out, 57)) ∧
      ∃ out, (Request.ptCtrl ptGraft (nodeFrom 1) (msgFrom 9)).encode
        (List.replicate 51 0) = .ok (out, 0) := by
  obtain ⟨out, n, hreq, -, hzero, hlength⟩ := encoders_respect_capacity
    (.swim swimPingReq (nodeFrom 1) (some (nodeFrom 2)) tenReports) (.inr (.inr rfl))
    (List.replicate 460 0)
  obtain ⟨out', n', hgossip, -, hzero', hlength'⟩ := encoders_respect_capacity
    (.ptGossip (nodeFrom 1) (msgFrom 9) [7, 8, 9]) trivial (List.replicate 57 0)
  obtain ⟨short, written, hgraft, -, hshort, -⟩ := encoders_respect_capacity
    (.ptCtrl ptGraft (nodeFrom 1) (msgFrom 9)) (.inr (.inl rfl)) (List.replicate 51 0)
  have hn : n = 453 := by
    refine (hlength fun h => ?_).1
    rcases hzero.mp h with hshort | ⟨-, hmissing⟩
    · exact absurd hshort (by decide +kernel)
    · cases hmissing
  have hn' : n' = 57 := by
    refine (hlength' fun h => ?_).1
    rcases hzero'.mp h with hshort | hlong
    · exact absurd hshort (by decide +kernel)
    · exact absurd hlong (Nat.not_lt.mpr (by decide))
  have hwritten : written = 0 := hshort.mpr (.inl (by decide +kernel))
  subst hn hn' hwritten
  exact ⟨⟨out, hreq⟩, ⟨out', hgossip⟩, short, hgraft⟩

end Dgram
end LibWake
