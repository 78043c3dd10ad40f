import LibWake.ByteBuffer
import LibWake.SwimModel

/-!
# The datagram codec

`wake_dgram_decode` and the three encoders over a byte buffer whose length is
the `len` or `cap` argument of the code.  Every byte access is checked, so a
read or write outside the buffer is an outcome of the model, apart from the
outcome that the datagram is malformed.
-/

namespace LibWake
namespace Dgram

open ByteBuffer

/-! ## Constants and data -/

def formatVersion : UInt8 := 1
def hdrSize : ℕ := 36
def nodeIdLen : ℕ := 32
def msgIdLen : ℕ := 16
def swimUpdateSize : ℕ := 48
def maxUpdates : ℕ := 8
def maxPayload : ℕ := 256
def maxLen : ℕ := 1024

def swimPing : UInt8 := 0
def swimAck : UInt8 := 1
def swimPingReq : UInt8 := 2
def ptGossip : UInt8 := 3
def ptIhave : UInt8 := 4
def ptGraft : UInt8 := 5
def ptPrune : UInt8 := 6

abbrev NodeId := List.Vector UInt8 nodeIdLen
abbrev MsgId := List.Vector UInt8 msgIdLen
abbrev Update := Swim.Update NodeId

def NodeId.zero : NodeId := List.Vector.replicate nodeIdLen 0
def MsgId.zero : MsgId := List.Vector.replicate msgIdLen 0

/-- `wake_dgram_t`; `n_updates` and `payload_len` are the lengths of the lists. -/
structure Message where
  msgType : UInt8
  senderId : NodeId
  targetId : NodeId
  updates : List Update
  msgId : MsgId
  payload : List UInt8
  deriving DecidableEq

/-- The decoded message before its tail is read. -/
abbrev Message.header (msgType : UInt8) (senderId : NodeId) : Message where
  msgType := msgType
  senderId := senderId
  targetId := NodeId.zero
  updates := []
  msgId := MsgId.zero
  payload := []

/-- The datagram is malformed, or the byte at an offset is not in the buffer. -/
inductive Fault where
  | malformed
  | outOfBounds (off : ℕ)
  deriving DecidableEq, Repr

/-! ## Scalars -/

/-- `rd16` on the two bytes which it reads. -/
def rd16 (a b : UInt8) : UInt16 :=
  a.toUInt16 ||| (b.toUInt16 <<< 8)

/-- `rd32` on the four bytes which it reads. -/
def rd32 (a b c d : UInt8) : UInt32 :=
  a.toUInt32 ||| (b.toUInt32 <<< 8) ||| (c.toUInt32 <<< 16) ||| (d.toUInt32 <<< 24)

/-- The bytes which `wr16` writes. -/
def wr16 (v : UInt16) : List UInt8 :=
  [(v &&& 0xff).toUInt8, ((v >>> 8) &&& 0xff).toUInt8]

/-- The bytes which `wr32` writes. -/
def wr32 (v : UInt32) : List UInt8 :=
  [(v &&& 0xff).toUInt8, ((v >>> 8) &&& 0xff).toUInt8,
    ((v >>> 16) &&& 0xff).toUInt8, ((v >>> 24) &&& 0xff).toUInt8]

/-! ## The decoder -/

section Decoder

variable (buf : List UInt8)

def byteAt (off : ℕ) : Except Fault UInt8 := readByte .outOfBounds buf off

def rd16At (off : ℕ) : Except Fault UInt16 := do
  let a ← byteAt buf off
  let b ← byteAt buf (off + 1)
  return rd16 a b

def rd32At (off : ℕ) : Except Fault UInt32 := do
  let a ← byteAt buf off
  let b ← byteAt buf (off + 1)
  let c ← byteAt buf (off + 2)
  let d ← byteAt buf (off + 3)
  return rd32 a b c d

/-- `dec_update`. -/
def decUpdate (off : ℕ) : Except Fault Update := do
  let nodeId ← readBytes .outOfBounds buf off nodeIdLen
  let addr ← rd32At buf (off + 32)
  let port ← rd16At buf (off + 36)
  let state ← byteAt buf (off + 38)
  let incarnation ← rd32At buf (off + 40)
  let piggybackCount ← rd16At buf (off + 44)
  return { nodeId, addr, port, state, incarnation, piggybackCount }

/-- The loop of `dec_updates`. -/
def decUpdateLoop : ℕ → ℕ → Except Fault (List Update)
  | 0, _ => return []
  | count + 1, off => do
      let u ← decUpdate buf off
      let rest ← decUpdateLoop count (off + swimUpdateSize)
      return u :: rest

/-- `dec_updates`: a missing count byte means no updates. -/
def decUpdates (off : ℕ) : Except Fault (List Update) :=
  if off ≥ buf.length then return []
  else do
    let count ← byteAt buf off
    if count.toNat > maxUpdates then throw .malformed
    else if off + 1 + count.toNat * swimUpdateSize > buf.length then throw .malformed
    else decUpdateLoop buf count.toNat (off + 1)

/-- The GOSSIP case of `wake_dgram_decode`. -/
def decGossip (out : Message) (off : ℕ) : Except Fault Message :=
  if buf.length < off + msgIdLen + 2 then throw .malformed
  else do
    let msgId ← readBytes .outOfBounds buf off msgIdLen
    let plen ← rd16At buf (off + msgIdLen)
    if plen.toNat > maxPayload then throw .malformed
    else if off + msgIdLen + 2 + plen.toNat > buf.length then throw .malformed
    else do
      let payload ← readBytes .outOfBounds buf (off + msgIdLen + 2) plen.toNat
      return { out with msgId := msgId, payload := payload.toList }

/-- The `switch` of `wake_dgram_decode`. -/
def decBody (out : Message) (off : ℕ) : Except Fault Message :=
  if out.msgType = swimPing ∨ out.msgType = swimAck then do
    let updates ← decUpdates buf off
    return { out with updates := updates }
  else if out.msgType = swimPingReq then
    if buf.length < off + nodeIdLen then throw .malformed
    else do
      let targetId ← readBytes .outOfBounds buf off nodeIdLen
      let updates ← decUpdates buf (off + nodeIdLen)
      return { out with targetId := targetId, updates := updates }
  else if out.msgType = ptGossip then decGossip buf out off
  else if out.msgType = ptIhave ∨ out.msgType = ptGraft then
    if buf.length < off + msgIdLen then throw .malformed
    else do
      let msgId ← readBytes .outOfBounds buf off msgIdLen
      return { out with msgId := msgId }
  else if out.msgType = ptPrune then return out
  else throw .malformed

/-- `wake_dgram_decode`. -/
def decode : Except Fault Message :=
  if buf.length < hdrSize then throw .malformed
  else do
    let w ← byteAt buf 0
    let d ← byteAt buf 1
    if w ≠ 0x57 ∨ d ≠ 0x44 then throw .malformed
    else do
      let ver ← byteAt buf 2
      if ver ≠ formatVersion then throw .malformed
      else do
        let msgType ← byteAt buf 3
        let senderId ← readBytes .outOfBounds buf 4 nodeIdLen
        decBody buf (.header msgType senderId) hdrSize

end Decoder

/-! ## The encoders

The result is the buffer afterwards and the number of bytes written, 0 when the
capacity is insufficient. -/

abbrev Written := Except Fault (List UInt8 × ℕ)

def put (buf : List UInt8) (off : ℕ) (bytes : List UInt8) : Except Fault (List UInt8) :=
  writeBytes .outOfBounds buf off bytes

/-- `enc_update`. -/
def encUpdate (buf : List UInt8) (off : ℕ) (u : Update) : Except Fault (List UInt8) := do
  let buf ← put buf off u.nodeId.toList
  let buf ← put buf (off + 32) (wr32 u.addr)
  let buf ← put buf (off + 36) (wr16 u.port)
  let buf ← put buf (off + 38) [u.state]
  let buf ← put buf (off + 39) [0]
  let buf ← put buf (off + 40) (wr32 u.incarnation)
  let buf ← put buf (off + 44) (wr16 u.piggybackCount)
  put buf (off + 46) (wr16 0)

/-- The loop of `wake_dgram_encode_swim`. -/
def encUpdateLoop (buf : List UInt8) (off : ℕ) : List Update → Except Fault (List UInt8)
  | [] => return buf
  | u :: rest => do
      let buf ← encUpdate buf off u
      encUpdateLoop buf (off + swimUpdateSize) rest

/-- `enc_header`. -/
def encHeader (buf : List UInt8) (msgType : UInt8) (sender : NodeId) : Written :=
  if buf.length < hdrSize then return (buf, 0)
  else do
    let buf ← put buf 0 [0x57, 0x44, formatVersion, msgType]
    let buf ← put buf 4 sender.toList
    return (buf, hdrSize)

/-- The count byte and the updates of `wake_dgram_encode_swim`. -/
def encUpdates (buf : List UInt8) (off : ℕ) (updates : List Update) : Written :=
  if buf.length < off + 1 + updates.length * swimUpdateSize then return (buf, 0)
  else do
    let buf ← put buf off [UInt8.ofNat updates.length]
    let buf ← encUpdateLoop buf (off + 1) updates
    return (buf, off + 1 + updates.length * swimUpdateSize)

/-- `wake_dgram_encode_swim`; at most 8 of the updates are sent. -/
def encodeSwim (buf : List UInt8) (msgType : UInt8) (sender : NodeId)
    (target : Option NodeId) (updates : List Update) : Written := do
  let (buf, off) ← encHeader buf msgType sender
  if off = 0 then return (buf, 0)
  else if msgType = swimPingReq then
    match target with
    | none => return (buf, 0)
    | some targetId =>
        if buf.length < off + nodeIdLen then return (buf, 0)
        else do
          let buf ← put buf off targetId.toList
          encUpdates buf (off + nodeIdLen) (updates.take maxUpdates)
  else encUpdates buf off (updates.take maxUpdates)

/-- `wake_dgram_encode_pt_gossip`. -/
def encodePtGossip (buf : List UInt8) (sender : NodeId) (msgId : MsgId)
    (payload : List UInt8) : Written :=
  if payload.length > maxPayload then return (buf, 0)
  else do
    let (buf, off) ← encHeader buf ptGossip sender
    if off = 0 then return (buf, 0)
    else if buf.length < off + msgIdLen + 2 + payload.length then return (buf, 0)
    else do
      let buf ← put buf off msgId.toList
      let buf ← put buf (off + msgIdLen) (wr16 (UInt16.ofNat payload.length))
      let buf ← put buf (off + msgIdLen + 2) payload
      return (buf, off + msgIdLen + 2 + payload.length)

/-- `wake_dgram_encode_pt_ctrl`. -/
def encodePtCtrl (buf : List UInt8) (msgType : UInt8) (sender : NodeId)
    (msgId : MsgId) : Written := do
  let (buf, off) ← encHeader buf msgType sender
  if off = 0 then return (buf, 0)
  else if msgType = ptPrune then return (buf, off)
  else if buf.length < off + msgIdLen then return (buf, 0)
  else do
    let buf ← put buf off msgId.toList
    return (buf, off + msgIdLen)

/-- Encode a decoded message with the matching encoder, as the fuzz target
does. -/
def reencode (buf : List UInt8) (m : Message) : Written :=
  if m.msgType = swimPing ∨ m.msgType = swimAck then
    encodeSwim buf m.msgType m.senderId none m.updates
  else if m.msgType = swimPingReq then
    encodeSwim buf m.msgType m.senderId (some m.targetId) m.updates
  else if m.msgType = ptGossip then encodePtGossip buf m.senderId m.msgId m.payload
  else encodePtCtrl buf m.msgType m.senderId m.msgId

end Dgram
end LibWake
