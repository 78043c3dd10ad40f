import LibWake.LazyRepair
import LibWake.PlumTreeDeadline
import LibWake.PlumTreeMesh

/-!
# One node in the repair of one message

A node's mark for a message is whether its cache has the message, and whom its pending table
names for it.  While neither is displaced by other messages, every packet for the message makes
the node react as a vertex of lazy repair does, a tick makes it ask or leaves it alone, and
nothing else touches its mark.
-/

namespace LibWake
namespace PlumTree

open LazyRepair (Mark Packet Reaction offers offer)

variable {Id Msg : Type}

/-! ## Marks and packets -/

def Envelope.packet (envelope : Envelope Id Msg) : Packet Id :=
  match envelope.message.msgType with
  | .gossip => .copy envelope.source envelope.message.target
  | .ihave => .notice envelope.source envelope.message.target
  | .graft => .request envelope.source envelope.message.target
  | .prune => .refusal envelope.source envelope.message.target

section Definitions

variable [DecidableEq Msg]

/-- The pending entries for the message. -/
def entriesFor (msgId : Msg) (pending : List (Option (Pending Id Msg))) :
    List (Pending Id Msg) :=
  pending.filterMap fun slot => slot.filter fun p => p.msgId = msgId

def markOf (msgId : Msg) (node : Node Id Msg) : Mark Id where
  informed := hasMsg node msgId
  wants := (entriesFor msgId node.pending).head?.map Pending.fromId

/-- The packets for the message among those of the network. -/
def packets (msgId : Msg) (envelopes : List (Envelope Id Msg)) : Multiset (Packet Id) :=
  ((envelopes.filter fun envelope => envelope.message.msgId = msgId).map Envelope.packet :
    List (Packet Id))

/-- The call is a tick. -/
def Call.isTick : Call Id Msg → Bool
  | .tick _ => true
  | _ => false

variable [DecidableEq Id]

/-- The call neither evicts the message from the cache nor displaces its announcement. -/
structure Remembers (msgId : Msg) (node : Node Id Msg) (call : Call Id Msg) : Prop where
  message : hasMsg node msgId = true → hasMsg (performCall node call).node msgId = true
  announcement : call.brings msgId = false → call.isTick = false →
    entriesFor msgId node.pending ≠ [] →
      entriesFor msgId (performCall node call).node.pending ≠ []

instance (msgId : Msg) (node : Node Id Msg) (call : Call Id Msg) :
    Decidable (Remembers msgId node call) :=
  decidable_of_iff
    ((hasMsg node msgId = true → hasMsg (performCall node call).node msgId = true) ∧
      (call.brings msgId = false → call.isTick = false →
        entriesFor msgId node.pending ≠ [] →
          entriesFor msgId (performCall node call).node.pending ≠ []))
    ⟨fun hand => ⟨hand.1, hand.2⟩, fun hremembers =>
      ⟨hremembers.message, hremembers.announcement⟩⟩

omit [DecidableEq Id] in
/-- The call is about the message. -/
def Call.concerns (msgId : Msg) : Call Id Msg → Bool
  | .recvIhave _ other _ => other = msgId
  | .recvGraft _ other _ => other = msgId
  | call => call.brings msgId

end Definitions

section Entries

variable [DecidableEq Msg] {msgId : Msg}

theorem mem_entriesFor {pending : List (Option (Pending Id Msg))} {p : Pending Id Msg} :
    p ∈ entriesFor msgId pending ↔ some p ∈ pending ∧ p.msgId = msgId := by
  rw [entriesFor, List.mem_filterMap]
  constructor
  · rintro ⟨slot, hslot, hfilter⟩
    obtain ⟨rfl, hid⟩ := Option.filter_eq_some_iff.mp hfilter
    exact ⟨hslot, of_decide_eq_true hid⟩
  · rintro ⟨hmem, hid⟩
    exact ⟨some p, hmem, Option.filter_eq_some_iff.mpr ⟨rfl, decide_eq_true hid⟩⟩

theorem length_entriesFor (pending : List (Option (Pending Id Msg))) :
    (entriesFor msgId pending).length = pendingFor pending msgId := by
  induction pending with
  | nil => rfl
  | cons slot rest ih =>
      rw [entriesFor, pendingFor] at ih ⊢
      rw [List.filterMap_cons, List.countP_cons, ← ih]
      cases slot with
      | none => rfl
      | some p =>
          by_cases hid : p.msgId = msgId
          · simp [Option.filter, hid]
          · simp [Option.filter, hid]

/-- Tables with at most one entry for the message have the same one when each entry of one is
in the other, and both or neither have any. -/
theorem entriesFor_eq_of_subset {few many : List (Option (Pending Id Msg))}
    (hmany : pendingFor many msgId ≤ 1) (hfew : pendingFor few msgId ≤ 1)
    (hsub : ∀ p, p ∈ entriesFor msgId few → p ∈ entriesFor msgId many)
    (hsome : entriesFor msgId many ≠ [] → entriesFor msgId few ≠ []) :
    entriesFor msgId few = entriesFor msgId many := by
  rw [← length_entriesFor] at hmany hfew
  cases hlist : entriesFor msgId many with
  | nil =>
      rw [hlist] at hsub
      exact List.eq_nil_iff_forall_not_mem.mpr fun p hp => List.not_mem_nil (hsub p hp)
  | cons p rest =>
      rw [hlist] at hmany hsub hsome
      obtain rfl : rest = [] := List.length_eq_zero_iff.mp (by
        rw [List.length_cons] at hmany
        omega)
      obtain ⟨q, tail, hq⟩ := List.exists_cons_of_ne_nil (hsome (List.cons_ne_nil p []))
      rw [hq] at hfew hsub ⊢
      obtain rfl : tail = [] := List.length_eq_zero_iff.mp (by
        rw [List.length_cons] at hfew
        omega)
      rw [List.mem_singleton.mp (hsub q List.mem_cons_self)]

theorem packets_append (front back : List (Envelope Id Msg)) :
    packets msgId (front ++ back) = packets msgId front + packets msgId back := by
  rw [packets, List.filter_append, List.map_append, ← Multiset.coe_add]
  rfl

theorem packets_cons_of_eq {envelope : Envelope Id Msg} (hid : envelope.message.msgId = msgId)
    (rest : List (Envelope Id Msg)) :
    packets msgId (envelope :: rest) = envelope.packet ::ₘ packets msgId rest := by
  simp [packets, hid]

theorem packets_singleton {envelope : Envelope Id Msg}
    (hid : envelope.message.msgId = msgId) :
    packets msgId [envelope] = {envelope.packet} := by
  rw [packets_cons_of_eq hid]
  rfl

theorem packets_cons_of_ne {envelope : Envelope Id Msg} (hid : envelope.message.msgId ≠ msgId)
    (rest : List (Envelope Id Msg)) :
    packets msgId (envelope :: rest) = packets msgId rest := by
  simp [packets, hid]

theorem packets_eq_zero {envelopes : List (Envelope Id Msg)}
    (hnone : ∀ envelope ∈ envelopes, envelope.message.msgId ≠ msgId) :
    packets msgId envelopes = 0 := by
  rw [packets, List.filter_eq_nil_iff.mpr]
  · rfl
  · intro envelope hmem htrue
    exact hnone envelope hmem (of_decide_eq_true htrue)

theorem packets_perm {envelopes others : List (Envelope Id Msg)}
    (hperm : envelopes.Perm others) : packets msgId envelopes = packets msgId others :=
  Multiset.coe_eq_coe.mpr ((hperm.filter _).map _)

end Entries

/-! ## Announcements -/

section Announcements

variable [DecidableEq Id] [DecidableEq Msg] {msgId : Msg} {node : Node Id Msg}

omit [DecidableEq Msg] in
theorem packet_announce (hnodup : (peerIds node).Nodup) (i : Id) (payload : List UInt8)
    {p : Peer Id} (hp : p ∈ node.peers) :
    (Envelope.mk i (announce msgId payload p)).packet =
      offer (fun w => peerLink node w = some .lazy) i p.nodeId := by
  have hlink := peerLink_eq_of_mem hnodup hp
  cases htype : p.linkType with
  | eager =>
      rw [htype] at hlink
      simp [announce, htype, Envelope.packet, offer, hlink]
  | lazy =>
      rw [htype] at hlink
      simp [announce, htype, Envelope.packet, offer, hlink]

omit [DecidableEq Id] [DecidableEq Msg] in
theorem announce_msgId (payload : List UInt8) (p : Peer Id) :
    (announce msgId payload p).msgId = msgId := by
  unfold announce
  split
  · rfl
  · rfl

/-- The announcements to some of the peers are the offers to their ids. -/
theorem packets_announce (hnodup : (peerIds node).Nodup) (i : Id) (payload : List UInt8)
    {peers : List (Peer Id)} (hsub : peers ⊆ node.peers) :
    packets msgId ((peers.map (announce msgId payload)).map (Envelope.mk i)) =
      offers (fun w => peerLink node w = some .lazy) i (peers.map Peer.nodeId) := by
  have hall : ∀ envelope ∈ (peers.map (announce msgId payload)).map (Envelope.mk i),
      decide (envelope.message.msgId = msgId) = true := by
    intro envelope hmem
    obtain ⟨s, hs, rfl⟩ := List.mem_map.mp hmem
    obtain ⟨p, -, rfl⟩ := List.mem_map.mp hs
    exact decide_eq_true (announce_msgId payload p)
  rw [packets, List.filter_eq_self.mpr hall, offers, List.map_map, List.map_map, List.map_map]
  refine congrArg _ (List.map_congr_left fun p hp => ?_)
  exact packet_announce hnodup i payload (hsub hp)

end Announcements

/-! ## Calls about something else -/

section Calls

variable [DecidableEq Id] [DecidableEq Msg] {msgId : Msg} {node : Node Id Msg}
  {call : Call Id Msg}

omit [DecidableEq Id] in
theorem mem_pendingAdd_or {other : Msg} {fromId : Id} {now : UInt64} {p : Pending Id Msg}
    (hmem : some p ∈ (pendingAdd node other fromId now).pending) :
    p = ⟨other, fromId, now⟩ ∨ some p ∈ node.pending := by
  have hset : ∀ i, some p ∈ node.pending.set i (some ⟨other, fromId, now⟩) →
      p = ⟨other, fromId, now⟩ ∨ some p ∈ node.pending := by
    intro i hmem
    rcases List.mem_or_eq_of_mem_set hmem with hold | hnew
    · exact .inr hold
    · exact .inl (Option.some.inj hnew)
  unfold pendingAdd at hmem
  simp only at hmem
  split at hmem
  · exact hset _ hmem
  · split at hmem
    · exact hset _ hmem
    · split at hmem
      · exact hset _ hmem
      · exact .inr hmem

omit [DecidableEq Id] in
theorem Call.brings_of_not_concerns (hother : call.concerns msgId = false) :
    call.brings msgId = false := by
  cases call with
  | recvIhave => rfl
  | recvGraft => rfl
  | _ => exact hother

omit [DecidableEq Id] in
theorem learnedBy_of_not_brings (hother : call.brings msgId = false) :
    learnedBy msgId node call = [] := by
  cases call with
  | broadcast other payload now =>
      rw [Call.brings, decide_eq_false_iff_not] at hother
      exact if_neg hother
  | recvGossip fromId other payload now =>
      rw [Call.brings, decide_eq_false_iff_not] at hother
      exact if_neg fun hand => hother hand.1
  | _ => rfl

theorem hasMsg_of_not_brings (hwell : WellFormed node) (htables : TablesSound node)
    (hother : call.brings msgId = false)
    (hmsg : hasMsg (performCall node call).node msgId = true) : hasMsg node msgId = true := by
  cases hknown : hasMsg node msgId with
  | true => rfl
  | false =>
      rw [unknown_performCall hwell htables hknown (learnedBy_of_not_brings hother)] at hmsg
      cases hmsg

/-- A call about something else names no new source for the message. -/
theorem mem_entriesFor_performCall (hwell : WellFormed node) (htables : TablesSound node)
    (hother : call.concerns msgId = false) {p : Pending Id Msg}
    (hmem : p ∈ entriesFor msgId (performCall node call).node.pending) :
    p ∈ entriesFor msgId node.pending := by
  obtain ⟨hp, hid⟩ := mem_entriesFor.mp hmem
  refine mem_entriesFor.mpr ⟨?_, hid⟩
  cases call with
  | reset => cases List.eq_of_mem_replicate hp
  | addPeer nodeId now =>
      obtain ⟨peers, hpeers⟩ := addPeer_frame node nodeId now
      rw [performCall, hpeers] at hp
      exact hp
  | removePeer nodeId =>
      obtain ⟨peers, hpeers⟩ := removePeer_frame node nodeId
      rw [performCall, hpeers] at hp
      exact hp
  | broadcast other payload now =>
      rw [performCall, broadcast] at hp
      split_ifs at hp
      · exact hp
      · exact cacheInsert_pending node other payload now ▸ hp
  | recvGossip fromId other payload now =>
      rw [performCall] at hp
      cases hmsg : hasMsg node other with
      | true =>
          rw [recvGossip_of_known hmsg] at hp
          have hpending : (recvDuplicate (counted node) fromId other now).node.pending =
              node.pending := setLink_pending .lazy _ fromId now
          exact hpending ▸ hp
      | false =>
          rw [recvGossip_of_new hmsg, recvNew] at hp
          simp only [promoteEager, setLink_pending] at hp
          have hsingle : pendingFor (cacheInsert (counted node) other payload now).pending
              other ≤ 1 := by
            rw [cacheInsert_pending]
            exact htables.pending_single other
          obtain ⟨hold, -⟩ := (mem_pendingRemoveMsg hsingle p).mp hp
          exact cacheInsert_pending (counted node) other payload now ▸ hold
  | recvIhave fromId other now =>
      rw [performCall, recvIhave] at hp
      split_ifs at hp
      · exact hp
      · rcases mem_pendingAdd_or hp with rfl | hold
        · exact absurd hid (of_decide_eq_false hother)
        · exact hold
  | recvGraft fromId other now => exact (setLink_pending .eager node fromId now) ▸ hp
  | recvPrune fromId now => exact (setLink_pending .lazy node fromId now) ▸ hp
  | tick now =>
      obtain ⟨-, hpending, -⟩ := tick_spec hwell htables.pending_length
        htables.pending_count htables.cache_count now
      rw [performCall, hpending] at hp
      obtain ⟨slot, hslot, hfilter⟩ := List.mem_map.mp hp
      obtain ⟨rfl, -⟩ := Option.filter_eq_some_iff.mp hfilter
      exact hslot

theorem sends_not_concerns (hother : call.concerns msgId = false)
    (htick : call.isTick = false) {s : Send Id Msg}
    (hmem : s ∈ (performCall node call).sends) : s.msgId ≠ msgId := by
  cases call with
  | broadcast other payload now =>
      rw [performCall, broadcast] at hmem
      split_ifs at hmem with hempty
      · cases hmem
      · obtain ⟨p, -, rfl⟩ := List.mem_map.mp hmem
        rw [announce_msgId]
        intro heq
        have hnot : ¬ (other = msgId ∧ payload.length ≠ 0) := of_decide_eq_false hother
        exact hnot ⟨heq, hempty⟩
  | recvGossip fromId other payload now =>
      have hne : other ≠ msgId := of_decide_eq_false hother
      rw [performCall] at hmem
      cases hmsg : hasMsg node other with
      | true =>
          rw [recvGossip_of_known hmsg] at hmem
          obtain rfl := List.mem_singleton.mp hmem
          exact hne
      | false =>
          rw [recvGossip_of_new hmsg] at hmem
          obtain ⟨p, -, rfl⟩ := List.mem_map.mp hmem
          rw [announce_msgId]
          exact hne
  | recvGraft fromId other now =>
      have hne : other ≠ msgId := of_decide_eq_false hother
      obtain ⟨e, -, rfl⟩ := List.mem_map.mp hmem
      exact hne
  | tick now => cases htick
  | _ => cases hmem

omit [DecidableEq Id] in
theorem packets_sends_eq_zero {sends : List (Send Id Msg)} (i : Id)
    (hnone : ∀ s ∈ sends, s.msgId ≠ msgId) :
    packets msgId (sends.map (Envelope.mk i)) = 0 := by
  apply packets_eq_zero
  intro envelope hmem
  obtain ⟨s, hs, rfl⟩ := List.mem_map.mp hmem
  exact hnone s hs

omit [DecidableEq Id] in
theorem markOf_eq {after : Node Id Msg} (hmsg : hasMsg after msgId = hasMsg node msgId)
    (hentries : entriesFor msgId after.pending = entriesFor msgId node.pending) :
    markOf msgId after = markOf msgId node := by
  rw [markOf, markOf, hmsg, hentries]

theorem Remembers.hasMsg_eq (hremembers : Remembers msgId node call) (hwell : WellFormed node)
    (htables : TablesSound node) (hother : call.brings msgId = false) :
    hasMsg (performCall node call).node msgId = hasMsg node msgId :=
  Bool.eq_iff_iff.mpr ⟨hasMsg_of_not_brings hwell htables hother, hremembers.message⟩

/-- A call about something else leaves the mark alone. -/
theorem Remembers.markOf_eq (hremembers : Remembers msgId node call)
    (hwell : WellFormed node) (htables : TablesSound node)
    (hother : call.concerns msgId = false) (htick : call.isTick = false) :
    markOf msgId (performCall node call).node = markOf msgId node := by
  have hbrings := Call.brings_of_not_concerns hother
  refine PlumTree.markOf_eq (hremembers.hasMsg_eq hwell htables hbrings) ?_
  exact entriesFor_eq_of_subset (htables.pending_single msgId)
    ((htables.performCall hwell call).pending_single msgId)
    (fun p => mem_entriesFor_performCall hwell htables hother)
    (hremembers.announcement hbrings htick)

/-! ## Ticks -/

omit [DecidableEq Id] in
theorem entriesFor_filter (pending : List (Option (Pending Id Msg)))
    (keep : Pending Id Msg → Bool) :
    entriesFor msgId (pending.map (Option.filter keep)) =
      (entriesFor msgId pending).filter keep := by
  induction pending with
  | nil => rfl
  | cons slot rest ih =>
      rw [entriesFor] at ih ⊢
      rw [List.map_cons, List.filterMap_cons, ih, entriesFor, entriesFor, List.filterMap_cons]
      cases slot with
      | none => rfl
      | some p =>
          by_cases hkeep : keep p = true
          · by_cases hid : p.msgId = msgId
            · simp [Option.filter, hkeep, hid]
            · simp [Option.filter, hkeep, hid]
          · by_cases hid : p.msgId = msgId
            · simp [Option.filter, hkeep, hid]
            · simp [Option.filter, hkeep, hid]

omit [DecidableEq Id] in
theorem packets_grafts (i : Id) (now : UInt64) (pending : List (Option (Pending Id Msg))) :
    packets msgId ((grafts node now pending).map (Envelope.mk i)) =
      (((entriesFor msgId pending).filter (overdue node now)).map fun p =>
        Packet.request i p.fromId : List (Packet Id)) := by
  induction pending with
  | nil => rfl
  | cons slot rest ih =>
      rw [packets, grafts, entriesFor] at ih ⊢
      rw [List.filterMap_cons, List.filterMap_cons]
      cases slot with
      | none => exact ih
      | some p =>
          by_cases hdue : overdue node now p = true
          · by_cases hid : p.msgId = msgId
            · simp [Option.filter, hdue, hid, graftFor, Envelope.packet] at ih ⊢
              exact ih
            · simp [Option.filter, hdue, hid, graftFor] at ih ⊢
              exact ih
          · by_cases hid : p.msgId = msgId
            · simp [Option.filter, hdue, hid] at ih ⊢
              exact ih
            · simp [Option.filter, hdue, hid] at ih ⊢
              exact ih

/-- A tick makes the node ask the peer it had the announcement from, or leaves it alone. -/
theorem tick_reacts (hwell : WellFormed node) (htables : TablesSound node) {now : UInt64}
    (hremembers : Remembers msgId node (.tick now)) (adj : Id → List Id) (i : Id) :
    (markOf msgId (tick node now).2.node = markOf msgId node ∧
        packets msgId ((tick node now).2.sends.map (Envelope.mk i)) = 0) ∨
      (markOf msgId node).wants ≠ none ∧
        Reaction adj i (markOf msgId node) 0 (markOf msgId (tick node now).2.node)
          (packets msgId ((tick node now).2.sends.map (Envelope.mk i))) := by
  obtain ⟨hsends, hpending, -⟩ := tick_spec hwell htables.pending_length
    htables.pending_count htables.cache_count now
  have hmsg : hasMsg (tick node now).2.node msgId = hasMsg node msgId :=
    hremembers.hasMsg_eq hwell htables rfl
  have hsingle := htables.pending_single msgId
  rw [← length_entriesFor] at hsingle
  rw [hsends, packets_grafts, markOf, hmsg, hpending, entriesFor_filter, markOf]
  cases hlist : entriesFor msgId node.pending with
  | nil => exact .inl ⟨rfl, rfl⟩
  | cons p rest =>
      rw [hlist, List.length_cons] at hsingle
      obtain rfl : rest = [] := List.length_eq_zero_iff.mp (by omega)
      cases hdue : overdue node now p with
      | true =>
          right
          simp only [List.filter_cons, List.filter_nil, hdue, Bool.not_true, Bool.false_eq_true,
            if_true, if_false]
          exact ⟨Option.some_ne_none p.fromId, .ask p.fromId (hasMsg node msgId)⟩
      | false =>
          left
          simp [hdue]

/-! ## Origination -/

/-- A broadcast informs its node and offers the message to all peers. -/
theorem broadcast_originates (msgId : Msg) (hwell : WellFormed node) {payload : List UInt8}
    (hpayload : payload.length ≠ 0) (now : UInt64) (i : Id) :
    markOf msgId (broadcast node msgId payload now).node =
        ⟨true, (markOf msgId node).wants⟩ ∧
      packets msgId ((broadcast node msgId payload now).sends.map (Envelope.mk i)) =
        offers (fun w => peerLink node w = some .lazy) i (peerIds node) := by
  have hpeers : (cacheInsert node msgId payload now).peers = node.peers := by
    unfold cacheInsert
    split
    · rfl
    · rfl
  rw [broadcast, if_neg hpayload]
  constructor
  · have hmsg := hasMsg_cacheInsert hwell.cache_ne_nil msgId payload now
    simp only [markOf, cacheInsert_pending]
    exact congrArg (Mark.mk · _) hmsg
  · simp only [hpeers]
    exact packets_announce hwell.ids_nodup i payload (List.Subset.refl node.peers)

/-! ## Packets for the message -/

omit [DecidableEq Id] in
theorem markOf_informed (hmsg : hasMsg node msgId = true) :
    markOf msgId node = ⟨true, (markOf msgId node).wants⟩ := by
  rw [markOf, hmsg]

omit [DecidableEq Id] in
theorem markOf_uninformed (hmsg : hasMsg node msgId = false) :
    markOf msgId node = ⟨false, (markOf msgId node).wants⟩ := by
  rw [markOf, hmsg]

theorem gossip_reacts (hwell : WellFormed node) (htables : TablesSound node)
    {adj : Id → List Id} {i : Id} (hpeers : peerIds node = adj i) (u : Id)
    (payload : List UInt8) (now : UInt64) :
    Reaction adj i (markOf msgId node) {.copy u i}
      (markOf msgId (recvGossip node u msgId payload now).2.node)
      (packets msgId ((recvGossip node u msgId payload now).2.sends.map (Envelope.mk i))) := by
  cases hmsg : hasMsg node msgId with
  | true =>
      rw [recvGossip_of_known hmsg]
      have hsame : markOf msgId (recvDuplicate (counted node) u msgId now).node =
          markOf msgId node := by
        apply markOf_eq
        · exact congrArg (fun cache => (cacheFind cache msgId).isSome)
            (setLink_cache .lazy _ u now)
        · exact congrArg (entriesFor msgId) (setLink_pending .lazy _ u now)
      have hsent : packets msgId ((recvDuplicate (counted node) u msgId now).sends.map
          (Envelope.mk i)) = {.refusal i u} := by
        rw [recvDuplicate, List.map_singleton]
        exact packets_singleton rfl
      rw [hsame, hsent, markOf_informed hmsg]
      exact .refuse u _
  | false =>
      rw [recvGossip_of_new hmsg]
      have hknown : hasMsg (recvNew (counted node) u msgId payload now).node msgId = true := by
        have hcached : 0 < (counted node).cache.length := hwell.cache_ne_nil
        rw [hasMsg, recvNew_cache]
        exact hasMsg_cacheInsert hcached msgId payload now
      have hentries : entriesFor msgId
          (recvNew (counted node) u msgId payload now).node.pending = [] := by
        have hsingle : pendingFor (cacheInsert (counted node) msgId payload now).pending
            msgId ≤ 1 := by
          rw [cacheInsert_pending]
          exact htables.pending_single msgId
        rw [recvNew]
        simp only [promoteEager, setLink_pending]
        refine List.eq_nil_iff_forall_not_mem.mpr fun p hp => ?_
        obtain ⟨hmem, hid⟩ := mem_entriesFor.mp hp
        exact ((mem_pendingRemoveMsg hsingle p).mp hmem).2 hid
      have hsent : packets msgId ((recvNew (counted node) u msgId payload now).sends.map
          (Envelope.mk i)) = offers (fun w => peerLink node w = some .lazy) i
            ((adj i).filter fun w => w ≠ u) := by
        have hnodup : (peerIds (counted node)).Nodup := hwell.ids_nodup
        rw [recvNew_sends hnodup,
          packets_announce hnodup i payload (List.filter_subset_self _), ← hpeers, peerIds,
          List.filter_map]
        rfl
      have hafter : markOf msgId (recvNew (counted node) u msgId payload now).node =
          ⟨true, none⟩ := by
        rw [markOf, hknown, hentries]
        rfl
      simp only [hafter, hsent]
      rw [markOf_uninformed hmsg]
      exact .accept u _ _

omit [DecidableEq Id] [DecidableEq Msg] in
/-- A full table has a victim. -/
theorem oldestPending_of_full {pending : List (Option (Pending Id Msg))}
    (hfull : pending.findIdx? Option.isNone = none) (hpos : 0 < pending.length) :
    ∃ i, oldestPending pending = some i := by
  obtain ⟨last, hlast⟩ : ∃ last, pending.length = last + 1 :=
    ⟨pending.length - 1, by omega⟩
  have hlt : last < pending.length := by omega
  cases hslot : pending[last] with
  | none =>
      have hnone := (List.findIdx?_eq_none_iff.mp hfull) pending[last] (List.getElem_mem hlt)
      rw [hslot] at hnone
      cases hnone
  | some p =>
      unfold oldestPending
      rw [hlast, List.range_succ, List.foldl_append, List.foldl_cons, List.foldl_nil,
        List.getElem?_eq_getElem hlt, hslot]
      simp only
      split
      · exact ⟨last, rfl⟩
      · rename_i o hbest
        split
        · exact ⟨last, rfl⟩
        · obtain ⟨j, hj, -⟩ := Option.bind_eq_some_iff.mp hbest
          exact ⟨j, hj⟩

omit [DecidableEq Id] in
theorem mem_pendingAdd_self (hpos : 0 < node.pending.length) (u : Id) (now : UInt64) :
    some ⟨msgId, u, now⟩ ∈ (pendingAdd node msgId u now).pending := by
  unfold pendingAdd
  simp only
  split
  · rename_i i hfind
    exact List.mem_set (List.findIdx?_eq_some_iff_getElem.mp hfind).1 _
  · split
    · rename_i i hfree
      exact List.mem_set (List.findIdx?_eq_some_iff_getElem.mp hfree).1 _
    · rename_i hfull
      obtain ⟨i, holdest⟩ := oldestPending_of_full hfull hpos
      rw [holdest]
      exact List.mem_set (oldestPending_lt holdest) _

theorem ihave_reacts (htables : TablesSound node) (hpos : 0 < node.pending.length)
    (adj : Id → List Id) (i u : Id) (now : UInt64) :
    Reaction adj i (markOf msgId node) {.notice u i}
      (markOf msgId (recvIhave node u msgId now).node) 0 := by
  cases hmsg : hasMsg node msgId with
  | true =>
      rw [recvIhave, if_pos hmsg, markOf_informed hmsg]
      exact .ignore u _
  | false =>
      have hnot : ¬ hasMsg node msgId = true := by rw [hmsg]; exact Bool.false_ne_true
      rw [recvIhave, if_neg hnot]
      have hsingle := (htables.pendingAdd msgId u now).pending_single msgId
      have hmem : ⟨msgId, u, now⟩ ∈ entriesFor msgId (pendingAdd node msgId u now).pending :=
        mem_entriesFor.mpr ⟨mem_pendingAdd_self hpos u now, rfl⟩
      rw [← length_entriesFor] at hsingle
      have hafter : markOf msgId (pendingAdd node msgId u now) = ⟨false, some u⟩ := by
        have hcache : hasMsg (pendingAdd node msgId u now) msgId = false := by
          rw [hasMsg, (pendingAdd_frame node msgId u now).2]
          exact hmsg
        rw [markOf, hcache]
        cases hlist : entriesFor msgId (pendingAdd node msgId u now).pending with
        | nil => rw [hlist] at hmem; cases hmem
        | cons p rest =>
            rw [hlist, List.length_cons] at hsingle
            obtain rfl : rest = [] := List.length_eq_zero_iff.mp (by omega)
            rw [hlist] at hmem
            rw [← List.mem_singleton.mp hmem]
            rfl
      simp only [hafter]
      rw [markOf_uninformed hmsg]
      exact .note u _

theorem graft_reacts (adj : Id → List Id) (i u : Id) (now : UInt64) :
    Reaction adj i (markOf msgId node) {.request u i}
      (markOf msgId (recvGraft node u msgId now).node)
      (packets msgId ((recvGraft node u msgId now).sends.map (Envelope.mk i))) := by
  have hsame : markOf msgId (recvGraft node u msgId now).node = markOf msgId node := by
    apply markOf_eq
    · exact congrArg (fun cache => (cacheFind cache msgId).isSome)
        (setLink_cache .eager _ u now)
    · exact congrArg (entriesFor msgId) (setLink_pending .eager _ u now)
  rw [hsame, recvGraft, promoteEager]
  simp only [setLink_cache]
  cases hfind : cacheFind node.cache msgId with
  | some e =>
      have hmsg : hasMsg node msgId = true := by rw [hasMsg, hfind]; rfl
      have hsent : packets msgId [(⟨i, ⟨.gossip, u, msgId, e.payload⟩⟩ : Envelope Id Msg)] =
          {.copy i u} := packets_singleton rfl
      rw [markOf_informed hmsg, Option.toList_some, List.map_singleton, List.map_singleton,
        hsent]
      exact .answer u _
  | none =>
      have hmsg : hasMsg node msgId = false := by rw [hasMsg, hfind]; rfl
      rw [markOf_uninformed hmsg]
      exact .unanswered u _

/-- Every packet for the message is one reaction of the node which it reaches. -/
theorem packet_reacts (hwell : WellFormed node) (htables : TablesSound node)
    (hpos : 0 < node.pending.length) {adj : Id → List Id} {envelope : Envelope Id Msg}
    (hpeers : peerIds node = adj envelope.message.target)
    (hid : envelope.message.msgId = msgId) (now : UInt64) :
    Reaction adj envelope.message.target (markOf msgId node) {envelope.packet}
      (markOf msgId (performCall node (envelope.call now)).node)
      (packets msgId ((performCall node (envelope.call now)).sends.map
        (Envelope.mk envelope.message.target))) := by
  obtain ⟨u, msgType, i, other, payload⟩ := envelope
  subst hid
  cases msgType with
  | gossip => exact gossip_reacts hwell htables hpeers u payload now
  | ihave => exact ihave_reacts htables hpos adj i u now
  | graft => exact graft_reacts adj i u now
  | prune =>
      have hsame : markOf other (recvPrune node u now).node = markOf other node := by
        apply markOf_eq
        · exact congrArg (fun cache => (cacheFind cache other).isSome)
            (setLink_cache .lazy _ u now)
        · exact congrArg (entriesFor other) (setLink_pending .lazy _ u now)
      have hsettle : Reaction adj i (markOf other node) {.refusal u i} (markOf other node) 0 :=
        .settle u _
      exact hsame.symm ▸ hsettle

end Calls

end PlumTree
end LibWake
