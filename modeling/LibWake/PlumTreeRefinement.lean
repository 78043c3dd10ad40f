import Mathlib.Data.List.InsertIdx
import LibWake.PushLazyPush
import LibWake.PlumTreeNetwork

/-!
# The network refines push-lazy-push

What the nodes hold and send for one message, seen as the abstract protocol: a
node is informed while the message is in its cache, and a link is cut at the end
where it is LAZY.  Every delivery of the network is one delivery of the abstract
protocol.
-/

namespace LibWake
namespace PlumTree

open PushLazyPush (Packet State push originate accept receive)

variable {Id Msg : Type}

/-! ## Packets and envelopes -/

/-- The envelope of a packet. -/
def envelope (msgId : Msg) (payload : List UInt8) : Packet Id → Envelope Id Msg
  | .gossip u v => ⟨u, ⟨.gossip, v, msgId, payload⟩⟩
  | .notice u v => ⟨u, ⟨.ihave, v, msgId, []⟩⟩
  | .prune u v => ⟨u, ⟨.prune, v, msgId, []⟩⟩

/-- The call of `deliver_fn` which made a link of the tree. -/
def arrival (msgId : Msg) (payload : List UInt8) (link : Id × Id) :
    Id × Delivery Id Msg :=
  (link.1, ⟨msgId, payload, link.2⟩)

theorem envelope_target (msgId : Msg) (payload : List UInt8) (packet : Packet Id) :
    (envelope msgId payload packet).message.target = packet.target := by
  cases packet <;> rfl

/-- The link type which stands for a cut or an uncut end. -/
def linkOf : Bool → Link
  | true => .lazy
  | false => .eager

theorem announce_eq (msgId : Msg) (payload : List UInt8) (v : Id) {p : Peer Id}
    {cut : Bool} (hlink : p.linkType = linkOf cut) :
    Envelope.mk v (announce msgId payload p) = envelope msgId payload
      (if cut then Packet.notice v p.nodeId else Packet.gossip v p.nodeId) := by
  cases cut with
  | true =>
      rw [announce, hlink]
      rfl
  | false =>
      rw [announce, hlink]
      rfl

/-! ## One node -/

section Node

variable [DecidableEq Msg]

/-- The state of node `i` is what the abstract state says of it. -/
structure Shows (adj : Id → List Id) (msgId : Msg) (s : State Id) (i : Id)
    (node : Node Id Msg) : Prop where
  wellFormed : WellFormed node
  peers : peerIds node = adj i
  informed : hasMsg node msgId = s.informed i
  links : ∀ p ∈ node.peers, p.linkType = linkOf (s.cut i p.nodeId)

variable {adj : Id → List Id} {msgId : Msg} {s : State Id} {i : Id}
  {node : Node Id Msg}

/-- Only the row of the node in the abstract state matters. -/
theorem Shows.congr (hshows : Shows adj msgId s i node) {s' : State Id}
    (hinformed : s'.informed i = s.informed i) (hcut : s'.cut i = s.cut i) :
    Shows adj msgId s' i node :=
  ⟨hshows.wellFormed, hshows.peers, by rw [hinformed, hshows.informed],
    by rw [hcut]; exact hshows.links⟩

/-- Only the peers and the cache of the node matter. -/
theorem Shows.of_kept (hshows : Shows adj msgId s i node) {after : Node Id Msg}
    (hkept : Kept node after) (hpeers : after.peers = node.peers)
    (hcache : after.cache = node.cache) : Shows adj msgId s i after := by
  refine ⟨hshows.wellFormed.kept hkept, ?_, ?_, ?_⟩
  · rw [hkept.peerIds, hshows.peers]
  · rw [hasMsg, hcache]
    exact hshows.informed
  · rw [hpeers]
    exact hshows.links

theorem Shows.sends (hshows : Shows adj msgId s i node) (payload : List UInt8)
    {peers : List (Peer Id)} (hsub : peers ⊆ node.peers) :
    (peers.map (announce msgId payload)).map (Envelope.mk i) =
      (push s i (peers.map Peer.nodeId)).map (envelope msgId payload) := by
  rw [push, List.map_map, List.map_map, List.map_map]
  apply List.map_congr_left
  intro p hp
  exact announce_eq msgId payload i (hshows.links p (hsub hp))

end Node

section Handlers

variable [DecidableEq Id] [DecidableEq Msg]
variable {adj : Id → List Id} {msgId : Msg} {s : State Id} {i : Id}
  {node : Node Id Msg}

theorem Shows.setLink (hshows : Shows adj msgId s i node) (u : Id) (now : UInt64)
    (cut : Bool) :
    Shows adj msgId (s.setCut i u cut) i (PlumTree.setLink (linkOf cut) node u now) := by
  have hkept := kept_setLink (linkOf cut) node u now
  refine ⟨hshows.wellFormed.kept hkept, ?_, ?_, ?_⟩
  · rw [hkept.peerIds, hshows.peers]
  · rw [hasMsg, setLink_cache]
    exact hshows.informed
  · intro p hp
    rw [setLink_peers _ hshows.wellFormed.ids_nodup] at hp
    obtain ⟨q, hq, rfl⟩ := List.mem_map.mp hp
    rw [touch_linkType, touch_nodeId, PushLazyPush.cut_setCut, hshows.links q hq]
    by_cases hqu : q.nodeId = u
    · rw [if_pos hqu, if_pos ⟨rfl, hqu⟩]
    · rw [if_neg hqu, if_neg fun hand => hqu hand.2]

theorem Shows.cacheInsert (hshows : Shows adj msgId s i node) (payload : List UInt8)
    (now : UInt64) :
    Shows adj msgId (s.inform i) i (PlumTree.cacheInsert node msgId payload now) := by
  have hkept := kept_cacheInsert node msgId payload now
  refine ⟨hshows.wellFormed.kept hkept, ?_, ?_, ?_⟩
  · rw [hkept.peerIds, hshows.peers]
  · rw [hasMsg_cacheInsert hshows.wellFormed.cache_ne_nil]
    exact (Function.update_self i true s.informed).symm
  · intro p hp
    refine hshows.links p ?_
    unfold PlumTree.cacheInsert at hp
    split at hp
    · exact hp
    · exact hp

theorem Shows.sends_others (hshows : Shows adj msgId s i node) (payload : List UInt8)
    (u : Id) :
    ((node.peers.filter fun p => p.nodeId ≠ u).map (announce msgId payload)).map
        (Envelope.mk i) =
      (push s i ((adj i).filter fun w => w ≠ u)).map (envelope msgId payload) := by
  rw [hshows.sends payload (List.filter_subset_self _), ← hshows.peers, peerIds,
    List.filter_map]
  rfl

theorem Shows.recvNew (hshows : Shows adj msgId s i node) (payload : List UInt8) (u : Id)
    (now : UInt64) :
    Shows adj msgId (accept adj s u i) i
        (PlumTree.recvNew node u msgId payload now).node ∧
      (PlumTree.recvNew node u msgId payload now).sends.map (Envelope.mk i) =
        (push ((s.inform i).setCut i u false) i ((adj i).filter fun w => w ≠ u)).map
          (envelope msgId payload) := by
  have hcached := hshows.cacheInsert payload now
  have hcancelled := hcached.of_kept (kept_pendingRemoveMsg _ msgId)
    (pendingRemoveMsg_frame _ _).1 (pendingRemoveMsg_frame _ _).2
  have hpromoted := hcancelled.setLink u now false
  exact ⟨hpromoted.congr rfl rfl, hpromoted.sends_others payload u⟩

end Handlers

/-! ## The network -/

section Network

variable [DecidableEq Id] [DecidableEq Msg]

/-- The network is in the state which the abstract state describes. -/
structure Refines (members : Finset Id) (adj : Id → List Id) (msgId : Msg)
    (payload : List UInt8) (net : Network Id Msg) (s : State Id) : Prop where
  shows : ∀ i ∈ members, Shows adj msgId s i (net.node i)
  inFlight : net.inFlight = s.inFlight.map (envelope msgId payload)
  sent : net.sent = s.sent.map (envelope msgId payload)
  delivered : net.delivered = (s.links.map (arrival msgId payload)).reverse

variable {members : Finset Id} {adj : Id → List Id} {msgId : Msg}
  {payload : List UInt8} {net next : Network Id Msg} {s s' : State Id}

/-- The outcome at one node, against a change of its row in the abstract state. -/
theorem Refines.absorb (hrefines : Refines members adj msgId payload net s) {v : Id}
    {outcome : Outcome Id Msg} (packets : List (Packet Id)) (links : List (Id × Id))
    (hshows : Shows adj msgId s' v outcome.node)
    (hsends : outcome.sends.map (Envelope.mk v) = packets.map (envelope msgId payload))
    (hdelivers : outcome.delivers.map (Prod.mk v) =
      (links.map (arrival msgId payload)).reverse)
    (hframe : ∀ i, i ≠ v → s'.informed i = s.informed i ∧ s'.cut i = s.cut i)
    (hinFlight : s'.inFlight = s.inFlight ++ packets)
    (hsent : s'.sent = s.sent ++ packets) (hlinks : s'.links = links ++ s.links) :
    Refines members adj msgId payload (net.absorb v outcome) s' := by
  refine ⟨?_, ?_, ?_, ?_⟩
  · intro i hi
    change Shows adj msgId s' i (Function.update net.node v outcome.node i)
    by_cases hiv : i = v
    · subst hiv
      rwa [Function.update_self]
    · rw [Function.update_of_ne hiv]
      exact (hrefines.shows i hi).congr (hframe i hiv).1 (hframe i hiv).2
  · change net.inFlight ++ outcome.sends.map (Envelope.mk v) = _
    rw [hrefines.inFlight, hsends, hinFlight, List.map_append]
  · change net.sent ++ outcome.sends.map (Envelope.mk v) = _
    rw [hrefines.sent, hsends, hsent, List.map_append]
  · change net.delivered ++ outcome.delivers.map (Prod.mk v) = _
    rw [hrefines.delivered, hdelivers, hlinks, List.map_append, List.reverse_append]

theorem Refines.recvGossip (hrefines : Refines members adj msgId payload net s)
    {u v : Id} (hv : v ∈ members) (now : UInt64) :
    Refines members adj msgId payload
      (net.absorb v (PlumTree.recvGossip (net.node v) u msgId payload now).2)
      (receive adj s (.gossip u v)) := by
  set received := { net.node v with messagesReceived := (net.node v).messagesReceived + 1 }
    with hreceived
  have hshows : Shows adj msgId s v received :=
    (hrefines.shows v hv).of_kept ⟨rfl, rfl, rfl, rfl⟩ rfl rfl
  have hinformed : hasMsg received msgId = s.informed v := hshows.informed
  unfold PlumTree.recvGossip receive
  simp only [← hreceived, hinformed]
  split_ifs
  · have hcounted : Shows adj msgId s v { received with
        duplicates := received.duplicates + 1
        prunesSent := received.prunesSent + 1 } :=
      hshows.of_kept ⟨rfl, rfl, rfl, rfl⟩ rfl rfl
    exact hrefines.absorb [.prune v u] []
      ((hcounted.setLink u now true).congr rfl rfl) rfl rfl
      (fun i hi => ⟨rfl, Function.update_of_ne hi _ _⟩) rfl rfl rfl
  · obtain ⟨hnode, hsends⟩ := hshows.recvNew payload u now
    exact hrefines.absorb _ [(v, u)] hnode hsends rfl
      (fun i hi => ⟨Function.update_of_ne hi _ _, Function.update_of_ne hi _ _⟩)
      rfl rfl rfl

theorem Refines.deliver (hadj : PushLazyPush.Neighbours members adj)
    (hrouted : s.Routed adj) (hrefines : Refines members adj msgId payload net s)
    {label : ℕ × UInt64} (hdeliver : net.deliver label = some next) :
    ∃ after, PushLazyPush.deliver adj s label.1 = some after ∧
      Refines members adj msgId payload next after := by
  obtain ⟨k, now⟩ := label
  obtain ⟨_, hget, rfl⟩ := Option.map_eq_some_iff.mp hdeliver
  rw [hrefines.inFlight, List.getElem?_map] at hget
  obtain ⟨packet, hpacket, rfl⟩ := Option.map_eq_some_iff.mp hget
  refine ⟨_, by rw [PushLazyPush.deliver, hpacket, Option.map_some], ?_⟩
  have hroute := hrouted packet (List.mem_of_getElem? hpacket)
  have herased : Refines members adj msgId payload
      { net with inFlight := net.inFlight.eraseIdx k }
      { s with inFlight := s.inFlight.eraseIdx k } := by
    refine ⟨fun i hi => (hrefines.shows i hi).congr rfl rfl, ?_, hrefines.sent,
      hrefines.delivered⟩
    change net.inFlight.eraseIdx k = _
    rw [hrefines.inFlight, List.eraseIdx_map]
  rw [envelope_target]
  have htarget := hrefines.shows packet.target (hadj.target_mem hroute)
  cases packet with
  | gossip u v => exact herased.recvGossip (hadj.target_mem hroute) now
  | notice u v =>
      have hpending := pendingAdd_frame (net.node v) msgId u now
      refine herased.absorb [] [] ?_ rfl rfl
        (fun _ _ => ⟨rfl, rfl⟩) (List.append_nil _).symm (List.append_nil _).symm rfl
      change Shows adj msgId _ v (recvIhave (net.node v) u msgId now).node
      unfold recvIhave
      split_ifs
      · exact htarget.congr rfl rfl
      · exact (htarget.of_kept (kept_pendingAdd _ _ _ _) hpending.1 hpending.2).congr
          rfl rfl
  | prune u v =>
      exact herased.absorb [] []
        ((htarget.setLink u now true).congr rfl rfl) rfl rfl
        (fun i hi => ⟨rfl, Function.update_of_ne hi _ _⟩)
        (List.append_nil _).symm (List.append_nil _).symm rfl

theorem Refines.broadcast (hrefines : Refines members adj msgId payload net s)
    {origin : Id} (horigin : origin ∈ members) (hpayload : payload ≠ []) (now : UInt64) :
    Refines members adj msgId payload (net.broadcast origin msgId payload now)
      (originate adj s origin) := by
  have hcached := (hrefines.shows origin horigin).cacheInsert payload now
  have hsends := hcached.sends payload (List.Subset.refl _)
  rw [← peerIds, hcached.peers] at hsends
  have hlength : ¬ payload.length = 0 := fun hzero =>
    hpayload (List.length_eq_zero_iff.mp hzero)
  set cached := cacheInsert (net.node origin) msgId payload now with hcachedNode
  have hcounted : Shows adj msgId (s.inform origin) origin
      { cached with messagesBroadcast := cached.messagesBroadcast + 1 } :=
    hcached.of_kept ⟨rfl, rfl, rfl, rfl⟩ rfl rfl
  rw [Network.broadcast, PlumTree.broadcast, if_neg hlength]
  exact hrefines.absorb _ [] (hcounted.congr rfl rfl) hsends rfl
    (fun i hi => ⟨Function.update_of_ne hi _ _, rfl⟩) rfl rfl rfl

/-! ## The start -/

/-- The peers of the members. -/
def neighbours (members : Finset Id) (net : Network Id Msg) (i : Id) : List Id :=
  if i ∈ members then peerIds (net.node i) else []

/-- The abstract state before anything is known of the message. -/
def stateOf (net : Network Id Msg) : State Id where
  informed := fun _ => false
  cut := fun i j => peerLink (net.node i) j = some .lazy
  links := []
  inFlight := []
  sent := []

omit [DecidableEq Msg] in
theorem mem_neighbours {i j : Id} :
    j ∈ neighbours members net i ↔ i ∈ members ∧ j ∈ peerIds (net.node i) := by
  unfold neighbours
  split_ifs with hi
  · exact ⟨fun hj => ⟨hi, hj⟩, fun hand => hand.2⟩
  · exact ⟨fun hj => absurd hj List.not_mem_nil, fun hand => absurd hand.1 hi⟩

theorem Overlay.neighbours (hoverlay : Overlay members net) :
    PushLazyPush.Neighbours members (neighbours members net) := by
  refine ⟨?_, ?_, ?_, ?_⟩
  · intro i
    unfold PlumTree.neighbours
    split_ifs with hi
    · exact (reachable_wellFormed (hoverlay.reachable i hi)).ids_nodup
    · exact List.nodup_nil
  · intro i hmem
    obtain ⟨hi, hself⟩ := mem_neighbours.mp hmem
    have hwell := reachable_wellFormed (hoverlay.reachable i hi)
    rw [← hoverlay.selfId i hi] at hself
    exact hwell.self_not_peer (by simpa only [hoverlay.selfId i hi] using hself)
  · intro i j hmem
    obtain ⟨hi, hj⟩ := mem_neighbours.mp hmem
    exact mem_neighbours.mpr (hoverlay.symmetric i hi j hj)
  · intro i j hmem
    exact (mem_neighbours.mp hmem).1

omit [DecidableEq Msg] in
theorem graph_neighbours (members : Finset Id) (net : Network Id Msg) :
    PushLazyPush.graph members (PlumTree.neighbours members net) =
      peerGraph members net := by
  ext i j
  rw [PushLazyPush.graph, peerGraph, SimpleGraph.fromRel_adj, SimpleGraph.fromRel_adj,
    mem_neighbours, mem_neighbours]
  simp only [i.2, j.2, true_and]

omit [DecidableEq Msg] in
theorem stateOf_silent (net : Network Id Msg) : (stateOf net).Silent :=
  ⟨fun _ => rfl, rfl, rfl, rfl⟩

theorem Overlay.refines (hoverlay : Overlay members net) (hidle : net.Idle)
    (hunseen : ∀ i ∈ members, hasMsg (net.node i) msgId = false) :
    Refines members (PlumTree.neighbours members net) msgId payload net
      (stateOf net) := by
  refine ⟨?_, hidle.inFlight, hidle.sent, hidle.delivered⟩
  intro i hi
  have hwell := reachable_wellFormed (hoverlay.reachable i hi)
  refine ⟨hwell, (if_pos hi).symm, hunseen i hi, ?_⟩
  intro p hp
  change p.linkType = linkOf (decide (peerLink (net.node i) p.nodeId = some .lazy))
  rw [peerLink_eq_of_mem hwell.ids_nodup hp]
  cases p.linkType <;> rfl

end Network

end PlumTree
end LibWake
