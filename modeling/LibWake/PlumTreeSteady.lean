import Mathlib.Data.List.Count
import LibWake.PushLazyPushTree
import LibWake.PlumTreeSpanningTree

/-!
# A broadcast in the steady state

Once the EAGER links are a spanning tree of the overlay, a broadcast costs one
GOSSIP for every other node.  The IHAVE messages of the LAZY links race with it;
whatever they leave in a pending table is cancelled by the GOSSIP.
-/

namespace LibWake
namespace PlumTree

variable {Id Msg : Type}

/-! ## Pending entries for one message -/

section Pending

variable [DecidableEq Msg]

/-- The number of active pending entries for a message. -/
def pendingFor (pending : List (Option (Pending Id Msg))) (msgId : Msg) : ℕ :=
  pending.countP fun slot => slot.any fun p => p.msgId = msgId

theorem pendingFind_eq_none_iff {pending : List (Option (Pending Id Msg))}
    {msgId : Msg} : pendingFind pending msgId = none ↔ pendingFor pending msgId = 0 := by
  rw [pendingFind, List.findIdx?_eq_none_iff, pendingFor, List.countP_eq_zero]
  simp only [Bool.not_eq_true]

theorem pendingFor_set {pending : List (Option (Pending Id Msg))} (msgId : Msg) {i : ℕ}
    (hi : i < pending.length) (slot : Option (Pending Id Msg)) :
    pendingFor (pending.set i slot) msgId =
      pendingFor pending msgId -
          (if (pending[i].any fun p => p.msgId = msgId) = true then 1 else 0) +
        (if (slot.any fun p => p.msgId = msgId) = true then 1 else 0) :=
  List.countP_set hi

omit [DecidableEq Msg] in
theorem oldestPending_lt {pending : List (Option (Pending Id Msg))} {i : ℕ}
    (holdest : oldestPending pending = some i) : i < pending.length := by
  unfold oldestPending at holdest
  refine List.foldlRecOn (motive := fun (oldest : Option ℕ) =>
    ∀ i, oldest = some i → i < pending.length) _ _ (fun i hnone => by cases hnone) ?_ i
    holdest
  clear holdest
  intro oldest holdest j hj i hi
  rw [List.mem_range] at hj
  split at hi
  · split at hi
    · obtain rfl := Option.some.inj hi
      exact hj
    · split_ifs at hi
      · obtain rfl := Option.some.inj hi
        exact hj
      · exact holdest i hi
  · exact holdest i hi

/-- At most one entry for the message is pending, and none once it is known. -/
structure Awaits (msgId : Msg) (node : Node Id Msg) : Prop where
  single : pendingFor node.pending msgId ≤ 1
  cancelled : hasMsg node msgId = true → pendingFor node.pending msgId = 0

theorem Awaits.of_same {msgId : Msg} {node after : Node Id Msg}
    (hawaits : Awaits msgId node) (hpending : after.pending = node.pending)
    (hcache : after.cache = node.cache) : Awaits msgId after := by
  refine ⟨hpending ▸ hawaits.single, fun hmsg => ?_⟩
  rw [hasMsg, hcache] at hmsg
  exact hpending ▸ hawaits.cancelled hmsg

theorem pendingFor_pendingAdd {node : Node Id Msg} {msgId : Msg}
    (hsingle : pendingFor node.pending msgId ≤ 1) (other : Msg) (fromId : Id)
    (now : UInt64) :
    pendingFor (pendingAdd node other fromId now).pending msgId ≤ 1 ∧
      (other ≠ msgId → pendingFor (pendingAdd node other fromId now).pending msgId ≤
        pendingFor node.pending msgId) := by
  have hnew : (Option.any (fun p => decide (p.msgId = msgId))
      (some (⟨other, fromId, now⟩ : Pending Id Msg)) = true) ↔ other = msgId := by
    simp
  unfold pendingAdd
  simp only
  cases hfind : pendingFind node.pending other with
  | some i =>
      obtain ⟨hi, hholds, -⟩ := List.findIdx?_eq_some_iff_getElem.mp hfind
      have hset := pendingFor_set msgId hi (some ⟨other, fromId, now⟩)
      simp only
      by_cases heq : other = msgId
      · subst heq
        rw [if_pos hholds, if_pos (hnew.mpr rfl)] at hset
        exact ⟨by omega, fun hne => absurd rfl hne⟩
      · rw [if_neg (mt hnew.mp heq)] at hset
        omega
  | none =>
      -- the slot which is written holds no entry for `other`
      have hwritten : ∀ i, i < node.pending.length →
          pendingFor (node.pending.set i (some ⟨other, fromId, now⟩)) msgId ≤ 1 ∧
          (other ≠ msgId →
            pendingFor (node.pending.set i (some ⟨other, fromId, now⟩)) msgId ≤
              pendingFor node.pending msgId) := by
        intro i hi
        have hset := pendingFor_set msgId hi (some ⟨other, fromId, now⟩)
        by_cases heq : other = msgId
        · subst heq
          have hzero := pendingFind_eq_none_iff.mp hfind
          rw [if_pos (hnew.mpr rfl)] at hset
          exact ⟨by omega, fun hne => absurd rfl hne⟩
        · rw [if_neg (mt hnew.mp heq)] at hset
          omega
      simp only
      split
      · rename_i i hfree
        exact hwritten i (List.findIdx?_eq_some_iff_getElem.mp hfree).1
      · split
        · rename_i i holdest
          exact hwritten i (oldestPending_lt holdest)
        · exact ⟨hsingle, fun _ => le_rfl⟩

/-- A cancelled message has lost its entry, and no other message gains one. -/
theorem pendingFor_pendingRemoveMsg {node : Node Id Msg} {msgId : Msg} (other : Msg) :
    pendingFor (pendingRemoveMsg node other).pending msgId ≤
        pendingFor node.pending msgId ∧
      (other = msgId → pendingFor node.pending msgId ≤ 1 →
        pendingFor (pendingRemoveMsg node other).pending msgId = 0) := by
  unfold pendingRemoveMsg
  cases hfind : pendingFind node.pending other with
  | none =>
      refine ⟨le_rfl, ?_⟩
      rintro rfl -
      exact pendingFind_eq_none_iff.mp hfind
  | some i =>
      obtain ⟨hi, hholds, -⟩ := List.findIdx?_eq_some_iff_getElem.mp hfind
      have hset := pendingFor_set msgId hi none
      simp only [Option.any_none, Bool.false_eq_true, if_false, Nat.add_zero] at hset
      simp only [hset]
      refine ⟨Nat.sub_le _ _, ?_⟩
      rintro rfl hsingle
      rw [if_pos hholds]
      omega

end Pending

theorem cacheInsert_pending (node : Node Id Msg) (msgId : Msg) (payload : List UInt8)
    (now : UInt64) : (cacheInsert node msgId payload now).pending = node.pending := by
  unfold cacheInsert
  split
  · rfl
  · rfl

theorem setLink_pending [DecidableEq Id] (link : Link) (node : Node Id Msg) (nodeId : Id)
    (now : UInt64) :
    (setLink link node nodeId now).pending = node.pending := by
  unfold setLink
  split
  · rfl
  · rfl

section Handlers

variable [DecidableEq Msg] {msgId : Msg} {node : Node Id Msg}

theorem Awaits.recvIhave (hawaits : Awaits msgId node) (fromId : Id) (other : Msg)
    (now : UInt64) : Awaits msgId (PlumTree.recvIhave node fromId other now).node := by
  unfold PlumTree.recvIhave
  simp only
  split_ifs with hknown
  · exact hawaits
  · obtain ⟨hsingle, hothers⟩ :=
      pendingFor_pendingAdd hawaits.single other fromId now
    refine ⟨hsingle, fun hmsg => ?_⟩
    rw [hasMsg, (pendingAdd_frame node other fromId now).2] at hmsg
    have hne : other ≠ msgId := fun heq => hknown (heq ▸ hmsg)
    have hzero := hawaits.cancelled hmsg
    have hle := hothers hne
    omega

variable [DecidableEq Id]

theorem Awaits.recvNew (hawaits : Awaits msgId node) (fromId : Id) (other : Msg)
    (payload : List UInt8) (now : UInt64) :
    Awaits msgId (PlumTree.recvNew node fromId other payload now).node := by
  set cached := cacheInsert node other payload now with hcached
  obtain ⟨hle, hcancel⟩ :=
    @pendingFor_pendingRemoveMsg _ _ _ cached msgId other
  rw [hcached, cacheInsert_pending, ← hcached] at hle hcancel
  have hcancelled : Awaits msgId (pendingRemoveMsg cached other) := by
    refine ⟨hle.trans hawaits.single, fun hmsg => ?_⟩
    by_cases heq : other = msgId
    · exact hcancel heq hawaits.single
    · rw [hasMsg, (pendingRemoveMsg_frame cached other).2] at hmsg
      have hzero := hawaits.cancelled (hasMsg_of_hasMsg_cacheInsert heq hmsg)
      omega
  exact hcancelled.of_same (setLink_pending _ _ _ _) (setLink_cache _ _ _ _)

/-- No handler of a message leaves a pending entry for a known message. -/
theorem Awaits.handle (hawaits : Awaits msgId node) (fromId : Id)
    (message : Send Id Msg) (now : UInt64) :
    Awaits msgId (PlumTree.handle node fromId message now).node := by
  unfold PlumTree.handle
  cases message.msgType with
  | gossip =>
      have hreceived : Awaits msgId
          { node with messagesReceived := node.messagesReceived + 1 } :=
        hawaits.of_same rfl rfl
      simp only [PlumTree.recvGossip]
      split_ifs
      · exact hreceived.of_same (setLink_pending _ _ _ _) (setLink_cache _ _ _ _)
      · exact hreceived.recvNew _ _ _ _
  | ihave => exact hawaits.recvIhave _ _ _
  | graft => exact hawaits.of_same (setLink_pending _ _ _ _) (setLink_cache _ _ _ _)
  | prune => exact hawaits.of_same (setLink_pending _ _ _ _) (setLink_cache _ _ _ _)

end Handlers

/-! ## The steady state -/

variable [DecidableEq Id] [DecidableEq Msg]

/-- An overlay whose link types agree at both ends, whose EAGER links are a
spanning tree, and in which the message is neither known nor pending. -/
structure SteadyState (members : Finset Id) (net : Network Id Msg) (msgId : Msg) :
    Prop where
  overlay : Overlay members net
  idle : net.Idle
  agree : ∀ i ∈ members, ∀ j ∈ members,
    peerLink (net.node i) j = peerLink (net.node j) i
  isTree : (eagerGraph members net).IsTree
  unseen : ∀ i ∈ members, hasMsg (net.node i) msgId = false
  unpended : ∀ i ∈ members, pendingFind (net.node i).pending msgId = none

/-- The number of messages of a type which were sent so far. -/
def Network.sentCount (net : Network Id Msg) (msgType : MsgType) : ℕ :=
  net.sent.countP fun envelope => envelope.message.msgType = msgType

variable {members : Finset Id} {msgId : Msg} {payload : List UInt8}
  {net final : Network Id Msg}

theorem SteadyState.treeCut (hsteady : SteadyState members net msgId) :
    (stateOf net).TreeCut members (neighbours members net) := by
  refine ⟨stateOf_silent net, ?_, ?_⟩
  · intro i j hmem
    obtain ⟨hi, hj⟩ := mem_neighbours.mp hmem
    have hmember := (hsteady.overlay.symmetric i hi j hj).1
    change decide (peerLink (net.node i) j = some .lazy) =
      decide (peerLink (net.node j) i = some .lazy)
    rw [hsteady.agree i hi j hmember]
  · have hrefines : Refines members (neighbours members net) msgId [] net
        (stateOf net) := hsteady.overlay.refines hsteady.idle hsteady.unseen
    rw [← hrefines.eagerGraph_eq]
    exact hsteady.isTree

/-- The pending tables of the members follow their caches in every run. -/
theorem SteadyState.awaits (hsteady : SteadyState members net msgId) {origin : Id}
    (now : UInt64) {labels : List (ℕ × UInt64)}
    (hrun : deliveries.run (net.broadcast origin msgId payload now) labels = some final) :
    ∀ i ∈ members, Awaits msgId (final.node i) := by
  refine deliveries.run_invariant
    (motive := fun net => ∀ i ∈ members, Awaits msgId (net.node i)) ?_ ?_ hrun
  · rintro before ⟨k, now⟩ after hgood hstep
    obtain ⟨envelope, -, rfl⟩ := Option.map_eq_some_iff.mp hstep
    intro i hi
    change Awaits msgId (Function.update before.node envelope.message.target
      (handle (before.node envelope.message.target) envelope.source envelope.message
        now).node i)
    by_cases heq : i = envelope.message.target
    · subst heq
      rw [Function.update_self]
      exact (hgood _ hi).handle _ _ _
    · rw [Function.update_of_ne heq]
      exact hgood i hi
  · intro i hi
    have hnone := pendingFind_eq_none_iff.mp (hsteady.unpended i hi)
    have hsame : ((net.broadcast origin msgId payload now).node i).pending =
        (net.node i).pending := by
      change (Function.update net.node origin
        (PlumTree.broadcast (net.node origin) msgId payload now).node i).pending = _
      by_cases heq : i = origin
      · subst heq
        rw [Function.update_self, PlumTree.broadcast]
        split_ifs
        · rfl
        · exact cacheInsert_pending _ _ _ _
      · rw [Function.update_of_ne heq]
    have hzero : pendingFor ((net.broadcast origin msgId payload now).node i).pending
        msgId = 0 := by
      rw [hsame, hnone]
    exact ⟨hzero.le.trans zero_le_one, fun _ => hzero⟩

omit [DecidableEq Id] [DecidableEq Msg] in
theorem countP_gossip_eq (packets : List (PushLazyPush.Packet Id)) :
    (packets.map (envelope msgId payload)).countP
        (fun envelope => decide (envelope.message.msgType = .gossip)) =
      (PushLazyPush.copyLinks packets).length := by
  induction packets with
  | nil => rfl
  | cons packet rest ih =>
      rw [List.map_cons, List.countP_cons, ih]
      cases packet with
      | gossip u v => rfl
      | notice u v => rfl
      | prune u v => rfl

/-- A broadcast in the steady state, in any order of the deliveries: only finitely
many messages are sent, none of them a PRUNE, and no link changes its type.  When
no message is in flight, one GOSSIP was sent for every node but the originator,
every such node was handed the message once, and no node has it pending. -/
theorem steady_broadcast (hsteady : SteadyState members net msgId) {origin : Id}
    (horigin : origin ∈ members) (hpayload : payload ≠ []) (now : UInt64)
    {labels : List (ℕ × UInt64)}
    (hrun : deliveries.run (net.broadcast origin msgId payload now) labels = some final) :
    (final.sent.length = labels.length + final.inFlight.length ∧
      final.sent.length ≤ 2 * ∑ i ∈ members, (net.node i).peers.length) ∧
    (∀ envelope ∈ final.sent, envelope.message.msgType = .gossip ∨
      envelope.message.msgType = .ihave) ∧
    (∀ i ∈ members, ∀ j, peerLink (final.node i) j = peerLink (net.node i) j) ∧
    (final.inFlight = [] →
      final.sentCount .gossip = members.card - 1 ∧
      ∀ i ∈ members, final.deliverCount i msgId = (if i = origin then 0 else 1) ∧
        pendingFind (final.node i).pending msgId = none) := by
  have hadj := hsteady.overlay.neighbours
  have htree := hsteady.treeCut
  have hstart : Refines members (neighbours members net) msgId payload net
      (stateOf net) := hsteady.overlay.refines hsteady.idle hsteady.unseen
  obtain ⟨s, hrunAbstract, hrefines⟩ := hsteady.overlay.abstract_run hsteady.idle
    hsteady.unseen horigin hpayload now hrun
  have hbounded := PushLazyPush.run_bounded hadj horigin (stateOf_silent net) hrunAbstract
  have hinvariant := (PushLazyPush.steady_originate hadj htree origin).run hadj htree
    horigin hrunAbstract
  have hlength : final.sent.length = s.sent.length ∧
      final.inFlight.length = s.inFlight.length := by
    rw [hrefines.sent, hrefines.inFlight, List.length_map, List.length_map]
    exact ⟨rfl, rfl⟩
  have hdegrees : ∑ i ∈ members, (neighbours members net i).length =
      ∑ i ∈ members, (net.node i).peers.length := by
    apply Finset.sum_congr rfl
    intro i hi
    rw [neighbours, if_pos hi, peerIds, List.length_map]
  rw [List.length_map, hdegrees] at hbounded
  refine ⟨by omega, ?_, ?_, ?_⟩
  · intro sentEnvelope hmem
    rw [hrefines.sent] at hmem
    obtain ⟨packet, hpacket, rfl⟩ := List.mem_map.mp hmem
    cases packet with
    | gossip u v => exact .inl rfl
    | notice u v => exact .inr rfl
    | prune u v => exact absurd hpacket (hinvariant.unpruned u v)
  · intro i hi j
    rw [(hrefines.shows i hi).peerLink_eq, (hstart.shows i hi).peerLink_eq, hinvariant.cut]
  · intro hquiet
    have hquietAbstract : s.inFlight = [] := by
      rw [hrefines.inFlight] at hquiet
      exact List.map_eq_nil_iff.mp hquiet
    have hawaits := hsteady.awaits now hrun
    refine ⟨?_, fun i hi => ⟨?_, ?_⟩⟩
    · have hcopies := hinvariant.copies_card hquietAbstract hadj htree horigin
      rw [Network.sentCount, hrefines.sent, countP_gossip_eq]
      omega
    · rw [hrefines.deliverCount_eq]
      exact hinvariant.count_first hquietAbstract hadj htree horigin hi
    · have hinformed := hinvariant.informed_all hquietAbstract hadj htree horigin hi
      rw [← (hrefines.shows i hi).informed] at hinformed
      exact pendingFind_eq_none_iff.mpr ((hawaits i hi).cancelled hinformed)

/-! ## A triangle with one LAZY link -/

/-- Node `i` of the triangle whose link between 1 and 2 is LAZY at both ends. -/
def prunedNode (i : Fin 3) : Node (Fin 3) ℕ :=
  if i.val = 0 then triangleNode i else (recvPrune (triangleNode i) (-i) 0).node

def prunedTriangle : Network (Fin 3) ℕ where
  node := prunedNode
  inFlight := []
  sent := []
  delivered := []

theorem prunedTriangle_isTree : (eagerGraph Finset.univ prunedTriangle).IsTree := by
  have hgrown : GrownTree.Grown (0 : Fin 3) [(2, 0), (1, 0)] :=
    .attach (.attach .bare (by decide) (by decide)) (by decide) (by decide)
  have hlinks : eagerGraph Finset.univ prunedTriangle =
      GrownTree.linkGraph Finset.univ [(2, 0), (1, 0)] := by
    ext u v
    rw [eagerGraph, GrownTree.linkGraph, SimpleGraph.fromRel_adj,
      SimpleGraph.fromRel_adj]
    revert u v
    decide
  rw [hlinks]
  exact hgrown.isTree (by decide)

theorem prunedTriangle_steady : SteadyState Finset.univ prunedTriangle 7 := by
  refine ⟨⟨?_, ?_, ?_⟩, ⟨rfl, rfl, rfl⟩, ?_, prunedTriangle_isTree, ?_, ?_⟩
  · intro i _
    have hreach := triangle_fresh.overlay.reachable i (Finset.mem_univ i)
    change runs.Reachable (prunedNode i)
    unfold prunedNode
    split_ifs
    · exact hreach
    · exact hreach.step (show runs.step (triangleNode i) (.recvPrune (-i) 0) = _ from rfl)
  · decide
  · decide
  · decide
  · decide
  · decide

/-- The two copies arrive before the two notices of the LAZY link. -/
theorem steady_broadcast_triangle :
    ∃ final, deliveries.run (prunedTriangle.broadcast 0 7 [1] 0)
        (List.replicate 4 (0, 5)) = some final ∧ final.inFlight = [] ∧
      final.sentCount .gossip = 2 ∧ final.deliverCount 2 7 = 1 := by
  have hends : ((deliveries.run (prunedTriangle.broadcast 0 7 [1] 0)
      (List.replicate 4 (0, 5))).any fun final => final.inFlight.isEmpty) = true := by
    decide +kernel
  obtain ⟨final, hrun, hquiet⟩ := (Option.any_eq_true _ _).mp hends
  rw [List.isEmpty_iff] at hquiet
  obtain ⟨-, -, -, hsettled⟩ := steady_broadcast prunedTriangle_steady
    (Finset.mem_univ 0) (List.cons_ne_nil 1 []) 0 hrun
  obtain ⟨hgossip, hnodes⟩ := hsettled hquiet
  exact ⟨final, hrun, hquiet, hgossip, (hnodes 2 (Finset.mem_univ 2)).1⟩

end PlumTree
end LibWake
