import Mathlib.Data.Fintype.Basic
import LibWake.PushLazyPushFlood
import LibWake.PlumTreeRefinement

/-!
# A broadcast leaves a spanning tree

One message, broadcast over an overlay whose links are all EAGER, reaches every
node once, whatever the order in which the messages are delivered.  The links
which stay EAGER are a spanning tree of the overlay.
-/

namespace LibWake
namespace PlumTree

variable {Id Msg : Type} [DecidableEq Id] [DecidableEq Msg]

/-- An overlay with EAGER links only, in which the message is not known. -/
structure Fresh (members : Finset Id) (net : Network Id Msg) (msgId : Msg) : Prop where
  overlay : Overlay members net
  idle : net.Idle
  connected : (peerGraph members net).Connected
  eager : ∀ i ∈ members, ∀ p ∈ (net.node i).peers, p.linkType = .eager
  unseen : ∀ i ∈ members, hasMsg (net.node i) msgId = false

variable {members : Finset Id} {adj : Id → List Id} {msgId : Msg}
  {payload : List UInt8} {net final : Network Id Msg} {s : PushLazyPush.State Id}

theorem Fresh.uncut (hfresh : Fresh members net msgId) :
    (stateOf net).Uncut (neighbours members net) := by
  refine ⟨stateOf_silent net, ?_⟩
  intro i j hmem
  obtain ⟨hi, hj⟩ := mem_neighbours.mp hmem
  obtain ⟨p, hp, rfl⟩ := List.mem_map.mp hj
  have hwell := reachable_wellFormed (hfresh.overlay.reachable i hi)
  change decide (peerLink (net.node i) p.nodeId = some .lazy) = false
  rw [peerLink_eq_of_mem hwell.ids_nodup hp, hfresh.eager i hi p hp]
  rfl

/-- The abstract run behind a run of the network. -/
theorem Overlay.abstract_run (hoverlay : Overlay members net) (hidle : net.Idle)
    (hunseen : ∀ i ∈ members, hasMsg (net.node i) msgId = false) {origin : Id}
    (horigin : origin ∈ members) (hpayload : payload ≠ []) (now : UInt64)
    {labels : List (ℕ × UInt64)}
    (hrun : deliveries.run (net.broadcast origin msgId payload now) labels = some final) :
    ∃ s, (PushLazyPush.deliveries (PlumTree.neighbours members net)).run
        (PushLazyPush.originate (PlumTree.neighbours members net) (stateOf net) origin)
        (labels.map Prod.fst) = some s ∧
      Refines members (PlumTree.neighbours members net) msgId payload final s := by
  set adj := PlumTree.neighbours members net with hadjacent
  have hadj : PushLazyPush.Neighbours members adj := hoverlay.neighbours
  have hstart : Refines members adj msgId payload
      (net.broadcast origin msgId payload now)
      (PushLazyPush.originate adj (stateOf net) origin) :=
    (hoverlay.refines hidle hunseen).broadcast horigin hpayload now
  have hrouted : (PushLazyPush.originate adj (stateOf net) origin).Routed adj :=
    PushLazyPush.routed_originate (stateOf_silent net) origin
  obtain ⟨s, hrunAbstract, hfinal, _⟩ := deliveries.run_simulated
    (N := PushLazyPush.deliveries adj)
    (R := fun net s => Refines members adj msgId payload net s ∧ s.Routed adj)
    (fun net s label next hrel hstep => by
      obtain ⟨after, hdeliver, hrefines⟩ := hrel.1.deliver hadj hrel.2 hstep
      exact ⟨after, hdeliver, hrefines, hrel.2.deliver hadj hdeliver⟩)
    ⟨hstart, hrouted⟩ hrun
  exact ⟨s, hrunAbstract, hfinal⟩

theorem Shows.peerLink_eq {i : Id} {node : Node Id Msg}
    (hshows : Shows adj msgId s i node) (j : Id) :
    peerLink node j = if j ∈ adj i then some (linkOf (s.cut i j)) else none := by
  rw [← hshows.peers]
  split_ifs with hmem
  · obtain ⟨p, hp, rfl⟩ := List.mem_map.mp hmem
    rw [peerLink_eq_of_mem hshows.wellFormed.ids_nodup hp, hshows.links p hp]
  · exact peerLink_eq_none_iff.mpr hmem

theorem Refines.deliverCount_eq (hrefines : Refines members adj msgId payload net s)
    (i : Id) : net.deliverCount i msgId = (s.links.map Prod.fst).count i := by
  rw [Network.deliverCount, hrefines.delivered, List.countP_reverse, List.countP_map,
    List.count, List.countP_map]
  apply List.countP_congr
  intro link _
  simp only [arrival, Function.comp_apply, and_true, decide_eq_true_eq, beq_iff_eq]

theorem Refines.eagerGraph_eq (hrefines : Refines members adj msgId payload net s) :
    eagerGraph members net = PushLazyPush.uncutGraph members adj s := by
  have heager : ∀ i j : {i // i ∈ members},
      peerLink (net.node i.1) j.1 = some .eager ↔ j.1 ∈ adj i.1 ∧ s.cut i.1 j.1 = false := by
    intro i j
    rw [(hrefines.shows i.1 i.2).peerLink_eq]
    split_ifs with hmem
    · cases s.cut i.1 j.1 <;> simp [linkOf, hmem]
    · simp [hmem]
  ext i j
  rw [eagerGraph, PushLazyPush.uncutGraph, SimpleGraph.fromRel_adj,
    SimpleGraph.fromRel_adj, heager, heager]

/-- What a broadcast leaves behind once no message is in flight. -/
structure Settled (members : Finset Id) (net : Network Id Msg) (origin : Id)
    (msgId : Msg) (final : Network Id Msg) : Prop where
  delivered : ∀ i ∈ members, final.deliverCount i msgId = if i = origin then 0 else 1
  agree : ∀ i ∈ members, ∀ j ∈ members,
    peerLink (final.node i) j = peerLink (final.node j) i
  within : eagerGraph members final ≤ peerGraph members net
  isTree : (eagerGraph members final).IsTree

theorem Fresh.settled (hfresh : Fresh members net msgId) {origin : Id}
    (horigin : origin ∈ members) {s : PushLazyPush.State Id}
    (hrefines : Refines members (neighbours members net) msgId payload final s)
    (hflood : PushLazyPush.Flooding (neighbours members net) origin s)
    (hquiet : s.inFlight = []) : Settled members net origin msgId final := by
  have hadj := hfresh.overlay.neighbours
  have hconnected := hfresh.connected
  rw [← graph_neighbours] at hconnected
  refine ⟨?_, ?_, ?_, ?_⟩
  · intro i hi
    rw [hrefines.deliverCount_eq]
    exact hflood.count_first hadj hquiet horigin hconnected hi
  · intro i hi j hj
    rw [(hrefines.shows i hi).peerLink_eq, (hrefines.shows j hj).peerLink_eq]
    by_cases hmem : j ∈ neighbours members net i
    · rw [if_pos hmem, if_pos (hadj.symm hmem), hflood.cut_comm hadj hquiet hmem]
    · rw [if_neg hmem, if_neg fun hother => hmem (hadj.symm hother)]
  · rw [hrefines.eagerGraph_eq, ← graph_neighbours]
    exact PushLazyPush.uncutGraph_le members _ s
  · rw [hrefines.eagerGraph_eq]
    exact hflood.uncutGraph_isTree hadj hquiet horigin hconnected

/-- In every run after a broadcast, in any order of the deliveries, finitely many
messages are sent; when none of them is in flight, the EAGER links are a spanning
tree and every node but the originator was handed the message once. -/
theorem broadcast_spans (hfresh : Fresh members net msgId) {origin : Id}
    (horigin : origin ∈ members) (hpayload : payload ≠ []) (now : UInt64)
    {labels : List (ℕ × UInt64)}
    (hrun : deliveries.run (net.broadcast origin msgId payload now) labels = some final) :
    (final.sent.length = labels.length + final.inFlight.length ∧
      final.sent.length ≤ 2 * ∑ i ∈ members, (net.node i).peers.length) ∧
      (final.inFlight = [] → Settled members net origin msgId final) := by
  have hadj := hfresh.overlay.neighbours
  obtain ⟨s, hrunAbstract, hrefines⟩ :=
    hfresh.overlay.abstract_run hfresh.idle hfresh.unseen horigin hpayload now hrun
  have hbounded := PushLazyPush.run_bounded hadj horigin (stateOf_silent net) hrunAbstract
  have hflood := (PushLazyPush.flooding_originate hadj hfresh.uncut).run hadj hrunAbstract
  have hdegrees : ∑ i ∈ members, (neighbours members net i).length =
      ∑ i ∈ members, (net.node i).peers.length := by
    apply Finset.sum_congr rfl
    intro i hi
    rw [neighbours, if_pos hi, peerIds, List.length_map]
  have hsent : final.sent.length = s.sent.length := by
    rw [hrefines.sent, List.length_map]
  have hflight : final.inFlight.length = s.inFlight.length := by
    rw [hrefines.inFlight, List.length_map]
  rw [List.length_map, hdegrees] at hbounded
  refine ⟨⟨by omega, by omega⟩, fun hquiet => ?_⟩
  refine hfresh.settled horigin hrefines hflood ?_
  rw [hrefines.inFlight] at hquiet
  exact List.map_eq_nil_iff.mp hquiet

/-! ## Three nodes -/

/-- Node `i` of three nodes which are all peers of each other. -/
def triangleNode (i : Fin 3) : Node (Fin 3) ℕ :=
  let alone := create i (some ⟨2, 1, 1, 5000, 60000⟩)
  (addPeer (addPeer alone (i + 1) 0).2 (i + 2) 0).2

def triangle : Network (Fin 3) ℕ where
  node := triangleNode
  inFlight := []
  sent := []
  delivered := []

theorem triangle_fresh : Fresh Finset.univ triangle 7 := by
  have hpeers : ∀ i j : Fin 3, i ≠ j → j ∈ peerIds (triangleNode i) := by decide
  refine ⟨⟨?_, ?_, ?_⟩, ⟨rfl, rfl, rfl⟩, ?_, ?_, ?_⟩
  · intro i _
    exact ⟨_, [.addPeer (i + 1) 0, .addPeer (i + 2) 0], ⟨i, _, rfl⟩, rfl⟩
  · decide
  · decide
  · rw [SimpleGraph.connected_iff]
    refine ⟨fun u v => ?_, ⟨⟨0, Finset.mem_univ 0⟩⟩⟩
    by_cases huv : u = v
    · exact huv ▸ SimpleGraph.Reachable.refl u
    · have hadj : (peerGraph Finset.univ triangle).Adj u v :=
        (SimpleGraph.fromRel_adj _ _ _).mpr
          ⟨huv, .inl (hpeers u.1 v.1 fun heq => huv (Subtype.ext heq))⟩
      exact hadj.reachable
  · decide
  · decide

/-- The second copies on the link between the other two nodes cut it. -/
theorem broadcast_spans_triangle :
    ∃ final, deliveries.run (triangle.broadcast 0 7 [1] 0)
        (List.replicate 6 (0, 5)) = some final ∧ final.inFlight = [] ∧
      final.sent.length = 6 ∧ Settled Finset.univ triangle 0 7 final := by
  have hends : ((deliveries.run (triangle.broadcast 0 7 [1] 0)
      (List.replicate 6 (0, 5))).any fun final => final.inFlight.isEmpty) = true := by
    decide +kernel
  obtain ⟨final, hrun, hquiet⟩ := (Option.any_eq_true _ _).mp hends
  rw [List.isEmpty_iff] at hquiet
  obtain ⟨hsent, hsettled⟩ := broadcast_spans triangle_fresh (Finset.mem_univ 0)
    (List.cons_ne_nil 1 []) 0 hrun
  refine ⟨final, hrun, hquiet, ?_, hsettled hquiet⟩
  rw [hsent.1, hquiet, List.length_replicate, List.length_nil]

end PlumTree
end LibWake
