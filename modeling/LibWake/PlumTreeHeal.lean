import LibWake.PlumTreeMemory
import LibWake.PlumTreeRepair

/-!
# A lazy repair from end to end

Node `b` was told of a message by node `a` and waits for it in vain.  The tick of `b` asks for
it, `a` answers from its cache, and `b` takes the answer as a new message: three handlers at two
nodes, with the message of one as the argument of the next.
-/

namespace LibWake
namespace PlumTree

variable {Id Msg : Type} [DecidableEq Id] [DecidableEq Msg]

/-- The two nodes have each other as EAGER peers, and the second one has the message and waits
for it no longer. -/
structure Healed (msgId : Msg) (a b : Node Id Msg) : Prop where
  eager_at_a : peerLink a b.selfId = some .eager
  eager_at_b : peerLink b a.selfId = some .eager
  cached : hasMsg b msgId = true
  settled : pendingFind b.pending msgId = none

/-- The repair of one message: the GRAFT of `b`, the answer of `a`, and the delivery. -/
structure Heals (msgId : Msg) (a b : Node Id Msg) (tickMs graftMs gossipMs : UInt64)
    (e : CacheEntry Msg) : Prop where
  asked : ⟨.graft, a.selfId, msgId, []⟩ ∈ (tick b tickMs).2.sends
  answered : (recvGraft a b.selfId msgId graftMs).sends =
    [⟨.gossip, b.selfId, msgId, e.payload⟩]
  accepted : (recvGossip (tick b tickMs).2.node a.selfId msgId e.payload gossipMs).1 = true
  delivered : (recvGossip (tick b tickMs).2.node a.selfId msgId e.payload gossipMs).2.delivers =
    [⟨msgId, e.payload, a.selfId⟩]
  healed : Healed msgId (recvGraft a b.selfId msgId graftMs).node
    (recvGossip (tick b tickMs).2.node a.selfId msgId e.payload gossipMs).2.node

/-! ## The links -/

omit [DecidableEq Msg] in
theorem peerLink_setLink {node : Node Id Msg} (hnodup : (peerIds node).Nodup) (link : Link)
    {nodeId : Id} (hpeer : nodeId ∈ peerIds node) (now : UInt64) :
    peerLink (setLink link node nodeId now) nodeId = some link := by
  have hids := (kept_setLink link node nodeId now).peerIds
  obtain ⟨p, hp, rfl⟩ := List.mem_map.mp hpeer
  have htouched : touch link p.nodeId now p ∈ (setLink link node p.nodeId now).peers := by
    rw [setLink_peers link hnodup]
    exact List.mem_map_of_mem hp
  have hlink := peerLink_eq_of_mem (hids ▸ hnodup) htouched
  rw [touch_nodeId, touch_linkType, if_pos rfl] at hlink
  exact hlink

theorem peerLink_recvGraft {node : Node Id Msg} (hnodup : (peerIds node).Nodup) {fromId : Id}
    (hpeer : fromId ∈ peerIds node) (msgId : Msg) (now : UInt64) :
    peerLink (recvGraft node fromId msgId now).node fromId = some .eager :=
  peerLink_setLink hnodup .eager hpeer now

/-! ## A new message -/

section New

variable {node : Node Id Msg} {fromId : Id} {msgId : Msg}

theorem peerLink_recvNew (hnodup : (peerIds node).Nodup) (hpeer : fromId ∈ peerIds node)
    (payload : List UInt8) (now : UInt64) :
    peerLink (recvNew node fromId msgId payload now).node fromId = some .eager := by
  have hkept := (kept_cacheInsert node msgId payload now).trans
    (kept_pendingRemoveMsg (cacheInsert node msgId payload now) msgId)
  exact peerLink_setLink (hkept.peerIds ▸ hnodup) .eager (hkept.peerIds ▸ hpeer) now

theorem pendingFind_recvNew (hsingle : pendingFor node.pending msgId ≤ 1)
    (payload : List UInt8) (now : UInt64) :
    pendingFind (recvNew node fromId msgId payload now).node.pending msgId = none := by
  have hpending : (recvNew node fromId msgId payload now).node.pending =
      (pendingRemoveMsg (cacheInsert node msgId payload now) msgId).pending :=
    setLink_pending _ _ _ _
  rw [hpending, pendingFind_eq_none_iff]
  refine (pendingFor_pendingRemoveMsg msgId).2 rfl ?_
  rwa [cacheInsert_pending]

theorem hasMsg_recvNew (hcache : 0 < node.cache.length) (payload : List UInt8) (now : UInt64) :
    hasMsg (recvNew node fromId msgId payload now).node msgId = true := by
  rw [hasMsg, recvNew_cache]
  exact hasMsg_cacheInsert hcache msgId payload now

/-- A new message makes the link to its sender EAGER, is in the cache and is waited for no
longer. -/
structure Accepted (msgId : Msg) (payload : List UInt8) (fromId : Id)
    (result : Bool × Outcome Id Msg) : Prop where
  accepted : result.1 = true
  delivered : result.2.delivers = [⟨msgId, payload, fromId⟩]
  eager : peerLink result.2.node fromId = some .eager
  cached : hasMsg result.2.node msgId = true
  settled : pendingFind result.2.node.pending msgId = none

theorem recvGossip_accepted (hreach : runs.Reachable node) (hpeer : fromId ∈ peerIds node)
    (hmissing : hasMsg node msgId = false) (payload : List UInt8) (now : UInt64) :
    Accepted msgId payload fromId (recvGossip node fromId msgId payload now) := by
  have hwell := reachable_wellFormed hreach
  have hnodup : (peerIds (counted node)).Nodup := hwell.ids_nodup
  have hcache : 0 < (counted node).cache.length := hwell.cache_ne_nil
  have hsingle : pendingFor (counted node).pending msgId ≤ 1 :=
    (reachable_tablesSound hreach).pending_single msgId
  rw [recvGossip_of_new hmissing]
  exact {
    accepted := rfl
    delivered := rfl
    eager := peerLink_recvNew hnodup hpeer payload now
    cached := hasMsg_recvNew hcache payload now
    settled := pendingFind_recvNew hsingle payload now }

end New

/-! ## The repair -/

/-- An overdue entry is asked for at the node which it is from. -/
theorem graft_of_overdue {node : Node Id Msg} (hreach : runs.Reachable node)
    {p : Pending Id Msg} (hmem : some p ∈ node.pending) {now : UInt64}
    (hdue : overdue node now p = true) : graftFor p ∈ (tick node now).2.sends := by
  have htables := reachable_tablesSound hreach
  rw [(tick_spec (reachable_wellFormed hreach) htables.pending_length htables.pending_count
    htables.cache_count now).1]
  exact mem_grafts.mpr ⟨p, hmem, hdue, rfl⟩

/-- Two nodes are peers, the message is cached at `a` and not at `b`, and `b` has a pending entry
for it from `a` which timed out: the repair goes through, and the link is healed. -/
theorem lazy_repair_heals {a b : Node Id Msg} (ha : runs.Reachable a) (hb : runs.Reachable b)
    (hpeerA : b.selfId ∈ peerIds a) (hpeerB : a.selfId ∈ peerIds b) {p : Pending Id Msg}
    (hfrom : p.fromId = a.selfId) (hheld : hasMsg a p.msgId = true)
    (hmissing : hasMsg b p.msgId = false) (hpending : some p ∈ b.pending) {tickMs : UInt64}
    (hdue : overdue b tickMs p = true) (graftMs gossipMs : UInt64) :
    ∃ e, cacheFind a.cache p.msgId = some e ∧ Heals p.msgId a b tickMs graftMs gossipMs e := by
  have hwellA := reachable_wellFormed ha
  have hwellB := reachable_wellFormed hb
  obtain ⟨e, he⟩ := Option.isSome_iff_exists.mp hheld
  -- the tick brings no message, so that the answer is new to `b`
  have hkept := kept_tick b tickMs
  have hstill : hasMsg (tick b tickMs).2.node p.msgId = false :=
    Bool.eq_false_iff.mpr fun hmsg => Bool.eq_false_iff.mp hmissing
      (hasMsg_of_hasMsg_tick hwellB (reachable_tablesSound hb) hmsg)
  have hstep : runs.step b (.tick tickMs) = some (tick b tickMs).2.node := rfl
  obtain ⟨haccepted, hdelivered, heager, hcached, hsettled⟩ := recvGossip_accepted
    (hb.step hstep) (hkept.peerIds ▸ hpeerB) hstill e.payload gossipMs
  have hselfA := (kept_recvGraft a b.selfId p.msgId graftMs).selfId
  have hselfB := (kept_recvGossip (tick b tickMs).2.node a.selfId p.msgId e.payload
    gossipMs).selfId.trans hkept.selfId
  refine ⟨e, he, ?_, ?_, haccepted, hdelivered, ?_, hselfA ▸ heager, hcached, hsettled⟩
  · rw [← hfrom]
    exact graft_of_overdue hb hpending hdue
  · rw [recvGraft, promoteEager, setLink_cache, he]
    rfl
  · rw [hselfB]
    exact peerLink_recvGraft hwellA.ids_nodup hpeerA _ _

/-- A node with tables of four slots, once it has a peer. -/
def befriended (selfId peer : ℕ) : Node ℕ ℕ :=
  (performCall (create selfId (some ⟨4, 4, 4, 5000, 60000⟩)) (.addPeer peer 0)).node

theorem reachable_befriended_then (selfId peer : ℕ) (call : Call ℕ ℕ) :
    runs.Reachable (performCall (befriended selfId peer) call).node :=
  ⟨_, [.addPeer peer 0, call], ⟨selfId, some ⟨4, 4, 4, 5000, 60000⟩, rfl⟩, rfl⟩

/-- Node 1 once it originated message 7. -/
def holderOfSeven : Node ℕ ℕ := (performCall (befriended 1 2) (.broadcast 7 [9] 5)).node

/-- Node 2 once node 1 announced message 7 to it. -/
def waiterForSeven : Node ℕ ℕ := (performCall (befriended 2 1) (.recvIhave 1 7 10)).node

theorem lazy_repair_heals_seven :
    ∃ e, cacheFind holderOfSeven.cache 7 = some e ∧
      Heals 7 holderOfSeven waiterForSeven 5010 5020 5030 e := by
  have ha : runs.Reachable holderOfSeven := reachable_befriended_then 1 2 _
  have hb : runs.Reachable waiterForSeven := reachable_befriended_then 2 1 _
  have hpending : some (⟨7, 1, 10⟩ : Pending ℕ ℕ) ∈ waiterForSeven.pending := List.mem_cons_self
  exact lazy_repair_heals ha hb (List.mem_singleton_self 2) (List.mem_singleton_self 1) rfl rfl
    rfl hpending rfl 5020 5030

end PlumTree
end LibWake
