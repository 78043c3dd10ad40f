import LibWake.PlumTreeInvariant

/-!
# What a PlumTree node remembers

A message is delivered when no cache slot holds it.  A slot loses its entry in
three ways only: it is overwritten as the oldest one of a full cache, it expires
in a tick, or the node is reset.  So between two deliveries of a message every
entry for it went one of these ways.
-/

namespace LibWake
namespace PlumTree

variable {Id Msg : Type}

/-! ## How a slot loses its entry -/

/-- `cache_insert` overwrites slot `i`: no slot is free, and this one is the
oldest. -/
def Overflows (node : Node Id Msg) (i : ℕ) : Prop :=
  node.cache.findIdx? Option.isNone = none ∧ oldestCached node.cache = i

section Drops

variable [DecidableEq Msg]

/-- The calls in which cache slot `i` of the node loses its entry `e`. -/
inductive Drops (node : Node Id Msg) (i : ℕ) (e : CacheEntry Msg) : Call Id Msg → Prop where
  | expiry {now : UInt64} (httl : node.config.cacheTtlMs > 0)
      (hold : elapsed now e.receivedMs node.config.cacheTtlMs = true) :
      Drops node i e (.tick now)
  | overflowBroadcast {msgId : Msg} {payload : List UInt8} {now : UInt64}
      (hpayload : payload.length ≠ 0) (hfull : Overflows node i) :
      Drops node i e (.broadcast msgId payload now)
  | overflowGossip {fromId : Id} {msgId : Msg} {payload : List UInt8} {now : UInt64}
      (hnew : hasMsg node msgId = false) (hfull : Overflows node i) :
      Drops node i e (.recvGossip fromId msgId payload now)
  | reset : Drops node i e .reset

omit [DecidableEq Msg] in
theorem cacheInsert_keeps_or_overflows (node : Node Id Msg) (msgId : Msg)
    (payload : List UInt8) (now : UInt64) {i : ℕ} {e : CacheEntry Msg}
    (hslot : node.cache[i]? = some (some e)) :
    (cacheInsert node msgId payload now).cache[i]? = some (some e) ∨ Overflows node i := by
  unfold cacheInsert
  cases hfree : node.cache.findIdx? Option.isNone with
  | some j =>
      obtain ⟨hj, hnone, _⟩ := List.findIdx?_eq_some_iff_getElem.mp hfree
      have hne : j ≠ i := by
        rintro rfl
        rw [List.getElem?_eq_getElem hj, Option.some.injEq] at hslot
        rw [hslot] at hnone
        cases hnone
      exact .inl ((List.getElem?_set_ne hne).trans hslot)
  | none =>
      by_cases hi : oldestCached node.cache = i
      · exact .inr ⟨hfree, hi⟩
      · exact .inl ((List.getElem?_set_ne hi).trans hslot)

omit [DecidableEq Msg] in
theorem expireStep_keeps_or_expires (now : UInt64) (node : Node Id Msg) (j : ℕ) {i : ℕ}
    {e : CacheEntry Msg} (hslot : node.cache[i]? = some (some e)) :
    (expireStep now node j).cache[i]? = some (some e) ∨
      elapsed now e.receivedMs node.config.cacheTtlMs = true := by
  unfold expireStep
  by_cases hj : j = i
  · subst hj
    rw [hslot]
    by_cases hold : elapsed now e.receivedMs node.config.cacheTtlMs = true
    · exact .inr hold
    · simp only [if_neg hold]
      exact .inl hslot
  · split
    · split_ifs
      · exact .inl ((List.getElem?_set_ne hj).trans hslot)
      · exact .inl hslot
    · exact .inl hslot

omit [DecidableEq Msg] in
theorem expireLoop_keeps_or_expires (now : UInt64) (slots : List ℕ) (node : Node Id Msg)
    {i : ℕ} {e : CacheEntry Msg} (hslot : node.cache[i]? = some (some e)) :
    (slots.foldl (expireStep now) node).cache[i]? = some (some e) ∨
      elapsed now e.receivedMs node.config.cacheTtlMs = true := by
  induction slots generalizing node with
  | nil => exact .inl hslot
  | cons j rest ih =>
      rcases expireStep_keeps_or_expires now node j hslot with hkept | hold
      · have hrest := ih (expireStep now node j) hkept
        rwa [(kept_expireStep now node j).config] at hrest
      · exact .inr hold

end Drops

section Links

variable [DecidableEq Id]

theorem graftStep_cache (now : UInt64) (state : Node Id Msg × List (Send Id Msg)) (i : ℕ) :
    (graftStep now state i).1.cache = state.1.cache := by
  unfold graftStep
  split
  · split_ifs
    · exact setLink_cache .eager state.1 _ now
    · rfl
  · rfl

theorem graftLoop_cache (now : UInt64) (slots : List ℕ)
    (state : Node Id Msg × List (Send Id Msg)) :
    (slots.foldl (graftStep now) state).1.cache = state.1.cache := by
  induction slots generalizing state with
  | nil => rfl
  | cons i rest ih => exact (ih _).trans (graftStep_cache now state i)

theorem addPeer_cache (node : Node Id Msg) (nodeId : Id) (now : UInt64) :
    (addPeer node nodeId now).2.cache = node.cache := by
  unfold addPeer
  split_ifs
  · rfl
  · rfl
  · rfl
  · rfl

theorem removePeer_cache (node : Node Id Msg) (nodeId : Id) :
    (removePeer node nodeId).2.cache = node.cache := by
  unfold removePeer
  split
  · rfl
  · split
    · rfl
    · rfl

end Links

section Calls

variable [DecidableEq Id] [DecidableEq Msg]

/-- The node when `recv_gossip` has counted the message. -/
def counted (node : Node Id Msg) : Node Id Msg :=
  { node with messagesReceived := node.messagesReceived + 1 }

theorem recvGossip_of_known {node : Node Id Msg} {msgId : Msg}
    (hmsg : hasMsg node msgId = true) (fromId : Id) (payload : List UInt8) (now : UInt64) :
    recvGossip node fromId msgId payload now =
      (false, recvDuplicate (counted node) fromId msgId now) :=
  if_pos hmsg

theorem recvGossip_of_new {node : Node Id Msg} {msgId : Msg}
    (hmsg : hasMsg node msgId = false) (fromId : Id) (payload : List UInt8) (now : UInt64) :
    recvGossip node fromId msgId payload now =
      (true, recvNew (counted node) fromId msgId payload now) :=
  if_neg (Bool.eq_false_iff.mp hmsg)

theorem recvNew_cache (node : Node Id Msg) (fromId : Id) (msgId : Msg)
    (payload : List UInt8) (now : UInt64) :
    (recvNew node fromId msgId payload now).node.cache =
      (cacheInsert node msgId payload now).cache :=
  (setLink_cache .eager _ fromId now).trans (pendingRemoveMsg_frame _ msgId).2

theorem recvGossip_keeps_or_drops {node : Node Id Msg} (fromId : Id) (msgId : Msg)
    (payload : List UInt8) (now : UInt64) {i : ℕ} {e : CacheEntry Msg}
    (hslot : node.cache[i]? = some (some e)) :
    (recvGossip node fromId msgId payload now).2.node.cache[i]? = some (some e) ∨
      Drops node i e (.recvGossip fromId msgId payload now) := by
  cases hmsg : hasMsg node msgId with
  | true =>
      rw [recvGossip_of_known hmsg]
      exact .inl ((congrArg (·[i]?) (setLink_cache .lazy _ fromId now)).trans hslot)
  | false =>
      rw [recvGossip_of_new hmsg]
      simp only [recvNew_cache]
      rcases cacheInsert_keeps_or_overflows (counted node) msgId payload now hslot with
        hkept | hfull
      · exact .inl hkept
      · exact .inr (.overflowGossip hmsg hfull)

theorem tick_keeps_or_drops {node : Node Id Msg} (now : UInt64) {i : ℕ}
    {e : CacheEntry Msg} (hslot : node.cache[i]? = some (some e)) :
    (tick node now).2.node.cache[i]? = some (some e) ∨ Drops node i e (.tick now) := by
  have hgrafted := graftLoop_cache now (List.range node.config.pendingSize.toNat) (node, [])
  have hconfig := (kept_graftLoop now (List.range node.config.pendingSize.toNat)
    (node, [])).config
  have hslot' := (congrArg (·[i]?) hgrafted).trans hslot
  unfold tick
  simp only
  split_ifs with httl
  · rcases expireLoop_keeps_or_expires now (List.range node.config.cacheSize.toNat) _ hslot'
      with hkept | hold
    · exact .inl hkept
    · rw [hconfig] at hold
      exact .inr (.expiry httl hold)
  · exact .inl hslot'

theorem performCall_keeps_or_drops {node : Node Id Msg} (call : Call Id Msg) {i : ℕ}
    {e : CacheEntry Msg} (hslot : node.cache[i]? = some (some e)) :
    (performCall node call).node.cache[i]? = some (some e) ∨ Drops node i e call := by
  cases call with
  | reset => exact .inr .reset
  | addPeer nodeId now =>
      exact .inl ((congrArg (·[i]?) (addPeer_cache node nodeId now)).trans hslot)
  | removePeer nodeId =>
      exact .inl ((congrArg (·[i]?) (removePeer_cache node nodeId)).trans hslot)
  | broadcast msgId payload now =>
      rw [performCall, broadcast]
      split_ifs with hempty
      · exact .inl hslot
      · rcases cacheInsert_keeps_or_overflows node msgId payload now hslot with hkept | hfull
        · exact .inl hkept
        · exact .inr (.overflowBroadcast hempty hfull)
  | recvGossip fromId msgId payload now =>
      exact recvGossip_keeps_or_drops fromId msgId payload now hslot
  | recvIhave fromId msgId now =>
      rw [performCall, recvIhave]
      split_ifs
      · exact .inl hslot
      · exact .inl ((congrArg (·[i]?) (pendingAdd_frame node msgId fromId now).2).trans hslot)
  | recvGraft fromId msgId now =>
      exact .inl ((congrArg (·[i]?) (setLink_cache .eager node fromId now)).trans hslot)
  | recvPrune fromId now =>
      exact .inl ((congrArg (·[i]?) (setLink_cache .lazy node fromId now)).trans hslot)
  | tick now => exact tick_keeps_or_drops now hslot

/-- An entry which is gone at the end of a run was dropped by one of its calls. -/
theorem run_keeps_or_drops {node final : Node Id Msg} {calls : List (Call Id Msg)}
    (hrun : runs.run node calls = some final) {i : ℕ} {e : CacheEntry Msg}
    (hslot : node.cache[i]? = some (some e)) :
    final.cache[i]? = some (some e) ∨ ∃ front call back holder, calls = front ++ call :: back ∧
      runs.run node front = some holder ∧ holder.cache[i]? = some (some e) ∧
      Drops holder i e call := by
  refine runs.run_keeps_or_loses (motive := fun n => n.cache[i]? = some (some e)) ?_
    hslot hrun
  intro state call next hstate hstep
  obtain rfl : (performCall state call).node = next := Option.some.inj hstep
  exact performCall_keeps_or_drops call hstate

/-! ## Learning and delivering -/

/-- The call makes a call of `deliver_fn` for the message. -/
def Delivers (node : Node Id Msg) (call : Call Id Msg) (msgId : Msg) : Prop :=
  ∃ d ∈ (performCall node call).delivers, d.msgId = msgId

/-- The call delivers the message, or it broadcasts it from this node with a
payload. -/
def Learns (node : Node Id Msg) (call : Call Id Msg) (msgId : Msg) : Prop :=
  Delivers node call msgId ∨
    ∃ payload now, call = .broadcast msgId payload now ∧ payload.length ≠ 0

/-- Only a gossip message which is not in the cache is delivered. -/
theorem Delivers.recvGossip_new {node : Node Id Msg} {call : Call Id Msg} {msgId : Msg}
    (hdeliver : Delivers node call msgId) :
    ∃ fromId payload now, call = .recvGossip fromId msgId payload now ∧
      hasMsg node msgId = false := by
  obtain ⟨d, hmem, hid⟩ := hdeliver
  cases call with
  | recvGossip fromId other payload now =>
      rw [performCall] at hmem
      cases hmsg : hasMsg node other with
      | true =>
          rw [recvGossip_of_known hmsg] at hmem
          exact absurd hmem List.not_mem_nil
      | false =>
          rw [recvGossip_of_new hmsg] at hmem
          obtain rfl := List.mem_singleton.mp hmem
          subst hid
          exact ⟨fromId, payload, now, rfl, hmsg⟩
  | broadcast other payload now =>
      rw [performCall, broadcast] at hmem
      split_ifs at hmem
      · exact absurd hmem List.not_mem_nil
      · exact absurd hmem List.not_mem_nil
  | _ => exact absurd hmem List.not_mem_nil

theorem hasMsg_of_learns {node : Node Id Msg} (hcache : 0 < node.cache.length)
    {call : Call Id Msg} {msgId : Msg} (hlearn : Learns node call msgId) :
    hasMsg (performCall node call).node msgId = true := by
  rcases hlearn with hdeliver | ⟨payload, now, rfl, hpayload⟩
  · obtain ⟨fromId, payload, now, rfl, hmsg⟩ := hdeliver.recvGossip_new
    rw [performCall, recvGossip_of_new hmsg, hasMsg, recvNew_cache]
    have hcached : 0 < (counted node).cache.length := hcache
    exact hasMsg_cacheInsert hcached msgId payload now
  · rw [performCall, broadcast, if_neg hpayload]
    exact hasMsg_cacheInsert hcache msgId payload now

omit [DecidableEq Id] in
theorem hasMsg_of_slot {node : Node Id Msg} {i : ℕ} {e : CacheEntry Msg}
    (hslot : node.cache[i]? = some (some e)) : hasMsg node e.msgId = true :=
  hasMsg_iff.mpr ⟨e, List.mem_of_getElem? hslot, rfl⟩

/-! ## The result of `recv_gossip` -/

/-- What a new message does: one delivery, and the message to every peer but the
sender, in full over an EAGER link and as a notice over a LAZY one. -/
def DeliversAndForwards (node : Node Id Msg) (fromId : Id) (msgId : Msg)
    (payload : List UInt8) (out : Outcome Id Msg) : Prop :=
  out.delivers = [⟨msgId, payload, fromId⟩] ∧
    out.sends = (node.peers.filter fun p => p.nodeId ≠ fromId).map (announce msgId payload)

theorem filter_touch (link : Link) (nodeId : Id) (now : UInt64) (peers : List (Peer Id)) :
    (peers.map (touch link nodeId now)).filter (fun p => p.nodeId ≠ nodeId) =
      peers.filter fun p => p.nodeId ≠ nodeId := by
  rw [List.filter_map]
  have hsame : ((fun p : Peer Id => decide (p.nodeId ≠ nodeId)) ∘ touch link nodeId now) =
      fun p => decide (p.nodeId ≠ nodeId) := by
    funext p
    rw [Function.comp_apply, touch_nodeId]
  rw [hsame]
  refine (List.map_congr_left fun p hp => ?_).trans (List.map_id _)
  exact touch_of_ne (of_decide_eq_true (List.mem_filter.mp hp).2)

theorem recvNew_sends {node : Node Id Msg} (hnodup : (peerIds node).Nodup) (fromId : Id)
    (msgId : Msg) (payload : List UInt8) (now : UInt64) :
    (recvNew node fromId msgId payload now).sends =
      (node.peers.filter fun p => p.nodeId ≠ fromId).map (announce msgId payload) := by
  have hkept := (kept_cacheInsert node msgId payload now).trans
    (kept_pendingRemoveMsg (cacheInsert node msgId payload now) msgId)
  have hpeers : (pendingRemoveMsg (cacheInsert node msgId payload now) msgId).peers =
      node.peers := by
    rw [(pendingRemoveMsg_frame _ msgId).1, cacheInsert]
    split
    · rfl
    · rfl
  rw [recvNew]
  simp only
  rw [promoteEager, setLink_peers .eager (hkept.peerIds ▸ hnodup), hpeers, filter_touch]

theorem recvGossip_true_iff {node : Node Id Msg} (hnodup : (peerIds node).Nodup)
    (fromId : Id) (msgId : Msg) (payload : List UInt8) (now : UInt64) :
    (recvGossip node fromId msgId payload now).1 = true ↔
      DeliversAndForwards node fromId msgId payload
        (recvGossip node fromId msgId payload now).2 := by
  cases hmsg : hasMsg node msgId with
  | true =>
      rw [recvGossip_of_known hmsg]
      constructor
      · intro htrue
        cases htrue
      · rintro ⟨hdelivers, _⟩
        cases hdelivers
  | false =>
      rw [recvGossip_of_new hmsg]
      have hcounted : (peerIds (counted node)).Nodup := hnodup
      have hsends := recvNew_sends hcounted fromId msgId payload now
      exact ⟨fun _ => ⟨rfl, hsends⟩, fun _ => rfl⟩

/-! ## At most once while remembered -/

/-- A message which the node has delivered or broadcast is cached, and it is not
delivered until every cache entry for it, the ones made meanwhile included, was
dropped; `recv_gossip` returns true exactly for the messages which it delivers
and forwards. -/
theorem at_most_once_while_remembered {node : Node Id Msg}
    (hreach : runs.Reachable node) :
    (∀ (first : Call Id Msg) (msgId : Msg), Learns node first msgId →
      hasMsg (performCall node first).node msgId = true ∧
      ∀ (middle : List (Call Id Msg)) (before : Node Id Msg) (second : Call Id Msg),
        runs.run (performCall node first).node middle = some before →
        Delivers before second msgId →
        ∀ (front back : List (Call Id Msg)) (state : Node Id Msg), front ++ back = middle →
          runs.run (performCall node first).node front = some state →
          ∀ (i : ℕ) (e : CacheEntry Msg), state.cache[i]? = some (some e) →
            e.msgId = msgId →
            ∃ pre call post holder, back = pre ++ call :: post ∧
              runs.run state pre = some holder ∧ holder.cache[i]? = some (some e) ∧
              Drops holder i e call) ∧
    ∀ (fromId : Id) (msgId : Msg) (payload : List UInt8) (now : UInt64),
      (recvGossip node fromId msgId payload now).1 = true ↔
        DeliversAndForwards node fromId msgId payload
          (recvGossip node fromId msgId payload now).2 := by
  have hwell := reachable_wellFormed hreach
  refine ⟨?_, recvGossip_true_iff hwell.ids_nodup⟩
  intro first msgId hlearn
  refine ⟨hasMsg_of_learns hwell.cache_ne_nil hlearn, ?_⟩
  intro middle before second hrun hdeliver front back state hsplit hfront i e hslot hid
  subst hsplit
  obtain ⟨state', hfront', hback⟩ := runs.run_append_eq_some.mp hrun
  obtain rfl : state = state' := Option.some.inj (hfront.symm.trans hfront')
  rcases run_keeps_or_drops hback hslot with hkept | hdropped
  · -- an entry which is still there makes the second message a duplicate
    obtain ⟨_, _, _, _, hunknown⟩ := hdeliver.recvGossip_new
    have hknown := hasMsg_of_slot hkept
    rw [hid, hunknown] at hknown
    cases hknown
  · exact hdropped

end Calls

/-- A node with one cache slot; the first gossip of message 7, its expiry and the
same gossip again. -/
def smallNode : Node ℕ ℕ :=
  create 0 (some ⟨4, 1, 1, 5000, 60000⟩)

theorem at_most_once_while_remembered_small :
    ∃ pre call post holder, ([.tick 70000] : List (Call ℕ ℕ)) = pre ++ call :: post ∧
      runs.run (performCall smallNode (.recvGossip 1 7 [42] 5)).node pre = some holder ∧
      holder.cache[0]? = some (some ⟨7, 5, [42]⟩) ∧ Drops holder 0 ⟨7, 5, [42]⟩ call := by
  have hreach : runs.Reachable smallNode := runs.reachable_of_initial ⟨0, _, rfl⟩
  have hlearn : Learns smallNode (.recvGossip 1 7 [42] 5) 7 :=
    .inl ⟨⟨7, [42], 1⟩, by decide, rfl⟩
  exact ((at_most_once_while_remembered hreach).1 _ 7 hlearn).2 [.tick 70000] _
    (.recvGossip 1 7 [42] 80000) rfl ⟨⟨7, [42], 1⟩, by decide, rfl⟩ [] _ _ rfl rfl 0 _
    (by decide) rfl

end PlumTree
end LibWake
