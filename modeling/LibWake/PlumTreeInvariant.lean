import LibWake.DenseArray
import LibWake.PlumTreeModel

/-!
# What every PlumTree node keeps

The peer ids and the sizes of the tables change in three calls only; every other
handler keeps them.  From this, the invariant of one node's runs which the
overlay of several nodes rests on.
-/

namespace LibWake
namespace PlumTree

variable {Id Msg : Type}

def peerIds (node : Node Id Msg) : List Id := node.peers.map Peer.nodeId

/-! ## Handlers which keep the peers -/

/-- The identity, the peer ids and the size of the cache stay. -/
structure Kept (before after : Node Id Msg) : Prop where
  config : after.config = before.config
  selfId : after.selfId = before.selfId
  peerIds : peerIds after = peerIds before
  cache_length : after.cache.length = before.cache.length

theorem Kept.refl (node : Node Id Msg) : Kept node node := ⟨rfl, rfl, rfl, rfl⟩

theorem Kept.trans {a b c : Node Id Msg} (hab : Kept a b) (hbc : Kept b c) : Kept a c :=
  ⟨hbc.config.trans hab.config, hbc.selfId.trans hab.selfId,
    hbc.peerIds.trans hab.peerIds, hbc.cache_length.trans hab.cache_length⟩

theorem kept_cacheInsert (node : Node Id Msg) (msgId : Msg) (payload : List UInt8)
    (now : UInt64) : Kept node (cacheInsert node msgId payload now) := by
  unfold cacheInsert
  split
  · exact ⟨rfl, rfl, rfl, List.length_set⟩
  · exact ⟨rfl, rfl, rfl, List.length_set⟩

theorem kept_broadcast (node : Node Id Msg) (msgId : Msg) (payload : List UInt8)
    (now : UInt64) : Kept node (broadcast node msgId payload now).node := by
  have hcached := kept_cacheInsert node msgId payload now
  unfold broadcast
  split_ifs
  · exact .refl node
  · exact ⟨hcached.config, hcached.selfId, hcached.peerIds, hcached.cache_length⟩

theorem kept_expireStep (now : UInt64) (node : Node Id Msg) (i : ℕ) :
    Kept node (expireStep now node i) := by
  unfold expireStep
  split
  · split_ifs
    · exact ⟨rfl, rfl, rfl, List.length_set⟩
    · exact .refl _
  · exact .refl _

theorem kept_expireLoop (now : UInt64) (slots : List ℕ) (node : Node Id Msg) :
    Kept node (slots.foldl (expireStep now) node) := by
  induction slots generalizing node with
  | nil => exact .refl _
  | cons i rest ih => exact (kept_expireStep now node i).trans (ih _)

section Messages

variable [DecidableEq Msg]

theorem kept_pendingAdd (node : Node Id Msg) (msgId : Msg) (fromId : Id)
    (now : UInt64) : Kept node (pendingAdd node msgId fromId now) := by
  unfold pendingAdd
  split
  · exact ⟨rfl, rfl, rfl, rfl⟩
  · split
    · exact ⟨rfl, rfl, rfl, rfl⟩
    · split
      · exact ⟨rfl, rfl, rfl, rfl⟩
      · exact .refl node

theorem pendingAdd_frame (node : Node Id Msg) (msgId : Msg) (fromId : Id)
    (now : UInt64) :
    (pendingAdd node msgId fromId now).peers = node.peers ∧
      (pendingAdd node msgId fromId now).cache = node.cache := by
  unfold pendingAdd
  split
  · exact ⟨rfl, rfl⟩
  · split
    · exact ⟨rfl, rfl⟩
    · split
      · exact ⟨rfl, rfl⟩
      · exact ⟨rfl, rfl⟩

theorem pendingRemoveMsg_frame (node : Node Id Msg) (msgId : Msg) :
    (pendingRemoveMsg node msgId).peers = node.peers ∧
      (pendingRemoveMsg node msgId).cache = node.cache := by
  unfold pendingRemoveMsg
  split
  · exact ⟨rfl, rfl⟩
  · exact ⟨rfl, rfl⟩

theorem kept_pendingRemoveMsg (node : Node Id Msg) (msgId : Msg) :
    Kept node (pendingRemoveMsg node msgId) := by
  unfold pendingRemoveMsg
  split
  · exact ⟨rfl, rfl, rfl, rfl⟩
  · exact .refl node

theorem kept_recvIhave (node : Node Id Msg) (fromId : Id) (msgId : Msg) (now : UInt64) :
    Kept node (recvIhave node fromId msgId now).node := by
  unfold recvIhave
  simp only
  split_ifs
  · exact .refl node
  · exact kept_pendingAdd node msgId fromId now

end Messages

section Links

variable [DecidableEq Id]

theorem setLink_cache (link : Link) (node : Node Id Msg) (nodeId : Id) (now : UInt64) :
    (setLink link node nodeId now).cache = node.cache := by
  unfold setLink
  split
  · rfl
  · rfl

theorem kept_setLink (link : Link) (node : Node Id Msg) (nodeId : Id) (now : UInt64) :
    Kept node (setLink link node nodeId now) := by
  unfold setLink
  split
  · refine ⟨rfl, rfl, ?_, rfl⟩
    apply List.ext_getElem
    · simp [peerIds]
    · intro i hi _
      simp only [peerIds, List.getElem_map, List.getElem_modify]
      split_ifs
      · rfl
      · rfl
  · exact .refl node

theorem kept_graftStep (now : UInt64) (state : Node Id Msg × List (Send Id Msg))
    (i : ℕ) : Kept state.1 (graftStep now state i).1 := by
  unfold graftStep
  split
  · split_ifs
    · exact (kept_setLink .eager state.1 _ now).trans ⟨rfl, rfl, rfl, rfl⟩
    · exact .refl _
  · exact .refl _

theorem kept_graftLoop (now : UInt64) (slots : List ℕ)
    (state : Node Id Msg × List (Send Id Msg)) :
    Kept state.1 (slots.foldl (graftStep now) state).1 := by
  induction slots generalizing state with
  | nil => exact .refl _
  | cons i rest ih => exact (kept_graftStep now state i).trans (ih _)

theorem kept_tick (node : Node Id Msg) (now : UInt64) :
    Kept node (tick node now).2.node := by
  have hgrafted := kept_graftLoop now (List.range node.config.pendingSize.toNat)
    (node, [])
  unfold tick
  simp only
  split_ifs
  · exact hgrafted.trans (kept_expireLoop now _ _)
  · exact hgrafted

theorem kept_recvDuplicate (node : Node Id Msg) (fromId : Id) (msgId : Msg)
    (now : UInt64) : Kept node (recvDuplicate node fromId msgId now).node := by
  have hcounted : Kept node { node with
      duplicates := node.duplicates + 1
      prunesSent := node.prunesSent + 1 } := ⟨rfl, rfl, rfl, rfl⟩
  exact hcounted.trans (kept_setLink _ _ _ _)

end Links

section Handlers

variable [DecidableEq Id] [DecidableEq Msg]

theorem kept_recvNew (node : Node Id Msg) (fromId : Id) (msgId : Msg)
    (payload : List UInt8) (now : UInt64) :
    Kept node (recvNew node fromId msgId payload now).node :=
  ((kept_cacheInsert node msgId payload now).trans (kept_pendingRemoveMsg _ msgId)).trans
    (kept_setLink _ _ _ _)

theorem kept_recvGossip (node : Node Id Msg) (fromId : Id) (msgId : Msg)
    (payload : List UInt8) (now : UInt64) :
    Kept node (recvGossip node fromId msgId payload now).2.node := by
  have hreceived : Kept node
      { node with messagesReceived := node.messagesReceived + 1 } := ⟨rfl, rfl, rfl, rfl⟩
  unfold recvGossip
  simp only
  split_ifs
  · exact hreceived.trans (kept_recvDuplicate _ _ _ _)
  · exact hreceived.trans (kept_recvNew _ _ _ _ _)

theorem kept_recvGraft (node : Node Id Msg) (fromId : Id) (msgId : Msg) (now : UInt64) :
    Kept node (recvGraft node fromId msgId now).node := by
  have hpromoted := kept_setLink .eager node fromId now
  exact ⟨hpromoted.config, hpromoted.selfId, hpromoted.peerIds, hpromoted.cache_length⟩

end Handlers

/-! ## The invariant -/

/-- What holds of the peers and the cache of a node in every run. -/
structure WellFormed (node : Node Id Msg) : Prop where
  cache_length : node.cache.length = node.config.cacheSize.toNat
  cache_pos : 0 < node.config.cacheSize.toNat
  ids_nodup : (peerIds node).Nodup
  self_not_peer : node.selfId ∉ peerIds node

theorem WellFormed.kept {before after : Node Id Msg} (hwell : WellFormed before)
    (hkept : Kept before after) : WellFormed after := by
  obtain ⟨hlength, hpos, hnodup, hself⟩ := hwell
  constructor
  · rw [hkept.cache_length, hkept.config, hlength]
  · rwa [hkept.config]
  · rwa [hkept.peerIds]
  · rwa [hkept.peerIds, hkept.selfId]

theorem WellFormed.cache_ne_nil {node : Node Id Msg} (hwell : WellFormed node) :
    0 < node.cache.length := by
  rw [hwell.cache_length]
  exact hwell.cache_pos

theorem enforced_cacheSize_pos (cfg : Config) : 0 < cfg.enforced.cacheSize.toNat := by
  unfold Config.enforced
  simp only
  split_ifs with hzero
  · decide
  · rw [Nat.pos_iff_ne_zero]
    intro hnat
    exact hzero (UInt16.toNat_inj.mp hnat)

theorem wellFormed_emptyNode (selfId : Id) {config : Config}
    (hpos : 0 < config.cacheSize.toNat) :
    WellFormed (emptyNode selfId config : Node Id Msg) :=
  ⟨List.length_replicate, hpos, List.nodup_nil, List.not_mem_nil⟩

section Peers

variable [DecidableEq Id]

theorem findPeer_isSome_iff (peers : List (Peer Id)) (nodeId : Id) :
    (findPeer peers nodeId).isSome ↔ nodeId ∈ peers.map Peer.nodeId := by
  rw [findPeer, List.findIdx?_isSome, List.any_eq_true, List.mem_map]
  simp only [decide_eq_true_eq]

theorem wellFormed_addPeer {node : Node Id Msg} (hwell : WellFormed node) (nodeId : Id)
    (now : UInt64) : WellFormed (addPeer node nodeId now).2 := by
  unfold addPeer
  split_ifs with hself hexists hfull
  · exact hwell
  · exact hwell
  · exact hwell
  · have hnew : nodeId ∉ peerIds node := fun hmem =>
      hexists ((findPeer_isSome_iff node.peers nodeId).mpr hmem)
    have hids : (node.peers ++ [(⟨nodeId, now, .eager⟩ : Peer Id)]).map Peer.nodeId =
        peerIds node ++ [nodeId] := List.map_append
    refine ⟨hwell.cache_length, hwell.cache_pos, ?_, ?_⟩
    · rw [peerIds, hids]
      refine List.nodup_append.mpr ⟨hwell.ids_nodup, List.nodup_singleton _, ?_⟩
      intro a ha b hb hab
      rw [List.mem_singleton.mp hb] at hab
      exact hnew (hab ▸ ha)
    · rw [peerIds, hids]
      intro hmem
      rcases List.mem_append.mp hmem with hold | hlast
      · exact hwell.self_not_peer hold
      · exact hself (List.mem_singleton.mp hlast).symm

theorem wellFormed_removePeer {node : Node Id Msg} (hwell : WellFormed node)
    (nodeId : Id) : WellFormed (removePeer node nodeId).2 := by
  unfold removePeer
  split
  · exact hwell
  · rename_i idx hfind
    split
    · exact hwell
    · rename_i last hlast
      obtain ⟨hidx, _⟩ := List.findIdx?_eq_some_iff_getElem.mp hfind
      have hperm := (DenseArray.set_dropLast_perm hidx hlast).map Peer.nodeId
      have hnodup := hperm.nodup_iff.mp hwell.ids_nodup
      refine ⟨hwell.cache_length, hwell.cache_pos, (List.nodup_cons.mp hnodup).2, ?_⟩
      intro hmem
      exact hwell.self_not_peer (hperm.symm.subset (List.mem_cons_of_mem _ hmem))

end Peers

section Runs

variable [DecidableEq Id] [DecidableEq Msg]

theorem wellFormed_performCall {node : Node Id Msg} (hwell : WellFormed node)
    (call : Call Id Msg) : WellFormed (performCall node call).node := by
  cases call with
  | reset => exact wellFormed_emptyNode node.selfId hwell.cache_pos
  | addPeer nodeId now => exact wellFormed_addPeer hwell nodeId now
  | removePeer nodeId => exact wellFormed_removePeer hwell nodeId
  | broadcast msgId payload now => exact hwell.kept (kept_broadcast _ _ _ _)
  | recvGossip fromId msgId payload now => exact hwell.kept (kept_recvGossip _ _ _ _ _)
  | recvIhave fromId msgId now => exact hwell.kept (kept_recvIhave _ _ _ _)
  | recvGraft fromId msgId now => exact hwell.kept (kept_recvGraft _ _ _ _)
  | recvPrune fromId now => exact hwell.kept (kept_setLink _ _ _ _)
  | tick now => exact hwell.kept (kept_tick _ _)

theorem reachable_wellFormed {node : Node Id Msg} (hreach : runs.Reachable node) :
    WellFormed node := by
  refine hreach.invariant (motive := WellFormed) ?_ ?_
  · rintro _ ⟨selfId, cfg, rfl⟩
    exact wellFormed_emptyNode selfId (enforced_cacheSize_pos _)
  · intro state call next hwell hstep
    obtain rfl : (performCall state call).node = next := Option.some.inj hstep
    exact wellFormed_performCall hwell call

end Runs

/-! ## Links -/

section Links

variable [DecidableEq Id]

/-- What `promote_eager` and `demote_lazy` make of a peer. -/
def touch (link : Link) (nodeId : Id) (now : UInt64) (p : Peer Id) : Peer Id :=
  if p.nodeId = nodeId then { p with linkType := link, lastActiveMs := now } else p

@[simp] theorem touch_nodeId (link : Link) (nodeId : Id) (now : UInt64) (p : Peer Id) :
    (touch link nodeId now p).nodeId = p.nodeId := by
  unfold touch
  split_ifs
  · rfl
  · rfl

theorem touch_linkType (link : Link) (nodeId : Id) (now : UInt64) (p : Peer Id) :
    (touch link nodeId now p).linkType =
      if p.nodeId = nodeId then link else p.linkType := by
  unfold touch
  split_ifs
  · rfl
  · rfl

theorem touch_of_ne {link : Link} {nodeId : Id} {now : UInt64} {p : Peer Id}
    (hne : p.nodeId ≠ nodeId) : touch link nodeId now p = p :=
  if_neg hne

theorem map_touch_of_not_mem {link : Link} {nodeId : Id} {now : UInt64}
    {peers : List (Peer Id)} (hnot : nodeId ∉ peers.map Peer.nodeId) :
    peers.map (touch link nodeId now) = peers := by
  refine (List.map_congr_left fun p hp => ?_).trans (List.map_id peers)
  exact touch_of_ne fun heq => hnot (heq ▸ List.mem_map_of_mem hp)

/-- With distinct ids the first peer with an id is the only one. -/
theorem modify_findPeer (link : Link) (nodeId : Id) (now : UInt64)
    {peers : List (Peer Id)} (hnodup : (peers.map Peer.nodeId).Nodup) {idx : ℕ}
    (hfind : findPeer peers nodeId = some idx) :
    (peers.modify idx fun p => { p with linkType := link, lastActiveMs := now }) =
      peers.map (touch link nodeId now) := by
  induction peers generalizing idx with
  | nil => cases hfind
  | cons p rest ih =>
      rw [List.map_cons, List.nodup_cons] at hnodup
      rw [findPeer, List.findIdx?_cons] at hfind
      by_cases hp : p.nodeId = nodeId
      · rw [if_pos (decide_eq_true hp), Option.some.injEq] at hfind
        subst hfind
        have hothers : rest.map (touch link nodeId now) = rest :=
          map_touch_of_not_mem (hp ▸ hnodup.1)
        rw [List.modify_zero_cons, List.map_cons, hothers, touch, if_pos hp]
      · rw [if_neg (by simpa using hp)] at hfind
        obtain ⟨i, hi, rfl⟩ := Option.map_eq_some_iff.mp hfind
        rw [List.modify_succ_cons, List.map_cons, touch_of_ne hp, ih hnodup.2 hi]

theorem setLink_peers (link : Link) {node : Node Id Msg} (hnodup : (peerIds node).Nodup)
    (nodeId : Id) (now : UInt64) :
    (setLink link node nodeId now).peers = node.peers.map (touch link nodeId now) := by
  unfold setLink
  cases hfind : findPeer node.peers nodeId with
  | none =>
      have hnot : nodeId ∉ node.peers.map Peer.nodeId := by
        rw [← findPeer_isSome_iff, hfind]
        exact Bool.false_ne_true
      exact (map_touch_of_not_mem hnot).symm
  | some idx => exact modify_findPeer link nodeId now hnodup hfind

theorem peerLink_eq_of_mem {node : Node Id Msg} (hnodup : (peerIds node).Nodup)
    {p : Peer Id} (hmem : p ∈ node.peers) : peerLink node p.nodeId = some p.linkType := by
  obtain ⟨idx, hfind⟩ := Option.isSome_iff_exists.mp
    ((findPeer_isSome_iff node.peers p.nodeId).mpr (List.mem_map_of_mem hmem))
  obtain ⟨hidx, hid, _⟩ := List.findIdx?_eq_some_iff_getElem.mp hfind
  have hsame : node.peers[idx] = p :=
    List.inj_on_of_nodup_map hnodup (List.getElem_mem hidx) hmem (of_decide_eq_true hid)
  rw [peerLink, hfind, Option.bind_some, List.getElem?_eq_getElem hidx, hsame]
  rfl

theorem peerLink_eq_none_iff {node : Node Id Msg} {nodeId : Id} :
    peerLink node nodeId = none ↔ nodeId ∉ peerIds node := by
  rw [peerIds, ← findPeer_isSome_iff, peerLink]
  cases hfind : findPeer node.peers nodeId with
  | none => simp
  | some idx =>
      obtain ⟨hidx, _⟩ := List.findIdx?_eq_some_iff_getElem.mp hfind
      simp [hidx]

end Links

/-! ## Cached messages -/

section Cache

variable [DecidableEq Msg]

theorem hasMsg_iff {node : Node Id Msg} {msgId : Msg} :
    hasMsg node msgId = true ↔ ∃ e, some e ∈ node.cache ∧ e.msgId = msgId := by
  rw [hasMsg, cacheFind, List.findSome?_isSome_iff]
  constructor
  · rintro ⟨slot, hmem, hslot⟩
    obtain ⟨e, he⟩ := Option.isSome_iff_exists.mp hslot
    rw [Option.filter_eq_some_iff] at he
    exact ⟨e, he.1 ▸ hmem, of_decide_eq_true he.2⟩
  · rintro ⟨e, hmem, hid⟩
    refine ⟨some e, hmem, Option.isSome_iff_exists.mpr ⟨e, ?_⟩⟩
    rw [Option.filter_eq_some_iff]
    exact ⟨rfl, decide_eq_true hid⟩

omit [DecidableEq Msg] in
theorem oldestCached_lt {cache : List (Option (CacheEntry Msg))}
    (hcache : 0 < cache.length) : oldestCached cache < cache.length := by
  unfold oldestCached
  refine List.foldlRecOn (motive := fun oldest => oldest < cache.length) _ _ hcache ?_
  intro oldest holdest i hi
  rw [List.mem_range'_1] at hi
  split
  · split_ifs
    · omega
    · exact holdest
  · exact holdest

theorem hasMsg_cacheInsert {node : Node Id Msg} (hcache : 0 < node.cache.length)
    (msgId : Msg) (payload : List UInt8) (now : UInt64) :
    hasMsg (cacheInsert node msgId payload now) msgId = true := by
  have hslot : ∀ i, i < node.cache.length →
      some (⟨msgId, now, payload.take maxPayload⟩ : CacheEntry Msg) ∈
        node.cache.set i (some ⟨msgId, now, payload.take maxPayload⟩) := fun i hi =>
    List.mem_set hi _
  rw [hasMsg_iff]
  unfold cacheInsert
  cases hfree : node.cache.findIdx? Option.isNone with
  | some i =>
      obtain ⟨hi, _⟩ := List.findIdx?_eq_some_iff_getElem.mp hfree
      exact ⟨_, hslot i hi, rfl⟩
  | none => exact ⟨_, hslot _ (oldestCached_lt hcache), rfl⟩

theorem hasMsg_of_hasMsg_cacheInsert {node : Node Id Msg} {msgId other : Msg}
    {payload : List UInt8} {now : UInt64} (hne : other ≠ msgId)
    (hmsg : hasMsg (cacheInsert node other payload now) msgId = true) :
    hasMsg node msgId = true := by
  have hslot : ∀ i e, some e ∈ node.cache.set i
      (some (⟨other, now, payload.take maxPayload⟩ : CacheEntry Msg)) →
      e.msgId = msgId → some e ∈ node.cache := by
    intro i e hmem hid
    rcases List.mem_or_eq_of_mem_set hmem with hold | hnew
    · exact hold
    · obtain rfl := Option.some.inj hnew
      exact absurd hid hne
  obtain ⟨e, hmem, hid⟩ := hasMsg_iff.mp hmsg
  refine hasMsg_iff.mpr ⟨e, ?_, hid⟩
  unfold cacheInsert at hmem
  split at hmem
  · exact hslot _ e hmem hid
  · exact hslot _ e hmem hid

end Cache

end PlumTree
end LibWake
