import LibWake.PlumTreeSteady
import LibWake.SlotPass
import LibWake.SlotTable

/-!
# The tables of a PlumTree node

The cache and the pending table have counters beside them.  Every operation knows
whether it fills a free slot, overwrites an entry or clears one, so the counters are
the numbers of entries in every reachable state.
-/

namespace LibWake
namespace PlumTree

open SlotTable

variable {Id Msg : Type}

/-! ## One tick -/

/-- The entry has waited for the lazy timeout. -/
def overdue (node : Node Id Msg) (now : UInt64) (p : Pending Id Msg) : Bool :=
  elapsed now p.receivedMs node.config.lazyTimeoutMs

/-- The entry is past its time to live, when there is one. -/
def expired (node : Node Id Msg) (now : UInt64) (e : CacheEntry Msg) : Bool :=
  node.config.cacheTtlMs > 0 && elapsed now e.receivedMs node.config.cacheTtlMs

def graftFor (p : Pending Id Msg) : Send Id Msg :=
  { msgType := .graft, target := p.fromId, msgId := p.msgId, payload := [] }

/-- The GRAFTs of the overdue entries, in the order of the slots. -/
def grafts (node : Node Id Msg) (now : UInt64) (pending : List (Option (Pending Id Msg))) :
    List (Send Id Msg) :=
  pending.filterMap fun slot => (slot.filter (overdue node now)).map graftFor

theorem expireLoop_spec (node : Node Id Msg) (now : UInt64) {size : ℕ}
    (hlength : node.cache.length = size) (hcount : node.cacheCount = occupied node.cache) :
    ∃ cache count evictions, count = occupied cache ∧
      cache = node.cache.map (Option.filter fun e =>
        !elapsed now e.receivedMs node.config.cacheTtlMs) ∧
      (List.range size).foldl (expireStep now) node =
        { node with cache := cache, cacheCount := count, cacheEvictions := evictions } := by
  subst hlength
  set keep : Option (CacheEntry Msg) → Option (CacheEntry Msg) :=
    Option.filter fun e => !elapsed now e.receivedMs node.config.cacheTtlMs
  rw [← swept_length keep node.cache]
  have hloop := @SlotPass.foldl_range_induction _ (expireStep now) node
    (fun k state => ∃ count evictions, count = occupied (swept keep node.cache k) ∧
      state = { node with
        cache := swept keep node.cache k
        cacheCount := count
        cacheEvictions := evictions })
    node.cache.length ⟨_, _, hcount, rfl⟩ ?_
  · obtain ⟨count, evictions, hoccupied, hstate⟩ := hloop
    exact ⟨_, count, evictions, hoccupied, rfl, hstate⟩
  · rintro k _ hk ⟨count, evictions, hoccupied, rfl⟩
    have hget := getElem?_swept_self keep hk
    have hset := set_swept keep hk
    cases hslot : node.cache[k] with
    | none =>
        have hsame := @swept_of_eq _ keep _ _ hk (by rw [hslot]; rfl)
        rw [hslot] at hget
        refine ⟨count, evictions, by rw [hsame, hoccupied], ?_⟩
        simp only [expireStep, hget, hsame]
    | some e =>
        rw [hslot] at hget hset
        cases hover : elapsed now e.receivedMs node.config.cacheTtlMs with
        | false =>
            have hsame := @swept_of_eq _ keep _ _ hk (by simp [hslot, keep, hover])
            refine ⟨count, evictions, by rw [hsame, hoccupied], ?_⟩
            simp only [expireStep, hget, hover, hsame]
            rfl
        | true =>
            have hnone : keep (some e) = none := by simp [keep, hover]
            rw [hnone] at hset
            refine ⟨count - 1, evictions + 1, ?_, ?_⟩
            · rw [← hset, occupied_clear hget, hoccupied]
            · simp only [expireStep, hget, hover, if_true, hset]

section Links

variable [DecidableEq Id]

theorem addPeer_frame (node : Node Id Msg) (nodeId : Id) (now : UInt64) :
    ∃ peers, (addPeer node nodeId now).2 = { node with peers := peers } := by
  unfold addPeer
  split_ifs
  · exact ⟨node.peers, rfl⟩
  · exact ⟨node.peers, rfl⟩
  · exact ⟨node.peers, rfl⟩
  · exact ⟨_, rfl⟩

theorem removePeer_frame (node : Node Id Msg) (nodeId : Id) :
    ∃ peers, (removePeer node nodeId).2 = { node with peers := peers } := by
  unfold removePeer
  split
  · exact ⟨node.peers, rfl⟩
  · split
    · exact ⟨node.peers, rfl⟩
    · exact ⟨_, rfl⟩

theorem setLink_frame (link : Link) (node : Node Id Msg) (nodeId : Id) (now : UInt64) :
    ∃ peers, setLink link node nodeId now = { node with peers := peers } := by
  unfold setLink
  split
  · exact ⟨_, rfl⟩
  · exact ⟨node.peers, rfl⟩

omit [DecidableEq Id] in
theorem grafts_take_succ (node : Node Id Msg) (now : UInt64)
    {pending : List (Option (Pending Id Msg))} {k : ℕ} (hk : k < pending.length) :
    grafts node now (pending.take (k + 1)) =
      grafts node now (pending.take k) ++
        ((pending[k].filter (overdue node now)).map graftFor).toList := by
  rw [grafts, List.take_succ_eq_append_getElem hk, List.filterMap_append, grafts]
  cases hsent : (pending[k].filter (overdue node now)).map graftFor with
  | none => simp [hsent]
  | some sent => simp [hsent]

theorem graftLoop_spec (node : Node Id Msg) (now : UInt64) {size : ℕ}
    (hlength : node.pending.length = size)
    (hcount : node.pendingCount = occupied node.pending) :
    ∃ peers pending count graftsSent, count = occupied pending ∧
      pending = node.pending.map (Option.filter fun p => !overdue node now p) ∧
      (List.range size).foldl (graftStep now) (node, []) =
        ({ node with
            peers := peers
            pending := pending
            pendingCount := count
            graftsSent := graftsSent }, grafts node now node.pending) := by
  subst hlength
  set keep : Option (Pending Id Msg) → Option (Pending Id Msg) :=
    Option.filter fun p => !overdue node now p
  rw [← swept_length keep node.pending]
  have hloop := @SlotPass.foldl_range_induction _ (graftStep now) (node, [])
    (fun k state => ∃ peers count graftsSent,
      count = occupied (swept keep node.pending k) ∧
      state = ({ node with
        peers := peers
        pending := swept keep node.pending k
        pendingCount := count
        graftsSent := graftsSent }, grafts node now (node.pending.take k)))
    node.pending.length ⟨_, _, _, hcount, rfl⟩ ?_
  · obtain ⟨peers, count, graftsSent, hoccupied, hstate⟩ := hloop
    rw [List.take_length] at hstate
    exact ⟨peers, _, count, graftsSent, hoccupied, rfl, hstate⟩
  · rintro k _ hk ⟨peers, count, graftsSent, hoccupied, rfl⟩
    have hget := getElem?_swept_self keep hk
    have hset := set_swept keep hk
    rw [grafts_take_succ node now hk]
    cases hslot : node.pending[k] with
    | none =>
        have hsame := @swept_of_eq _ keep _ _ hk (by rw [hslot]; rfl)
        rw [hslot] at hget
        refine ⟨peers, count, graftsSent, by rw [hsame, hoccupied], ?_⟩
        simp [graftStep, hget, hsame]
    | some p =>
        rw [hslot] at hget hset
        cases hover : overdue node now p with
        | false =>
            have hsame := @swept_of_eq _ keep _ _ hk (by simp [hslot, keep, hover])
            refine ⟨peers, count, graftsSent, by rw [hsame, hoccupied], ?_⟩
            have hnot : elapsed now p.receivedMs node.config.lazyTimeoutMs = false := hover
            rw [Option.filter_some_neg (by simp [hover])]
            simp [graftStep, hget, hnot, hsame]
        | true =>
            have hnone : keep (some p) = none := by simp [keep, hover]
            rw [hnone] at hset
            obtain ⟨promoted, hpromoted⟩ := setLink_frame .eager
              { node with
                peers := peers
                pending := swept keep node.pending k
                pendingCount := count
                graftsSent := graftsSent } p.fromId now
            refine ⟨promoted, count - 1, graftsSent + 1, ?_, ?_⟩
            · rw [← hset, occupied_clear hget, hoccupied]
            · have hdue : elapsed now p.receivedMs node.config.lazyTimeoutMs = true := hover
              simp only [graftStep, hget, hdue, if_true, promoteEager, hpromoted, hset]
              rw [Option.filter_some_pos hover]
              rfl

/-- A tick sends GRAFT for the overdue entries and clears them, and then clears the
expired part of the cache; the counters follow. -/
theorem tick_spec {node : Node Id Msg} (hwell : WellFormed node)
    (hpending : node.pending.length = node.config.pendingSize.toNat)
    (hpendingCount : node.pendingCount = occupied node.pending)
    (hcacheCount : node.cacheCount = occupied node.cache) (now : UInt64) :
    (tick node now).2.sends = grafts node now node.pending ∧
      (tick node now).2.node.pending =
        node.pending.map (Option.filter fun p => !overdue node now p) ∧
      (tick node now).2.node.pendingCount = occupied (tick node now).2.node.pending ∧
      (tick node now).2.node.cache =
        node.cache.map (Option.filter fun e => !expired node now e) ∧
      (tick node now).2.node.cacheCount = occupied (tick node now).2.node.cache := by
  obtain ⟨peers, pending, count, graftsSent, hoccupied, hcleared, hloop⟩ :=
    graftLoop_spec node now hpending hpendingCount
  unfold tick
  rw [hloop]
  by_cases httl : node.config.cacheTtlMs > 0
  · obtain ⟨cache, cached, evictions, hcached, hexpired, hexpire⟩ := expireLoop_spec
      { node with
        peers := peers
        pending := pending
        pendingCount := count
        graftsSent := graftsSent } now hwell.cache_length hcacheCount
    simp only [if_pos httl, hexpire]
    refine ⟨trivial, hcleared, hoccupied, ?_, hcached⟩
    rw [hexpired]
    simp [expired, httl]
  · simp only [if_neg httl]
    refine ⟨trivial, hcleared, hoccupied, ?_, hcacheCount⟩
    have hkeep : (Option.filter fun e : CacheEntry Msg => !expired node now e) = id := by
      funext slot
      cases slot with
      | none => rfl
      | some e => simp [expired, httl]
    rw [hkeep, List.map_id]

end Links

/-! ## The invariant -/

/-- The peers are within their bound, the counters are the numbers of entries, no
cached payload is longer than a slot, and each message is pending at most once. -/
structure TablesSound [DecidableEq Msg] (node : Node Id Msg) : Prop where
  room : node.peers.length ≤ node.config.maxPeers.toNat
  cache_count : node.cacheCount = occupied node.cache
  payload_len : ∀ e, some e ∈ node.cache → e.payload.length ≤ maxPayload
  pending_length : node.pending.length = node.config.pendingSize.toNat
  pending_count : node.pendingCount = occupied node.pending
  pending_single : ∀ msgId, pendingFor node.pending msgId ≤ 1

variable [DecidableEq Msg]

theorem tablesSound_emptyNode (selfId : Id) (config : Config) :
    TablesSound (emptyNode selfId config : Node Id Msg) where
  room := Nat.zero_le _
  cache_count := (occupied_replicate _).symm
  payload_len e hmem := by cases List.eq_of_mem_replicate hmem
  pending_length := List.length_replicate
  pending_count := (occupied_replicate _).symm
  pending_single msgId := by simp [pendingFor, emptyNode, List.countP_replicate]

omit [DecidableEq Msg] in
theorem Kept.peers_length {node after : Node Id Msg} (hkept : Kept node after) :
    after.peers.length = node.peers.length := by
  have hids := congrArg List.length hkept.peerIds
  rwa [PlumTree.peerIds, List.length_map, PlumTree.peerIds, List.length_map] at hids

/-- A change of the peers which keeps their ids, and of the counters of events. -/
theorem TablesSound.of_same {node after : Node Id Msg} (hsound : TablesSound node)
    (hkept : Kept node after) (hcache : after.cache = node.cache)
    (hcached : after.cacheCount = node.cacheCount) (hpending : after.pending = node.pending)
    (hcount : after.pendingCount = node.pendingCount) : TablesSound after := by
  constructor
  · rw [hkept.peers_length, hkept.config]
    exact hsound.room
  · rw [hcached, hcache, hsound.cache_count]
  · rw [hcache]
    exact hsound.payload_len
  · rw [hpending, hkept.config, hsound.pending_length]
  · rw [hcount, hpending, hsound.pending_count]
  · rw [hpending]
    exact hsound.pending_single

omit [DecidableEq Msg] in
theorem mem_cache_cacheInsert {node : Node Id Msg} {msgId : Msg} {payload : List UInt8}
    {now : UInt64} {e : CacheEntry Msg}
    (hmem : some e ∈ (cacheInsert node msgId payload now).cache) :
    some e ∈ node.cache ∨ e = ⟨msgId, now, payload.take maxPayload⟩ := by
  unfold cacheInsert at hmem
  split at hmem
  · exact (List.mem_or_eq_of_mem_set hmem).imp_right Option.some.inj
  · exact (List.mem_or_eq_of_mem_set hmem).imp_right Option.some.inj

omit [DecidableEq Msg] in
theorem cacheInsert_count {node : Node Id Msg} (hwell : WellFormed node)
    (hcount : node.cacheCount = occupied node.cache) (msgId : Msg) (payload : List UInt8)
    (now : UInt64) :
    (cacheInsert node msgId payload now).cacheCount =
      occupied (cacheInsert node msgId payload now).cache := by
  unfold cacheInsert
  cases hfree : node.cache.findIdx? Option.isNone with
  | some i =>
      simp only
      rw [occupied_fill (getElem?_of_free hfree), hcount]
  | none =>
      obtain ⟨victim, hget⟩ := getElem?_of_full hfree (oldestCached_lt hwell.cache_ne_nil)
      simp only
      rw [occupied_overwrite hget, hcount]

theorem TablesSound.cacheInsert {node : Node Id Msg} (hsound : TablesSound node)
    (hwell : WellFormed node) (msgId : Msg) (payload : List UInt8) (now : UInt64) :
    TablesSound (PlumTree.cacheInsert node msgId payload now) := by
  have hcount := cacheInsert_count hwell hsound.cache_count msgId payload now
  have hkept := kept_cacheInsert node msgId payload now
  have hframe : (PlumTree.cacheInsert node msgId payload now).peers = node.peers ∧
      (PlumTree.cacheInsert node msgId payload now).pending = node.pending ∧
      (PlumTree.cacheInsert node msgId payload now).pendingCount = node.pendingCount := by
    unfold PlumTree.cacheInsert
    split
    · exact ⟨rfl, rfl, rfl⟩
    · exact ⟨rfl, rfl, rfl⟩
  obtain ⟨hpeers, hpending, hpendingCount⟩ := hframe
  refine ⟨?_, hcount, fun e hmem => ?_, ?_, ?_, ?_⟩
  · rw [hpeers, hkept.config]
    exact hsound.room
  · rcases mem_cache_cacheInsert hmem with hold | rfl
    · exact hsound.payload_len e hold
    · exact List.length_take_le _ _
  · rw [hpending, hkept.config, hsound.pending_length]
  · rw [hpendingCount, hpending, hsound.pending_count]
  · rw [hpending]
    exact hsound.pending_single

theorem pendingFor_filter_le (pending : List (Option (Pending Id Msg)))
    (keep : Pending Id Msg → Bool) (msgId : Msg) :
    pendingFor (pending.map (Option.filter keep)) msgId ≤ pendingFor pending msgId := by
  rw [pendingFor, List.countP_map]
  refine List.countP_mono_left fun slot _ hany => ?_
  obtain ⟨p, hfilter, hid⟩ := (Option.any_eq_true _ _).mp hany
  obtain ⟨rfl, -⟩ := Option.filter_eq_some_iff.mp hfilter
  exact hid

theorem getElem?_of_pendingFind {pending : List (Option (Pending Id Msg))} {msgId : Msg}
    {i : ℕ} (hfind : pendingFind pending msgId = some i) :
    ∃ p, pending[i]? = some (some p) ∧ p.msgId = msgId := by
  obtain ⟨hi, hany, _⟩ := List.findIdx?_eq_some_iff_getElem.mp hfind
  obtain ⟨p, hp, hid⟩ := (Option.any_eq_true _ _).mp hany
  exact ⟨p, by rw [List.getElem?_eq_getElem hi, hp], of_decide_eq_true hid⟩

/-- A message found in the table overwrites its entry; another one fills a free slot,
and overwrites the oldest entry when there is none. -/
theorem pendingAdd_table {node : Node Id Msg}
    (hcount : node.pendingCount = occupied node.pending) (msgId : Msg) (fromId : Id)
    (now : UInt64) :
    (pendingAdd node msgId fromId now).pendingCount =
        occupied (pendingAdd node msgId fromId now).pending ∧
      (pendingAdd node msgId fromId now).pending.length = node.pending.length ∧
      (pendingAdd node msgId fromId now).cacheCount = node.cacheCount := by
  unfold pendingAdd
  simp only
  cases hfind : pendingFind node.pending msgId with
  | some i =>
      obtain ⟨old, hget, _⟩ := getElem?_of_pendingFind hfind
      exact ⟨by simp only [occupied_overwrite hget, hcount], List.length_set, rfl⟩
  | none =>
      simp only
      cases hfree : node.pending.findIdx? Option.isNone with
      | some i =>
          exact ⟨by simp only [occupied_fill (getElem?_of_free hfree), hcount],
            List.length_set, rfl⟩
      | none =>
          simp only
          cases holdest : oldestPending node.pending with
          | some i =>
              obtain ⟨victim, hget⟩ := getElem?_of_full hfree (oldestPending_lt holdest)
              exact ⟨by simp only [occupied_overwrite hget, hcount], List.length_set, rfl⟩
          | none => exact ⟨hcount, rfl, rfl⟩

theorem TablesSound.pendingAdd {node : Node Id Msg} (hsound : TablesSound node)
    (msgId : Msg) (fromId : Id) (now : UInt64) :
    TablesSound (PlumTree.pendingAdd node msgId fromId now) := by
  obtain ⟨hcount, hlength, hcached⟩ :=
    pendingAdd_table hsound.pending_count msgId fromId now
  obtain ⟨hpeers, hcache⟩ := pendingAdd_frame node msgId fromId now
  have hkept := kept_pendingAdd node msgId fromId now
  refine ⟨?_, ?_, ?_, ?_, hcount, fun other => ?_⟩
  · rw [hpeers, hkept.config]
    exact hsound.room
  · rw [hcached, hcache, hsound.cache_count]
  · rw [hcache]
    exact hsound.payload_len
  · rw [hlength, hkept.config, hsound.pending_length]
  · exact (pendingFor_pendingAdd (hsound.pending_single other) msgId fromId now).1

theorem TablesSound.pendingRemoveMsg {node : Node Id Msg} (hsound : TablesSound node)
    (msgId : Msg) : TablesSound (PlumTree.pendingRemoveMsg node msgId) := by
  have hsingle := fun other => (@pendingFor_pendingRemoveMsg _ _ _ node other msgId).1.trans
    (hsound.pending_single other)
  revert hsingle
  unfold PlumTree.pendingRemoveMsg
  cases hfind : pendingFind node.pending msgId with
  | none => exact fun _ => hsound
  | some i =>
      intro hsingle
      obtain ⟨old, hget, _⟩ := getElem?_of_pendingFind hfind
      refine ⟨hsound.room, hsound.cache_count, hsound.payload_len, ?_, ?_, hsingle⟩
      · exact List.length_set.trans hsound.pending_length
      · simp only [occupied_clear hget, hsound.pending_count]

section Calls

variable [DecidableEq Id]

theorem TablesSound.setLink {node : Node Id Msg} (hsound : TablesSound node) (link : Link)
    (nodeId : Id) (now : UInt64) : TablesSound (PlumTree.setLink link node nodeId now) := by
  have hkept := kept_setLink link node nodeId now
  obtain ⟨peers, hframe⟩ := setLink_frame link node nodeId now
  rw [hframe] at hkept ⊢
  exact hsound.of_same hkept rfl rfl rfl rfl

theorem TablesSound.recvDuplicate {node : Node Id Msg} (hsound : TablesSound node)
    (fromId : Id) (msgId : Msg) (now : UInt64) :
    TablesSound (PlumTree.recvDuplicate node fromId msgId now).node := by
  have hcounted : TablesSound { node with
      duplicates := node.duplicates + 1
      prunesSent := node.prunesSent + 1 } :=
    hsound.of_same ⟨rfl, rfl, rfl, rfl⟩ rfl rfl rfl rfl
  exact hcounted.setLink _ _ _

theorem TablesSound.recvGossip {node : Node Id Msg} (hsound : TablesSound node)
    (hwell : WellFormed node) (fromId : Id) (msgId : Msg) (payload : List UInt8)
    (now : UInt64) :
    TablesSound (PlumTree.recvGossip node fromId msgId payload now).2.node := by
  have hkept : Kept node { node with messagesReceived := node.messagesReceived + 1 } :=
    ⟨rfl, rfl, rfl, rfl⟩
  have hreceived := hsound.of_same hkept rfl rfl rfl rfl
  unfold PlumTree.recvGossip
  simp only
  split_ifs
  · exact hreceived.recvDuplicate _ _ _
  · exact ((hreceived.cacheInsert (hwell.kept hkept) _ _ _).pendingRemoveMsg _).setLink _ _ _

theorem TablesSound.tick {node : Node Id Msg} (hsound : TablesSound node)
    (hwell : WellFormed node) (now : UInt64) :
    TablesSound (PlumTree.tick node now).2.node := by
  obtain ⟨-, hpending, hpendingCount, hcache, hcacheCount⟩ :=
    tick_spec hwell hsound.pending_length hsound.pending_count hsound.cache_count now
  have hkept := kept_tick node now
  refine ⟨?_, hcacheCount, fun e hmem => ?_, ?_, hpendingCount, fun msgId => ?_⟩
  · rw [hkept.peers_length, hkept.config]
    exact hsound.room
  · rw [hcache] at hmem
    obtain ⟨slot, hslot, hfilter⟩ := List.mem_map.mp hmem
    obtain ⟨rfl, -⟩ := Option.filter_eq_some_iff.mp hfilter
    exact hsound.payload_len e hslot
  · rw [hpending, List.length_map, hkept.config, hsound.pending_length]
  · rw [hpending]
    exact (pendingFor_filter_le _ _ _).trans (hsound.pending_single msgId)

theorem TablesSound.performCall {node : Node Id Msg} (hsound : TablesSound node)
    (hwell : WellFormed node) (call : Call Id Msg) :
    TablesSound (PlumTree.performCall node call).node := by
  cases call with
  | reset => exact tablesSound_emptyNode node.selfId node.config
  | addPeer nodeId now =>
      simp only [PlumTree.performCall, addPeer]
      split_ifs with hself hexists hfull
      · exact hsound
      · exact hsound
      · exact hsound
      · obtain ⟨hroom, hcached, hpayload, hlength, hcount, hsingle⟩ := hsound
        refine ⟨?_, hcached, hpayload, hlength, hcount, hsingle⟩
        rw [List.length_append, List.length_singleton]
        exact not_le.mp hfull
  | removePeer nodeId =>
      simp only [PlumTree.performCall, removePeer]
      split
      · exact hsound
      · split
        · exact hsound
        · obtain ⟨hroom, hcached, hpayload, hlength, hcount, hsingle⟩ := hsound
          refine ⟨?_, hcached, hpayload, hlength, hcount, hsingle⟩
          rw [List.length_dropLast, List.length_set]
          exact (Nat.sub_le _ _).trans hroom
  | broadcast msgId payload now =>
      simp only [PlumTree.performCall, broadcast]
      split_ifs
      · exact hsound
      · exact (hsound.cacheInsert hwell msgId payload now).of_same ⟨rfl, rfl, rfl, rfl⟩
          rfl rfl rfl rfl
  | recvGossip fromId msgId payload now => exact hsound.recvGossip hwell _ _ _ _
  | recvIhave fromId msgId now =>
      simp only [PlumTree.performCall, recvIhave]
      split_ifs
      · exact hsound
      · exact hsound.pendingAdd msgId fromId now
  | recvGraft fromId msgId now =>
      exact (hsound.setLink .eager fromId now).of_same ⟨rfl, rfl, rfl, rfl⟩ rfl rfl rfl rfl
  | recvPrune fromId now => exact hsound.setLink .lazy fromId now
  | tick now => exact hsound.tick hwell now

theorem reachable_tablesSound {node : Node Id Msg} (hreach : runs.Reachable node) :
    TablesSound node := by
  have hboth := hreach.invariant
    (motive := fun node : Node Id Msg => WellFormed node ∧ TablesSound node) ?_ ?_
  · exact hboth.2
  · rintro _ ⟨selfId, cfg, rfl⟩
    exact ⟨wellFormed_emptyNode selfId (enforced_cacheSize_pos _),
      tablesSound_emptyNode selfId _⟩
  · rintro state call next ⟨hwell, hsound⟩ hstep
    obtain rfl : (PlumTree.performCall state call).node = next := Option.some.inj hstep
    exact ⟨wellFormed_performCall hwell call, hsound.performCall hwell call⟩

end Calls

/-! ## The representation -/

/-- The message ids of the active pending entries, slot by slot. -/
def pendingIds (node : Node Id Msg) : List Msg :=
  node.pending.filterMap fun slot => slot.map Pending.msgId

theorem pendingIds_nodup {node : Node Id Msg}
    (hsingle : ∀ msgId, pendingFor node.pending msgId ≤ 1) : (pendingIds node).Nodup := by
  rw [List.nodup_iff_count_le_one]
  intro msgId
  refine le_of_eq_of_le ?_ (hsingle msgId)
  rw [pendingIds, List.count, List.countP_filterMap, pendingFor]
  congr 1
  funext slot
  cases slot with
  | none => rfl
  | some p => rfl

/-- The representation invariant of a node: the peers with their links, the cache with
its counter and the pending table with its counter. -/
structure RepresentationSound [DecidableEq Id] (node : Node Id Msg) : Prop where
  peer_count : node.peers.length ≤ node.config.maxPeers.toNat
  peer_ids : (peerIds node).Nodup
  not_self : node.selfId ∉ peerIds node
  links : ∀ nodeId ∈ peerIds node,
    peerLink node nodeId = some .eager ∨ peerLink node nodeId = some .lazy
  cache_count : node.cacheCount = node.cache.countP Option.isSome
  payload_len : ∀ e, some e ∈ node.cache → e.payload.length ≤ maxPayload
  pending_count : node.pendingCount = node.pending.countP Option.isSome
  pending_ids : (pendingIds node).Nodup

theorem tables_hold [DecidableEq Id] {node : Node Id Msg} (hreach : runs.Reachable node) :
    RepresentationSound node := by
  have hwell := reachable_wellFormed hreach
  have hsound := reachable_tablesSound hreach
  exact {
    peer_count := hsound.room
    peer_ids := hwell.ids_nodup
    not_self := hwell.self_not_peer
    links := by
      intro nodeId hmem
      obtain ⟨p, hp, rfl⟩ := List.mem_map.mp hmem
      rw [peerLink_eq_of_mem hwell.ids_nodup hp]
      cases p.linkType with
      | eager => exact .inl rfl
      | lazy => exact .inr rfl
    cache_count := hsound.cache_count
    payload_len := hsound.payload_len
    pending_count := hsound.pending_count
    pending_ids := pendingIds_nodup hsound.pending_single }

def untoldNode : Node ℕ ℕ := create 0 (some ⟨4, 4, 4, 5000, 60000⟩)

/-- Three peers, messages 5 and 6 of which one is its own, a peer which sent a PRUNE, an
announcement of message 9, and a peer which is gone. -/
def busyCalls : List (Call ℕ ℕ) :=
  [.addPeer 1 1, .addPeer 2 2, .addPeer 3 3, .broadcast 5 [1] 4, .recvGossip 1 6 [2, 3] 5,
    .recvPrune 2 6, .recvIhave 3 9 7, .removePeer 1]

def busyNode : Node ℕ ℕ :=
  busyCalls.foldl (fun node call => (performCall node call).node) untoldNode

theorem reachable_busyNode : runs.Reachable busyNode :=
  ⟨untoldNode, busyCalls, ⟨_, _, rfl⟩, rfl⟩

theorem tables_hold_busyNode :
    RepresentationSound busyNode ∧ peerIds busyNode = [3, 2] ∧
      peerLink busyNode 2 = some .lazy ∧ busyNode.cacheCount = 2 ∧ busyNode.pendingCount = 1 :=
  ⟨tables_hold reachable_busyNode, by decide +kernel, by decide +kernel, by decide +kernel,
    by decide +kernel⟩

/-- The node once node 1 announced message 7 to it. -/
def toldOfSeven : Node ℕ ℕ := (performCall untoldNode (.recvIhave 1 7 10)).node

theorem reachable_toldOfSeven : runs.Reachable toldOfSeven :=
  (runs.reachable_of_initial ⟨_, _, rfl⟩).step
    (show runs.step untoldNode (.recvIhave 1 7 10) = some toldOfSeven from rfl)

end PlumTree
end LibWake
