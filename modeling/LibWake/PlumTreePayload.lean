import LibWake.PlumTreeMemory
import LibWake.PlumTreeRepair

/-!
# The bytes of a message

The eager path passes on the bytes which the node was given, and the repair path those of a
cache slot, which holds the first `maxPayload` of them.  So the two agree for a payload which
fits in a slot, and a longer one is cut when a GRAFT is answered.
-/

namespace LibWake
namespace PlumTree

variable {Id Msg : Type}

/-! ## The calls -/

section Definitions

variable [DecidableEq Id] [DecidableEq Msg]

/-- The bytes which the call teaches to the node: those of a broadcast, or of a gossip message
which is not in the cache. -/
def learnedBy (msgId : Msg) (node : Node Id Msg) : Call Id Msg → List (List UInt8)
  | .broadcast other payload _ =>
      if other = msgId ∧ payload.length ≠ 0 then [payload] else []
  | .recvGossip _ other payload _ =>
      if other = msgId ∧ hasMsg node msgId = false then [payload] else []
  | _ => []

/-- The bytes of the message in the callbacks of the call: in its GOSSIPs, and in its calls of
`deliver_fn`. -/
def carriedBy (msgId : Msg) (node : Node Id Msg) (call : Call Id Msg) : List (List UInt8) :=
  ((performCall node call).sends.filter fun s => s.msgType = .gossip ∧ s.msgId = msgId).map
      Send.payload ++
    ((performCall node call).delivers.filter fun d => d.msgId = msgId).map Delivery.payload

/-- The call is a GRAFT for a message in the cache. -/
def AnswersGraft (msgId : Msg) (node : Node Id Msg) : Call Id Msg → Prop
  | .recvGraft _ other _ => other = msgId ∧ hasMsg node msgId = true
  | _ => False

/-- Every cache entry for the message has what a slot holds of the payload. -/
def CachedAs (msgId : Msg) (payload : List UInt8) (node : Node Id Msg) : Prop :=
  ∀ e, some e ∈ node.cache → e.msgId = msgId → e.payload = payload.take maxPayload

end Definitions

/-! ## One call -/

section Calls

variable [DecidableEq Id] [DecidableEq Msg] {node : Node Id Msg} {msgId : Msg}

/-- A call leaves in the cache what was there and what it teaches to the node. -/
theorem mem_cache_performCall (hwell : WellFormed node) (htables : TablesSound node)
    {call : Call Id Msg} {e : CacheEntry Msg}
    (hmem : some e ∈ (performCall node call).node.cache) :
    some e ∈ node.cache ∨
      ∃ payload ∈ learnedBy e.msgId node call, e.payload = payload.take maxPayload := by
  cases call with
  | reset => cases List.eq_of_mem_replicate hmem
  | addPeer nodeId now =>
      rw [performCall, addPeer_cache] at hmem
      exact .inl hmem
  | removePeer nodeId =>
      rw [performCall, removePeer_cache] at hmem
      exact .inl hmem
  | broadcast other payload now =>
      rw [performCall, broadcast] at hmem
      split_ifs at hmem with hempty
      · exact .inl hmem
      · rcases mem_cache_cacheInsert hmem with hold | rfl
        · exact .inl hold
        · exact .inr ⟨payload, by simp [learnedBy, hempty], rfl⟩
  | recvGossip fromId other payload now =>
      rw [performCall] at hmem
      cases hmsg : hasMsg node other with
      | true =>
          rw [recvGossip_of_known hmsg] at hmem
          have hcache : (recvDuplicate (counted node) fromId other now).node.cache =
              node.cache := setLink_cache .lazy _ fromId now
          exact .inl (hcache ▸ hmem)
      | false =>
          rw [recvGossip_of_new hmsg] at hmem
          simp only [recvNew_cache] at hmem
          rcases mem_cache_cacheInsert hmem with hold | rfl
          · exact .inl hold
          · exact .inr ⟨payload, by simp [learnedBy, hmsg], rfl⟩
  | recvIhave fromId other now =>
      rw [performCall, recvIhave] at hmem
      split_ifs at hmem
      · exact .inl hmem
      · rw [(pendingAdd_frame node other fromId now).2] at hmem
        exact .inl hmem
  | recvGraft fromId other now =>
      exact .inl ((setLink_cache .eager node fromId now) ▸ hmem)
  | recvPrune fromId now =>
      exact .inl ((setLink_cache .lazy node fromId now) ▸ hmem)
  | tick now =>
      obtain ⟨-, -, -, hcache, -⟩ := tick_spec hwell htables.pending_length
        htables.pending_count htables.cache_count now
      rw [performCall, hcache] at hmem
      obtain ⟨slot, hslot, hfilter⟩ := List.mem_map.mp hmem
      obtain ⟨rfl, -⟩ := Option.filter_eq_some_iff.mp hfilter
      exact .inl hslot

theorem mem_carriedBy {call : Call Id Msg} {bytes : List UInt8} :
    bytes ∈ carriedBy msgId node call ↔
      (∃ s ∈ (performCall node call).sends,
        s.msgType = .gossip ∧ s.msgId = msgId ∧ s.payload = bytes) ∨
      ∃ d ∈ (performCall node call).delivers, d.msgId = msgId ∧ d.payload = bytes := by
  simp only [carriedBy, List.mem_append, List.mem_map, List.mem_filter, decide_eq_true_eq,
    and_assoc]

omit [DecidableEq Msg] [DecidableEq Id] in
theorem announce_gossip {payload : List UInt8} {peers : List (Peer Id)} {s : Send Id Msg}
    (hmem : s ∈ peers.map (announce msgId payload)) (htype : s.msgType = .gossip) :
    s.msgId = msgId ∧ s.payload = payload := by
  obtain ⟨p, -, rfl⟩ := List.mem_map.mp hmem
  cases hlink : p.linkType with
  | eager =>
      rw [announce, hlink]
      exact ⟨rfl, rfl⟩
  | lazy =>
      rw [announce, hlink] at htype
      cases htype

/-- What a call carries it learned itself, or it is the answer to a GRAFT from the cache. -/
theorem mem_carriedBy_cases (hwell : WellFormed node) (htables : TablesSound node)
    {call : Call Id Msg} {bytes : List UInt8} (hmem : bytes ∈ carriedBy msgId node call) :
    bytes ∈ learnedBy msgId node call ∨
      (AnswersGraft msgId node call ∧
        ∃ e, some e ∈ node.cache ∧ e.msgId = msgId ∧ e.payload = bytes) := by
  have hmem := mem_carriedBy.mp hmem
  cases call with
  | broadcast other payload now =>
      rw [performCall, broadcast] at hmem
      split_ifs at hmem with hempty
      · simp at hmem
      · rcases hmem with ⟨s, hs, htype, rfl, rfl⟩ | ⟨d, hd, -⟩
        · obtain ⟨hid, hpayload⟩ := announce_gossip hs htype
          exact .inl (by simp [learnedBy, hid, hpayload, hempty])
        · cases hd
  | recvGossip fromId other payload now =>
      rw [performCall] at hmem
      cases hmsg : hasMsg node other with
      | true =>
          rw [recvGossip_of_known hmsg] at hmem
          rcases hmem with ⟨s, hs, htype, -⟩ | ⟨d, hd, -⟩
          · obtain rfl := List.mem_singleton.mp hs
            cases htype
          · cases hd
      | false =>
          rw [recvGossip_of_new hmsg] at hmem
          rcases hmem with ⟨s, hs, htype, rfl, rfl⟩ | ⟨d, hd, rfl, rfl⟩
          · obtain ⟨hid, hpayload⟩ := announce_gossip hs htype
            exact .inl (by simp [learnedBy, hid, hpayload, hmsg])
          · obtain rfl := List.mem_singleton.mp hd
            exact .inl (by simp [learnedBy, hmsg])
  | recvGraft fromId other now =>
      rcases hmem with ⟨s, hs, -, rfl, rfl⟩ | ⟨d, hd, -⟩
      · obtain ⟨e, he, rfl⟩ := List.mem_map.mp hs
        rw [Option.mem_toList, promoteEager, setLink_cache] at he
        obtain ⟨slot, hslot, hfilter⟩ := List.exists_of_findSome?_eq_some he
        obtain ⟨rfl, hid⟩ := Option.filter_eq_some_iff.mp hfilter
        refine .inr ⟨⟨rfl, hasMsg_iff.mpr ⟨e, hslot, of_decide_eq_true hid⟩⟩, e, hslot,
          of_decide_eq_true hid, rfl⟩
      · cases hd
  | tick now =>
      obtain ⟨hsends, -, -, -, -⟩ := tick_spec hwell htables.pending_length
        htables.pending_count htables.cache_count now
      rw [performCall, hsends] at hmem
      rcases hmem with ⟨s, hs, htype, -⟩ | ⟨d, hd, -⟩
      · rw [grafts, List.mem_filterMap] at hs
        obtain ⟨slot, -, hsent⟩ := hs
        obtain ⟨p, -, rfl⟩ := Option.map_eq_some_iff.mp hsent
        cases htype
      · cases hd
  | _ =>
      rcases hmem with ⟨s, hs, -⟩ | ⟨d, hd, -⟩
      · cases hs
      · cases hd

/-- A GRAFT for a message in the cache is answered with what the cache has. -/
theorem carriedBy_of_answersGraft {call : Call Id Msg} (hanswers : AnswersGraft msgId node call) :
    carriedBy msgId node call ≠ [] := by
  cases call with
  | recvGraft fromId other now =>
      obtain ⟨rfl, hmsg⟩ := hanswers
      obtain ⟨e, he⟩ := Option.isSome_iff_exists.mp hmsg
      refine List.ne_nil_of_mem (mem_carriedBy.mpr (.inl ⟨⟨.gossip, fromId, other, e.payload⟩, ?_,
        rfl, rfl, rfl⟩))
      refine List.mem_map.mpr ⟨e, ?_, rfl⟩
      rw [Option.mem_toList, promoteEager, setLink_cache]
      exact he
  | _ => exact hanswers.elim

/-! ## Runs -/

theorem performCall_step (node : Node Id Msg) (call : Call Id Msg) :
    runs.step node call = some (performCall node call).node := rfl

theorem CachedAs.performCall {payload : List UInt8} (hcached : CachedAs msgId payload node)
    (hwell : WellFormed node) (htables : TablesSound node) (call : Call Id Msg)
    (hlearned : ∀ bytes ∈ learnedBy msgId node call, bytes = payload) :
    CachedAs msgId payload (PlumTree.performCall node call).node := by
  rintro e hmem rfl
  rcases mem_cache_performCall hwell htables hmem with hold | ⟨bytes, hbytes, he⟩
  · exact hcached e hold rfl
  · rw [he, hlearned bytes hbytes]

/-- Once the message is learned, what is carried is what a slot holds of it, and it is carried
only if a GRAFT is answered. -/
theorem carried_of_cachedAs {payload : List UInt8} {calls : List (Call Id Msg)}
    (hreach : runs.Reachable node) (hcached : CachedAs msgId payload node)
    (hlearned : runs.collect (learnedBy msgId) node calls = []) :
    (∀ bytes ∈ runs.collect (carriedBy msgId) node calls, bytes = payload.take maxPayload) ∧
      (runs.collect (carriedBy msgId) node calls = [] ↔
        runs.RunMeets (fun node call => ¬ AnswersGraft msgId node call) node calls) := by
  induction calls generalizing node with
  | nil => exact ⟨fun bytes hmem => absurd hmem List.not_mem_nil, iff_of_true rfl trivial⟩
  | cons call rest ih =>
      have hwell := reachable_wellFormed hreach
      have htables := reachable_tablesSound hreach
      have hstep := performCall_step node call
      rw [runs.collect_cons_of_step _ hstep, List.append_eq_nil_iff] at hlearned
      obtain ⟨hnone, hrest⟩ := hlearned
      have hnext := hcached.performCall hwell htables call (by
        rw [hnone]
        exact fun bytes hmem => absurd hmem List.not_mem_nil)
      obtain ⟨hbytes, hiff⟩ := ih (hreach.step hstep) hnext hrest
      have hcarried : ∀ bytes ∈ carriedBy msgId node call,
          AnswersGraft msgId node call ∧ bytes = payload.take maxPayload := by
        intro bytes hmem
        rcases mem_carriedBy_cases hwell htables hmem with hlearn | ⟨hanswers, e, he, hid, rfl⟩
        · rw [hnone] at hlearn
          cases hlearn
        · exact ⟨hanswers, hcached e he hid⟩
      rw [runs.collect_cons_of_step _ hstep, runs.runMeets_cons_of_step hstep]
      refine ⟨fun bytes hmem => ?_, ?_⟩
      · rcases List.mem_append.mp hmem with hfirst | hlater
        · exact (hcarried bytes hfirst).2
        · exact hbytes bytes hlater
      · rw [List.append_eq_nil_iff, hiff]
        refine and_congr_left fun _ => ⟨fun hempty hanswers => ?_, fun hsilent => ?_⟩
        · exact carriedBy_of_answersGraft hanswers hempty
        · exact List.eq_nil_iff_forall_not_mem.mpr fun bytes hmem =>
            hsilent (hcarried bytes hmem).1

omit [DecidableEq Id] in
theorem not_answersGraft_of_unknown (hunknown : hasMsg node msgId = false)
    (call : Call Id Msg) : ¬ AnswersGraft msgId node call := by
  intro hanswers
  cases call with
  | recvGraft fromId other now =>
      rw [AnswersGraft, hunknown] at hanswers
      cases hanswers.2
  | _ => exact hanswers.elim

/-- A message stays unknown while it is not learned. -/
theorem unknown_performCall (hwell : WellFormed node) (htables : TablesSound node)
    (hunknown : hasMsg node msgId = false) {call : Call Id Msg}
    (hnone : learnedBy msgId node call = []) :
    hasMsg (performCall node call).node msgId = false := by
  refine Bool.eq_false_iff.mpr fun hmsg => ?_
  obtain ⟨e, he, rfl⟩ := hasMsg_iff.mp hmsg
  rcases mem_cache_performCall hwell htables he with hold | ⟨bytes, hbytes, -⟩
  · exact Bool.eq_false_iff.mp hunknown (hasMsg_iff.mpr ⟨e, hold, rfl⟩)
  · rw [hnone] at hbytes
    cases hbytes

/-- Of a message which is unknown only what is learned is carried. -/
theorem learned_of_carried (hwell : WellFormed node) (htables : TablesSound node)
    (hunknown : hasMsg node msgId = false) {call : Call Id Msg} {bytes : List UInt8}
    (hmem : bytes ∈ carriedBy msgId node call) : bytes ∈ learnedBy msgId node call :=
  (mem_carriedBy_cases hwell htables hmem).resolve_right fun hanswers =>
    not_answersGraft_of_unknown hunknown call hanswers.1

theorem carried_iff_of_unknown {payload : List UInt8} {calls : List (Call Id Msg)}
    (hreach : runs.Reachable node) (hunknown : hasMsg node msgId = false)
    (hlearned : runs.collect (learnedBy msgId) node calls = [payload]) :
    (∀ bytes ∈ runs.collect (carriedBy msgId) node calls, bytes = payload) ↔
      payload.length ≤ maxPayload ∨
        runs.RunMeets (fun node call => ¬ AnswersGraft msgId node call) node calls := by
  induction calls generalizing node with
  | nil => cases hlearned
  | cons call rest ih =>
      have hwell := reachable_wellFormed hreach
      have htables := reachable_tablesSound hreach
      have hstep := performCall_step node call
      have hcached : CachedAs msgId payload node := fun e he hid =>
        absurd (hasMsg_iff.mpr ⟨e, he, hid⟩) (Bool.eq_false_iff.mp hunknown)
      have hsilent := not_answersGraft_of_unknown hunknown call
      have hcarried : ∀ bytes ∈ carriedBy msgId node call, bytes ∈ learnedBy msgId node call :=
        fun bytes hmem => learned_of_carried hwell htables hunknown hmem
      rw [runs.collect_cons_of_step _ hstep] at hlearned ⊢
      rw [runs.runMeets_cons_of_step hstep, and_iff_right hsilent]
      rcases List.append_eq_singleton_iff.mp hlearned with ⟨hnone, hlater⟩ | ⟨hnow, hnone⟩
      · have hempty : carriedBy msgId node call = [] :=
          List.eq_nil_iff_forall_not_mem.mpr fun bytes hmem => by
            have hlearn := hcarried bytes hmem
            rw [hnone] at hlearn
            cases hlearn
        rw [hempty, List.nil_append]
        exact ih (hreach.step hstep) (unknown_performCall hwell htables hunknown hnone) hlater
      · have hnext := hcached.performCall hwell htables call (by
          rw [hnow]
          exact fun bytes hmem => List.mem_singleton.mp hmem)
        obtain ⟨hbytes, hiff⟩ := carried_of_cachedAs (hreach.step hstep) hnext hnone
        rw [← hiff]
        constructor
        · intro hall
          refine or_iff_not_imp_left.mpr fun hlong => ?_
          refine List.eq_nil_iff_forall_not_mem.mpr fun bytes hmem => hlong ?_
          have hcut := hbytes bytes hmem
          rw [hall bytes (List.mem_append_right _ hmem)] at hcut
          rw [hcut, List.length_take]
          exact Nat.min_le_left _ _
        · rintro hfits bytes hmem
          rcases List.mem_append.mp hmem with hfirst | hlater
          · have hlearn := hcarried bytes hfirst
            rw [hnow] at hlearn
            exact List.mem_singleton.mp hlearn
          · rcases hfits with hshort | hempty
            · rw [hbytes bytes hlater, List.take_of_length_le hshort]
            · rw [hempty] at hlater
              cases hlater

/-- In a run which learns the message once, every GOSSIP and every delivery of it carries the
payload which was learned, if and only if the payload fits in a cache slot or no GRAFT for the
message arrives while it is cached. -/
theorem carried_iff {start : Node Id Msg} (hinitial : runs.Initial start)
    {calls : List (Call Id Msg)} {payload : List UInt8}
    (hlearned : runs.collect (learnedBy msgId) start calls = [payload]) :
    (∀ bytes ∈ runs.collect (carriedBy msgId) start calls, bytes = payload) ↔
      payload.length ≤ maxPayload ∨
        runs.RunMeets (fun node call => ¬ AnswersGraft msgId node call) start calls := by
  have hreach : runs.Reachable start := runs.reachable_of_initial hinitial
  obtain ⟨selfId, cfg, rfl⟩ := hinitial
  exact carried_iff_of_unknown hreach (hasMsg_emptyNode selfId _ msgId) hlearned

end Calls

/-- A gossip message 7, and a GRAFT for it. -/
def gossipAndGraft (payload : List UInt8) : List (Call ℕ ℕ) :=
  [.recvGossip 1 7 payload 5, .recvGraft 1 7 6]

theorem learned_gossipAndGraft (payload : List UInt8) :
    runs.collect (learnedBy 7) untoldNode (gossipAndGraft payload) = [payload] := rfl

theorem carried_gossipAndGraft (payload : List UInt8) :
    runs.collect (carriedBy 7) untoldNode (gossipAndGraft payload) =
      [payload, payload.take maxPayload] := rfl

/-- Three bytes. -/
theorem carried_iff_short :
    runs.collect (learnedBy 7) untoldNode (gossipAndGraft [1, 2, 3]) = [[1, 2, 3]] ∧
      ∀ bytes ∈ runs.collect (carriedBy 7) untoldNode (gossipAndGraft [1, 2, 3]),
        bytes = [1, 2, 3] :=
  ⟨learned_gossipAndGraft _,
    (carried_iff ⟨_, _, rfl⟩ (learned_gossipAndGraft _)).mpr (.inl (by decide))⟩

/-- 257 bytes, of which the GRAFT is answered with 256. -/
theorem long_payload_cut :
    runs.Initial untoldNode ∧
      runs.collect (learnedBy 7) untoldNode (gossipAndGraft (List.replicate 257 0)) =
        [List.replicate 257 0] ∧
      ¬ ∀ bytes ∈ runs.collect (carriedBy 7) untoldNode
        (gossipAndGraft (List.replicate 257 0)), bytes = List.replicate 257 0 := by
  refine ⟨⟨_, _, rfl⟩, learned_gossipAndGraft _, fun hall => ?_⟩
  rw [carried_gossipAndGraft] at hall
  have hcut := congrArg List.length
    (hall _ (List.mem_cons_of_mem _ List.mem_cons_self))
  rw [List.length_take, List.length_replicate] at hcut
  exact absurd hcut (by decide)

end PlumTree
end LibWake
