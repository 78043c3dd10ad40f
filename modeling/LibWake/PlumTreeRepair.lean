import LibWake.PlumTreeTables

/-!
# Lazy repair

A message which was announced and did not come is asked for by a GRAFT.  No message
which the node has is pending, so none is asked for in vain, unless the node itself
originates a message which was announced to it.
-/

namespace LibWake
namespace PlumTree

open SlotTable

variable {Id Msg : Type} [DecidableEq Id] [DecidableEq Msg]

/-! ## Announced and known -/

/-- No message is in the cache and in an active pending entry, and no tick asks for a
message which the node has. -/
structure NoRepairOfHeld (node : Node Id Msg) : Prop where
  disjoint : ∀ msgId, ¬ (hasMsg node msgId = true ∧
    (pendingFind node.pending msgId).isSome = true)
  grafts : ∀ now, ∀ sent ∈ (tick node now).2.sends,
    sent.msgType = .graft ∧ hasMsg node sent.msgId = false

/-- The node originates a message which has an active pending entry. -/
def OriginatesPending (node : Node Id Msg) : Call Id Msg → Prop
  | .broadcast msgId payload _ =>
      payload.length ≠ 0 ∧ (pendingFind node.pending msgId).isSome = true
  | _ => False

instance (node : Node Id Msg) (call : Call Id Msg) :
    Decidable (OriginatesPending node call) :=
  match call with
  | .broadcast _ _ _ => inferInstanceAs (Decidable (_ ∧ _))
  | .reset | .addPeer _ _ | .removePeer _ | .recvGossip _ _ _ _ | .recvIhave _ _ _
  | .recvGraft _ _ _ | .recvPrune _ _ | .tick _ => .isFalse id

omit [DecidableEq Id] in
theorem pendingFind_isSome_iff {pending : List (Option (Pending Id Msg))} {msgId : Msg} :
    (pendingFind pending msgId).isSome = true ↔ ∃ p, some p ∈ pending ∧ p.msgId = msgId := by
  rw [pendingFind, List.findIdx?_isSome, List.any_eq_true]
  constructor
  · rintro ⟨slot, hmem, hany⟩
    obtain ⟨p, rfl, hid⟩ := (Option.any_eq_true _ _).mp hany
    exact ⟨p, hmem, of_decide_eq_true hid⟩
  · rintro ⟨p, hmem, hid⟩
    exact ⟨some p, hmem, decide_eq_true hid⟩

omit [DecidableEq Id] [DecidableEq Msg] in
theorem mem_grafts {node : Node Id Msg} {now : UInt64}
    {pending : List (Option (Pending Id Msg))} {sent : Send Id Msg} :
    sent ∈ grafts node now pending ↔
      ∃ p, some p ∈ pending ∧ overdue node now p = true ∧ graftFor p = sent := by
  rw [grafts, List.mem_filterMap]
  constructor
  · rintro ⟨slot, hmem, hsent⟩
    obtain ⟨p, hfilter, rfl⟩ := Option.map_eq_some_iff.mp hsent
    obtain ⟨rfl, hover⟩ := Option.filter_eq_some_iff.mp hfilter
    exact ⟨p, hmem, hover, rfl⟩
  · rintro ⟨p, hmem, hover, rfl⟩
    exact ⟨some p, hmem, by rw [Option.filter_some_pos hover]; rfl⟩

/-- What every run keeps, and what it keeps as long as the node originates no message
which is pending. -/
structure Repairing (node : Node Id Msg) : Prop where
  wellFormed : WellFormed node
  tables : TablesSound node
  awaits : ∀ msgId, Awaits msgId node

theorem Repairing.noRepairOfHeld {node : Node Id Msg} (hgood : Repairing node) :
    NoRepairOfHeld node := by
  have hdisjoint : ∀ msgId, ¬ (hasMsg node msgId = true ∧
      (pendingFind node.pending msgId).isSome = true) := by
    rintro msgId ⟨hmsg, hpending⟩
    have hnone := pendingFind_eq_none_iff.mpr ((hgood.awaits msgId).cancelled hmsg)
    rw [hnone] at hpending
    exact Bool.false_ne_true hpending
  refine ⟨hdisjoint, fun now sent hsent => ?_⟩
  rw [(tick_spec hgood.wellFormed hgood.tables.pending_length hgood.tables.pending_count
    hgood.tables.cache_count now).1] at hsent
  obtain ⟨p, hmem, -, rfl⟩ := mem_grafts.mp hsent
  refine ⟨rfl, Bool.eq_false_iff.mpr fun hmsg => hdisjoint p.msgId ⟨hmsg, ?_⟩⟩
  exact pendingFind_isSome_iff.mpr ⟨p, hmem, rfl⟩

omit [DecidableEq Id] in
theorem hasMsg_emptyNode (selfId : Id) (config : Config) (msgId : Msg) :
    hasMsg (emptyNode selfId config : Node Id Msg) msgId = false := by
  refine Bool.eq_false_iff.mpr fun hmsg => ?_
  obtain ⟨e, hmem, -⟩ := hasMsg_iff.mp hmsg
  cases List.eq_of_mem_replicate hmem

/-- A tick brings no message. -/
theorem hasMsg_of_hasMsg_tick {node : Node Id Msg} (hwell : WellFormed node)
    (htables : TablesSound node) {now : UInt64} {msgId : Msg}
    (hmsg : hasMsg (PlumTree.tick node now).2.node msgId = true) :
    hasMsg node msgId = true := by
  obtain ⟨-, -, -, hcache, -⟩ := tick_spec hwell htables.pending_length
    htables.pending_count htables.cache_count now
  rw [hasMsg_iff, hcache] at hmsg
  obtain ⟨e, hmem, hid⟩ := hmsg
  obtain ⟨slot, hslot, hfilter⟩ := List.mem_map.mp hmem
  obtain ⟨rfl, -⟩ := Option.filter_eq_some_iff.mp hfilter
  exact hasMsg_iff.mpr ⟨e, hslot, hid⟩

theorem Awaits.tick {msgId : Msg} {node : Node Id Msg} (hawaits : Awaits msgId node)
    (hwell : WellFormed node) (htables : TablesSound node) (now : UInt64) :
    Awaits msgId (PlumTree.tick node now).2.node := by
  obtain ⟨-, hpending, -, -, -⟩ := tick_spec hwell htables.pending_length
    htables.pending_count htables.cache_count now
  have hle := pendingFor_filter_le node.pending (fun p => !overdue node now p) msgId
  rw [← hpending] at hle
  refine ⟨hle.trans hawaits.single, fun hmsg => ?_⟩
  have hzero := hawaits.cancelled (hasMsg_of_hasMsg_tick hwell htables hmsg)
  exact Nat.le_zero.mp (hle.trans hzero.le)

omit [DecidableEq Id] in
theorem Awaits.broadcast {msgId : Msg} {node : Node Id Msg} (hawaits : Awaits msgId node)
    {other : Msg} {payload : List UInt8} {now : UInt64}
    (hguard : ¬ OriginatesPending node (.broadcast other payload now)) :
    Awaits msgId (PlumTree.broadcast node other payload now).node := by
  unfold PlumTree.broadcast
  split_ifs with hempty
  · exact hawaits
  · have hpending := cacheInsert_pending node other payload now
    refine ⟨?_, fun hmsg => ?_⟩
    · simp only [hpending]
      exact hawaits.single
    · simp only [hpending]
      by_cases heq : other = msgId
      · subst heq
        refine pendingFind_eq_none_iff.mp (Option.not_isSome_iff_eq_none.mp fun hsome => ?_)
        exact hguard ⟨hempty, hsome⟩
      · exact hawaits.cancelled (hasMsg_of_hasMsg_cacheInsert heq hmsg)

theorem Repairing.performCall {node : Node Id Msg} (hgood : Repairing node)
    {call : Call Id Msg} (hguard : ¬ OriginatesPending node call) :
    Repairing (PlumTree.performCall node call).node := by
  refine ⟨wellFormed_performCall hgood.wellFormed call,
    hgood.tables.performCall hgood.wellFormed call, fun msgId => ?_⟩
  have hawaits := hgood.awaits msgId
  cases call with
  | reset =>
      have hzero : pendingFor (PlumTree.reset node).pending msgId = 0 := by
        simp [pendingFor, PlumTree.reset, emptyNode, List.countP_replicate]
      exact ⟨hzero.le.trans zero_le_one, fun _ => hzero⟩
  | addPeer nodeId now =>
      obtain ⟨peers, hframe⟩ := addPeer_frame node nodeId now
      rw [PlumTree.performCall, hframe]
      exact hawaits.of_same rfl rfl
  | removePeer nodeId =>
      obtain ⟨peers, hframe⟩ := removePeer_frame node nodeId
      rw [PlumTree.performCall, hframe]
      exact hawaits.of_same rfl rfl
  | broadcast other payload now => exact hawaits.broadcast hguard
  | recvGossip fromId other payload now =>
      have hhandled := hawaits.handle fromId ⟨.gossip, node.selfId, other, payload⟩ now
      exact hhandled
  | recvIhave fromId other now => exact hawaits.recvIhave fromId other now
  | recvGraft fromId other now =>
      exact hawaits.of_same (setLink_pending _ _ _ _) (setLink_cache _ _ _ _)
  | recvPrune fromId now =>
      exact hawaits.of_same (setLink_pending _ _ _ _) (setLink_cache _ _ _ _)
  | tick now => exact hawaits.tick hgood.wellFormed hgood.tables now

/-- A node which originates a pending message has it, and still has it pending. -/
theorem not_noRepairOfHeld {node : Node Id Msg} (hwell : WellFormed node)
    {call : Call Id Msg} (horiginates : OriginatesPending node call) :
    ¬ NoRepairOfHeld (PlumTree.performCall node call).node := by
  cases call with
  | broadcast msgId payload now =>
      obtain ⟨hpayload, hpending⟩ := horiginates
      intro hheld
      refine hheld.disjoint msgId ?_
      simp only [PlumTree.performCall, PlumTree.broadcast, if_neg hpayload,
        cacheInsert_pending]
      exact ⟨hasMsg_cacheInsert hwell.cache_ne_nil msgId payload now, hpending⟩
  | _ => exact horiginates.elim

omit [DecidableEq Id] in
theorem repairing_emptyNode (selfId : Id) {config : Config}
    (hpos : 0 < config.cacheSize.toNat) : Repairing (emptyNode selfId config : Node Id Msg) := by
  have hsound : TablesSound (emptyNode selfId config : Node Id Msg) :=
    tablesSound_emptyNode selfId config
  refine ⟨wellFormed_emptyNode selfId hpos, hsound, fun msgId => ?_⟩
  refine ⟨hsound.pending_single msgId, fun hmsg => ?_⟩
  exact absurd hmsg (Bool.eq_false_iff.mp (hasMsg_emptyNode selfId config msgId))

/-- Along every run from the creation: no message is cached and pending at once, and no
tick asks for a message which the node has, if and only if the node never originates
a message while it is pending. -/
theorem no_repair_of_held_iff {start final : Node Id Msg} (hinitial : runs.Initial start)
    {calls : List (Call Id Msg)} (hrun : runs.run start calls = some final) :
    runs.Always NoRepairOfHeld start calls ↔
      runs.RunMeets (fun node call => ¬ OriginatesPending node call) start calls := by
  refine runs.always_iff_runMeets (motive := Repairing) (fun _ hgood => hgood.noRepairOfHeld)
    ?_ ?_ ?_ hrun
  · rintro node call next hgood hguard hstep
    obtain rfl : (performCall node call).node = next := Option.some.inj hstep
    exact hgood.performCall hguard
  · rintro node call next hgood horiginates hstep
    obtain rfl : (performCall node call).node = next := Option.some.inj hstep
    exact not_noRepairOfHeld hgood.wellFormed (not_not.mp horiginates)
  · obtain ⟨selfId, cfg, rfl⟩ := hinitial
    exact repairing_emptyNode selfId (enforced_cacheSize_pos _)

theorem no_repair_of_held_iff_arrived :
    runs.Always NoRepairOfHeld untoldNode [.recvIhave 1 7 10, .recvGossip 2 7 [1] 20] :=
  (no_repair_of_held_iff ⟨_, _, rfl⟩
    (show runs.run untoldNode [.recvIhave 1 7 10, .recvGossip 2 7 [1] 20] = some _
      from rfl)).mpr (by decide)

/-- Message 7 is announced, originated, and asked for. -/
theorem originated_message_grafted :
    ∃ node, runs.Reachable node ∧ hasMsg node 7 = true ∧
      (pendingFind node.pending 7).isSome = true ∧
      (tick node 5010).2.sends = [(⟨.graft, 1, 7, []⟩ : Send ℕ ℕ)] ∧
      ¬ runs.Always NoRepairOfHeld untoldNode [.recvIhave 1 7 10, .broadcast 7 [1] 20] := by
  have hstep : runs.step toldOfSeven (.broadcast 7 [1] 20) =
      some (performCall toldOfSeven (.broadcast 7 [1] 20)).node := rfl
  refine ⟨_, reachable_toldOfSeven.step hstep, by decide, by decide, by decide, ?_⟩
  intro halways
  have hheld := halways _ [] _ (List.append_nil _)
    (show runs.run untoldNode [.recvIhave 1 7 10, .broadcast 7 [1] 20] = some _ from rfl)
  exact hheld.disjoint 7 (by decide)

end PlumTree
end LibWake
