import Mathlib.Data.List.Perm.Basic
import LibWake.SwimInvariant

/-!
# What a call does to the whole node

Besides the members a call changes the count and the probe order derived from
them, and the dissemination queue.  The effects of all calls are named here once;
the invariants of the node are derived from them.
-/

namespace LibWake
namespace Swim

open scoped List

variable {Id : Type}

/-! ## The probe order -/

/-- `order` lists the indices of the ALIVE and SUSPECT members, each once. -/
structure ListsEligible (members : List (Member Id)) (order : List ℕ) : Prop where
  nodup : order.Nodup
  mem_iff : ∀ i, i ∈ order ↔
    ∃ m, members[i]? = some m ∧ (m.state = alive ∨ m.state = suspect)

theorem mem_eligibleIndices {members : List (Member Id)} {i : ℕ} :
    i ∈ eligibleIndices members ↔
      ∃ m, members[i]? = some m ∧ (m.state = alive ∨ m.state = suspect) := by
  unfold eligibleIndices
  rw [List.mem_filter, List.mem_range]
  cases hget : members[i]? with
  | none => simp
  | some m =>
      have hlt := (List.getElem?_eq_some_iff.mp hget).1
      simp [hlt, Member.probeEligible]

theorem nodup_eligibleIndices (members : List (Member Id)) :
    (eligibleIndices members).Nodup :=
  List.nodup_range.filter _

theorem swapAt_perm (order : List ℕ) (i j : ℕ) : swapAt order i j ~ order := by
  unfold swapAt
  split
  next a b hi hj =>
    obtain ⟨hilt, rfl⟩ := List.getElem?_eq_some_iff.mp hi
    obtain ⟨hjlt, rfl⟩ := List.getElem?_eq_some_iff.mp hj
    exact List.set_set_perm hilt hjlt
  next => exact .refl _

theorem shuffle_perm (n : ℕ) (order : List ℕ) (prng : UInt64) :
    (shuffle n order prng).1 ~ order := by
  induction n, order, prng using shuffle.induct with
  | case1 order prng => exact .refl _
  | case2 order prng => exact .refl _
  | case3 order prng i next r hnext ih =>
      unfold shuffle
      rw [hnext]
      exact ih.trans (swapAt_perm _ _ _)

theorem listsEligible_of_perm {members : List (Member Id)} {order : List ℕ}
    (hperm : order ~ eligibleIndices members) : ListsEligible members order where
  nodup := hperm.nodup_iff.mpr (nodup_eligibleIndices members)
  mem_iff _ := hperm.mem_iff.trans mem_eligibleIndices

theorem probeOnceMore_order (node : Node Id) :
    ListsEligible node.members (probeOnceMore node).2.probeOrder := by
  have hrebuilt := listsEligible_of_perm (shuffle_perm (eligibleIndices node.members).length
    (eligibleIndices node.members) node.prngState)
  unfold probeOnceMore
  simp only
  split
  · exact hrebuilt
  · exact hrebuilt

theorem probeCurrent_order (node : Node Id) :
    (probeCurrent node).2.probeOrder = node.probeOrder ∨
      ListsEligible node.members (probeCurrent node).2.probeOrder := by
  unfold probeCurrent
  split
  · exact Or.inl rfl
  · exact Or.inr (probeOnceMore_order _)

theorem nextProbe_order (node : Node Id) :
    (nextProbe node).2.probeOrder = node.probeOrder ∨
      ListsEligible node.members (nextProbe node).2.probeOrder := by
  have hrebuilt : ListsEligible node.members (rebuildProbeOrder node).probeOrder :=
    listsEligible_of_perm (shuffle_perm _ _ _)
  have hcurrent : ∀ start : Node Id, start.members = node.members →
      ListsEligible node.members start.probeOrder →
      ListsEligible node.members (probeCurrent start).2.probeOrder := by
    intro start hmembers hstart
    rcases probeCurrent_order start with hkept | hagain
    · rw [hkept]
      exact hstart
    · rwa [hmembers] at hagain
  unfold nextProbe
  split_ifs
  · exact Or.inl rfl
  · right
    simp only
    split_ifs
    · exact hrebuilt
    · exact hcurrent _ rfl hrebuilt
    · exact hcurrent _ rfl hrebuilt
  · exact probeCurrent_order node

/-! ## The queue -/

/-- What `queue_update` makes of the queue. -/
inductive QueueStep (size : ℕ) (before : List (Update Id)) (u : Update Id) :
    List (Update Id) → Prop
  | replaced (i : ℕ) (old : Update Id) (hget : before[i]? = some old)
      (hid : old.nodeId = u.nodeId) : QueueStep size before u (before.set i u)
  | appended (habsent : ∀ old ∈ before, old.nodeId ≠ u.nodeId)
      (hroom : before.length < size) : QueueStep size before u (before ++ [u])
  | evicted (i : ℕ) (habsent : ∀ old ∈ before, old.nodeId ≠ u.nodeId) :
      QueueStep size before u (before.set i u)

/-- The queue after `queue_update` holds the new update, and of the others only
those about other nodes. -/
theorem QueueStep.mem {size : ℕ} {before after : List (Update Id)} {u u' : Update Id}
    (hstep : QueueStep size before u after)
    (hnodup : (before.map Update.nodeId).Nodup) (hmem : u' ∈ after) :
    u' = u ∨ u' ∈ before ∧ u'.nodeId ≠ u.nodeId := by
  cases hstep with
  | replaced i old hget hid =>
      obtain ⟨hlt, rfl⟩ := List.getElem?_eq_some_iff.mp hget
      obtain ⟨j, hj, rfl⟩ := List.getElem_of_mem hmem
      have hjlt : j < before.length := by simpa using hj
      by_cases hij : i = j
      · subst hij
        simp
      · right
        rw [List.getElem_set_of_ne hij]
        refine ⟨List.getElem_mem hjlt, fun hsame => hij ?_⟩
        have hi : i < (before.map Update.nodeId).length := by simpa using hlt
        have hj : j < (before.map Update.nodeId).length := by simpa using hjlt
        have hids : (before.map Update.nodeId)[i] = (before.map Update.nodeId)[j] := by
          simpa using hid.trans hsame.symm
        exact (hnodup.getElem_inj_iff).mp hids
  | appended habsent hroom =>
      rw [List.mem_append, List.mem_singleton] at hmem
      rcases hmem with hold | rfl
      · exact Or.inr ⟨hold, habsent u' hold⟩
      · exact Or.inl rfl
  | evicted i habsent =>
      rcases List.mem_or_eq_of_mem_set hmem with hold | rfl
      · exact Or.inr ⟨hold, habsent u' hold⟩
      · exact Or.inl rfl

@[simp] theorem Member.toUpdate_nodeId (m : Member Id) : m.toUpdate.nodeId = m.nodeId := rfl

/-- The content of an update, whatever the number of its deliveries. -/
def Update.news (u : Update Id) : Update Id := { u with piggybackCount := 0 }

/-- Sending raises piggyback counts and changes nothing else in the queue. -/
theorem selectUpdates_news (count : ℕ) (updates : List (Update Id))
    (selected : List ℕ) :
    (selectUpdates count updates selected).2.map Update.news =
      updates.map Update.news := by
  induction count generalizing updates selected with
  | zero => rfl
  | succ count ih =>
      unfold selectUpdates
      cases bestUpdate updates selected with
      | none => rfl
      | some best =>
          simp only
          cases hget : updates[best]? with
          | none => rfl
          | some u =>
              simp only
              rw [ih]
              exact DenseArray.map_set_of_eq Update.news hget rfl

variable [DecidableEq Id]

theorem queueStep_queueUpdate (node : Node Id) (m : Member Id) :
    QueueStep node.config.updateQueueSize.toNat node.updates m.toUpdate
      (queueUpdate node m).updates := by
  unfold queueUpdate
  cases hfind : findUpdate node.updates m.nodeId with
  | some i =>
      obtain ⟨hlt, hid, _⟩ := List.findIdx?_eq_some_iff_getElem.mp hfind
      exact .replaced i node.updates[i] (List.getElem?_eq_getElem hlt) (by simpa using hid)
  | none =>
      have habsent : ∀ old ∈ node.updates, old.nodeId ≠ m.toUpdate.nodeId := by
        simpa [findUpdate, List.findIdx?_eq_none_iff] using hfind
      simp only
      split_ifs with hroom
      · exact .appended habsent hroom
      · exact .evicted _ habsent

@[simp] theorem queueUpdate_aliveCount (node : Node Id) (m : Member Id) :
    (queueUpdate node m).aliveCount = node.aliveCount := by
  obtain ⟨updates, queued, hqueue⟩ := queueUpdate_frame node m
  rw [hqueue]

@[simp] theorem queueUpdate_probeOrder (node : Node Id) (m : Member Id) :
    (queueUpdate node m).probeOrder = node.probeOrder := by
  obtain ⟨updates, queued, hqueue⟩ := queueUpdate_frame node m
  rw [hqueue]

/-! ## The suspicion loop -/

/-- The loop body leaves everything alone, or it expires one member and queues
it. -/
theorem checkStep_cases (now : UInt64) (timeout : UInt32) (state : Node Id × ℕ) (i : ℕ) :
    checkStep now timeout state i = state ∨
      ∃ m, state.1.members[i]? = some m ∧
        (checkStep now timeout state i).2 = state.2 + 1 ∧
        (checkStep now timeout state i).1.config = state.1.config ∧
        (checkStep now timeout state i).1.members =
          state.1.members.set i (expiredMember m now) ∧
        QueueStep state.1.config.updateQueueSize.toNat state.1.updates
          (expiredMember m now).toUpdate (checkStep now timeout state i).1.updates := by
  have hconfig := (checkStep_identity now timeout state i).config
  unfold checkStep at hconfig ⊢
  cases hget : state.1.members[i]? with
  | none => exact Or.inl rfl
  | some m =>
      simp only [hget] at hconfig ⊢
      split_ifs at hconfig ⊢ with hkeep
      · exact Or.inl rfl
      · exact Or.inr ⟨m, rfl, rfl, hconfig, queueUpdate_members _ _,
          queueStep_queueUpdate { state.1.setMember i (expiredMember m now) with
            stateChanges := state.1.stateChanges + 1
            suspectsExpired := state.1.suspectsExpired + 1 } _⟩

theorem checkLoop_induction (now : UInt64) (timeout : UInt32)
    {motive : Node Id × ℕ → Prop} (indices : List ℕ) (state : Node Id × ℕ)
    (hstart : motive state)
    (hstep : ∀ state i, motive state → motive (checkStep now timeout state i)) :
    motive (indices.foldl (checkStep now timeout) state) := by
  induction indices generalizing state with
  | nil => exact hstart
  | cons i rest ih => exact ih _ (hstep state i hstart)

/-! ## The effect of a call -/

/-- What one call can make of the node. -/
inductive Effect (node : Node Id) (call : Call Id) : Node Id → Prop
  | quiet (node' : Node Id) (hmembers : node'.members = node.members)
      (hcount : node'.aliveCount = node.aliveCount)
      (horder : node'.probeOrder = node.probeOrder ∨
        ListsEligible node.members node'.probeOrder)
      (hupdates : node'.updates = node.updates) : Effect node call node'
  | emptied (hcall : call = .reset) (node' : Node Id) (hmembers : node'.members = [])
      (hcount : node'.aliveCount = 0) (horder : node'.probeOrder = [])
      (hupdates : node'.updates = []) : Effect node call node'
  | reaped (now retention : UInt64) (hcall : call = .reap now retention)
      (node' : Node Id) (hmembers : node'.members.Sublist node.members)
      (hcount : node'.aliveCount = node'.members.countP Member.probeEligible)
      (horder : node'.probeOrder = []) (hupdates : node'.updates = node.updates) :
      Effect node call node'
  | sent (raised : List (Update Id)) (node' : Node Id)
      (hmembers : node'.members = node.members)
      (hcount : node'.aliveCount = node.aliveCount)
      (horder : node'.probeOrder = node.probeOrder)
      (hraised : raised.map Update.news = node.updates.map Update.news)
      (hupdates : node'.updates.Sublist raised) : Effect node call node'
  | refuted (m : Member Id) (node' : Node Id) (hself : m.nodeId = node.selfId)
      (hmembers : node'.members = node.members)
      (hcount : node'.aliveCount = node.aliveCount)
      (horder : node'.probeOrder = node.probeOrder)
      (hupdates : QueueStep node.config.updateQueueSize.toNat node.updates m.toUpdate
        node'.updates) : Effect node call node'
  | joined (m : Member Id) (incarnation : UInt32) (node' : Node Id)
      (hself : m.nodeId ≠ node.selfId)
      (habsent : ∀ other ∈ node.members, other.nodeId ≠ m.nodeId)
      (hroom : node.members.length < node.config.maxMembers.toNat)
      (halive : m.state = alive) (hfresh : m.incarnation = 0)
      (hwritten : incarnation = m.incarnation ∨
        ∃ update now, call = .applyUpdate update now ∧ update.nodeId = m.nodeId ∧
          update.state = alive ∧ update.incarnation = incarnation)
      (hmembers : node'.members =
        node.members ++ [{ m with incarnation := incarnation }])
      (hcount : node'.aliveCount = node.aliveCount + 1) (horder : node'.probeOrder = [])
      (hupdates : QueueStep node.config.updateQueueSize.toNat node.updates m.toUpdate
        node'.updates) : Effect node call node'
  | changed (idx : ℕ) (m m' : Member Id) (hget : node.members[idx]? = some m)
      (hchange : Change node call m m') : Effect node call (changeMember node idx m')
  | checked (now : UInt64) (hcall : call = .checkSuspects now) :
      Effect node call (checkSuspects node now).2

theorem Effect.refused (node : Node Id) (call : Call Id) : Effect node call node :=
  .quiet node rfl rfl (Or.inl rfl) rfl

theorem addMember_joins {node : Node Id} {nodeId : Id} (hself : nodeId ≠ node.selfId)
    (habsent : ∀ m ∈ node.members, m.nodeId ≠ nodeId)
    (hroom : node.members.length < node.config.maxMembers.toNat) (addr : UInt32)
    (port : UInt16) (now : UInt64) :
    addMember node nodeId addr port now =
      (.ok, (queueUpdate { node with
        members := node.members ++ [newMember nodeId addr port now]
        aliveCount := node.aliveCount + 1
        stateChanges := node.stateChanges + 1 }
          (newMember nodeId addr port now)).invalidateProbeOrder) := by
  have hnone := findMember_none.mpr habsent
  simp only [addMember, if_neg hself, hnone, Option.isSome_none, Bool.false_eq_true,
    if_false, if_neg (Nat.not_le.mpr hroom)]

theorem addMember_joins_fields {node : Node Id} {nodeId : Id}
    (hself : nodeId ≠ node.selfId) (habsent : ∀ m ∈ node.members, m.nodeId ≠ nodeId)
    (hroom : node.members.length < node.config.maxMembers.toNat) (addr : UInt32)
    (port : UInt16) (now : UInt64) :
    (addMember node nodeId addr port now).2.aliveCount = node.aliveCount + 1 ∧
      (addMember node nodeId addr port now).2.probeOrder = [] ∧
      QueueStep node.config.updateQueueSize.toNat node.updates
        (newMember nodeId addr port now).toUpdate
        (addMember node nodeId addr port now).2.updates := by
  rw [addMember_joins hself habsent hroom]
  refine ⟨by simp [Node.invalidateProbeOrder], rfl, ?_⟩
  exact queueStep_queueUpdate { node with
    members := node.members ++ [newMember nodeId addr port now]
    aliveCount := node.aliveCount + 1
    stateChanges := node.stateChanges + 1 } _

theorem effect_addMember (node : Node Id) (call : Call Id) (nodeId : Id)
    (addr : UInt32) (port : UInt16) (now : UInt64) :
    Effect node call (addMember node nodeId addr port now).2 := by
  rcases addMember_cases node nodeId addr port now with
    ⟨_, hsame⟩ | ⟨_, hself, habsent, hroom, hmembers⟩
  · rw [hsame]
    exact .refused node call
  · obtain ⟨hcount, horder, hupdates⟩ :=
      addMember_joins_fields hself habsent hroom addr port now
    exact .joined (newMember nodeId addr port now) 0 _ hself habsent hroom rfl rfl
      (Or.inl rfl) hmembers hcount horder hupdates

/-- The update of an unknown node queues incarnation 0 and lists its own. -/
theorem effect_applyUnknown (node : Node Id) (update : Update Id) (now : UInt64) :
    Effect node (.applyUpdate update now) (applyUnknown node update now).2 := by
  rcases applyUnknown_cases node update now with
    ⟨_, hsame⟩ | ⟨_, halive, hself, habsent, hroom, hjoined⟩
  · rw [hsame]
    exact .refused node _
  · obtain ⟨hcount, horder, hupdates⟩ :=
      addMember_joins_fields hself habsent hroom update.addr update.port now
    rw [hjoined]
    exact .joined (newMember update.nodeId update.addr update.port now) update.incarnation
      _ hself habsent hroom rfl rfl (Or.inr ⟨update, now, rfl, rfl, halive, rfl⟩) rfl
      hcount horder hupdates

/-- An ALIVE update makes a member of an unknown node while there is room. -/
theorem applyUnknown_joins {node : Node Id} {update : Update Id}
    (halive : update.state = alive) (hself : update.nodeId ≠ node.selfId)
    (habsent : ∀ m ∈ node.members, m.nodeId ≠ update.nodeId)
    (hroom : node.members.length < node.config.maxMembers.toNat) (now : UInt64) :
    (applyUnknown node update now).1 = .ok := by
  simp only [applyUnknown, if_pos halive,
    addMember_joins hself habsent hroom update.addr update.port now]
  split <;> rfl

/-- The one description of what a call does to the node. -/
theorem effect_performCall (node : Node Id) (call : Call Id) :
    Effect node call (performCall node call) := by
  cases call with
  | reset => exact .emptied rfl _ rfl rfl rfl rfl
  | addMember nodeId addr port now => exact effect_addMember node _ nodeId addr port now
  | removeMember nodeId now =>
      simp only [performCall, removeMember]
      split_ifs
      · exact .refused node _
      · cases hfind : findMember node nodeId with
        | none => exact .refused node _
        | some found =>
            obtain ⟨idx, m⟩ := found
            obtain ⟨hget, rfl⟩ := findMember_some hfind
            exact .changed idx m _ hget (.removed now rfl)
  | applyUpdate update now =>
      simp only [performCall, applyUpdate]
      split_ifs
      · unfold applySelf
        split_ifs
        · exact .refuted (selfMember { node with
            selfIncarnation := update.incarnation + 1 } now) _ rfl (by simp) (by simp)
            (by simp) (queueStep_queueUpdate { node with
              selfIncarnation := update.incarnation + 1 } _)
        · exact .refuted (selfMember node now) _ rfl (by simp) (by simp) (by simp)
            (queueStep_queueUpdate node _)
        · exact .quiet _ rfl rfl (Or.inl rfl) rfl
        · exact .refused node _
      · cases hfind : findMember node update.nodeId with
        | none => exact effect_applyUnknown node update now
        | some found =>
            obtain ⟨idx, m⟩ := found
            obtain ⟨hget, hid⟩ := findMember_some hfind
            simp only
            split_ifs with hstale
            · exact .refused node _
            · exact .refused node _
            · simp only [Bool.not_eq_true', Bool.not_eq_false] at hstale
              exact .changed idx m _ hget (.updated update now rfl hid.symm hstale)
  | suspectMember nodeId now =>
      simp only [performCall, suspectMember]
      split_ifs
      · exact .refused node _
      · cases hfind : findMember node nodeId with
        | none => exact .refused node _
        | some found =>
            obtain ⟨idx, m⟩ := found
            obtain ⟨hget, rfl⟩ := findMember_some hfind
            simp only
            split_ifs with hstate
            · exact .refused node _
            · exact .changed idx m _ hget (.suspected now rfl (not_not.mp hstate))
  | nextProbe =>
      obtain ⟨_, _, _, _, hframe⟩ := nextProbe_frame node
      have horder := nextProbe_order node
      rw [performCall]
      rw [hframe] at horder ⊢
      exact .quiet _ rfl rfl horder rfl
  | selectDelegates excludeId max =>
      simp only [performCall, selectDelegates]
      split_ifs
      · exact .refused node _
      · exact .quiet _ rfl rfl (Or.inl rfl) rfl
  | reportHealth delta => exact .quiet _ rfl rfl (Or.inl rfl) rfl
  | checkSuspects now => exact .checked now rfl
  | reap now retention =>
      simp only [performCall, reap]
      split_ifs with hreaped
      · exact .reaped now retention rfl _ List.filter_sublist rfl rfl rfl
      · have hall : (node.members.filter fun m => !reapable now retention m) =
            node.members :=
          List.filter_sublist.eq_of_length_le (by omega)
        exact .quiet _ hall rfl (Or.inl rfl) rfl
  | getUpdates max =>
      simp only [performCall, getUpdates]
      split_ifs
      · exact .refused node _
      · exact .sent _ _ rfl rfl rfl (selectUpdates_news _ node.updates [])
          List.filter_sublist

/-! ## The effect on the members -/

/-- Every effect on the node is one of the changes of its member list. -/
theorem Effect.membersStep {node node' : Node Id} {call : Call Id}
    (heffect : Effect node call node') : MembersStep node call node'.members := by
  cases heffect with
  | quiet _ hmembers =>
      rw [hmembers]
      exact .kept
  | emptied hcall _ hmembers =>
      rw [hmembers]
      exact .thinned [] (List.nil_sublist _)
  | reaped now retention hcall _ hmembers => exact .thinned _ hmembers
  | sent raised _ hmembers =>
      rw [hmembers]
      exact .kept
  | refuted m _ hself hmembers =>
      rw [hmembers]
      exact .kept
  | joined m incarnation _ hself habsent hroom halive hfresh hwritten hmembers =>
      rw [hmembers]
      exact .joined { m with incarnation := incarnation } hself habsent hroom halive
  | changed idx m m' hget hchange =>
      rw [changeMember_members]
      exact .changed idx m m' hget hchange
  | checked now hcall =>
      rw [checkSuspects_members]
      refine .checked _ fun m => ?_
      unfold checkedMember
      split_ifs with hover
      · exact .expired now hcall hover
      · exact .kept

/-- The one description of what a call does to the member list. -/
theorem membersStep_performCall (node : Node Id) (call : Call Id) :
    MembersStep node call (performCall node call).members :=
  (effect_performCall node call).membersStep

theorem reachable_nodup_ids {node : Node Id} (hreach : runs.Reachable node) :
    node.ids.Nodup := by
  apply hreach.invariant (motive := fun node => node.ids.Nodup)
  · rintro node ⟨selfId, addr, port, cfg, addressSeed, rfl⟩
    exact List.nodup_nil
  · intro node call next hnodup hstep
    simp only [runs, Option.some.injEq] at hstep
    subst hstep
    exact (membersStep_performCall node call).nodup_ids hnodup

/-! ## The gauges -/

/-- The health score and the round counter stay. -/
structure SameGauges (before after : Node Id) : Prop where
  healthScore : after.healthScore = before.healthScore
  roundsCompleted : after.roundsCompleted = before.roundsCompleted

omit [DecidableEq Id] in
theorem SameGauges.refl (node : Node Id) : SameGauges node node := ⟨rfl, rfl⟩

omit [DecidableEq Id] in
theorem SameGauges.trans {a b c : Node Id} (hab : SameGauges a b) (hbc : SameGauges b c) :
    SameGauges a c :=
  ⟨hbc.healthScore.trans hab.healthScore, hbc.roundsCompleted.trans hab.roundsCompleted⟩

theorem queueUpdate_gauges (node : Node Id) (m : Member Id) :
    SameGauges node (queueUpdate node m) := by
  obtain ⟨updates, queued, hqueue⟩ := queueUpdate_frame node m
  rw [hqueue]
  exact ⟨rfl, rfl⟩

theorem changeMember_gauges (node : Node Id) (idx : ℕ) (m : Member Id) :
    SameGauges node (changeMember node idx m) := by
  unfold changeMember
  refine .trans (.trans ?_ (queueUpdate_gauges _ m)) ⟨rfl, rfl⟩
  exact ⟨rfl, rfl⟩

theorem addMember_gauges (node : Node Id) (nodeId : Id) (addr : UInt32) (port : UInt16)
    (now : UInt64) : SameGauges node (addMember node nodeId addr port now).2 := by
  unfold addMember
  split_ifs
  · exact .refl _
  · exact .refl _
  · exact .refl _
  · refine .trans (.trans ?_ (queueUpdate_gauges _ _)) ⟨rfl, rfl⟩
    exact ⟨rfl, rfl⟩

theorem applyUpdate_gauges (node : Node Id) (update : Update Id) (now : UInt64) :
    SameGauges node (applyUpdate node update now).2 := by
  unfold applyUpdate
  split_ifs
  · unfold applySelf
    split_ifs
    · have hqueue := queueUpdate_gauges { node with
        selfIncarnation := update.incarnation + 1 }
        (selfMember { node with selfIncarnation := update.incarnation + 1 } now)
      exact ⟨hqueue.healthScore, hqueue.roundsCompleted⟩
    · exact queueUpdate_gauges node (selfMember node now)
    · exact ⟨rfl, rfl⟩
    · exact .refl _
  · split
    · rcases applyUnknown_cases node update now with
        ⟨_, hsame⟩ | ⟨_, _, _, _, _, hjoined⟩
      · rw [hsame]
        exact .refl _
      · rw [hjoined]
        exact (addMember_gauges node _ _ _ _).trans ⟨rfl, rfl⟩
    · split_ifs
      · exact .refl _
      · exact .refl _
      · exact changeMember_gauges node _ _

theorem checkSuspects_gauges (node : Node Id) (now : UInt64) :
    SameGauges node (checkSuspects node now).2 := by
  have hloop := checkLoop_induction now (suspectTimeout node)
    (motive := fun state => SameGauges node state.1)
    (List.range node.members.length) (node, 0) (.refl node)
    (fun state i hgood => by
      unfold checkStep
      split
      · exact hgood
      · split_ifs
        · exact hgood
        · rename_i m _ _
          refine .trans ?_ (queueUpdate_gauges _ (expiredMember m now))
          exact hgood.trans ⟨rfl, rfl⟩)
  unfold checkSuspects
  simp only
  split_ifs
  · exact hloop.trans ⟨rfl, rfl⟩
  · exact hloop

/-- Only a reset, a health report and a probe touch the gauges. -/
theorem gauges_performCall (node : Node Id) (call : Call Id) :
    SameGauges node (performCall node call) ∨ call = .reset ∨ call = .nextProbe ∨
      ∃ delta, call = .reportHealth delta := by
  cases call with
  | reset => exact Or.inr (Or.inl rfl)
  | nextProbe => exact Or.inr (Or.inr (Or.inl rfl))
  | reportHealth delta => exact Or.inr (Or.inr (Or.inr ⟨delta, rfl⟩))
  | addMember nodeId addr port now => exact Or.inl (addMember_gauges node _ _ _ _)
  | removeMember nodeId now =>
      left
      rw [performCall, removeMember]
      split_ifs
      · exact .refl _
      · split
        · exact .refl _
        · exact changeMember_gauges node _ _
  | applyUpdate update now => exact Or.inl (applyUpdate_gauges node update now)
  | suspectMember nodeId now =>
      left
      rw [performCall, suspectMember]
      split_ifs
      · exact .refl _
      · split
        · exact .refl _
        · split_ifs
          · exact .refl _
          · exact changeMember_gauges node _ _
  | selectDelegates excludeId max =>
      left
      rw [performCall, selectDelegates]
      split_ifs
      · exact .refl _
      · exact ⟨rfl, rfl⟩
  | checkSuspects now => exact Or.inl (checkSuspects_gauges node now)
  | reap now retention =>
      left
      rw [performCall, reap]
      split_ifs
      · exact ⟨rfl, rfl⟩
      · exact ⟨rfl, rfl⟩
  | getUpdates max =>
      left
      rw [performCall, getUpdates]
      split_ifs
      · exact .refl _
      · exact ⟨rfl, rfl⟩

end Swim
end LibWake
