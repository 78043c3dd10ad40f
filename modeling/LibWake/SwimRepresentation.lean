import LibWake.SwimPrecedence

/-!
# The representation of a node

The member list, the count and the probe order derived from it, and the
dissemination queue fit together in every reachable state.
-/

namespace LibWake
namespace Swim

variable {Id : Type}

/-! ## The invariant -/

/-- The member array is within its bounds and names each other node once. -/
structure MembersSound (node : Node Id) : Prop where
  room : node.members.length ≤ node.config.maxMembers.toNat
  nodup_ids : node.ids.Nodup
  not_self : ∀ m ∈ node.members, m.nodeId ≠ node.selfId

/-- The fields which are derived from the member states. -/
structure DerivedSound (node : Node Id) : Prop where
  alive_count : node.aliveCount = node.members.countP Member.probeEligible
  probe_order : node.probeOrder ≠ [] → ListsEligible node.members node.probeOrder

/-- The queue is within its bounds and reports on each node once. -/
structure QueueSound (size : ℕ) (updates : List (Update Id)) : Prop where
  room : updates.length ≤ size
  nodup_ids : (updates.map Update.nodeId).Nodup

/-- The representation invariant of a node. -/
structure WellFormed (node : Node Id) : Prop where
  members : MembersSound node
  derived : DerivedSound node
  queue : QueueSound node.config.updateQueueSize.toNat node.updates

/-! ## The members -/

theorem MembersStep.room {node : Node Id} {call : Call Id} {members : List (Member Id)}
    (hstep : MembersStep node call members)
    (hroom : node.members.length ≤ node.config.maxMembers.toNat) :
    members.length ≤ node.config.maxMembers.toNat := by
  cases hstep with
  | kept => exact hroom
  | changed idx m changed hget hchange => rwa [List.length_set]
  | checked change hchange => rwa [List.length_map]
  | thinned rest hsub => exact hsub.length_le.trans hroom
  | joined m _ _ hless _ =>
      rw [List.length_append, List.length_singleton]
      omega

theorem MembersStep.not_self {node : Node Id} {call : Call Id}
    {members : List (Member Id)} (hstep : MembersStep node call members)
    (hself : ∀ m ∈ node.members, m.nodeId ≠ node.selfId) :
    ∀ m ∈ members, m.nodeId ≠ node.selfId := by
  intro m' hmem
  rcases hstep.change_or_new hmem with ⟨m, hold, hchange⟩ | ⟨hnew, _⟩
  · rw [hchange.nodeId_eq]
    exact hself m hold
  · exact hnew

/-! ## The derived fields -/

/-- A recount and an invalidation make the derived fields sound whatever
happened to the members. -/
theorem derivedSound_of_recounted {node : Node Id}
    (hcount : node.aliveCount = node.members.countP Member.probeEligible)
    (horder : node.probeOrder = []) : DerivedSound node where
  alive_count := hcount
  probe_order hne := absurd horder hne

theorem DerivedSound.of_same {node node' : Node Id} (hsound : DerivedSound node)
    (hmembers : node'.members = node.members)
    (hcount : node'.aliveCount = node.aliveCount)
    (horder : node'.probeOrder = node.probeOrder ∨
      ListsEligible node.members node'.probeOrder) : DerivedSound node' where
  alive_count := by rw [hcount, hmembers, hsound.alive_count]
  probe_order hne := by
    rw [hmembers]
    rcases horder with hkept | hrebuilt
    · rw [hkept] at hne ⊢
      exact hsound.probe_order hne
    · exact hrebuilt

/-! ## The queue -/

theorem QueueStep.sound {size : ℕ} {before after : List (Update Id)} {u : Update Id}
    (hstep : QueueStep size before u after) (hsound : QueueSound size before) :
    QueueSound size after := by
  cases hstep with
  | replaced i old hget hid =>
      refine ⟨by simpa using hsound.room, ?_⟩
      rw [DenseArray.map_set_of_eq Update.nodeId hget hid.symm]
      exact hsound.nodup_ids
  | appended habsent hroom =>
      refine ⟨by simpa using Nat.succ_le_of_lt hroom, ?_⟩
      rw [List.map_append, List.map_singleton, ← List.concat_eq_append,
        List.nodup_concat]
      refine ⟨fun hmem => ?_, hsound.nodup_ids⟩
      obtain ⟨old, hold, hid⟩ := List.mem_map.mp hmem
      exact habsent old hold hid
  | evicted i habsent =>
      refine ⟨by simpa using hsound.room, ?_⟩
      rw [List.map_set]
      refine hsound.nodup_ids.set fun hmem => ?_
      obtain ⟨old, hold, hid⟩ := List.mem_map.mp hmem
      exact habsent old hold hid

/-- What stays of a queue with the same news is a sound queue. -/
theorem QueueSound.sent {size : ℕ} {before raised after : List (Update Id)}
    (hsound : QueueSound size before)
    (hraised : raised.map Update.news = before.map Update.news)
    (hafter : after.Sublist raised) : QueueSound size after := by
  have hlength := congrArg List.length hraised
  rw [List.length_map, List.length_map] at hlength
  have hids : raised.map Update.nodeId = before.map Update.nodeId := by
    have hmapped := congrArg (List.map Update.nodeId) hraised
    rw [List.map_map, List.map_map] at hmapped
    exact hmapped
  refine ⟨hafter.length_le.trans (hlength.le.trans hsound.room), ?_⟩
  exact (hids ▸ hsound.nodup_ids).sublist (hafter.map Update.nodeId)

/-! ## One call -/

section Calls

variable [DecidableEq Id]

theorem changeMember_derived (node : Node Id) (idx : ℕ) (m : Member Id) :
    DerivedSound (changeMember node idx m) := by
  apply derivedSound_of_recounted
  · simp [changeMember, Node.invalidateProbeOrder, Node.recountAlive, Node.setMember]
  · rfl

/-- The loop over the suspects recounts unless it changed nothing. -/
theorem checkSuspects_derived {node : Node Id} (hsound : DerivedSound node)
    (now : UInt64) : DerivedSound (checkSuspects node now).2 := by
  have hloop := checkLoop_induction now (suspectTimeout node)
    (motive := fun state => state.2 = 0 → state.1 = node)
    (List.range node.members.length) (node, 0) (fun _ => rfl)
    (fun state i hgood hzero => by
      rcases checkStep_cases now (suspectTimeout node) state i with
        hsame | ⟨m, _, hcount, _⟩
      · rw [hsame] at hzero ⊢
        exact hgood hzero
      · rw [hcount] at hzero
        exact absurd hzero (Nat.succ_ne_zero _))
  unfold checkSuspects
  simp only
  split_ifs with hexpired
  · exact derivedSound_of_recounted rfl rfl
  · rw [hloop (Nat.eq_zero_of_not_pos hexpired)]
    exact hsound

theorem checkSuspects_queue {node : Node Id}
    (hsound : QueueSound node.config.updateQueueSize.toNat node.updates) (now : UInt64) :
    QueueSound node.config.updateQueueSize.toNat (checkSuspects node now).2.updates := by
  have hloop := checkLoop_induction now (suspectTimeout node)
    (motive := fun state => state.1.config = node.config ∧
      QueueSound node.config.updateQueueSize.toNat state.1.updates)
    (List.range node.members.length) (node, 0) ⟨rfl, hsound⟩
    (fun state i hgood => by
      rcases checkStep_cases now (suspectTimeout node) state i with
        hsame | ⟨m, _, _, hconfig, _, hupdates⟩
      · rwa [hsame]
      · rw [hgood.1] at hupdates
        exact ⟨hconfig.trans hgood.1, hupdates.sound hgood.2⟩)
  unfold checkSuspects
  simp only
  split_ifs
  · exact hloop.2
  · exact hloop.2

theorem Effect.derivedSound {node node' : Node Id} {call : Call Id}
    (heffect : Effect node call node') (hsound : DerivedSound node) :
    DerivedSound node' := by
  cases heffect with
  | quiet _ hmembers hcount horder hupdates => exact hsound.of_same hmembers hcount horder
  | emptied hcall _ hmembers hcount horder hupdates =>
      exact derivedSound_of_recounted (by rw [hcount, hmembers]; rfl) horder
  | reaped now retention hcall _ hmembers hcount horder hupdates =>
      exact derivedSound_of_recounted hcount horder
  | sent raised _ hmembers hcount horder hraised hupdates =>
      exact hsound.of_same hmembers hcount (Or.inl horder)
  | refuted m _ hself hmembers hcount horder hupdates =>
      exact hsound.of_same hmembers hcount (Or.inl horder)
  | joined m incarnation _ hself habsent hroom halive hfresh hwritten hmembers hcount
      horder hupdates =>
      apply derivedSound_of_recounted _ horder
      rw [hcount, hmembers, List.countP_append, hsound.alive_count]
      simp [Member.probeEligible, halive]
  | changed idx m m' hget hchange => exact changeMember_derived node idx m'
  | checked now hcall => exact checkSuspects_derived hsound now

theorem Effect.queueSound {node node' : Node Id} {call : Call Id}
    (heffect : Effect node call node')
    (hsound : QueueSound node.config.updateQueueSize.toNat node.updates) :
    QueueSound node.config.updateQueueSize.toNat node'.updates := by
  cases heffect with
  | quiet _ hmembers hcount horder hupdates => rwa [hupdates]
  | emptied hcall _ hmembers hcount horder hupdates =>
      rw [hupdates]
      exact ⟨Nat.zero_le _, List.nodup_nil⟩
  | reaped now retention hcall _ hmembers hcount horder hupdates => rwa [hupdates]
  | sent raised _ hmembers hcount horder hraised hupdates =>
      exact hsound.sent hraised hupdates
  | refuted m _ hself hmembers hcount horder hupdates => exact hupdates.sound hsound
  | joined m incarnation _ hself habsent hroom halive hfresh hwritten hmembers hcount
      horder hupdates =>
      exact hupdates.sound hsound
  | changed idx m m' hget hchange =>
      have hstep := queueStep_queueUpdate { node.setMember idx m' with
        stateChanges := node.stateChanges + 1 }.recountAlive m'
      exact hstep.sound hsound
  | checked now hcall => exact checkSuspects_queue hsound now

theorem WellFormed.performCall {node : Node Id} (hgood : WellFormed node)
    (call : Call Id) : WellFormed (Swim.performCall node call) := by
  have heffect := effect_performCall node call
  have hstep := heffect.membersStep
  obtain ⟨hconfig, hself⟩ := performCall_config node call
  refine ⟨⟨?_, hstep.nodup_ids hgood.members.nodup_ids, ?_⟩,
    heffect.derivedSound hgood.derived, ?_⟩
  · rw [hconfig]
    exact hstep.room hgood.members.room
  · rw [hself]
    exact hstep.not_self hgood.members.not_self
  · rw [hconfig]
    exact heffect.queueSound hgood.queue

end Calls

/-! ## Runs -/

theorem wellFormed_create (selfId : Id) (addr : UInt32) (port : UInt16)
    (cfg : Option Config) (addressSeed : UInt64) :
    WellFormed (create selfId addr port cfg addressSeed) where
  members := ⟨Nat.zero_le _, List.nodup_nil, by simp [create]⟩
  derived := derivedSound_of_recounted rfl rfl
  queue := ⟨Nat.zero_le _, List.nodup_nil⟩

theorem reachable_wellFormed [DecidableEq Id] {node : Node Id}
    (hreach : runs.Reachable node) : WellFormed node := by
  apply hreach.invariant (motive := WellFormed)
  · rintro node ⟨selfId, addr, port, cfg, addressSeed, rfl⟩
    exact wellFormed_create selfId addr port cfg addressSeed
  · intro node call next hgood hstep
    simp only [runs, Option.some.injEq] at hstep
    exact hstep ▸ hgood.performCall call

/-- The representation invariant holds in every reachable state. -/
theorem representation_holds [DecidableEq Id] {node : Node Id}
    (hreach : runs.Reachable node) : WellFormed node :=
  reachable_wellFormed hreach

theorem representation_holds_fiveMembers :
    WellFormed (performCall fiveMembers .nextProbe) ∧
      (performCall fiveMembers .nextProbe).members.length = 5 ∧
      (performCall fiveMembers .nextProbe).updates.length = 5 ∧
      (performCall fiveMembers .nextProbe).probeOrder.length = 4 :=
  ⟨representation_holds (reachable_fiveMembers.step
    (show runs.step fiveMembers .nextProbe = some _ from rfl)), by decide +kernel,
    by decide +kernel, by decide +kernel⟩

end Swim
end LibWake
