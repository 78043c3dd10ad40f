import LibWake.SwimRefutation
import LibWake.SwimRepresentation

/-!
# What the dissemination queue reports

A queued update about a listed member reports the member as it is, as long as
no update of an unknown node brings an incarnation with it: such a member is
queued with incarnation 0 before its incarnation is written.
-/

namespace LibWake
namespace Swim

variable {Id : Type}

/-! ## Reports -/

/-- The update says of the member what the member list says. -/
structure Update.Reports (u : Update Id) (m : Member Id) : Prop where
  state : u.state = m.state
  incarnation : u.incarnation = m.incarnation
  addr : u.addr = m.addr
  port : u.port = m.port

/-- Every queued update about a listed member reports it as it is. -/
def Truthful (updates : List (Update Id)) (members : List (Member Id)) : Prop :=
  ∀ u ∈ updates, ∀ m ∈ members, u.nodeId = m.nodeId → u.Reports m

instance (u : Update Id) (m : Member Id) : Decidable (u.Reports m) :=
  decidable_of_iff
    (u.state = m.state ∧ u.incarnation = m.incarnation ∧ u.addr = m.addr ∧
      u.port = m.port)
    ⟨fun ⟨hstate, hincarnation, haddr, hport⟩ => ⟨hstate, hincarnation, haddr, hport⟩,
      fun h => ⟨h.state, h.incarnation, h.addr, h.port⟩⟩

theorem Member.reports_toUpdate (m : Member Id) : m.toUpdate.Reports m :=
  ⟨rfl, rfl, rfl, rfl⟩

theorem Update.Reports.of_news {u u' : Update Id} {m : Member Id} (hreports : u.Reports m)
    (hnews : u.news = u'.news) : u'.Reports m where
  state := (congrArg Update.state hnews).symm.trans hreports.state
  incarnation := (congrArg Update.incarnation hnews).symm.trans hreports.incarnation
  addr := (congrArg Update.addr hnews).symm.trans hreports.addr
  port := (congrArg Update.port hnews).symm.trans hreports.port

/-! ## Keeping the queue truthful -/

/-- Queueing a member which is the only listed one of its id, the other members
being from before. -/
theorem QueueStep.truthful {size : ℕ} {before after : List (Update Id)}
    {members members' : List (Member Id)} {m : Member Id}
    (hstep : QueueStep size before m.toUpdate after) (hqueue : QueueSound size before)
    (htruth : Truthful before members)
    (honly : ∀ other ∈ members', other.nodeId = m.nodeId → other = m)
    (hrest : ∀ other ∈ members', other.nodeId ≠ m.nodeId → other ∈ members) :
    Truthful after members' := by
  intro u hu other hother hid
  rcases hstep.mem hqueue.nodup_ids hu with rfl | ⟨hold, hne⟩
  · rw [honly other hother hid.symm]
    exact m.reports_toUpdate
  · exact htruth u hold other (hrest other hother fun hsame => hne (hid.trans hsame)) hid

theorem Truthful.sublist {updates : List (Update Id)} {members members' : List (Member Id)}
    (htruth : Truthful updates members) (hsub : members'.Sublist members) :
    Truthful updates members' :=
  fun u hu m hm => htruth u hu m (hsub.subset hm)

theorem Truthful.sent {before raised after : List (Update Id)} {members : List (Member Id)}
    (htruth : Truthful before members)
    (hraised : raised.map Update.news = before.map Update.news)
    (hafter : after.Sublist raised) : Truthful after members := by
  intro u hu m hm hid
  have hnews : u.news ∈ before.map Update.news :=
    hraised ▸ List.mem_map_of_mem (hafter.subset hu)
  obtain ⟨old, hold, hsame⟩ := List.mem_map.mp hnews
  have holdId : old.nodeId = m.nodeId := (congrArg Update.nodeId hsame).trans hid
  exact (htruth old hold m hm holdId).of_news hsame

/-- The parts of a node which a truthful queue depends on. -/
structure Disseminates (node : Node Id) : Prop where
  nodup_ids : node.ids.Nodup
  queue : QueueSound node.config.updateQueueSize.toNat node.updates
  truthful : Truthful node.updates node.members

theorem Disseminates.reported {node node' : Node Id} (hgood : Disseminates node)
    {idx : ℕ} {m m' : Member Id} (hget : node.members[idx]? = some m)
    (hid : m'.nodeId = m.nodeId) (hconfig : node'.config = node.config)
    (hmembers : node'.members = node.members.set idx m')
    (hupdates : QueueStep node.config.updateQueueSize.toNat node.updates m'.toUpdate
      node'.updates) : Disseminates node' := by
  have hids : node'.ids = node.ids := by
    rw [Node.ids, hmembers]
    exact DenseArray.map_set_of_eq Member.nodeId hget hid
  have hnodup : node'.ids.Nodup := hids ▸ hgood.nodup_ids
  have hlt := (List.getElem?_eq_some_iff.mp hget).1
  have hlisted : m' ∈ node'.members := hmembers ▸ List.mem_set hlt m'
  refine ⟨hnodup, hconfig ▸ hupdates.sound hgood.queue, ?_⟩
  apply hupdates.truthful hgood.queue hgood.truthful
  · intro other hother hsame
    exact eq_of_nodeId_eq hnodup hother hlisted hsame
  · intro other hother hne
    rw [hmembers] at hother
    rcases List.mem_or_eq_of_mem_set hother with hold | rfl
    · exact hold
    · exact absurd rfl hne

/-! ## One call -/

section Calls

variable [DecidableEq Id]

theorem Disseminates.checkSuspects {node : Node Id} (hgood : Disseminates node)
    (now : UInt64) : Disseminates (Swim.checkSuspects node now).2 := by
  have hloop := checkLoop_induction now (suspectTimeout node)
    (motive := fun state => Disseminates state.1)
    (List.range node.members.length) (node, 0) hgood
    (fun state i hstate => by
      rcases checkStep_cases now (suspectTimeout node) state i with
        hsame | ⟨m, hget, _, hconfig, hmembers, hupdates⟩
      · rwa [hsame]
      · exact hstate.reported hget (show (expiredMember m now).nodeId = m.nodeId from rfl)
          hconfig hmembers hupdates)
  unfold Swim.checkSuspects
  simp only
  split_ifs
  · exact ⟨hloop.nodup_ids, hloop.queue, hloop.truthful⟩
  · exact hloop

/-- The call makes a member of an unknown node and brings an incarnation which
is not the one of a new member. -/
def QueuesBeforeWriting (node : Node Id) : Call Id → Prop
  | .applyUpdate update _ =>
      update.state = alive ∧ update.incarnation ≠ 0 ∧ update.nodeId ≠ node.selfId ∧
        (∀ m ∈ node.members, m.nodeId ≠ update.nodeId) ∧
        node.members.length < node.config.maxMembers.toNat
  | _ => False

instance (node : Node Id) (call : Call Id) : Decidable (QueuesBeforeWriting node call) :=
  match call with
  | .applyUpdate _ _ => inferInstanceAs (Decidable (_ ∧ _))
  | .reset | .reap _ _ | .addMember _ _ _ _ | .removeMember _ _ | .suspectMember _ _
  | .nextProbe | .selectDelegates _ _ | .reportHealth _ | .checkSuspects _
  | .getUpdates _ => .isFalse id

/-- A call which queues its member last keeps the queue truthful. -/
theorem Effect.truthful {node node' : Node Id} {call : Call Id}
    (heffect : Effect node call node') (hgood : WellFormed node)
    (htruth : Truthful node.updates node.members)
    (hlast : ¬ QueuesBeforeWriting node call) :
    Truthful node'.updates node'.members := by
  have hstart : Disseminates node := ⟨hgood.members.nodup_ids, hgood.queue, htruth⟩
  cases heffect with
  | quiet _ hmembers hcount horder hupdates => rwa [hupdates, hmembers]
  | emptied hcall _ hmembers hcount horder hupdates =>
      rw [hmembers]
      exact fun u hu m hm => absurd hm List.not_mem_nil
  | reaped now retention hcall _ hmembers hcount horder hupdates =>
      rw [hupdates]
      exact htruth.sublist hmembers
  | sent raised _ hmembers hcount horder hraised hupdates =>
      rw [hmembers]
      exact htruth.sent hraised hupdates
  | refuted m _ hself hmembers hcount horder hupdates =>
      rw [hmembers]
      apply hupdates.truthful hgood.queue htruth
      · intro other hother hsame
        exact absurd (hsame.trans hself) (hgood.members.not_self other hother)
      · exact fun other hother _ => hother
  | joined m incarnation _ hself habsent hroom halive hfresh hwritten hmembers hcount
      horder hupdates =>
      have hqueued : incarnation = m.incarnation := by
        rcases hwritten with hnew | ⟨update, now, rfl, hid, hstate, rfl⟩
        · exact hnew
        · rw [hfresh]
          by_contra hne
          exact hlast ⟨hstate, hne, hid ▸ hself, hid ▸ habsent, hroom⟩
      rw [hmembers, hqueued]
      apply hupdates.truthful hgood.queue htruth
      · intro other hother hsame
        rcases List.mem_append.mp hother with hold | hnew
        · exact absurd hsame (habsent other hold)
        · exact List.mem_singleton.mp hnew
      · intro other hother hne
        rcases List.mem_append.mp hother with hold | hnew
        · exact hold
        · exact absurd (congrArg Member.nodeId (List.mem_singleton.mp hnew)) hne
  | changed idx m m' hget hchange =>
      have hstep := queueStep_queueUpdate { node.setMember idx m' with
        stateChanges := node.stateChanges + 1 }.recountAlive m'
      exact (hstart.reported hget hchange.nodeId_eq (changeMember_identity node idx m').config
        (changeMember_members node idx m') hstep).truthful
  | checked now hcall => exact (hstart.checkSuspects now).truthful

/-- A call which queues its member first leaves a report of incarnation 0. -/
theorem not_truthful_of_queuesBeforeWriting {node : Node Id} (hreach : runs.Reachable node)
    {call : Call Id} (hearly : QueuesBeforeWriting node call) :
    ¬ Truthful (performCall node call).updates (performCall node call).members := by
  cases call with
  | applyUpdate update now =>
      obtain ⟨halive, hne, hself, habsent, hroom⟩ := hearly
      have hok := applyUnknown_joins halive hself habsent hroom now
      have hsize := reachable_queueSize_pos hreach
      have hqueued : (newMember update.nodeId update.addr update.port now).toUpdate ∈
          (addMember node update.nodeId update.addr update.port now).2.updates := by
        rw [addMember_joins hself habsent hroom update.addr update.port now]
        exact @mem_queueUpdate _ _ { node with
          members := node.members ++
            [newMember update.nodeId update.addr update.port now]
          aliveCount := node.aliveCount + 1
          stateChanges := node.stateChanges + 1 } hsize _
      simp only [performCall, applyUpdate, if_neg hself, findMember_none.mpr habsent]
      rcases applyUnknown_cases node update now with
        ⟨hrefused, _⟩ | ⟨_, _, _, _, _, hjoined⟩
      · exact absurd hok hrefused
      rw [hjoined]
      intro htruth
      have hreports := htruth _ hqueued _
        (List.mem_append_right _ List.mem_cons_self) rfl
      exact hne hreports.incarnation.symm
  | _ => exact absurd hearly id

/-! ## Runs -/

/-- The queue tells the truth in every state of a run in which every member is
queued last, and no longer once a member is queued before its incarnation is
written. -/
theorem queue_truthful_iff_queued_last :
    (∀ (start final : Node Id) (calls : List (Call Id)), runs.Initial start →
      runs.RunMeets (fun node call => ¬ QueuesBeforeWriting node call) start calls →
      runs.run start calls = some final → Truthful final.updates final.members) ∧
    ∀ (node : Node Id) (call : Call Id), runs.Reachable node →
      QueuesBeforeWriting node call →
      ¬ Truthful (performCall node call).updates (performCall node call).members := by
  refine ⟨fun start final calls hinitial hmeets hrun => ?_,
    fun node call hreach hearly => not_truthful_of_queuesBeforeWriting hreach hearly⟩
  have hstart : WellFormed start ∧ Truthful start.updates start.members := by
    obtain ⟨selfId, addr, port, cfg, addressSeed, rfl⟩ := hinitial
    exact ⟨wellFormed_create selfId addr port cfg addressSeed,
      fun u hu => absurd hu List.not_mem_nil⟩
  refine (runs.run_invariant_of_runMeets
    (motive := fun node => WellFormed node ∧ Truthful node.updates node.members)
    ?_ hstart hmeets hrun).2
  intro node call next hgood hlast hstep
  simp only [runs, Option.some.injEq] at hstep
  subst hstep
  exact ⟨hgood.1.performCall call,
    (effect_performCall node call).truthful hgood.1 hgood.2 hlast⟩

end Calls

/-- Node 7 is ALIVE at the incarnation. -/
def aliveSeven (incarnation : UInt32) : Update ℕ := ⟨7, 1, 2, alive, incarnation, 0⟩

theorem queue_truthful_iff_queued_last_hearsay :
    ∃ final, runs.run fresh [.applyUpdate (aliveSeven 0) 10, .suspectMember 7 20] =
        some final ∧ Truthful final.updates final.members :=
  ⟨_, rfl, queue_truthful_iff_queued_last.1 fresh _
    [.applyUpdate (aliveSeven 0) 10, .suspectMember 7 20] ⟨_, _, _, _, _, rfl⟩
    (by decide) rfl⟩

/-- Once node 7 has joined at incarnation 5, the queue says incarnation 0. -/
theorem joined_at_five_queued_at_zero :
    runs.Reachable (performCall fresh (.applyUpdate (aliveSeven 5) 10)) ∧
      ¬ Truthful (performCall fresh (.applyUpdate (aliveSeven 5) 10)).updates
        (performCall fresh (.applyUpdate (aliveSeven 5) 10)).members := by
  refine ⟨(runs.reachable_of_initial ⟨_, _, _, _, _, rfl⟩).step
    (show runs.step fresh (.applyUpdate (aliveSeven 5) 10) = some _ from rfl), ?_⟩
  unfold Truthful
  decide

end Swim
end LibWake
