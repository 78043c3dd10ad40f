import LibWake.SwimPrecedence

/-!
# Self-refutation

A node which is accused of being SUSPECT or DEAD raises its incarnation past
the accusation and queues an ALIVE update.  The update refutes the accusation at
every peer, unless the accused incarnation is the largest one: then it wraps
around.
-/

namespace LibWake
namespace Swim

variable {Id : Type}

/-- The largest incarnation. -/
def maxIncarnation : UInt32 := 0xFFFFFFFF

/-- The update says that the node is SUSPECT or DEAD. -/
def Update.Accuses (update : Update Id) (nodeId : Id) : Prop :=
  update.nodeId = nodeId ∧ (update.state = suspect ∨ update.state = dead)

theorem Update.Accuses.ne_left {update : Update Id} {nodeId : Id}
    (haccuses : update.Accuses nodeId) : update.state ≠ left := by
  rcases haccuses.2 with hstate | hstate <;> rw [hstate] <;> decide

theorem alive_supersedes_iff {update : Update Id} {nodeId : Id} {incarnation : UInt32}
    (haccuses : update.Accuses nodeId) :
    stateSupersedes alive incarnation update.state update.incarnation = true ↔
      update.incarnation < incarnation := by
  have hlow : ¬ update.state < alive := by
    rcases haccuses.2 with hstate | hstate <;> rw [hstate] <;> decide
  rw [stateSupersedes_iff, rank_lt_rank_iff haccuses.ne_left (by decide)]
  constructor
  · rintro (hleft | hlt | ⟨_, hstate⟩)
    · exact absurd hleft (by decide)
    · exact hlt
    · exact absurd hstate hlow
  · exact fun hlt => Or.inr (Or.inl hlt)

theorem toNat_succ_of_ne_max {incarnation : UInt32} (hne : incarnation ≠ maxIncarnation) :
    (incarnation + 1).toNat = incarnation.toNat + 1 := by
  have hlt := incarnation.toNat_lt
  have hmax : incarnation.toNat ≠ 2 ^ 32 - 1 := by
    intro heq
    exact hne (UInt32.toNat_inj.mp heq)
  rw [UInt32.toNat_add, UInt32.toNat_one]
  omega

/-- The incarnation of an accused node after the refutation. -/
def raisedIncarnation (own accused : UInt32) : UInt32 :=
  if accused ≥ own then accused + 1 else own

theorem lt_raisedIncarnation (own : UInt32) {accused : UInt32} (hne : accused ≠ maxIncarnation) :
    accused < raisedIncarnation own accused := by
  unfold raisedIncarnation
  split_ifs with hge
  · rw [UInt32.lt_iff_toNat_lt, toNat_succ_of_ne_max hne]
    exact Nat.lt_succ_self _
  · exact UInt32.not_le.mp hge

theorem le_raisedIncarnation (own : UInt32) {accused : UInt32} (hne : accused ≠ maxIncarnation) :
    own ≤ raisedIncarnation own accused := by
  unfold raisedIncarnation
  split_ifs with hge
  · rw [ge_iff_le, UInt32.le_iff_toNat_le] at hge
    rw [UInt32.le_iff_toNat_le, toNat_succ_of_ne_max hne]
    omega
  · exact UInt32.le_refl own

/-! ## The queue holds what was queued -/

theorem worstUpdate_lt {updates : List (Update Id)} (hne : updates ≠ []) :
    worstUpdate updates < updates.length := by
  unfold worstUpdate
  refine List.foldlRecOn (motive := fun worst : ℕ × UInt16 => worst.1 < updates.length) _ _
    (List.length_pos_of_ne_nil hne) ?_
  intro worst hworst i hi
  split
  · split_ifs
    · exact List.mem_range.mp hi
    · exact hworst
  · exact hworst

section Queue

variable [DecidableEq Id]

theorem mem_queueUpdate {node : Node Id} (hsize : 0 < node.config.updateQueueSize.toNat)
    (m : Member Id) : m.toUpdate ∈ (queueUpdate node m).updates := by
  unfold queueUpdate
  cases hfind : findUpdate node.updates m.nodeId with
  | some i =>
      have hlt : i < node.updates.length := (List.findIdx?_eq_some_iff_getElem.mp hfind).1
      exact List.mem_set hlt _
  | none =>
      simp only
      split_ifs with hroom
      · exact List.mem_append_right _ List.mem_cons_self
      · have hne : node.updates ≠ [] := by
          rintro hnil
          rw [hnil, List.length_nil] at hroom
          omega
        exact List.mem_set (worstUpdate_lt hne) _

/-- The refuting update of a node. -/
def refutation (node : Node Id) (incarnation : UInt32) : Update Id where
  nodeId := node.selfId
  addr := node.selfAddr
  port := node.selfPort
  state := alive
  incarnation := incarnation
  piggybackCount := 0

theorem applyUpdate_accused {node : Node Id} {update : Update Id}
    (haccuses : update.Accuses node.selfId)
    (hsize : 0 < node.config.updateQueueSize.toNat) (now : UInt64) :
    (applyUpdate node update now).2.selfIncarnation =
        raisedIncarnation node.selfIncarnation update.incarnation ∧
      refutation node (raisedIncarnation node.selfIncarnation update.incarnation) ∈
        (applyUpdate node update now).2.updates := by
  simp only [applyUpdate, if_pos haccuses.1, applySelf, if_pos haccuses.2,
    raisedIncarnation]
  split_ifs with hge
  · refine ⟨(queueUpdate_identity _ _).selfIncarnation, ?_⟩
    exact @mem_queueUpdate _ _ { node with selfIncarnation := update.incarnation + 1 }
      hsize _
  · exact ⟨(queueUpdate_identity _ _).selfIncarnation, mem_queueUpdate hsize _⟩

/-! ## The peers -/

theorem findMemberFrom_set {nodeId : Id} {start idx : ℕ} {members : List (Member Id)}
    {m m' : Member Id} (hfind : findMemberFrom nodeId start members = some (idx, m))
    (hid : m'.nodeId = nodeId) :
    findMemberFrom nodeId start (members.set (idx - start) m') = some (idx, m') := by
  induction members generalizing start with
  | nil => simp [findMemberFrom] at hfind
  | cons head rest ih =>
      have hle := (findMemberFrom_some hfind).1
      unfold findMemberFrom at hfind
      split_ifs at hfind with heq
      · simp only [Option.some.injEq, Prod.mk.injEq] at hfind
        obtain ⟨rfl, rfl⟩ := hfind
        simp [findMemberFrom, hid]
      · have hnext := (findMemberFrom_some hfind).1
        obtain ⟨k, rfl⟩ : ∃ k, idx = start + 1 + k := ⟨idx - (start + 1), by omega⟩
        have hindex : start + 1 + k - start = k + 1 := by omega
        have hrest := ih hfind
        rw [Nat.add_sub_cancel_left] at hrest
        rw [hindex, List.set_cons_succ, findMemberFrom, if_neg heq, hrest]

/-- The peer's entry of the node is ALIVE. -/
def HoldsAlive (peer : Node Id) (nodeId : Id) (incarnation : UInt32) : Prop :=
  ∃ idx m, findMember peer nodeId = some (idx, m) ∧ m.state = alive ∧
    m.incarnation = incarnation

/-- A peer whose entry is exactly the accusation is convinced by every ALIVE
update which supersedes it. -/
theorem convinced {peer : Node Id} {nodeId : Id} {answer accusation : Update Id}
    (hpeer : nodeId ≠ peer.selfId) (hid : answer.nodeId = nodeId)
    (halive : answer.state = alive)
    (hsupersedes : stateSupersedes alive answer.incarnation accusation.state
      accusation.incarnation = true)
    {idx : ℕ} {m : Member Id} (hfind : findMember peer nodeId = some (idx, m))
    (hstate : m.state = accusation.state)
    (hincarnation : m.incarnation = accusation.incarnation) (now : UInt64) :
    HoldsAlive (applyUpdate peer answer now).2 nodeId answer.incarnation := by
  subst hid
  rw [← halive, ← hstate, ← hincarnation] at hsupersedes
  simp only [applyUpdate, if_neg hpeer, hfind, hsupersedes, Bool.not_true,
    Bool.false_eq_true, if_false]
  refine ⟨idx, updatedMember m answer now, ?_, halive, rfl⟩
  unfold findMember
  rw [changeMember_members]
  exact findMemberFrom_set hfind (findMember_some hfind).2

/-! ## Refutation -/

/-- The queue of an accused node holds an ALIVE update which supersedes the
accusation and convinces every peer whose entry is exactly the accusation. -/
def Refuted (node : Node Id) (accusation : Update Id) (now : UInt64) : Prop :=
  ∃ answer ∈ (applyUpdate node accusation now).2.updates,
    answer.nodeId = node.selfId ∧ answer.state = alive ∧
    stateSupersedes alive answer.incarnation accusation.state
      accusation.incarnation = true ∧
    ∀ (peer : Node Id) (idx : ℕ) (m : Member Id) (later : UInt64),
      node.selfId ≠ peer.selfId →
      findMember peer node.selfId = some (idx, m) →
      m.state = accusation.state → m.incarnation = accusation.incarnation →
      HoldsAlive (applyUpdate peer answer later).2 node.selfId answer.incarnation

theorem not_refuted_of_max {node : Node Id} {update : Update Id}
    (haccuses : update.Accuses node.selfId)
    (hmax : update.incarnation = maxIncarnation) (now : UInt64) :
    ¬ Refuted node update now := by
  rintro ⟨answer, _, _, _, hsupersedes, _⟩
  have hlt := (alive_supersedes_iff haccuses).mp hsupersedes
  rw [hmax, UInt32.lt_iff_toNat_lt] at hlt
  have hbound := answer.incarnation.toNat_lt
  have hvalue : maxIncarnation.toNat = 2 ^ 32 - 1 := rfl
  omega

theorem refuted_of_ne_max {node : Node Id} (hreach : runs.Reachable node)
    {update : Update Id} (haccuses : update.Accuses node.selfId)
    (hne : update.incarnation ≠ maxIncarnation) (now : UInt64) :
    Refuted node update now := by
  have hqueued := (applyUpdate_accused haccuses (reachable_queueSize_pos hreach) now).2
  have hsupersedes := (alive_supersedes_iff haccuses).mpr
    (lt_raisedIncarnation node.selfIncarnation hne)
  exact ⟨_, hqueued, rfl, rfl, hsupersedes,
    fun peer idx m later hpeer hfind hstate hincarnation =>
      convinced hpeer rfl rfl hsupersedes hfind hstate hincarnation later⟩

/-! ## The incarnation along a run -/

/-- The call is no accusation of the node at the largest incarnation. -/
def Refutable (node : Node Id) (call : Call Id) : Prop :=
  ∀ update now, call = .applyUpdate update now → update.Accuses node.selfId →
    update.incarnation ≠ maxIncarnation

theorem selfIncarnation_le {node : Node Id} (hreach : runs.Reachable node)
    {call : Call Id} (hrefutable : Refutable node call) :
    node.selfIncarnation ≤ (performCall node call).selfIncarnation := by
  by_cases hother : ∀ update now, call = .applyUpdate update now →
      update.nodeId ≠ node.selfId
  · rw [(performCall_identity node call hother).selfIncarnation]
    exact UInt32.le_refl _
  · push Not at hother
    obtain ⟨update, now, rfl, hself⟩ := hother
    by_cases hstate : update.state = suspect ∨ update.state = dead
    · have hraised := (applyUpdate_accused ⟨hself, hstate⟩
        (reachable_queueSize_pos hreach) now).1
      rw [performCall, hraised]
      exact le_raisedIncarnation _ (hrefutable update now rfl ⟨hself, hstate⟩)
    · rw [performCall_applySelf hself, applySelf, if_neg hstate]
      split_ifs with hgt
      · exact UInt32.le_of_lt hgt
      · exact UInt32.le_refl _

theorem run_selfIncarnation_le {node final : Node Id} (hreach : runs.Reachable node)
    {calls : List (Call Id)} (hrefutable : runs.RunMeets Refutable node calls)
    (hrun : runs.run node calls = some final) :
    node.selfIncarnation ≤ final.selfIncarnation := by
  refine runs.run_rel_of_runMeets
    (fun before after => before.selfIncarnation ≤ after.selfIncarnation)
    (fun _ => UInt32.le_refl _) (fun _ _ _ => UInt32.le_trans)
    (fun _ _ _ hgood hstep => TransitionSystem.Reachable.step hgood hstep) ?_ hreach
    hrefutable hrun
  intro before call after hgood hguard hstep
  simp only [runs, Option.some.injEq] at hstep
  rw [← hstep]
  exact selfIncarnation_le hgood hguard

/-- Self-refutation works, and the incarnation does not decrease, exactly when
the accusation is not at the largest incarnation; and in runs without such an
accusation the incarnation never decreases. -/
theorem refuted_iff_ne_max {node : Node Id} (hreach : runs.Reachable node) :
    (∀ (update : Update Id) (now : UInt64), update.Accuses node.selfId →
      (Refuted node update now ∧
          node.selfIncarnation ≤ (applyUpdate node update now).2.selfIncarnation ↔
        update.incarnation ≠ maxIncarnation)) ∧
    ∀ calls final, runs.RunMeets Refutable node calls →
      runs.run node calls = some final →
        node.selfIncarnation ≤ final.selfIncarnation := by
  refine ⟨fun update now haccuses => ⟨?_, fun hne => ⟨?_, ?_⟩⟩,
    fun calls final hrefutable hrun => run_selfIncarnation_le hreach hrefutable hrun⟩
  · rintro ⟨hrefuted, _⟩ hmax
    exact not_refuted_of_max haccuses hmax now hrefuted
  · exact refuted_of_ne_max hreach haccuses hne now
  · rw [(applyUpdate_accused haccuses (reachable_queueSize_pos hreach) now).1]
    exact le_raisedIncarnation _ hne

/-- An accusation of node 0, and one at the largest incarnation. -/
def accusation (incarnation : UInt32) : Update ℕ := ⟨0, 1, 2, suspect, incarnation, 0⟩

/-- A fresh node 0. -/
def fresh : Node ℕ := create 0 1 2 none 0

theorem refuted_fresh : Refuted fresh (accusation 5) 10 :=
  (((refuted_iff_ne_max (runs.reachable_of_initial ⟨_, _, _, _, _, rfl⟩)).1
    (accusation 5) 10 ⟨rfl, Or.inl rfl⟩).mpr (by decide)).1

/-- The largest incarnation takes the node from 6 back to 0 and stays
unrefuted. -/
theorem accused_at_max_not_refuted :
    runs.Reachable (performCall fresh (.applyUpdate (accusation 5) 10)) ∧
      (performCall fresh (.applyUpdate (accusation 5) 10)).selfIncarnation = 6 ∧
      (applyUpdate (performCall fresh (.applyUpdate (accusation 5) 10))
        (accusation maxIncarnation) 20).2.selfIncarnation = 0 ∧
      ¬ Refuted (performCall fresh (.applyUpdate (accusation 5) 10))
        (accusation maxIncarnation) 20 :=
  ⟨(runs.reachable_of_initial ⟨_, _, _, _, _, rfl⟩).step
      (show runs.step fresh (.applyUpdate (accusation 5) 10) = some _ from rfl),
    by decide, by decide, not_refuted_of_max ⟨rfl, Or.inl rfl⟩ rfl 20⟩

end Queue

end Swim
end LibWake
