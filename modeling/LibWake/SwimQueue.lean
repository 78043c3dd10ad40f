import LibWake.SwimTimeout

/-!
# The dissemination queue by itself

The queue of a node only sees what is put into it, what is handed out of it and
the resets.  This is a machine of its own; every call of a node is a short run of
it, a check of the suspects a longer one.
-/

namespace LibWake
namespace Swim

variable {Id : Type}

/-! ## The queue machine -/

/-- What is done to the queue: `queue_update` with a member's report, one
`wake_swim_get_updates` at a number of live members, or a reset. -/
inductive QueueUse (Id : Type) where
  | queued (u : Update Id)
  | handedOut (max aliveCount : ℕ)
  | cleared
  deriving DecidableEq, Repr

/-- `wake_swim_get_updates` on the queue alone: the updates written, and the queue
behind the pruning. -/
def handOut (max aliveCount : ℕ) (queue : List (Update Id)) :
    List (Update Id) × List (Update Id) :=
  if max = 0 ∨ queue = [] then ([], queue)
  else
    let (out, raised) := selectUpdates (min max queue.length) queue []
    let limit := UInt16.ofNat (pruneLimit aliveCount)
    (out, raised.filter fun u => !(u.piggybackCount ≥ limit))

variable [DecidableEq Id]

/-- `queue_update` on the queue alone. -/
def enqueue (size : ℕ) (queue : List (Update Id)) (u : Update Id) : List (Update Id) :=
  match findUpdate queue u.nodeId with
  | some i => queue.set i u
  | none =>
      if queue.length < size then queue ++ [u] else queue.set (worstUpdate queue) u

def useQueue (size : ℕ) (queue : List (Update Id)) : QueueUse Id → List (Update Id)
  | .queued u => enqueue size queue u
  | .handedOut max aliveCount => (handOut max aliveCount queue).2
  | .cleared => []

/-- The queue machine of a capacity, from the empty queue. -/
def queueMachine (size : ℕ) : TransitionSystem (List (Update Id)) (QueueUse Id) where
  Initial queue := queue = []
  step queue use := some (useQueue size queue use)

theorem queueMachine_run (size : ℕ) (queue : List (Update Id)) (uses : List (QueueUse Id)) :
    (queueMachine size).run queue uses = some (uses.foldl (useQueue size) queue) := by
  induction uses generalizing queue with
  | nil => rfl
  | cons use rest ih => exact ih (useQueue size queue use)

/-! ## The members which a call reports -/

/-- The members which the call passes to `queue_update`, in order. -/
def reportedMembers (node : Node Id) : Call Id → List (Member Id)
  | .addMember nodeId addr port now =>
      if (Swim.addMember node nodeId addr port now).1 = .ok then
        [newMember nodeId addr port now]
      else []
  | .removeMember nodeId now =>
      if nodeId = node.selfId then []
      else
        match findMember node nodeId with
        | none => []
        | some (_, m) => [{ m with state := left, lastChangeMs := now, suspectMs := 0 }]
  | .applyUpdate update now =>
      if update.nodeId = node.selfId then
        if update.state = suspect ∨ update.state = dead then
          [selfMember (applySelf node update now).2 now]
        else []
      else
        match findMember node update.nodeId with
        | none =>
            if (applyUnknown node update now).1 = .ok then
              [newMember update.nodeId update.addr update.port now]
            else []
        | some (_, m) =>
            if stateSupersedes update.state update.incarnation m.state m.incarnation then
              [updatedMember m update now]
            else []
  | .suspectMember nodeId now =>
      if nodeId = node.selfId then []
      else
        match findMember node nodeId with
        | none => []
        | some (_, m) =>
            if m.state ≠ alive then []
            else [{ m with state := suspect, suspectMs := now, lastChangeMs := now }]
  | .checkSuspects now =>
      (node.members.filter (suspicionOver now (suspectTimeout node))).map
        (expiredMember · now)
  | .reset | .nextProbe | .selectDelegates _ _ | .reportHealth _ | .reap _ _
  | .getUpdates _ => []

/-- The uses of the queue by one call. -/
def queueUses (node : Node Id) : Call Id → List (QueueUse Id)
  | .reset => [.cleared]
  | .getUpdates max => [.handedOut max node.aliveCount]
  | call => (reportedMembers node call).map fun m => .queued m.toUpdate

/-! ## The node runs the machine -/

theorem queueUpdate_updates (node : Node Id) (m : Member Id) :
    (queueUpdate node m).updates =
      enqueue node.config.updateQueueSize.toNat node.updates m.toUpdate := by
  unfold queueUpdate enqueue
  rw [Member.toUpdate_nodeId]
  cases findUpdate node.updates m.nodeId with
  | some i => rfl
  | none =>
      simp only
      split_ifs
      · rfl
      · rfl

theorem changeMember_updates (node : Node Id) (idx : ℕ) (m : Member Id) :
    (changeMember node idx m).updates =
      enqueue node.config.updateQueueSize.toNat node.updates m.toUpdate := by
  unfold changeMember
  exact queueUpdate_updates _ m

omit [DecidableEq Id] in
theorem getUpdates_handOut (node : Node Id) (max : ℕ) :
    (getUpdates node max).1 = (handOut max node.aliveCount node.updates).1 ∧
      (getUpdates node max).2.updates = (handOut max node.aliveCount node.updates).2 := by
  unfold getUpdates handOut
  split_ifs
  · exact ⟨rfl, rfl⟩
  · exact ⟨rfl, rfl⟩

theorem addMember_updates (node : Node Id) (nodeId : Id) (addr : UInt32) (port : UInt16)
    (now : UInt64) :
    (addMember node nodeId addr port now).2.updates =
      if (addMember node nodeId addr port now).1 = .ok then
        enqueue node.config.updateQueueSize.toNat node.updates
          (newMember nodeId addr port now).toUpdate
      else node.updates := by
  rcases addMember_cases node nodeId addr port now with
    ⟨hrefused, hsame⟩ | ⟨hok, hself, habsent, hroom, _⟩
  · rw [if_neg hrefused, hsame]
  · rw [if_pos hok, addMember_joins hself habsent hroom]
    exact queueUpdate_updates _ _

theorem applyUnknown_updates (node : Node Id) (update : Update Id) (now : UInt64) :
    (applyUnknown node update now).2.updates =
      if (applyUnknown node update now).1 = .ok then
        enqueue node.config.updateQueueSize.toNat node.updates
          (newMember update.nodeId update.addr update.port now).toUpdate
      else node.updates := by
  rcases applyUnknown_cases node update now with
    ⟨hrefused, hsame⟩ | ⟨hok, _, hself, habsent, hroom, hjoined⟩
  · rw [if_neg hrefused, hsame]
  · have hadded := addMember_updates node update.nodeId update.addr update.port now
    rw [if_pos (by rw [addMember_joins hself habsent hroom])] at hadded
    rw [if_pos hok, hjoined]
    exact hadded

theorem applySelf_updates (node : Node Id) (update : Update Id) (now : UInt64) :
    (applySelf node update now).2.updates =
      if update.state = suspect ∨ update.state = dead then
        enqueue node.config.updateQueueSize.toNat node.updates
          (selfMember (applySelf node update now).2 now).toUpdate
      else node.updates := by
  have hself : ∀ raised : Node Id,
      (selfMember (queueUpdate raised (selfMember raised now)) now).toUpdate =
        (selfMember raised now).toUpdate := by
    intro raised
    obtain ⟨updates, queued, hqueue⟩ := queueUpdate_frame raised (selfMember raised now)
    rw [hqueue]
    rfl
  unfold applySelf
  split_ifs
  · simp only [hself]
    exact queueUpdate_updates _ _
  · simp only [hself]
    exact queueUpdate_updates _ _
  · rfl
  · rfl

/-- The loop over the suspects queues the expired members in their order. -/
theorem checkSuspects_updates (node : Node Id) (now : UInt64) :
    (checkSuspects node now).2.updates =
      ((node.members.filter (suspicionOver now (suspectTimeout node))).map
        (expiredMember · now)).foldl
        (fun queue m => enqueue node.config.updateQueueSize.toNat queue m.toUpdate)
        node.updates := by
  set timeout := suspectTimeout node
  set step := fun (queue : List (Update Id)) (m : Member Id) =>
    enqueue node.config.updateQueueSize.toNat queue m.toUpdate
  have hpass := checkStep_rewrites node now timeout
  have hloop := @SlotPass.foldl_range_induction _ (checkStep now timeout) (node, 0)
    (fun k state => SameIdentity node state.1 ∧
      (∀ j, k ≤ j → state.1.members[j]? = node.members[j]?) ∧
      state.1.updates = (((node.members.take k).filter (suspicionOver now timeout)).map
        (expiredMember · now)).foldl step node.updates)
    node.members.length ⟨.refl node, fun _ _ => rfl, rfl⟩ ?_
  · obtain ⟨_, _, hupdates⟩ := hloop
    rw [List.take_length] at hupdates
    unfold checkSuspects
    simp only
    split_ifs
    · exact hupdates
    · exact hupdates
  · rintro k state hk ⟨hsame, hrest, hupdates⟩
    refine ⟨hpass.fixed state k hsame, ?_, ?_⟩
    · intro j hj
      rw [checkStep_members, if_neg (by omega)]
      exact hrest j (by omega)
    · have hget : state.1.members[k]? = some node.members[k] := by
        rw [hrest k le_rfl, List.getElem?_eq_getElem hk]
      rw [List.take_succ_eq_append_getElem hk, List.filter_append, List.map_append,
        List.foldl_append, ← hupdates]
      unfold checkStep
      simp only [hget]
      cases hover : suspicionOver now timeout node.members[k] with
      | false => simp [hover]
      | true =>
          simp only [Bool.not_true, Bool.false_eq_true, if_false]
          rw [queueUpdate_updates]
          simp [hover, step, Node.setMember, hsame.config]

/-- The queue of a node makes the uses which the call stands for. -/
theorem performCall_updates (node : Node Id) (call : Call Id) :
    (performCall node call).updates =
      (queueUses node call).foldl (useQueue node.config.updateQueueSize.toNat)
        node.updates := by
  cases call with
  | reset => rfl
  | getUpdates max => exact (getUpdates_handOut node max).2
  | addMember nodeId addr port now =>
      rw [performCall, addMember_updates]
      simp only [queueUses, reportedMembers]
      split_ifs
      · rfl
      · rfl
  | removeMember nodeId now =>
      simp only [performCall, removeMember, queueUses, reportedMembers]
      split_ifs
      · rfl
      · cases findMember node nodeId with
        | none => rfl
        | some found => exact changeMember_updates node _ _
  | applyUpdate update now =>
      simp only [performCall, queueUses, reportedMembers, applyUpdate]
      by_cases hself : update.nodeId = node.selfId
      · rw [if_pos hself, if_pos hself, applySelf_updates]
        split_ifs
        · rfl
        · rfl
      · rw [if_neg hself, if_neg hself]
        cases findMember node update.nodeId with
        | none =>
            simp only
            rw [applyUnknown_updates]
            split_ifs
            · rfl
            · rfl
        | some found =>
            simp only
            cases stateSupersedes update.state update.incarnation found.2.state
                found.2.incarnation with
            | true => exact changeMember_updates node _ _
            | false =>
                simp only [Bool.not_false, if_true, Bool.false_eq_true, if_false]
                split_ifs
                · rfl
                · rfl
  | suspectMember nodeId now =>
      simp only [performCall, suspectMember, queueUses, reportedMembers]
      split_ifs
      · rfl
      · cases findMember node nodeId with
        | none => rfl
        | some found =>
            simp only
            split_ifs
            · rfl
            · exact changeMember_updates node _ _
  | checkSuspects now =>
      rw [performCall, checkSuspects_updates]
      simp only [queueUses, reportedMembers, List.foldl_map]
      rfl
  | nextProbe =>
      obtain ⟨_, _, _, _, hframe⟩ := nextProbe_frame node
      rw [performCall, hframe]
      rfl
  | selectDelegates excludeId max =>
      rw [performCall, selectDelegates]
      split_ifs
      · rfl
      · rfl
  | reportHealth delta => rfl
  | reap now retention =>
      rw [performCall, reap]
      split_ifs
      · rfl
      · rfl

/-! ## The counts in the queue -/

omit [DecidableEq Id] in
theorem pruneLimit_eq (aliveCount : ℕ) :
    pruneLimit aliveCount = max 3 (3 * Nat.log 2 (max 2 aliveCount)) := by
  have hcount : (if aliveCount > 2 then aliveCount else 2) = max 2 aliveCount := by
    split_ifs <;> omega
  unfold pruneLimit
  simp only [hcount, ilog2_eq_log]
  split_ifs <;> omega

/-- No update of a queue has been sent this often. -/
def countBound : ℕ := 45

theorem pruneLimit_le {aliveCount : ℕ} (hcount : aliveCount < 2 ^ 16) :
    pruneLimit aliveCount ≤ countBound := by
  have hlog := log_max_two_lt hcount
  rw [pruneLimit_eq, countBound]
  omega

theorem pruneLimit_toNat {aliveCount : ℕ} (hcount : aliveCount < 2 ^ 16) :
    (UInt16.ofNat (pruneLimit aliveCount)).toNat = pruneLimit aliveCount := by
  have hle := pruneLimit_le hcount
  rw [countBound] at hle
  rw [UInt16.toNat_ofNat', Nat.mod_eq_of_lt (by omega)]

/-- A new report has not been sent, and there are fewer than 65536 members. -/
def QueueUse.Valid : QueueUse Id → Prop
  | .queued u => u.piggybackCount = 0
  | .handedOut _ aliveCount => aliveCount < 2 ^ 16
  | .cleared => True

theorem queueUses_valid {node : Node Id} (hcount : node.aliveCount < 2 ^ 16)
    (call : Call Id) : ∀ use ∈ queueUses node call, use.Valid := by
  have hreported : ∀ members : List (Member Id),
      ∀ use ∈ members.map fun m => QueueUse.queued m.toUpdate, use.Valid := by
    intro members use huse
    obtain ⟨m, _, rfl⟩ := List.mem_map.mp huse
    rfl
  cases call with
  | reset =>
      intro use huse
      rw [List.mem_singleton.mp huse]
      trivial
  | getUpdates max =>
      intro use huse
      rw [List.mem_singleton.mp huse]
      exact hcount
  | _ => exact hreported _

def CountsBelow (queue : List (Update Id)) : Prop :=
  ∀ u ∈ queue, u.piggybackCount.toNat < countBound

theorem mem_enqueue {size : ℕ} {queue : List (Update Id)} {u v : Update Id}
    (hmem : v ∈ enqueue size queue u) : v = u ∨ v ∈ queue := by
  unfold enqueue at hmem
  split at hmem
  · exact (List.mem_or_eq_of_mem_set hmem).symm
  · split_ifs at hmem
    · rw [List.mem_append, List.mem_singleton] at hmem
      exact hmem.symm
    · exact (List.mem_or_eq_of_mem_set hmem).symm

theorem CountsBelow.useQueue {queue : List (Update Id)} (hcounts : CountsBelow queue)
    (size : ℕ) {use : QueueUse Id} (hvalid : use.Valid) :
    CountsBelow (Swim.useQueue size queue use) := by
  cases use with
  | queued u =>
      intro v hv
      rcases mem_enqueue hv with rfl | hold
      · rw [show v.piggybackCount = 0 from hvalid]
        decide
      · exact hcounts v hold
  | handedOut max aliveCount =>
      rw [Swim.useQueue, handOut]
      split_ifs
      · exact hcounts
      · intro v hv
        have hkept := (List.mem_filter.mp hv).2
        have hlimit := pruneLimit_toNat hvalid
        have hle := pruneLimit_le hvalid
        simp only [ge_iff_le, Bool.not_eq_true', decide_eq_false_iff_not,
          UInt16.le_iff_toNat_le, not_le, hlimit] at hkept
        omega
  | cleared => exact fun v hv => absurd hv List.not_mem_nil

theorem CountsBelow.uses {queue : List (Update Id)} (hcounts : CountsBelow queue)
    (size : ℕ) {uses : List (QueueUse Id)} (hvalid : ∀ use ∈ uses, use.Valid) :
    CountsBelow (uses.foldl (Swim.useQueue size) queue) := by
  refine (queueMachine size).run_invariant_of_runMeets (motive := CountsBelow) ?_ hcounts
    ((queueMachine size).runMeets_of_forall_mem queue hvalid)
    (queueMachine_run size queue uses)
  intro state use next hstate huse hstep
  obtain rfl : Swim.useQueue size state use = next := Option.some.inj hstep
  exact hstate.useQueue size huse

theorem reachable_countsBelow {node : Node Id} (hreach : runs.Reachable node) :
    CountsBelow node.updates := by
  have hboth := hreach.invariant
    (motive := fun node => WellFormed node ∧ CountsBelow node.updates) ?_ ?_
  · exact hboth.2
  · rintro node ⟨selfId, addr, port, cfg, addressSeed, rfl⟩
    exact ⟨wellFormed_create selfId addr port cfg addressSeed,
      fun u hu => absurd hu List.not_mem_nil⟩
  · rintro node call next ⟨hwell, hcounts⟩ hstep
    obtain rfl : performCall node call = next := Option.some.inj hstep
    refine ⟨hwell.performCall call, ?_⟩
    rw [performCall_updates]
    exact hcounts.uses _ (queueUses_valid hwell.aliveCount_lt call)

end Swim
end LibWake
