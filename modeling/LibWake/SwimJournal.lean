import LibWake.SwimSelection

/-!
# The history of an update

A run of a node, written down as the uses which it makes of its queue.  The count
of a queued update is the number of times it was handed out since it was put into
the queue, so an update which the pruning removes was handed out often enough.
-/

namespace LibWake
namespace Swim

variable {Id : Type}

/-! ## The journal of a run -/

/-- One use of the queue, with the queue in front of it. -/
structure QueueEvent (Id : Type) where
  before : List (Update Id)
  use : QueueUse Id
  deriving DecidableEq, Repr

def QueueUse.isHandedOut : QueueUse Id → Bool
  | .handedOut _ _ => true
  | .queued _ | .cleared => false

/-- The updates which the event hands out. -/
def QueueEvent.handed (event : QueueEvent Id) : List (Update Id) :=
  match event.use with
  | .handedOut max aliveCount => (handOut max aliveCount event.before).1
  | .queued _ | .cleared => []

section Ids

variable [DecidableEq Id]

def QueueEvent.after (size : ℕ) (event : QueueEvent Id) : List (Update Id) :=
  useQueue size event.before event.use

/-- The event puts an update about the node into the queue. -/
def QueueEvent.queuesAbout (nodeId : Id) (event : QueueEvent Id) : Bool :=
  match event.use with
  | .queued u => u.nodeId = nodeId
  | .handedOut _ _ | .cleared => false

/-- The event hands out the update. -/
def QueueEvent.handsOut (u : Update Id) (event : QueueEvent Id) : Bool :=
  event.handed.any fun w => w.news = u.news

/-- The events of a sequence of uses. -/
def queueEvents (size : ℕ) : List (Update Id) → List (QueueUse Id) → List (QueueEvent Id)
  | _, [] => []
  | queue, use :: rest => ⟨queue, use⟩ :: queueEvents size (useQueue size queue use) rest

/-- The uses of the queue along the calls. -/
def usesOfRun : Node Id → List (Call Id) → List (QueueUse Id)
  | _, [] => []
  | node, call :: rest => queueUses node call ++ usesOfRun (performCall node call) rest

/-- The events of the queue along the calls. -/
def journal (node : Node Id) (calls : List (Call Id)) : List (QueueEvent Id) :=
  queueEvents node.config.updateQueueSize.toNat node.updates (usesOfRun node calls)

/-- The update was put into the queue in front of the events `since`, and none of
these queued another update about its node. -/
structure PutBefore (past since : List (QueueEvent Id)) (u : Update Id) : Prop where
  put : ∃ front event v, past = front ++ event :: since ∧ event.use = .queued v ∧
    v.news = u.news
  silent : ∀ event ∈ since, event.queuesAbout u.nodeId = false

/-- The ways in which an update leaves the queue in the event behind `older`: another
update about its node, a new node's update in a full queue in which no other was
sent more often, a reset, or the pruning behind the third time it is handed out
since it was queued. -/
inductive Leaves (size : ℕ) (older : List (QueueEvent Id)) (event : QueueEvent Id)
    (u : Update Id) : Prop
  | replaced (habout : event.queuesAbout u.nodeId = true)
  | overwritten (v : Update Id) (huse : event.use = .queued v)
      (hnew : ∀ w ∈ event.before, w.nodeId ≠ v.nodeId)
      (hfull : event.before.length = size)
      (hworst : ∀ w ∈ event.before, w.piggybackCount ≤ u.piggybackCount)
  | reset (huse : event.use = .cleared)
  | spent (since : List (QueueEvent Id)) (hput : PutBefore older since u)
      (hsent : event.use.isHandedOut = true)
      (htimes : 3 ≤ (since ++ [event]).countP (·.handsOut u))

/-! ## The run and its events -/

theorem usesOfRun_valid {node : Node Id} (hwell : WellFormed node) (calls : List (Call Id)) :
    ∀ use ∈ usesOfRun node calls, use.Valid := by
  induction calls generalizing node with
  | nil => exact fun use huse => absurd huse List.not_mem_nil
  | cons call rest ih =>
      intro use huse
      rcases List.mem_append.mp huse with hfirst | hrest
      · exact queueUses_valid hwell.aliveCount_lt call use hfirst
      · exact ih (hwell.performCall call) use hrest

/-- The queue behind a run is the one behind its uses. -/
theorem updates_of_run {node final : Node Id} {calls : List (Call Id)}
    (hrun : runs.run node calls = some final) :
    final.updates = (usesOfRun node calls).foldl
      (useQueue node.config.updateQueueSize.toNat) node.updates := by
  induction calls generalizing node with
  | nil =>
      obtain rfl : node = final := Option.some.inj hrun
      rfl
  | cons call rest ih =>
      obtain ⟨next, hstep, hrest⟩ := runs.run_cons_eq_some.mp hrun
      obtain rfl : performCall node call = next := Option.some.inj hstep
      rw [usesOfRun, List.foldl_append, ← performCall_updates, ih hrest,
        (performCall_config node call).1]

/-! ## The victim of a full queue -/

omit [DecidableEq Id] in
/-- The victim was sent at least as often as every other update. -/
theorem worstUpdate_spec {queue : List (Update Id)} (hpos : 0 < queue.length) :
    ∃ worst, queue[worstUpdate queue]? = some worst ∧
      ∀ u ∈ queue, u.piggybackCount ≤ worst.piggybackCount := by
  unfold worstUpdate
  generalize hscan : List.foldl _ _ _ = found
  have hloop : (∃ u, queue[found.1]? = some u ∧ u.piggybackCount = found.2) ∧
      ∀ j < queue.length, ∀ u, queue[j]? = some u → u.piggybackCount ≤ found.2 := by
    rw [← hscan]
    refine SlotPass.foldl_range_induction (motive := fun k (found : ℕ × UInt16) =>
      (∃ u, queue[found.1]? = some u ∧ u.piggybackCount = found.2) ∧
        ∀ j < k, ∀ u, queue[j]? = some u → u.piggybackCount ≤ found.2)
      queue.length ⟨⟨queue[0], List.getElem?_eq_getElem hpos, ?_⟩,
        fun j hj => absurd hj (Nat.not_lt_zero j)⟩ ?_
    · rw [List.head?_eq_getElem?, List.getElem?_eq_getElem hpos]
      rfl
    · rintro k ⟨place, count⟩ hk ⟨⟨worst, hget, hcount⟩, hmost⟩
      have hgetK := List.getElem?_eq_getElem hk
      simp only [hgetK]
      split_ifs with hmore
      · refine ⟨⟨_, hgetK, rfl⟩, fun j hj u hu => ?_⟩
        rcases Nat.lt_succ_iff_lt_or_eq.mp hj with hj | rfl
        · exact UInt16.le_of_lt (UInt16.lt_of_le_of_lt (hmost j hj u hu) hmore)
        · rw [hgetK, Option.some.injEq] at hu
          exact hu ▸ UInt16.le_refl _
      · refine ⟨⟨worst, hget, hcount⟩, fun j hj u hu => ?_⟩
        rcases Nat.lt_succ_iff_lt_or_eq.mp hj with hj | rfl
        · exact hmost j hj u hu
        · rw [hgetK, Option.some.injEq] at hu
          exact hu ▸ UInt16.not_lt.mp hmore
  obtain ⟨⟨worst, hget, hcount⟩, hmost⟩ := hloop
  refine ⟨worst, hget, fun u hu => ?_⟩
  obtain ⟨j, hj⟩ := List.mem_iff_getElem?.mp hu
  rw [hcount]
  exact hmost j (List.getElem?_eq_some_iff.mp hj).1 u hj

/-! ## The tally -/

omit [DecidableEq Id] in
theorem nodeId_of_news {u w : Update Id} (hnews : w.news = u.news) : w.nodeId = u.nodeId :=
  show w.news.nodeId = u.news.nodeId from congrArg Update.nodeId hnews

theorem PutBefore.step {past since : List (QueueEvent Id)} {u w : Update Id}
    (hput : PutBefore past since u) {event : QueueEvent Id}
    (hother : event.queuesAbout u.nodeId = false) (hnews : w.news = u.news) :
    PutBefore (past ++ [event]) (since ++ [event]) w := by
  obtain ⟨⟨front, first, v, rfl, huse, hfirst⟩, hsilent⟩ := hput
  have hid := nodeId_of_news hnews
  refine ⟨⟨front, first, v, by simp, huse, hfirst.trans hnews.symm⟩, ?_⟩
  intro other hmem
  rw [hid]
  rcases List.mem_append.mp hmem with hold | hlast
  · exact hsilent other hold
  · rwa [List.mem_singleton.mp hlast]

/-- The count of each queued update is how often it was handed out since it was put
into the queue. -/
structure Tallied (size : ℕ) (past : List (QueueEvent Id)) (queue : List (Update Id)) :
    Prop where
  sound : QueueSound size queue
  counts : CountsBelow queue
  tally : ∀ u ∈ queue, ∃ since, PutBefore past since u ∧
    u.piggybackCount.toNat = since.countP (·.handsOut u)

omit [DecidableEq Id] in
theorem handOut_zero (aliveCount : ℕ) (queue : List (Update Id)) :
    handOut 0 aliveCount queue = ([], queue) := by
  rw [handOut, if_pos (Or.inl rfl)]

theorem handsOut_handedOut {queue : List (Update Id)} (hcounts : CountsBelow queue)
    (hids : (queue.map Update.nodeId).Nodup) {max aliveCount i : ℕ} (hmax : 0 < max)
    {u : Update Id} (hget : queue[i]? = some u) :
    QueueEvent.handsOut u ⟨queue, .handedOut max aliveCount⟩ = true ↔
      i ∈ picked max queue := by
  simp only [QueueEvent.handsOut, QueueEvent.handed, handOut_eq hcounts.lt_max hmax,
    List.any_eq_true, decide_eq_true_eq]
  constructor
  · rintro ⟨w, hw, hnews⟩
    obtain ⟨j, hj, hgetJ⟩ := List.mem_filterMap.mp hw
    have hjlt := (List.getElem?_eq_some_iff.mp hgetJ).1
    have hsame : (queue.map Update.nodeId)[j]? = (queue.map Update.nodeId)[i]? := by
      rw [List.getElem?_map, List.getElem?_map, hgetJ, hget]
      exact congrArg some (nodeId_of_news hnews)
    rwa [← (List.getElem?_inj (by simpa using hjlt) hids).mp hsame]
  · intro hi
    exact ⟨u, List.mem_filterMap.mpr ⟨i, hi, hget⟩, rfl⟩

/-- Behind the selection an update counts one more if it was handed out. -/
theorem raisedAt_tally {queue : List (Update Id)} (hcounts : CountsBelow queue)
    (hids : (queue.map Update.nodeId).Nodup) {max i : ℕ} (aliveCount : ℕ) (hmax : 0 < max)
    {u : Update Id} (hget : queue[i]? = some u) :
    ∃ w, (raisedAt queue (picked max queue))[i]? = some w ∧ w.news = u.news ∧
      w.piggybackCount.toNat = u.piggybackCount.toNat +
        [(⟨queue, .handedOut max aliveCount⟩ : QueueEvent Id)].countP (·.handsOut u) := by
  have hhands := @handsOut_handedOut _ _ _ hcounts hids _ aliveCount _ hmax _ hget
  obtain ⟨hlt, hu⟩ := List.getElem?_eq_some_iff.mp hget
  rw [List.countP_singleton, getElem?_raisedAt, hget]
  by_cases hpicked : i ∈ picked max queue
  · have hraised := countAt_raisedAt hcounts hpicked hlt
    rw [countAt_of_get hget, countAt, getElem?_raisedAt, if_pos hpicked, hget] at hraised
    rw [if_pos hpicked, if_pos (hhands.mpr hpicked)]
    exact ⟨_, rfl, rfl, hraised⟩
  · rw [if_neg hpicked, if_neg (fun hout => hpicked (hhands.mp hout))]
    exact ⟨u, rfl, rfl, rfl⟩

theorem queueStep_enqueue (size : ℕ) (queue : List (Update Id)) (u : Update Id) :
    QueueStep size queue u (enqueue size queue u) := by
  unfold enqueue
  cases hfind : findUpdate queue u.nodeId with
  | some i =>
      obtain ⟨hlt, hid, _⟩ := List.findIdx?_eq_some_iff_getElem.mp hfind
      exact .replaced i queue[i] (List.getElem?_eq_getElem hlt) (of_decide_eq_true hid)
  | none =>
      have habsent : ∀ old ∈ queue, old.nodeId ≠ u.nodeId := by
        simpa [findUpdate, List.findIdx?_eq_none_iff] using hfind
      simp only
      split_ifs with hroom
      · exact .appended habsent hroom
      · exact .evicted _ habsent

theorem Tallied.queued {size : ℕ} {past : List (QueueEvent Id)} {queue : List (Update Id)}
    (htallied : Tallied size past queue) {v : Update Id}
    (hvalid : (QueueUse.queued v).Valid) :
    Tallied size (past ++ [⟨queue, .queued v⟩]) (enqueue size queue v) := by
  have hstep := queueStep_enqueue size queue v
  refine ⟨hstep.sound htallied.sound, htallied.counts.useQueue size hvalid, ?_⟩
  intro w hw
  rcases hstep.mem htallied.sound.nodup_ids hw with rfl | ⟨hold, hother⟩
  · refine ⟨[], ⟨⟨past, _, w, rfl, rfl, rfl⟩, fun event hmem => ?_⟩, ?_⟩
    · exact absurd hmem List.not_mem_nil
    · rw [show w.piggybackCount = 0 from hvalid]
      rfl
  · obtain ⟨since, hput, hcount⟩ := htallied.tally w hold
    refine ⟨_, hput.step (decide_eq_false hother.symm) rfl, ?_⟩
    rw [List.countP_append, hcount]
    rfl

omit [DecidableEq Id] in
theorem QueueSound.handOut {size : ℕ} {queue : List (Update Id)}
    (hsound : QueueSound size queue) (max aliveCount : ℕ) :
    QueueSound size (Swim.handOut max aliveCount queue).2 := by
  unfold Swim.handOut
  split_ifs
  · exact hsound
  · exact hsound.sent (selectUpdates_news _ _ _) List.filter_sublist

theorem Tallied.handedOut {size : ℕ} {past : List (QueueEvent Id)}
    {queue : List (Update Id)} (htallied : Tallied size past queue) {max aliveCount : ℕ}
    (hvalid : (.handedOut max aliveCount : QueueUse Id).Valid) :
    Tallied size (past ++ [⟨queue, .handedOut max aliveCount⟩])
      (handOut max aliveCount queue).2 := by
  have hids := htallied.sound.nodup_ids
  refine ⟨htallied.sound.handOut max aliveCount, htallied.counts.useQueue size hvalid, ?_⟩
  rcases Nat.eq_zero_or_pos max with rfl | hmax
  · rw [handOut_zero]
    intro w hw
    obtain ⟨since, hput, hcount⟩ := htallied.tally w hw
    refine ⟨_, hput.step rfl rfl, ?_⟩
    rw [List.countP_append, hcount, List.countP_singleton]
    simp [QueueEvent.handsOut, QueueEvent.handed, handOut_zero]
  · rw [handOut_eq htallied.counts.lt_max hmax]
    intro w hw
    obtain ⟨i, hi⟩ := List.mem_iff_getElem?.mp (List.mem_of_mem_filter hw)
    have hlt : i < queue.length := by
      simpa [raisedAt] using (List.getElem?_eq_some_iff.mp hi).1
    obtain ⟨w', hw', hnews, hraised⟩ := raisedAt_tally htallied.counts hids aliveCount hmax
      (List.getElem?_eq_getElem hlt)
    obtain rfl : w' = w := Option.some.inj (hw'.symm.trans hi)
    obtain ⟨since, hput, hcount⟩ := htallied.tally _ (List.getElem_mem hlt)
    refine ⟨_, hput.step rfl hnews, ?_⟩
    rw [hraised, hcount, ← List.countP_append]
    simp only [QueueEvent.handsOut, hnews]

theorem Tallied.after {size : ℕ} {past : List (QueueEvent Id)} {event : QueueEvent Id}
    (htallied : Tallied size past event.before) (hvalid : event.use.Valid) :
    Tallied size (past ++ [event]) (event.after size) := by
  obtain ⟨queue, use⟩ := event
  cases use with
  | queued v => exact htallied.queued hvalid
  | handedOut max aliveCount => exact htallied.handedOut hvalid
  | cleared =>
      exact ⟨⟨Nat.zero_le _, List.nodup_nil⟩, htallied.counts.useQueue size hvalid,
        fun u hu => absurd hu List.not_mem_nil⟩

/-- The tally holds in front of every event. -/
theorem Tallied.events {size : ℕ} {past : List (QueueEvent Id)} {queue : List (Update Id)}
    (htallied : Tallied size past queue) {uses : List (QueueUse Id)}
    (hvalid : ∀ use ∈ uses, use.Valid) {older newer : List (QueueEvent Id)}
    {event : QueueEvent Id} (hsplit : queueEvents size queue uses = older ++ event :: newer) :
    Tallied size (past ++ older) event.before ∧ event.use.Valid := by
  induction uses generalizing past queue older with
  | nil => cases older <;> contradiction
  | cons use rest ih =>
      have huse := hvalid use List.mem_cons_self
      cases older with
      | nil =>
          obtain ⟨rfl, -⟩ := List.cons.inj hsplit
          exact ⟨by rwa [List.append_nil], huse⟩
      | cons first older =>
          obtain ⟨rfl, hrest⟩ := List.cons.inj hsplit
          have hnext := @Tallied.after _ _ _ _ ⟨queue, use⟩ htallied huse
          rw [← List.singleton_append, ← List.append_assoc]
          exact ih hnext (fun other hmem => hvalid other (List.mem_cons_of_mem _ hmem)) hrest

/-! ## Staying or leaving -/

omit [DecidableEq Id] in
/-- An update of which the place is not written stays. -/
theorem stays_of_set {queue : List (Update Id)} {i j : ℕ} {u : Update Id} (v : Update Id)
    (hget : queue[j]? = some u) (hother : i ≠ j) :
    ∃ w ∈ queue.set i v, w.news = u.news :=
  ⟨u, List.mem_of_getElem? ((List.getElem?_set_ne hother).trans hget), rfl⟩

theorem queued_stays_or_leaves {size : ℕ} (older : List (QueueEvent Id))
    {queue : List (Update Id)} (hsound : QueueSound size queue) (v : Update Id)
    {u : Update Id} (hu : u ∈ queue) :
    (∃ w ∈ enqueue size queue v, w.news = u.news) ∨
      Leaves size older ⟨queue, .queued v⟩ u := by
  obtain ⟨j, hget⟩ := List.mem_iff_getElem?.mp hu
  obtain ⟨hj, rfl⟩ := List.getElem?_eq_some_iff.mp hget
  unfold enqueue
  cases hfind : findUpdate queue v.nodeId with
  | some i =>
      obtain ⟨hi, hid, _⟩ := List.findIdx?_eq_some_iff_getElem.mp hfind
      by_cases hij : i = j
      · subst hij
        exact Or.inr (.replaced (decide_eq_true (of_decide_eq_true hid).symm))
      · exact Or.inl (stays_of_set v hget hij)
  | none =>
      simp only
      split_ifs with hroom
      · exact Or.inl ⟨_, List.mem_append_left _ hu, rfl⟩
      · obtain ⟨worst, hworst, hmost⟩ := worstUpdate_spec (Nat.zero_lt_of_lt hj)
        by_cases hij : worstUpdate queue = j
        · subst hij
          refine Or.inr (.overwritten v rfl ?_ ?_ ?_)
          · simpa [findUpdate, List.findIdx?_eq_none_iff] using hfind
          · exact le_antisymm hsound.room (Nat.not_lt.mp hroom)
          · rwa [Option.some.inj (hget.symm.trans hworst)]
        · exact Or.inl (stays_of_set v hget hij)

theorem handedOut_stays_or_leaves {size : ℕ} {older : List (QueueEvent Id)}
    {queue : List (Update Id)} (htallied : Tallied size older queue) {max aliveCount : ℕ}
    (hcount : aliveCount < 2 ^ 16) {u : Update Id} (hu : u ∈ queue) :
    (∃ w ∈ (handOut max aliveCount queue).2, w.news = u.news) ∨
      Leaves size older ⟨queue, .handedOut max aliveCount⟩ u := by
  rcases Nat.eq_zero_or_pos max with rfl | hmax
  · rw [handOut_zero]
    exact Or.inl ⟨u, hu, rfl⟩
  · obtain ⟨i, hget⟩ := List.mem_iff_getElem?.mp hu
    obtain ⟨w, hw, hnews, hraised⟩ := raisedAt_tally htallied.counts
      htallied.sound.nodup_ids aliveCount hmax hget
    rw [handOut_eq htallied.counts.lt_max hmax]
    by_cases hkept : w.piggybackCount ≥ UInt16.ofNat (pruneLimit aliveCount)
    · obtain ⟨since, hput, htally⟩ := htallied.tally u hu
      refine Or.inr (.spent since hput rfl ?_)
      rw [ge_iff_le, UInt16.le_iff_toNat_le, pruneLimit_toNat hcount, hraised, htally,
        ← List.countP_append] at hkept
      have hthree : 3 ≤ pruneLimit aliveCount := by
        rw [pruneLimit_eq]
        exact le_max_left _ _
      exact hthree.trans hkept
    · refine Or.inl ⟨w, List.mem_filter.mpr ⟨List.mem_of_getElem? hw, ?_⟩, hnews⟩
      rw [decide_eq_false hkept]
      rfl

theorem stays_or_leaves {size : ℕ} {older : List (QueueEvent Id)} {event : QueueEvent Id}
    (htallied : Tallied size older event.before) (hvalid : event.use.Valid)
    {u : Update Id} (hu : u ∈ event.before) :
    (∃ w ∈ event.after size, w.news = u.news) ∨ Leaves size older event u := by
  obtain ⟨queue, use⟩ := event
  cases use with
  | queued v => exact queued_stays_or_leaves older htallied.sound v hu
  | handedOut max aliveCount => exact handedOut_stays_or_leaves htallied hvalid hu
  | cleared => exact Or.inr (.reset rfl)

/-! ## The hand-outs of a run -/

theorem queueEvents_append (size : ℕ) (queue : List (Update Id))
    (front back : List (QueueUse Id)) :
    queueEvents size queue (front ++ back) =
      queueEvents size queue front ++
        queueEvents size (front.foldl (useQueue size) queue) back := by
  induction front generalizing queue with
  | nil => rfl
  | cons use rest ih => rw [List.cons_append, queueEvents, ih, queueEvents, List.foldl_cons,
      List.cons_append]

theorem journal_cons (node : Node Id) (call : Call Id) (rest : List (Call Id)) :
    journal node (call :: rest) =
      queueEvents node.config.updateQueueSize.toNat node.updates (queueUses node call) ++
        journal (performCall node call) rest := by
  rw [journal, usesOfRun, queueEvents_append, ← performCall_updates, journal,
    (performCall_config node call).1]

theorem use_of_mem_queueEvents {size : ℕ} {queue : List (Update Id)} {uses : List (QueueUse Id)}
    {event : QueueEvent Id} (hmem : event ∈ queueEvents size queue uses) : event.use ∈ uses := by
  induction uses generalizing queue with
  | nil => cases hmem
  | cons use rest ih =>
      rcases List.mem_cons.mp hmem with rfl | hrest
      · exact List.mem_cons_self
      · exact List.mem_cons_of_mem _ (ih hrest)

/-- Only `wake_swim_get_updates` hands out. -/
theorem eq_getUpdates_of_handedOut {node : Node Id} {call : Call Id} {max aliveCount : ℕ}
    (hmem : .handedOut max aliveCount ∈ queueUses node call) :
    call = .getUpdates max ∧ aliveCount = node.aliveCount := by
  cases call with
  | getUpdates asked =>
      obtain ⟨rfl, rfl⟩ := QueueUse.handedOut.inj (List.mem_singleton.mp hmem)
      exact ⟨rfl, rfl⟩
  | reset => cases List.mem_singleton.mp hmem
  | _ =>
      obtain ⟨m, -, heq⟩ := List.mem_map.mp hmem
      cases heq

/-- The event is a call of `wake_swim_get_updates` at this place of the run: it hands out what
the call writes, and leaves the queue which the call leaves. -/
def IsCall (start : Node Id) (calls : List (Call Id)) (older : List (QueueEvent Id))
    (event : QueueEvent Id) (max : ℕ) : Prop :=
  ∃ front back node, calls = front ++ .getUpdates max :: back ∧
    runs.run start front = some node ∧ older = journal start front ∧
    event.before = node.updates ∧ event.handed = (getUpdates node max).1 ∧
    event.after start.config.updateQueueSize.toNat = (getUpdates node max).2.updates

theorem IsCall.cons {node : Node Id} {call : Call Id} {rest : List (Call Id)}
    {older : List (QueueEvent Id)} {event : QueueEvent Id} {max : ℕ}
    (hcall : IsCall (performCall node call) rest older event max) :
    IsCall node (call :: rest)
      (queueEvents node.config.updateQueueSize.toNat node.updates (queueUses node call) ++ older)
      event max := by
  obtain ⟨front, back, caller, rfl, hrun, rfl, hbefore, hhanded, hafter⟩ := hcall
  rw [(performCall_config node call).1] at hafter
  exact ⟨call :: front, back, caller, rfl, runs.run_cons_eq_some.mpr ⟨_, rfl, hrun⟩,
    (journal_cons node call front).symm, hbefore, hhanded, hafter⟩

theorem isCall_of_journal {node : Node Id} {calls : List (Call Id)}
    {older newer : List (QueueEvent Id)} {event : QueueEvent Id}
    (hsplit : journal node calls = older ++ event :: newer) {max aliveCount : ℕ}
    (huse : event.use = .handedOut max aliveCount) : IsCall node calls older event max := by
  induction calls generalizing node older with
  | nil => exact absurd hsplit.symm (by simp [journal, usesOfRun, queueEvents])
  | cons call rest ih =>
      rw [journal_cons] at hsplit
      rcases List.append_eq_append_iff.mp hsplit with
        ⟨later, rfl, hlater⟩ | ⟨_ | ⟨first, later⟩, hfirst, hrest⟩
      · exact (ih hlater).cons
      · have hlater : journal (performCall node call) rest = [] ++ event :: newer := hrest.symm
        rw [List.append_nil] at hfirst
        rw [← hfirst, ← List.append_nil (queueEvents _ _ _)]
        exact (ih hlater).cons
      · -- the event is one of the call itself
        obtain ⟨rfl, -⟩ := List.cons.inj hrest
        have hmem := use_of_mem_queueEvents
          (hfirst ▸ List.mem_append_right older List.mem_cons_self)
        rw [huse] at hmem
        obtain ⟨rfl, rfl⟩ := eq_getUpdates_of_handedOut hmem
        obtain ⟨rfl, hsame, -⟩ : older = [] ∧
            event = ⟨node.updates, .handedOut max node.aliveCount⟩ ∧ later = [] := by
          cases older with
          | nil =>
              obtain ⟨hevent, hlater⟩ := List.cons.inj hfirst
              exact ⟨rfl, hevent.symm, hlater.symm⟩
          | cons other older =>
              have hshort := (List.cons.inj hfirst).2
              exact absurd hshort.symm (by simp [queueEvents])
        subst hsame
        obtain ⟨hout, hafter⟩ := getUpdates_handOut node max
        exact ⟨[], rest, node, rfl, rfl, rfl, rfl, hout.symm, hafter.symm⟩

/-- Along every run from the creation, the queue is the one behind the events of the
journal, an update in front of an event is there behind it unless it leaves in one
of the ways, and the events which hand out are the calls of `wake_swim_get_updates`
with what these write. -/
theorem no_update_dropped_unsent {start final : Node Id} (hinitial : runs.Initial start)
    {calls : List (Call Id)} (hrun : runs.run start calls = some final) :
    final.updates = (usesOfRun start calls).foldl
        (useQueue start.config.updateQueueSize.toNat) start.updates ∧
      (∀ older newer event, journal start calls = older ++ event :: newer →
        ∀ u ∈ event.before,
          (∃ w ∈ event.after start.config.updateQueueSize.toNat, w.news = u.news) ∨
            Leaves start.config.updateQueueSize.toNat older event u) ∧
      ∀ older newer event max aliveCount, journal start calls = older ++ event :: newer →
        event.use = .handedOut max aliveCount → IsCall start calls older event max := by
  have hwell := reachable_wellFormed (runs.reachable_of_initial hinitial)
  have hempty : start.updates = [] := by
    obtain ⟨selfId, addr, port, cfg, addressSeed, rfl⟩ := hinitial
    rfl
  refine ⟨updates_of_run hrun, fun older newer event hsplit u hu => ?_,
    fun _ _ _ _ _ hsplit huse => isCall_of_journal hsplit huse⟩
  have hstart : Tallied start.config.updateQueueSize.toNat [] start.updates := by
    rw [hempty]
    exact ⟨⟨Nat.zero_le _, List.nodup_nil⟩, fun u hu => absurd hu List.not_mem_nil,
      fun u hu => absurd hu List.not_mem_nil⟩
  obtain ⟨htallied, hvalid⟩ := hstart.events (usesOfRun_valid hwell calls) hsplit
  exact stays_or_leaves htallied hvalid hu

end Ids

/-- The news about a member which joined, as it was sent so many times. -/
def joinedNews (times : UInt16) : Update ℕ :=
  { (newMember 7 1 2 10).toUpdate with piggybackCount := times }

def thriceSent : List (Call ℕ) :=
  [.addMember 7 1 2 10, .getUpdates 1, .getUpdates 1, .getUpdates 1]

theorem no_update_dropped_unsent_thriceSent :
    Leaves (create (0 : ℕ) 0 0 none 0).config.updateQueueSize.toNat
      [⟨[], .queued (joinedNews 0)⟩, ⟨[joinedNews 0], .handedOut 1 1⟩,
        ⟨[joinedNews 1], .handedOut 1 1⟩]
      ⟨[joinedNews 2], .handedOut 1 1⟩ (joinedNews 2) := by
  have hevent := (no_update_dropped_unsent ⟨_, _, _, _, _, rfl⟩
    (show runs.run (create 0 0 0 none 0) thriceSent = some _ from rfl)).2.1
    [⟨[], .queued (joinedNews 0)⟩, ⟨[joinedNews 0], .handedOut 1 1⟩,
      ⟨[joinedNews 1], .handedOut 1 1⟩] []
    ⟨[joinedNews 2], .handedOut 1 1⟩ (by decide +kernel) (joinedNews 2) (List.mem_singleton_self _)
  exact hevent.resolve_left (by decide +kernel)

end Swim
end LibWake
