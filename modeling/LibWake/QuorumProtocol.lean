import Mathlib.Data.List.Infix
import LibWake.QuorumModel

/-!
# The emission protocol

What one slot emits is the word of an automaton on the tiers: OBSERVE and ALERT
raise the tier, RETRACT takes it from ALERT back to the start.  The slot of the
evaluator refines the automaton as long as the sweeps which reach it find the
same key there; any other finding starts the automaton afresh.
-/

namespace LibWake
namespace Quorum

/-! ## The automaton -/

/-- The emissions for one entity, from tier to tier. -/
def signals : TransitionSystem Tier Action where
  Initial tier := tier = .none
  step
    | .none, .observe => some .observe
    | .none, .alert => some .alert
    | .observe, .alert => some .alert
    | .alert, .retract => some .none
    | _, _ => none

/-- Between two RETRACTs at most one OBSERVE and one ALERT are emitted, the
OBSERVE first. -/
structure Orderly (word : List Action) : Prop where
  observe_once : ∀ segment, segment <:+: word → Action.retract ∉ segment →
    segment.count .observe ≤ 1
  alert_once : ∀ segment, segment <:+: word → Action.retract ∉ segment →
    segment.count .alert ≤ 1
  observe_first : ∀ segment, segment <:+: word → Action.retract ∉ segment →
    ¬ [Action.alert, .observe].Sublist segment

/-- Directly before a RETRACT stands an ALERT. -/
def RetractsAlerts (word : List Action) : Prop :=
  ∀ before after, word = before ++ .retract :: after → before.getLast? = some .alert

/-- Without a RETRACT there is room for one OBSERVE and one ALERT. -/
theorem segment_sublist {segment : List Action} {tier final : Tier}
    (hrun : signals.run tier segment = some final)
    (hfree : Action.retract ∉ segment) :
    segment.Sublist [.observe, .alert] ∧ (tier ≠ .none → segment.Sublist [.alert]) ∧
      (tier = .alert → segment = []) := by
  induction segment generalizing tier with
  | nil => simp
  | cons action rest ih =>
      obtain ⟨next, hstep, hrest⟩ := signals.run_cons_eq_some.mp hrun
      simp only [List.mem_cons, not_or] at hfree
      obtain ⟨hpair, hone, hempty⟩ := ih hrest hfree.2
      cases tier <;> cases action <;> simp [signals] at hstep hfree
      all_goals subst hstep
      · simpa using hone (by decide)
      · simp [hempty rfl]
      · simp [hempty rfl]

/-- ALERT is the only way to the tier ALERT. -/
theorem getLast_of_run_alert {word : List Action} {tier : Tier} (htier : tier ≠ .alert)
    (hrun : signals.run tier word = some .alert) : word.getLast? = some .alert := by
  rcases List.eq_nil_or_concat word with rfl | ⟨front, action, rfl⟩
  · simp only [TransitionSystem.run_nil, Option.some.injEq] at hrun
    exact absurd hrun htier
  · rw [List.concat_eq_append] at hrun ⊢
    obtain ⟨middle, _, hlast⟩ := signals.run_append_eq_some.mp hrun
    obtain ⟨next, hstep, hnil⟩ := signals.run_cons_eq_some.mp hlast
    simp only [TransitionSystem.run_nil, Option.some.injEq] at hnil
    subst hnil
    rw [List.getLast?_append_of_ne_nil _ (by simp), List.getLast?_singleton]
    cases middle <;> cases action <;> simp [signals] at hstep ⊢

theorem orderly_of_run {word : List Action} {tier final : Tier}
    (hrun : signals.run tier word = some final) : Orderly word := by
  have hsegment : ∀ segment, segment <:+: word → Action.retract ∉ segment →
      segment.Sublist [.observe, .alert] := by
    rintro segment ⟨front, back, rfl⟩ hfree
    obtain ⟨later, hfront, _⟩ := signals.run_append_eq_some.mp hrun
    obtain ⟨middle, _, hmiddle⟩ := signals.run_append_eq_some.mp hfront
    exact (segment_sublist hmiddle hfree).1
  constructor
  · exact fun segment hinfix hfree => (hsegment segment hinfix hfree).count_le _
  · exact fun segment hinfix hfree => (hsegment segment hinfix hfree).count_le _
  · intro segment hinfix hfree hback
    have hsub := hback.trans (hsegment segment hinfix hfree)
    exact absurd hsub (by decide)

theorem retractsAlerts_of_run {word : List Action} {final : Tier}
    (hrun : signals.run .none word = some final) : RetractsAlerts word := by
  rintro before after rfl
  obtain ⟨middle, hbefore, hafter⟩ := signals.run_append_eq_some.mp hrun
  obtain ⟨next, hstep, _⟩ := signals.run_cons_eq_some.mp hafter
  have halert : middle = .alert := by
    cases middle <;> simp [signals] at hstep ⊢
  exact getLast_of_run_alert (by decide) (halert ▸ hbefore)

/-! ## One slot refines the automaton -/

variable {Entity : Type}

/-- The actions of a decision. -/
def Decision.actions : Decision → List Action
  | .emitted action => [action]
  | _ => []

/-- The tier at which a slot holds a key: a key which it does not hold starts
afresh. -/
def Slot.tierFor (slot : Slot) (keyHash : UInt64) : Tier :=
  (slot.claimedBy keyHash).emittedTier

theorem tierFor_cleared (keyHash : UInt64) : Slot.cleared.tierFor keyHash = .none := by
  unfold Slot.tierFor Slot.claimedBy Slot.cleared
  split_ifs <;> rfl

theorem tierFor_same (tier : Tier) (keyHash : UInt64) :
    (Slot.mk keyHash tier).tierFor keyHash = tier := by
  simp [Slot.tierFor, Slot.claimedBy]

theorem tierFor_other {tier : Tier} {keyHash other : UInt64} (hne : other ≠ keyHash) :
    (Slot.mk keyHash tier).tierFor other = .none := by
  simp [Slot.tierFor, Slot.claimedBy, hne]

theorem claimedBy_eq (slot : Slot) (keyHash : UInt64) :
    slot.claimedBy keyHash = ⟨keyHash, slot.tierFor keyHash⟩ := by
  unfold Slot.tierFor Slot.claimedBy
  split_ifs with hother
  · rfl
  · rw [not_not.mp hother]

/-- The four things which a visit can make of a slot whose key it finds. -/
theorem visit_cases (cfg : Config) (slot : Slot) (snap : Pheromone.Entry Entity) :
    (visit cfg slot (some snap) = (⟨snap.keyHash, .alert⟩, .emitted .alert) ∧
        slot.tierFor snap.keyHash ≠ .alert) ∨
      (visit cfg slot (some snap) = (⟨snap.keyHash, .observe⟩, .emitted .observe) ∧
        slot.tierFor snap.keyHash = .none) ∨
      (visit cfg slot (some snap) = (.cleared, .emitted .retract) ∧
        slot.tierFor snap.keyHash = .alert) ∨
      visit cfg slot (some snap) =
        (⟨snap.keyHash, slot.tierFor snap.keyHash⟩, .suppressed) := by
  unfold visit
  simp only [claimedBy_eq]
  split_ifs with hup halert hdown
  · left
    rw [halert] at hup ⊢
    exact ⟨rfl, fun hsame => absurd hup (by simp [hsame])⟩
  · right
    left
    cases hnew : classify cfg snap.confidence snap.srcCount snap.hitCount with
    | alert => exact absurd hnew halert
    | none =>
        rw [hnew] at hup
        exact absurd hup (Nat.not_lt_zero _)
    | observe =>
        rw [hnew] at hup
        refine ⟨rfl, ?_⟩
        cases hold : slot.tierFor snap.keyHash with
        | none => rfl
        | observe => exact absurd hup (by simp [hold])
        | alert => exact absurd hup (by simp [hold, Tier.severity])
  · exact Or.inr (Or.inr (Or.inl ⟨rfl, hdown.1⟩))
  · exact Or.inr (Or.inr (Or.inr rfl))

/-- What a visit emits takes the automaton from the tier before to the tier
after it. -/
theorem visit_run (cfg : Config) (slot : Slot) (snap : Pheromone.Entry Entity) :
    signals.run (slot.tierFor snap.keyHash) (visit cfg slot (some snap)).2.actions =
      some ((visit cfg slot (some snap)).1.tierFor snap.keyHash) := by
  rcases visit_cases cfg slot snap with
    ⟨hvisit, hbelow⟩ | ⟨hvisit, hnone⟩ | ⟨hvisit, halert⟩ | hvisit
  · rw [hvisit, tierFor_same]
    cases hold : slot.tierFor snap.keyHash with
    | none => rfl
    | observe => rfl
    | alert => exact absurd hold hbelow
  · rw [hvisit, tierFor_same, hnone]
    rfl
  · rw [hvisit, tierFor_cleared, halert]
    rfl
  · rw [hvisit, tierFor_same]
    rfl

theorem visit_tierFor_other (cfg : Config) (slot : Slot) (snap : Pheromone.Entry Entity)
    {other : UInt64} (hne : other ≠ snap.keyHash) :
    (visit cfg slot (some snap)).1.tierFor other = .none := by
  rcases visit_cases cfg slot snap with
    ⟨hvisit, _⟩ | ⟨hvisit, _⟩ | ⟨hvisit, _⟩ | hvisit
  · rw [hvisit, tierFor_other hne]
  · rw [hvisit, tierFor_other hne]
  · rw [hvisit, tierFor_cleared]
  · rw [hvisit, tierFor_other hne]

/-! ## What a sweep does to one slot -/

/-- The emissions about slot `i`. -/
def actionsAt (i : ℕ) (hits : List (Hit Entity)) : List Action :=
  hits.filterMap fun hit => if hit.slotIdx = i then some hit.action else none

theorem actionsAt_append (i : ℕ) (front back : List (Hit Entity)) :
    actionsAt i (front ++ back) = actionsAt i front ++ actionsAt i back :=
  List.filterMap_append

theorem actionsAt_hitOf (cfg : Config) (slot : Slot)
    (reading : Option (Pheromone.Entry Entity)) (i j : ℕ) :
    actionsAt j (hitOf i (visit cfg slot reading).2 reading).toList =
      if j = i then (visit cfg slot reading).2.actions else [] := by
  cases reading with
  | none =>
      split_ifs <;> rfl
  | some snap =>
      cases (visit cfg slot (some snap)).2 with
      | dead => split_ifs <;> rfl
      | suppressed => split_ifs <;> rfl
      | emitted action =>
          split_ifs with hsame
          · simp [hitOf, actionsAt, Decision.actions, hsame]
          · simp [hitOf, actionsAt, Ne.symm hsame]

theorem count_frame (s : Sweep Entity) (decision : Decision) :
    (s.count decision).quorum.config = s.quorum.config ∧
      (s.count decision).quorum.slots = s.quorum.slots ∧
      (s.count decision).result.slotsScanned = s.result.slotsScanned + 1 := by
  cases decision with
  | emitted action => cases action <;> exact ⟨rfl, rfl, rfl⟩
  | _ => exact ⟨rfl, rfl, rfl⟩

/-- The sweep has visited slot `j`. -/
def SlotVisited (read : ℕ → Option (Pheromone.Entry Entity)) (before after : Sweep Entity)
    (j : ℕ) : Prop :=
  ∃ slot, before.quorum.slots[j]? = some slot ∧
    after.quorum.slots[j]? = some (visit before.quorum.config slot (read j)).1 ∧
    actionsAt j after.hits = actionsAt j before.hits ++
      (visit before.quorum.config slot (read j)).2.actions

/-- The sweep has not come to slot `j`, or had passed it before. -/
def SlotUntouched (before after : Sweep Entity) (j : ℕ) : Prop :=
  after.quorum.slots[j]? = before.quorum.slots[j]? ∧
    actionsAt j after.hits = actionsAt j before.hits

section Loop

variable (read : ℕ → Option (Pheromone.Entry Entity)) (i : ℕ) (slot : Slot)
  (s : Sweep Entity)

theorem sweepAt_frame :
    (sweepAt read i slot s).quorum.config = s.quorum.config ∧
      (sweepAt read i slot s).quorum.slots =
        s.quorum.slots.set i (visit s.quorum.config slot (read i)).1 ∧
      (sweepAt read i slot s).result.slotsScanned = s.result.slotsScanned + 1 :=
  count_frame (s.store i (visit s.quorum.config slot (read i)).1)
    (visit s.quorum.config slot (read i)).2

theorem length_sweepAt :
    (sweepAt read i slot s).quorum.slots.length = s.quorum.slots.length := by
  rw [(sweepAt_frame read i slot s).2.1, List.length_set]

theorem sweepAt_actions (j : ℕ) :
    actionsAt j (sweepAt read i slot s).hits = actionsAt j s.hits ++
      if j = i then (visit s.quorum.config slot (read i)).2.actions else [] := by
  rw [← actionsAt_hitOf, ← actionsAt_append]
  rfl

variable {read i slot s}

/-- A loop which has slots to go comes to one. -/
theorem exists_slot {n : ℕ} (hrange : i + (n + 1) ≤ s.quorum.slots.length) :
    ∃ slot, s.quorum.slots[i]? = some slot :=
  ⟨_, List.getElem?_eq_getElem (by omega)⟩

theorem range_behind {n : ℕ} (hrange : i + (n + 1) ≤ s.quorum.slots.length) :
    i + 1 + n ≤ (sweepAt read i slot s).quorum.slots.length := by
  rw [length_sweepAt]
  omega

theorem sweepAt_visited (hget : s.quorum.slots[i]? = some slot) :
    SlotVisited read s (sweepAt read i slot s) i := by
  have hlt := (List.getElem?_eq_some_iff.mp hget).1
  refine ⟨slot, hget, ?_, ?_⟩
  · rw [(sweepAt_frame read i slot s).2.1, List.getElem?_set_self hlt]
  · rw [sweepAt_actions, if_pos rfl]

theorem sweepAt_untouched {j : ℕ} (hne : j ≠ i) :
    SlotUntouched s (sweepAt read i slot s) j := by
  constructor
  · rw [(sweepAt_frame read i slot s).2.1, List.getElem?_set_ne (Ne.symm hne)]
  · rw [sweepAt_actions, if_neg hne, List.append_nil]

theorem SlotUntouched.visited {middle after : Sweep Entity} {j : ℕ}
    (huntouched : SlotUntouched s middle j)
    (hconfig : middle.quorum.config = s.quorum.config)
    (hvisited : SlotVisited read middle after j) : SlotVisited read s after j := by
  obtain ⟨slot, hget, hafter, hactions⟩ := hvisited
  rw [hconfig] at hafter hactions
  exact ⟨slot, huntouched.1 ▸ hget, hafter, by rw [hactions, huntouched.2]⟩

theorem SlotVisited.untouched {middle after : Sweep Entity} {j : ℕ}
    (hvisited : SlotVisited read s middle j) (huntouched : SlotUntouched middle after j) :
    SlotVisited read s after j := by
  obtain ⟨slot, hget, hmiddle, hactions⟩ := hvisited
  exact ⟨slot, hget, huntouched.1.trans hmiddle, huntouched.2.trans hactions⟩

end Loop

/-- A sweep which has visited the slots from `i` to `i + k`, counting them. -/
structure Swept (read : ℕ → Option (Pheromone.Entry Entity)) (i k : ℕ)
    (before after : Sweep Entity) : Prop where
  scanned : after.result.slotsScanned = before.result.slotsScanned + k
  config : after.quorum.config = before.quorum.config
  visited : ∀ j, i ≤ j → j < i + k → SlotVisited read before after j
  untouched : ∀ j, j < i ∨ i + k ≤ j → SlotUntouched before after j

theorem Swept.nothing (read : ℕ → Option (Pheromone.Entry Entity)) (i : ℕ)
    (s : Sweep Entity) : Swept read i 0 s s where
  scanned := rfl
  config := rfl
  visited j hle hlt := by omega
  untouched j _ := ⟨rfl, rfl⟩

theorem Swept.first {read : ℕ → Option (Pheromone.Entry Entity)} {i : ℕ} {slot : Slot}
    {s : Sweep Entity} (hget : s.quorum.slots[i]? = some slot) :
    Swept read i 1 s (sweepAt read i slot s) where
  scanned := (sweepAt_frame read i slot s).2.2
  config := (sweepAt_frame read i slot s).1
  visited j hle hlt := by
    obtain rfl : j = i := by omega
    exact sweepAt_visited hget
  untouched j houtside := sweepAt_untouched (by omega)

theorem Swept.trans {read : ℕ → Option (Pheromone.Entry Entity)} {i k l : ℕ}
    {before middle after : Sweep Entity} (hfirst : Swept read i k before middle)
    (hrest : Swept read (i + k) l middle after) : Swept read i (k + l) before after where
  scanned := by rw [hrest.scanned, hfirst.scanned, Nat.add_assoc]
  config := hrest.config.trans hfirst.config
  visited j hle hlt := by
    by_cases hnear : j < i + k
    · exact (hfirst.visited j hle hnear).untouched (hrest.untouched j (Or.inl hnear))
    · exact (hfirst.untouched j (by omega)).visited hfirst.config
        (hrest.visited j (by omega) (by omega))
  untouched j houtside := by
    have hnear := hfirst.untouched j (by omega)
    have hfar := hrest.untouched j (by omega)
    exact ⟨hfar.1.trans hnear.1, hfar.2.trans hnear.2⟩

/-- The loop visits the slots from `i` on as far as it comes. -/
theorem sweepLoop_swept (read : ℕ → Option (Pheromone.Entry Entity))
    (continues : Hit Entity → Bool) (n i : ℕ) (s : Sweep Entity) :
    ∃ k, Swept read i k s (sweepLoop read continues n i s) := by
  induction n generalizing i s with
  | zero => exact ⟨0, .nothing read i s⟩
  | succ n ih =>
      unfold sweepLoop
      cases hget : s.quorum.slots[i]? with
      | none => exact ⟨0, .nothing read i s⟩
      | some slot =>
          simp only
          split_ifs
          · obtain ⟨k, hrest⟩ := ih (i + 1) (sweepAt read i slot s)
            exact ⟨1 + k, (Swept.first hget).trans hrest⟩
          · exact ⟨1, .first hget⟩

/-! ## Runs -/

/-- One call of the evaluator, with the table as it is at that moment. -/
inductive Call (Entity : Type) where
  | sweep (pt : View Entity) (fn : EmitFn Entity)
  | sweepCollect (pt : View Entity) (hitsCapacity : ℕ)
  | preseed (pt : View Entity)

def Call.view : Call Entity → View Entity
  | .sweep pt _ => pt
  | .sweepCollect pt _ => pt
  | .preseed pt => pt

/-- The sweep of a call. -/
def performCall (q : Evaluator) : Call Entity → Sweep Entity
  | .sweep pt fn => Quorum.sweep q pt fn
  | .sweepCollect pt _ => Quorum.sweepCollect q pt
  | .preseed pt => Quorum.preseed q pt

theorem performCall_swept (q : Evaluator) (call : Call Entity) :
    ∃ k, Swept call.view.read 0 k ⟨q, .zero, []⟩ (performCall q call) := by
  cases call with
  | sweep pt fn => exact sweepLoop_swept _ _ _ _ _
  | sweepCollect pt hitsCapacity => exact sweepLoop_swept _ _ _ _ _
  | preseed pt =>
      obtain ⟨k, hswept⟩ := sweepLoop_swept pt.read (fun _ => true)
        (min q.slots.length pt.capacity) 0 ⟨q, .zero, []⟩
      exact ⟨k, hswept.scanned, hswept.config, hswept.visited, hswept.untouched⟩

/-- What a sweep which reaches a slot finds there and emits for it. -/
structure Visit (Entity : Type) where
  reading : Option (Pheromone.Entry Entity)
  actions : List Action

/-- The slot is live with the key. -/
def Visit.Finds (v : Visit Entity) (keyHash : UInt64) : Prop :=
  v.reading.map Pheromone.Entry.keyHash = some keyHash

instance (v : Visit Entity) (keyHash : UInt64) : Decidable (v.Finds keyHash) :=
  inferInstanceAs (Decidable (_ = _))

/-- The visit of slot `i`, unless the sweep is over before it. -/
def visitOf (i : ℕ) (q : Evaluator) (call : Call Entity) : Option (Visit Entity) :=
  if i < (performCall q call).result.slotsScanned then
    some ⟨call.view.read i, actionsAt i (performCall q call).hits⟩
  else none

/-- The visits of slot `i` along a run. -/
def history (i : ℕ) : Evaluator → List (Call Entity) → List (Visit Entity)
  | _, [] => []
  | q, call :: rest =>
      (visitOf i q call).toList ++ history i (performCall q call).quorum rest

/-- All emissions about slot `i` along a run. -/
def emissions (i : ℕ) : Evaluator → List (Call Entity) → List Action
  | _, [] => []
  | q, call :: rest =>
      actionsAt i (performCall q call).hits ++ emissions i (performCall q call).quorum rest

theorem performCall_cases (i : ℕ) (q : Evaluator) (call : Call Entity) :
    (performCall q call).quorum.config = q.config ∧
    ((∃ slot, q.slots[i]? = some slot ∧
        visitOf i q call = some ⟨call.view.read i,
          (visit q.config slot (call.view.read i)).2.actions⟩ ∧
        actionsAt i (performCall q call).hits =
          (visit q.config slot (call.view.read i)).2.actions ∧
        (performCall q call).quorum.slots[i]? =
          some (visit q.config slot (call.view.read i)).1) ∨
      (visitOf i q call = none ∧ actionsAt i (performCall q call).hits = [] ∧
        (performCall q call).quorum.slots[i]? = q.slots[i]?)) := by
  obtain ⟨k, hswept⟩ := performCall_swept q call
  refine ⟨hswept.config, ?_⟩
  have hscanned : (performCall q call).result.slotsScanned = k :=
    hswept.scanned.trans (Nat.zero_add k)
  unfold visitOf
  rw [hscanned]
  split_ifs with hlt
  · left
    obtain ⟨slot, hget, hafter, hactions⟩ := hswept.visited i (Nat.zero_le i) (by omega)
    have hword : actionsAt i (performCall q call).hits =
        (visit q.config slot (call.view.read i)).2.actions := hactions
    exact ⟨slot, hget, by rw [hword], hword, hafter⟩
  · right
    have huntouched := hswept.untouched i (Or.inr (by omega))
    exact ⟨rfl, huntouched.2, huntouched.1⟩

/-! ## The history of one slot -/

/-- The visits of a slot with these readings. -/
def replay (cfg : Config) : Slot → List (Option (Pheromone.Entry Entity)) →
    List (Visit Entity)
  | _, [] => []
  | slot, reading :: rest =>
      ⟨reading, (visit cfg slot reading).2.actions⟩ ::
        replay cfg (visit cfg slot reading).1 rest

theorem history_eq_replay {i : ℕ} {q : Evaluator} {slot : Slot}
    (hget : q.slots[i]? = some slot) (calls : List (Call Entity)) :
    ∃ readings, history i q calls = replay q.config slot readings := by
  induction calls generalizing q slot with
  | nil => exact ⟨[], rfl⟩
  | cons call rest ih =>
      obtain ⟨hconfig, ⟨found, hfound, hvisit, _, hafter⟩ | ⟨hvisit, _, hafter⟩⟩ :=
        performCall_cases i q call
      · obtain rfl : found = slot := Option.some.inj (hfound.symm.trans hget)
        obtain ⟨readings, hrest⟩ := ih hafter
        refine ⟨call.view.read i :: readings, ?_⟩
        rw [history, hvisit, hrest, hconfig]
        rfl
      · obtain ⟨readings, hrest⟩ := ih (hafter.trans hget)
        refine ⟨readings, ?_⟩
        rw [history, hvisit, hrest, hconfig]
        rfl

theorem history_eq_nil {i : ℕ} {q : Evaluator} (hget : q.slots[i]? = none)
    (calls : List (Call Entity)) : history i q calls = [] := by
  induction calls generalizing q with
  | nil => rfl
  | cons call rest ih =>
      obtain ⟨_, ⟨found, hfound, _⟩ | ⟨hvisit, _, hafter⟩⟩ := performCall_cases i q call
      · rw [hget] at hfound
        cases hfound
      · rw [history, hvisit, ih (hafter.trans hget)]
        rfl

/-- Nothing is emitted about a slot but by the visits of it. -/
theorem emissions_eq (i : ℕ) (q : Evaluator) (calls : List (Call Entity)) :
    emissions i q calls = (history i q calls).flatMap Visit.actions := by
  induction calls generalizing q with
  | nil => rfl
  | cons call rest ih =>
      rw [emissions, history, List.flatMap_append, ih]
      congr 1
      obtain ⟨_, ⟨slot, _, hvisit, hactions, _⟩ | ⟨hvisit, hactions, _⟩⟩ :=
        performCall_cases i q call
      · rw [hvisit, hactions]
        simp
      · rw [hvisit, hactions]
        rfl

/-- The last visit before found the slot dead or with another key, or there was
none. -/
def StartsAfresh (before : List (Visit Entity)) (keyHash : UInt64) : Prop :=
  ∀ v, before.getLast? = some v → ¬ v.Finds keyHash

theorem visit_afresh {cfg : Config} {slot : Slot}
    {reading : Option (Pheromone.Entry Entity)} {keyHash : UInt64}
    (hother : reading.map Pheromone.Entry.keyHash ≠ some keyHash) :
    (visit cfg slot reading).1.tierFor keyHash = .none := by
  cases reading with
  | none => exact tierFor_cleared keyHash
  | some snap => exact visit_tierFor_other cfg slot snap fun hsame => hother (by rw [hsame]; rfl)

/-- Behind some visits the slot replays the rest, and afresh unless the last of
them found the key. -/
theorem replay_split {cfg : Config} {keyHash : UInt64}
    {before rest : List (Visit Entity)} {slot : Slot}
    {readings : List (Option (Pheromone.Entry Entity))}
    (hsplit : replay cfg slot readings = before ++ rest)
    (hslot : slot.tierFor keyHash = .none ∨ before ≠ []) :
    ∃ slot' readings', rest = replay cfg slot' readings' ∧
      (StartsAfresh before keyHash → slot'.tierFor keyHash = .none) := by
  induction before generalizing slot readings with
  | nil =>
      exact ⟨slot, readings, hsplit.symm, fun _ => hslot.resolve_right (not_not.mpr rfl)⟩
  | cons v before ih =>
      cases readings with
      | nil => cases hsplit
      | cons reading readings =>
          obtain ⟨rfl, htail⟩ := List.cons.inj hsplit
          by_cases hlast : before = []
          · subst hlast
            refine ⟨_, readings, htail.symm, fun hafresh => ?_⟩
            exact visit_afresh (hafresh _ rfl)
          · obtain ⟨slot', readings', hrest, hnone⟩ := ih htail (Or.inr hlast)
            refine ⟨slot', readings', hrest, fun hafresh => hnone fun w hw => hafresh w ?_⟩
            rw [List.getLast?_cons_of_ne_nil hlast]
            exact hw

/-- The word of a stretch takes the automaton on from the tier of the slot. -/
theorem replay_run {cfg : Config} {keyHash : UInt64}
    {stretch after : List (Visit Entity)} {slot : Slot}
    {readings : List (Option (Pheromone.Entry Entity))}
    (hsplit : replay cfg slot readings = stretch ++ after)
    (hstretch : ∀ v ∈ stretch, v.Finds keyHash) :
    ∃ final, signals.run (slot.tierFor keyHash) (stretch.flatMap Visit.actions) =
      some final := by
  induction stretch generalizing slot readings with
  | nil => exact ⟨_, rfl⟩
  | cons v stretch ih =>
      cases readings with
      | nil => cases hsplit
      | cons reading readings =>
          obtain ⟨rfl, htail⟩ := List.cons.inj hsplit
          have hfinds := hstretch _ List.mem_cons_self
          cases reading with
          | none => cases hfinds
          | some snap =>
              obtain rfl : snap.keyHash = keyHash := Option.some.inj hfinds
              obtain ⟨final, hfinal⟩ := ih htail
                fun w hw => hstretch w (List.mem_cons_of_mem _ hw)
              refine ⟨final, ?_⟩
              rw [List.flatMap_cons]
              exact signals.run_append_eq_some.mpr ⟨_, visit_run cfg slot snap, hfinal⟩

/-- A stretch of visits of a slot which is live with one key: an orderly word,
and one which retracts ALERTs if the stretch starts afresh. -/
theorem stretch_word {cfg : Option Config} {capacity i : ℕ}
    {calls : List (Call Entity)} {keyHash : UInt64}
    {before stretch after : List (Visit Entity)}
    (hsplit : history i (create capacity cfg) calls = before ++ (stretch ++ after))
    (hstretch : ∀ v ∈ stretch, v.Finds keyHash) :
    Orderly (stretch.flatMap Visit.actions) ∧
      (StartsAfresh before keyHash → RetractsAlerts (stretch.flatMap Visit.actions)) := by
  have hreplay : ∃ readings, history i (create capacity cfg) calls =
      replay (create capacity cfg).config .cleared readings := by
    by_cases hlt : i < capacity
    · exact history_eq_replay (by simp [create, hlt]) calls
    · exact ⟨[], history_eq_nil (by simpa [create] using hlt) calls⟩
  obtain ⟨readings, hreadings⟩ := hreplay
  rw [hreadings] at hsplit
  obtain ⟨slot, readings', hrest, hafresh⟩ :=
    replay_split hsplit (Or.inl (tierFor_cleared keyHash))
  obtain ⟨final, hrun⟩ := replay_run hrest.symm hstretch
  refine ⟨orderly_of_run hrun, fun hstart => ?_⟩
  rw [hafresh hstart] at hrun
  exact retractsAlerts_of_run hrun

/-- A visit of a history emits what the loop body decides. -/
theorem history_actions {i : ℕ} {q : Evaluator} {calls : List (Call Entity)}
    {v : Visit Entity} (hmem : v ∈ history i q calls) :
    ∃ slot, v.actions = (visit q.config slot v.reading).2.actions := by
  induction calls generalizing q with
  | nil => exact absurd hmem List.not_mem_nil
  | cons call rest ih =>
      rw [history, List.mem_append] at hmem
      obtain ⟨hconfig, ⟨slot, _, hvisit, _⟩ | ⟨hvisit, _⟩⟩ := performCall_cases i q call
      · rw [hvisit, Option.toList_some, List.mem_singleton] at hmem
        rcases hmem with rfl | hrest
        · exact ⟨slot, rfl⟩
        · exact hconfig ▸ ih hrest
      · rw [hvisit] at hmem
        exact hconfig ▸ ih (hmem.resolve_left List.not_mem_nil)

theorem Decision.eq_of_mem_actions {decision : Decision} {action : Action}
    (hmem : action ∈ decision.actions) : decision.actions = [action] := by
  cases decision with
  | emitted other =>
      rw [Decision.actions, List.mem_singleton] at hmem
      rw [Decision.actions, hmem]
  | _ => exact absurd hmem List.not_mem_nil

/-- The emission protocol.  All that is emitted about a slot is emitted by the
visits of it.  Along a stretch of visits which find the slot live with one key
there are at most one OBSERVE and one ALERT between two RETRACTs, the OBSERVE
first, and every RETRACT follows directly on an ALERT, from the start of the
stretch on.  A visit which finds the slot dead emits nothing, and one which finds
another key than the visit before it emits no RETRACT. -/
theorem emission_protocol (cfg : Option Config) (capacity i : ℕ)
    (calls : List (Call Entity)) :
    emissions i (create capacity cfg) calls =
        (history i (create capacity cfg) calls).flatMap Visit.actions ∧
      (∀ keyHash before stretch after,
        history i (create capacity cfg) calls = before ++ (stretch ++ after) →
        (∀ v ∈ stretch, v.Finds keyHash) →
        Orderly (stretch.flatMap Visit.actions) ∧
          (StartsAfresh before keyHash →
            RetractsAlerts (stretch.flatMap Visit.actions))) ∧
      ∀ before v after, history i (create capacity cfg) calls = before ++ (v :: after) →
        (v.reading = none → v.actions = []) ∧
          ∀ keyHash, v.Finds keyHash → StartsAfresh before keyHash →
            Action.retract ∉ v.actions := by
  refine ⟨emissions_eq i _ calls, fun keyHash before stretch after hsplit hstretch =>
    stretch_word hsplit hstretch, fun before v after hsplit => ?_⟩
  have hmem : v ∈ history i (create capacity cfg) calls := by
    rw [hsplit]
    exact List.mem_append_right _ List.mem_cons_self
  obtain ⟨slot, hactions⟩ := history_actions hmem
  constructor
  · intro hdead
    rw [hactions, hdead]
    rfl
  · intro keyHash hfinds hafresh hretract
    have hsingle : history i (create capacity cfg) calls = before ++ ([v] ++ after) := hsplit
    have hword := (stretch_word hsingle (by simpa using hfinds)).2 hafresh
    rw [hactions] at hretract
    rw [List.flatMap_singleton, hactions, Decision.eq_of_mem_actions hretract] at hword
    exact absurd (hword [] [] rfl) (by simp)

/-- An entry with key 5 and this confidence, from two sources with five hits. -/
def witnessed (confidence : UInt32) : Pheromone.Entry Unit :=
  { Pheromone.Entry.zero with
    keyHash := 5
    confidence := confidence
    srcCount := 2
    hitCount := 5 }

/-- The sweeps of a table of one slot whose confidence takes these values. -/
def sweeping (confidences : List UInt32) : List (Call Unit) :=
  confidences.map fun confidence => .sweep ⟨1, fun _ => some (witnessed confidence)⟩ none

theorem emission_protocol_risingFalling :
    (history 0 (create 1 none) (sweeping [6000, 30000, 1000, 6000])).flatMap
        Visit.actions = [.observe, .alert, .retract, .observe] ∧
      RetractsAlerts ((history 0 (create 1 none)
        (sweeping [6000, 30000, 1000, 6000])).flatMap Visit.actions) :=
  ⟨by decide, ((emission_protocol none 1 0 (sweeping [6000, 30000, 1000, 6000])).2.1 5 []
    (history 0 (create 1 none) (sweeping [6000, 30000, 1000, 6000])) []
    (List.append_nil _).symm (by decide)).2 (by simp [StartsAfresh])⟩

end Quorum
end LibWake
