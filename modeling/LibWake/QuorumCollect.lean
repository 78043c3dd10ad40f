import Mathlib.Logic.Function.Basic
import LibWake.QuorumProtocol

/-!
# The two sweeps, loop by loop

`wake_quorum_sweep` and `wake_quorum_sweep_collect` as the code writes them: two copies
of one loop, the first of which calls back for each emission while the second fills an
array of its caller.  Run side by side on the same table they stay in step.  The tier of
a slot is the byte in which the code keeps it.
-/

namespace LibWake
namespace Quorum

variable {Entity : Type}

/-! ## The stored evaluator -/

/-- `wake_quorum_slot_t`. -/
structure StoredSlot where
  keyHash : UInt64
  emittedTier : UInt8
  deriving DecidableEq, Repr

/-- `wake_quorum_t`, with `slots` as an array of `capacity` elements. -/
structure Stored where
  config : Config
  capacity : ℕ
  slots : ℕ → StoredSlot
  observationsEmitted : UInt64
  alertsEmitted : UInt64
  retractionsEmitted : UInt64
  suppressed : UInt64

/-- The value of `wake_quorum_tier_t`. -/
def Tier.code : Tier → UInt8
  | .none => 0
  | .observe => 1
  | .alert => 2

/-- What both loops keep: the evaluator and the counters of the sweep. -/
structure Progress where
  quorum : Stored
  result : SweepResult

namespace Progress

def scan (p : Progress) : Progress :=
  { p with result := { p.result with slotsScanned := p.result.slotsScanned + 1 } }

def live (p : Progress) : Progress :=
  { p with result := { p.result with slotsLive := p.result.slotsLive + 1 } }

def setSlot (p : Progress) (i : ℕ) (slot : StoredSlot) : Progress :=
  { p with quorum := { p.quorum with slots := Function.update p.quorum.slots i slot } }

def countObservation (p : Progress) : Progress where
  quorum := { p.quorum with observationsEmitted := p.quorum.observationsEmitted + 1 }
  result := { p.result with newObservations := p.result.newObservations + 1 }

def countAlert (p : Progress) : Progress where
  quorum := { p.quorum with alertsEmitted := p.quorum.alertsEmitted + 1 }
  result := { p.result with newAlerts := p.result.newAlerts + 1 }

def countRetraction (p : Progress) : Progress where
  quorum := { p.quorum with retractionsEmitted := p.quorum.retractionsEmitted + 1 }
  result := { p.result with newRetractions := p.result.newRetractions + 1 }

def countSuppressed (p : Progress) : Progress where
  quorum := { p.quorum with suppressed := p.quorum.suppressed + 1 }
  result := { p.result with suppressed := p.result.suppressed + 1 }

end Progress

/-! ## `wake_quorum_sweep` -/

/-- `wake_quorum_emit_fn` with its context; the callback answers whether to go on. -/
abbrev Callback (Entity Ctx : Type) :=
  Action → ℕ → Pheromone.Entry Entity → Ctx → Bool × Ctx

/-- `fn && !fn(action, i, &snap, ctx)` decides whether the loop breaks. -/
def callBack {Ctx : Type} (fn : Option (Callback Entity Ctx)) (action : Action) (i : ℕ)
    (snap : Pheromone.Entry Entity) (ctx : Ctx) : Bool × Ctx :=
  match fn with
  | none => (true, ctx)
  | some f => f action i snap ctx

/-- The loop body of `wake_quorum_sweep`; the Boolean is false when it breaks. -/
def callbackBody {Ctx : Type} (read : ℕ → Option (Pheromone.Entry Entity))
    (fn : Option (Callback Entity Ctx)) (i : ℕ) (p : Progress) (ctx : Ctx) :
    Progress × Bool × Ctx :=
  let p := p.scan
  match read i with
  | none => (p.setSlot i ⟨0, Tier.none.code⟩, true, ctx)
  | some snap =>
      let p := p.live
      let p :=
        if snap.keyHash ≠ (p.quorum.slots i).keyHash then
          p.setSlot i ⟨snap.keyHash, Tier.none.code⟩
        else p
      let tier := classify p.quorum.config snap.confidence snap.srcCount snap.hitCount
      let prevTier := (p.quorum.slots i).emittedTier
      if tier.code > prevTier then
        let action := if tier = .alert then Action.alert else .observe
        let p := p.setSlot i { p.quorum.slots i with emittedTier := tier.code }
        let p := if action = .observe then p.countObservation else p.countAlert
        (p, callBack fn action i snap ctx)
      else if prevTier = Tier.alert.code ∧ tier.code < Tier.alert.code ∧
          snap.confidence < p.quorum.config.retractConfidence then
        let p := p.setSlot i ⟨0, Tier.none.code⟩
        (p.countRetraction, callBack fn .retract i snap ctx)
      else (p.countSuppressed, true, ctx)

/-- The loop of `wake_quorum_sweep` over `n` slots from slot `i`. -/
def callbackLoop {Ctx : Type} (read : ℕ → Option (Pheromone.Entry Entity))
    (fn : Option (Callback Entity Ctx)) : ℕ → ℕ → Progress → Ctx → Progress × Ctx
  | 0, _, p, ctx => (p, ctx)
  | n + 1, i, p, ctx =>
      match callbackBody read fn i p ctx with
      | (p, true, ctx) => callbackLoop read fn n (i + 1) p ctx
      | (p, false, ctx) => (p, ctx)

/-- `wake_quorum_sweep`. -/
def callbackSweep {Ctx : Type} (q : Stored) (pt : View Entity)
    (fn : Option (Callback Entity Ctx)) (ctx : Ctx) : Progress × Ctx :=
  callbackLoop pt.read fn (min q.capacity pt.capacity) 0 ⟨q, .zero⟩ ctx

/-! ## `wake_quorum_sweep_collect` -/

/-- The state of the collecting loop: `hits` is the array of the caller, if any. -/
structure Collecting (Entity : Type) where
  progress : Progress
  hits : Option (ℕ → Hit Entity)
  written : ℕ

/-- `if (hits && written < hits_capacity)`. -/
def Collecting.write (s : Collecting Entity) (hitsCapacity : ℕ) (hit : Hit Entity) :
    Collecting Entity :=
  match s.hits with
  | none => s
  | some hits =>
      if s.written < hitsCapacity then
        { s with hits := some (Function.update hits s.written hit), written := s.written + 1 }
      else s

/-- The loop body of `wake_quorum_sweep_collect`. -/
def collectBody (read : ℕ → Option (Pheromone.Entry Entity)) (hitsCapacity i : ℕ)
    (s : Collecting Entity) : Collecting Entity :=
  let p := s.progress.scan
  match read i with
  | none => { s with progress := p.setSlot i ⟨0, Tier.none.code⟩ }
  | some snap =>
      let p := p.live
      let p :=
        if snap.keyHash ≠ (p.quorum.slots i).keyHash then
          p.setSlot i ⟨snap.keyHash, Tier.none.code⟩
        else p
      let tier := classify p.quorum.config snap.confidence snap.srcCount snap.hitCount
      let prevTier := (p.quorum.slots i).emittedTier
      if tier.code > prevTier then
        let action := if tier = .alert then Action.alert else .observe
        let p := p.setSlot i { p.quorum.slots i with emittedTier := tier.code }
        let p := if action = .observe then p.countObservation else p.countAlert
        Collecting.write { s with progress := p } hitsCapacity ⟨action, i, snap⟩
      else if prevTier = Tier.alert.code ∧ tier.code < Tier.alert.code ∧
          snap.confidence < p.quorum.config.retractConfidence then
        let p := p.setSlot i ⟨0, Tier.none.code⟩
        Collecting.write { s with progress := p.countRetraction } hitsCapacity
          ⟨.retract, i, snap⟩
      else { s with progress := p.countSuppressed }

/-- The loop of `wake_quorum_sweep_collect` over `n` slots from slot `i`. -/
def collectLoop (read : ℕ → Option (Pheromone.Entry Entity)) (hitsCapacity : ℕ) :
    ℕ → ℕ → Collecting Entity → Collecting Entity
  | 0, _, s => s
  | n + 1, i, s => collectLoop read hitsCapacity n (i + 1) (collectBody read hitsCapacity i s)

/-- `wake_quorum_sweep_collect`; `written` is what it stores to `hits_count`. -/
def collectSweep (q : Stored) (pt : View Entity) (hits : Option (ℕ → Hit Entity))
    (hitsCapacity : ℕ) : Collecting Entity :=
  collectLoop pt.read hitsCapacity (min q.capacity pt.capacity) 0 ⟨⟨q, .zero⟩, hits, 0⟩

/-! ## In step -/

/-- The callback which records its arguments and goes on. -/
def recording : Callback Entity (List (Hit Entity)) :=
  fun action i snap calls => (true, calls ++ [⟨action, i, snap⟩])

/-- The number of actions which a sweep has counted. -/
def SweepResult.actions (r : SweepResult) : ℕ :=
  r.newObservations + r.newAlerts + r.newRetractions

/-- The array holds the first calls, and has changed nowhere else. -/
structure Holds (hitsCapacity : ℕ) (before : ℕ → Hit Entity) (calls : List (Hit Entity))
    (hits : ℕ → Hit Entity) (written : ℕ) : Prop where
  written_eq : written = min hitsCapacity calls.length
  collected : (List.range written).map hits = calls.take written
  untouched : ∀ j, written ≤ j → hits j = before j

/-- The two loops behind the same slots. -/
structure InStep (hitsCapacity : ℕ) (hits : Option (ℕ → Hit Entity)) (p : Progress)
    (calls : List (Hit Entity)) (s : Collecting Entity) : Prop where
  progress : s.progress = p
  actions : p.result.actions = calls.length
  missing : hits = none → s.hits = none ∧ s.written = 0
  held : ∀ before, hits = some before →
    ∃ array, s.hits = some array ∧ Holds hitsCapacity before calls array s.written

theorem InStep.start (hitsCapacity : ℕ) (hits : Option (ℕ → Hit Entity)) (q : Stored) :
    InStep hitsCapacity hits ⟨q, .zero⟩ [] ⟨⟨q, .zero⟩, hits, 0⟩ := by
  refine ⟨rfl, rfl, fun hnone => ⟨hnone, rfl⟩, fun before hbefore => ⟨before, hbefore, ?_⟩⟩
  exact ⟨(Nat.min_zero _).symm, rfl, fun _ _ => rfl⟩

theorem Holds.full {hitsCapacity : ℕ} {before array : ℕ → Hit Entity}
    {calls : List (Hit Entity)} {written : ℕ}
    (hheld : Holds hitsCapacity before calls array written)
    (hfull : ¬ written < hitsCapacity) (hit : Hit Entity) :
    Holds hitsCapacity before (calls ++ [hit]) array written := by
  have hwritten := hheld.written_eq
  refine ⟨?_, ?_, hheld.untouched⟩
  · rw [List.length_append, List.length_singleton]
    omega
  · rw [hheld.collected, List.take_append_of_le_length (by omega)]

theorem Holds.extend {hitsCapacity : ℕ} {before array : ℕ → Hit Entity}
    {calls : List (Hit Entity)} {written : ℕ}
    (hheld : Holds hitsCapacity before calls array written)
    (hroom : written < hitsCapacity) (hit : Hit Entity) :
    Holds hitsCapacity before (calls ++ [hit]) (Function.update array written hit)
      (written + 1) := by
  have hwritten := hheld.written_eq
  have hlength : written = calls.length := by omega
  refine ⟨?_, ?_, ?_⟩
  · rw [List.length_append, List.length_singleton]
    omega
  · have hfront : (List.range written).map (Function.update array written hit) =
        (List.range written).map array := by
      refine List.map_congr_left fun j hj => ?_
      exact Function.update_of_ne (Nat.ne_of_lt (List.mem_range.mp hj)) _ _
    have hall : calls.take written = calls := List.take_of_length_le (by omega)
    rw [List.range_succ, List.map_append, hfront, hheld.collected, hall,
      List.take_of_length_le (by simp [hlength])]
    simp
  · intro j hj
    rw [Function.update_of_ne (by omega)]
    exact hheld.untouched j (by omega)

theorem actions_countObservation (p : Progress) :
    p.countObservation.result.actions = p.result.actions + 1 := by
  simp only [Progress.countObservation, SweepResult.actions]
  omega

theorem actions_countAlert (p : Progress) :
    p.countAlert.result.actions = p.result.actions + 1 := by
  simp only [Progress.countAlert, SweepResult.actions]
  omega

theorem actions_countRetraction (p : Progress) :
    p.countRetraction.result.actions = p.result.actions + 1 := by
  simp only [Progress.countRetraction, SweepResult.actions]
  omega

section Step

variable {hitsCapacity : ℕ} {hits : Option (ℕ → Hit Entity)} {p : Progress}
  {calls : List (Hit Entity)} {s : Collecting Entity}

/-- One emission: the callback records it and the array takes it while it has room. -/
theorem InStep.emit (hstep : InStep hitsCapacity hits p calls s) {after : Progress}
    (hactions : after.result.actions = p.result.actions + 1) (hit : Hit Entity) :
    InStep hitsCapacity hits after (calls ++ [hit])
      (Collecting.write { s with progress := after } hitsCapacity hit) := by
  have hcount : after.result.actions = (calls ++ [hit]).length := by
    rw [hactions, hstep.actions, List.length_append, List.length_singleton]
  cases hits with
  | none =>
      obtain ⟨hmissing, hzero⟩ := hstep.missing rfl
      have hwrite : Collecting.write { s with progress := after } hitsCapacity hit =
          { s with progress := after } := by
        simp [Collecting.write, hmissing]
      rw [hwrite]
      exact ⟨rfl, hcount, fun _ => ⟨hmissing, hzero⟩, fun _ heq => nomatch heq⟩
  | some before =>
      obtain ⟨array, harray, hheld⟩ := hstep.held before rfl
      by_cases hroom : s.written < hitsCapacity
      · have hwrite : Collecting.write { s with progress := after } hitsCapacity hit =
            ⟨after, some (Function.update array s.written hit), s.written + 1⟩ := by
          simp [Collecting.write, harray, hroom]
        rw [hwrite]
        refine ⟨rfl, hcount, (fun heq => nomatch heq), fun other heq => ?_⟩
        cases heq
        exact ⟨_, rfl, hheld.extend hroom hit⟩
      · have hwrite : Collecting.write { s with progress := after } hitsCapacity hit =
            { s with progress := after } := by
          simp [Collecting.write, harray, hroom]
        rw [hwrite]
        refine ⟨rfl, hcount, (fun heq => nomatch heq), fun other heq => ?_⟩
        cases heq
        exact ⟨array, harray, hheld.full hroom hit⟩

theorem InStep.quiet (hstep : InStep hitsCapacity hits p calls s) {after : Progress}
    (hactions : after.result.actions = p.result.actions) :
    InStep hitsCapacity hits after calls { s with progress := after } :=
  ⟨rfl, hactions.trans hstep.actions, hstep.missing, hstep.held⟩

/-- The two loop bodies take the same branch. -/
theorem InStep.body (read : ℕ → Option (Pheromone.Entry Entity))
    (hstep : InStep hitsCapacity hits p calls s) (i : ℕ) :
    ∃ after calls', callbackBody read (some recording) i p calls = (after, true, calls') ∧
      InStep hitsCapacity hits after calls' (collectBody read hitsCapacity i s) := by
  unfold callbackBody collectBody
  rw [hstep.progress]
  cases read i with
  | none => exact ⟨_, _, rfl, hstep.quiet rfl⟩
  | some snap =>
      simp only
      generalize hclaimed : (if snap.keyHash ≠ (p.scan.live.quorum.slots i).keyHash then
        p.scan.live.setSlot i ⟨snap.keyHash, Tier.none.code⟩ else p.scan.live) = claimed
      have hactions : claimed.result.actions = p.result.actions := by
        rw [← hclaimed]
        split_ifs <;> rfl
      generalize classify claimed.quorum.config snap.confidence snap.srcCount snap.hitCount =
        tier
      by_cases hup : tier.code > (claimed.quorum.slots i).emittedTier
      · simp only [if_pos hup]
        generalize (if tier = .alert then Action.alert else .observe) = action
        refine ⟨_, _, rfl, hstep.emit ?_ _⟩
        rw [← hactions]
        split_ifs
        · exact actions_countObservation _
        · exact actions_countAlert _
      · simp only [if_neg hup]
        split_ifs
        · exact ⟨_, _, rfl, hstep.emit (hactions ▸ actions_countRetraction _) _⟩
        · exact ⟨_, _, rfl, hstep.quiet hactions⟩

theorem InStep.loop (read : ℕ → Option (Pheromone.Entry Entity))
    (hstep : InStep hitsCapacity hits p calls s) (n i : ℕ) :
    InStep hitsCapacity hits (callbackLoop read (some recording) n i p calls).1
      (callbackLoop read (some recording) n i p calls).2
      (collectLoop read hitsCapacity n i s) := by
  induction n generalizing i p calls s with
  | zero => exact hstep
  | succ n ih =>
      obtain ⟨after, calls', hbody, hnext⟩ := hstep.body read i
      simp only [callbackLoop, hbody, collectLoop]
      exact ih hnext (i + 1)

end Step

/-- The sweep which calls back and the sweep which collects do the same to the evaluator
and count the same; the array receives the calls which fit. -/
theorem sweeps_agree (q : Stored) (pt : View Entity) (hits : Option (ℕ → Hit Entity))
    (hitsCapacity : ℕ) :
    (collectSweep q pt hits hitsCapacity).progress.result =
        (callbackSweep q pt (some recording) []).1.result ∧
      (collectSweep q pt hits hitsCapacity).progress.quorum =
        (callbackSweep q pt (some recording) []).1.quorum ∧
      (callbackSweep q pt (some recording) []).2.length =
        (callbackSweep q pt (some recording) []).1.result.actions ∧
      match hits with
      | none => (collectSweep q pt hits hitsCapacity).hits = none ∧
          (collectSweep q pt hits hitsCapacity).written = 0
      | some before =>
          (collectSweep q pt hits hitsCapacity).written =
              min hitsCapacity (callbackSweep q pt (some recording) []).2.length ∧
            ∃ array, (collectSweep q pt hits hitsCapacity).hits = some array ∧
              (List.range (collectSweep q pt hits hitsCapacity).written).map array =
                (callbackSweep q pt (some recording) []).2.take
                  (min hitsCapacity (callbackSweep q pt (some recording) []).2.length) ∧
              ∀ j, (collectSweep q pt hits hitsCapacity).written ≤ j →
                array j = before j := by
  have hend := (InStep.start hitsCapacity hits q).loop pt.read (min q.capacity pt.capacity) 0
  refine ⟨congrArg Progress.result hend.progress, congrArg Progress.quorum hend.progress,
    hend.actions.symm, ?_⟩
  cases hits with
  | none => exact hend.missing rfl
  | some before =>
      obtain ⟨array, harray, hheld⟩ := hend.held before rfl
      exact ⟨hheld.written_eq, array, harray, hheld.written_eq ▸ hheld.collected,
        hheld.untouched⟩

/-! ## The sweeps of the model -/

def Slot.stored (slot : Slot) : StoredSlot := ⟨slot.keyHash, slot.emittedTier.code⟩

/-- An evaluator as the code stores it. -/
def Evaluator.stored (q : Evaluator) : Stored where
  config := q.config
  capacity := q.slots.length
  slots := fun i => (q.slots.getD i .cleared).stored
  observationsEmitted := q.observationsEmitted
  alertsEmitted := q.alertsEmitted
  retractionsEmitted := q.retractionsEmitted
  suppressed := q.suppressed

def Sweep.progress (s : Sweep Entity) : Progress := ⟨s.quorum.stored, s.result⟩

theorem code_lt_code {first second : Tier} :
    first.code < second.code ↔ first.severity < second.severity := by
  cases first <;> cases second <;> decide

theorem code_eq_alert {tier : Tier} : tier.code = Tier.alert.code ↔ tier = .alert := by
  cases tier <;> decide

theorem stored_slots_set {slots : List Slot} {i : ℕ} (hi : i < slots.length) (slot : Slot) :
    (fun j => ((slots.set i slot).getD j .cleared).stored) =
      Function.update (fun j => (slots.getD j .cleared).stored) i slot.stored := by
  funext j
  by_cases hj : j = i
  · subst hj
    simp [List.getD_eq_getElem?_getD, hi]
  · rw [Function.update_of_ne hj]
    simp [List.getD_eq_getElem?_getD, List.getElem?_set_ne (Ne.symm hj)]

theorem store_progress {i : ℕ} {s : Sweep Entity} (hi : i < s.quorum.slots.length)
    (slot : Slot) : (s.store i slot).progress = s.progress.setSlot i slot.stored := by
  simp only [Sweep.store, Sweep.progress, Progress.setSlot, Evaluator.stored,
    List.length_set, stored_slots_set hi]

/-- What a decision counts. -/
def Progress.count (p : Progress) : Decision → Progress
  | .dead => p.scan
  | .emitted .observe => p.scan.live.countObservation
  | .emitted .alert => p.scan.live.countAlert
  | .emitted .retract => p.scan.live.countRetraction
  | .suppressed => p.scan.live.countSuppressed

theorem count_progress (s : Sweep Entity) (decision : Decision) :
    (s.count decision).progress = s.progress.count decision := by
  cases decision with
  | dead => rfl
  | suppressed => rfl
  | emitted action => cases action <;> rfl

theorem claimed_progress {p : Progress} {i : ℕ} {slot : Slot}
    (hslot : p.quorum.slots i = slot.stored) (keyHash : UInt64) :
    (if keyHash ≠ (p.quorum.slots i).keyHash then p.setSlot i ⟨keyHash, Tier.none.code⟩
      else p) = p.setSlot i (slot.claimedBy keyHash).stored := by
  rw [hslot, Slot.claimedBy, Slot.stored]
  split_ifs with hreused
  · rfl
  · have hsame : Function.update p.quorum.slots i slot.stored = p.quorum.slots := by
      rw [← hslot, Function.update_eq_self]
    simp only [Progress.setSlot, hsame]

theorem setSlot_setSlot (p : Progress) (i : ℕ) (first second : StoredSlot) :
    (p.setSlot i first).setSlot i second = p.setSlot i second := by
  simp only [Progress.setSlot, Function.update_idem]

/-- The callback is called with the emission of the slot, if there is one. -/
def callHit {Ctx : Type} (fn : Option (Callback Entity Ctx)) (hit : Option (Hit Entity))
    (ctx : Ctx) : Bool × Ctx :=
  match hit with
  | none => (true, ctx)
  | some hit => callBack fn hit.action hit.slotIdx hit.entry ctx

theorem callbackBody_stored {Ctx : Type} (read : ℕ → Option (Pheromone.Entry Entity))
    (fn : Option (Callback Entity Ctx)) (ctx : Ctx) {i : ℕ} {slot : Slot} {s : Sweep Entity}
    (hget : s.quorum.slots[i]? = some slot) :
    callbackBody read fn i s.progress ctx =
      ((sweepAt read i slot s).progress,
        callHit fn (hitOf i (visit s.quorum.config slot (read i)).2 (read i)) ctx) := by
  obtain ⟨hi, -⟩ := List.getElem?_eq_some_iff.mp hget
  have hslot : s.progress.scan.live.quorum.slots i = slot.stored := by
    change (s.quorum.slots.getD i .cleared).stored = slot.stored
    rw [List.getD_eq_getElem?_getD, hget, Option.getD_some]
  have hprogress : ∀ decided decision hits,
      ({ (s.store i decided).count decision with hits := hits } : Sweep Entity).progress =
        (s.progress.setSlot i decided.stored).count decision := by
    intro decided decision hits
    rw [← store_progress hi, ← count_progress]
    rfl
  simp only [callbackBody, sweepAt, hprogress]
  cases hread : read i with
  | none => simp [visit, hitOf, callHit, Progress.count, Progress.scan, Progress.setSlot,
      Slot.stored, Slot.cleared, Tier.code]
  | some snap =>
      simp only [claimed_progress hslot]
      generalize hclaimed : slot.claimedBy snap.keyHash = claimed
      have hown : (s.progress.scan.live.setSlot i claimed.stored).quorum.slots i =
          claimed.stored := Function.update_self _ _ _
      have hconfig : (s.progress.scan.live.setSlot i claimed.stored).quorum.config =
          s.quorum.config := rfl
      rw [hown, hconfig]
      simp only [visit, hclaimed]
      generalize classify s.quorum.config snap.confidence snap.srcCount snap.hitCount = tier
      by_cases hup : claimed.emittedTier.severity < tier.severity
      · have hcode : claimed.stored.emittedTier < tier.code := code_lt_code.mpr hup
        rw [if_pos hcode, if_pos hup, setSlot_setSlot]
        cases htier : tier with
        | none =>
            rw [htier] at hup
            exact absurd hup (Nat.not_lt_zero _)
        | observe => rfl
        | alert => rfl
      · have hcode : ¬ claimed.stored.emittedTier < tier.code :=
          fun hlt => hup (code_lt_code.mp hlt)
        have hretract : (claimed.stored.emittedTier = Tier.alert.code ∧
            tier.code < Tier.alert.code ∧ snap.confidence < s.quorum.config.retractConfidence) ↔
            (claimed.emittedTier = .alert ∧ tier.severity < Tier.alert.severity ∧
              snap.confidence < s.quorum.config.retractConfidence) := by
          rw [code_lt_code]
          exact and_congr_left' code_eq_alert
        rw [if_neg hcode, if_neg hup]
        by_cases hdrop : claimed.emittedTier = .alert ∧
            tier.severity < Tier.alert.severity ∧
              snap.confidence < s.quorum.config.retractConfidence
        · rw [if_pos (hretract.mpr hdrop), if_pos hdrop, setSlot_setSlot]
          rfl
        · rw [if_neg fun h => hdrop (hretract.mp h), if_neg hdrop]
          simp [hitOf, callHit, Progress.count, Progress.scan, Progress.live,
            Progress.setSlot, Progress.countSuppressed]

theorem callbackLoop_stored (read : ℕ → Option (Pheromone.Entry Entity)) {n i : ℕ}
    {s : Sweep Entity} (hrange : i + n ≤ s.quorum.slots.length) :
    callbackLoop read (some recording) n i s.progress s.hits =
      ((sweepLoop read (fun _ => true) n i s).progress,
        (sweepLoop read (fun _ => true) n i s).hits) := by
  induction n generalizing i s with
  | zero => rfl
  | succ n ih =>
      obtain ⟨slot, hget⟩ := exists_slot hrange
      have hcall : callHit (some recording)
          (hitOf i (visit s.quorum.config slot (read i)).2 (read i)) s.hits =
            (true, (sweepAt read i slot s).hits) := by
        have hhits : (sweepAt read i slot s).hits = s.hits ++
            (hitOf i (visit s.quorum.config slot (read i)).2 (read i)).toList := rfl
        rw [hhits]
        cases hitOf i (visit s.quorum.config slot (read i)).2 (read i) with
        | none => rw [callHit, Option.toList_none, List.append_nil]
        | some hit => rfl
      rw [callbackLoop, callbackBody_stored read _ _ hget, hcall, sweepLoop, hget]
      simp only [Option.all_true, if_true]
      exact ih (range_behind hrange)

/-- The sweep of the model is `wake_quorum_sweep` with the recording callback. -/
theorem callbackSweep_stored (q : Evaluator) (pt : View Entity) :
    callbackSweep q.stored pt (some recording) [] =
      ((sweepCollect q pt).progress, (sweepCollect q pt).hits) := by
  refine @callbackLoop_stored Entity pt.read _ 0 ⟨q, .zero, []⟩ ?_
  rw [Nat.zero_add]
  exact Nat.min_le_left _ _

/-- What `wake_quorum_sweep_collect` leaves in the array of its caller. -/
theorem collectSweep_stored (q : Evaluator) (pt : View Entity) (before : ℕ → Hit Entity)
    (hitsCapacity : ℕ) :
    (collectSweep q.stored pt (some before) hitsCapacity).progress =
        (sweepCollect q pt).progress ∧
      ∃ array, (collectSweep q.stored pt (some before) hitsCapacity).hits = some array ∧
        (List.range (collectSweep q.stored pt (some before) hitsCapacity).written).map array =
          collectedHits (sweepCollect q pt) hitsCapacity := by
  have hstart : InStep hitsCapacity (some before) ⟨q.stored, .zero⟩ []
      ⟨⟨q.stored, .zero⟩, some before, 0⟩ := .start hitsCapacity (some before) q.stored
  have hend := hstart.loop pt.read (min q.stored.capacity pt.capacity) 0
  have hsweep := callbackSweep_stored q pt
  rw [callbackSweep] at hsweep
  rw [hsweep] at hend
  obtain ⟨array, harray, hheld⟩ := hend.held before rfl
  refine ⟨hend.progress, array, harray, ?_⟩
  have hfirst : (sweepCollect q pt).hits.take
      (min hitsCapacity (sweepCollect q pt).hits.length) =
        (sweepCollect q pt).hits.take hitsCapacity := by
    rw [← List.take_take, List.take_length]
  rw [collectedHits, ← hfirst]
  exact hheld.written_eq ▸ hheld.collected

end Quorum
end LibWake
