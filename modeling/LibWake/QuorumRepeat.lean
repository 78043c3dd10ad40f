import LibWake.QuorumResume

/-!
# Sweeping an unchanged table again

A sweep leaves each slot at the tier which it has found, so that a second sweep of the same table
has nothing to report.  The exception is an entry which is retracted while it is still above the
threshold of OBSERVE: its slot is cleared, and the next sweep takes the tier for a new one.
-/

namespace LibWake
namespace Quorum

variable {Entity : Type}

/-! ## One slot -/

/-- The slot is at ALERT for an entry which is at OBSERVE by now and below the threshold of
RETRACT. -/
def RetractsAtObserve (cfg : Config) (slot : Slot) (snap : Pheromone.Entry Entity) : Prop :=
  slot.tierFor snap.keyHash = .alert ∧
    classify cfg snap.confidence snap.srcCount snap.hitCount = .observe ∧
    snap.confidence < cfg.retractConfidence

/-- A visit which has nothing to report, and keeps the tier of the slot. -/
structure Rests (cfg : Config) (slot : Slot) (reading : Option (Pheromone.Entry Entity)) :
    Prop where
  decision : (visit cfg slot reading).2 = if reading.isSome then .suppressed else .dead
  tier : (visit cfg slot reading).1.emittedTier = slot.emittedTier

/-- A visit of a slot with the key of the entry. -/
theorem visit_own (cfg : Config) (tier : Tier) (snap : Pheromone.Entry Entity) :
    visit cfg ⟨snap.keyHash, tier⟩ (some snap) =
      let found := classify cfg snap.confidence snap.srcCount snap.hitCount
      if found.severity > tier.severity then
        (⟨snap.keyHash, found⟩, .emitted (if found = .alert then .alert else .observe))
      else if tier = .alert ∧ found.severity < Tier.alert.severity ∧
          snap.confidence < cfg.retractConfidence then
        (.cleared, .emitted .retract)
      else (⟨snap.keyHash, tier⟩, .suppressed) := by
  rw [visit, claimedBy_eq, tierFor_same]

theorem visit_eq_own (cfg : Config) (slot : Slot) (snap : Pheromone.Entry Entity) :
    visit cfg slot (some snap) =
      visit cfg ⟨snap.keyHash, slot.tierFor snap.keyHash⟩ (some snap) := by
  rw [visit, visit, claimedBy_eq, claimedBy_eq, tierFor_same]

theorem rests_own {cfg : Config} {tier : Tier} {snap : Pheromone.Entry Entity}
    (hup : ¬ (classify cfg snap.confidence snap.srcCount snap.hitCount).severity > tier.severity)
    (hdown : ¬ (tier = .alert ∧ (classify cfg snap.confidence snap.srcCount
      snap.hitCount).severity < Tier.alert.severity ∧ snap.confidence < cfg.retractConfidence)) :
    Rests cfg ⟨snap.keyHash, tier⟩ (some snap) := by
  have hvisit : visit cfg ⟨snap.keyHash, tier⟩ (some snap) =
      (⟨snap.keyHash, tier⟩, .suppressed) := by
    rw [visit_own]
    simp only
    rw [if_neg hup, if_neg hdown]
  exact ⟨by rw [hvisit]; rfl, by rw [hvisit]⟩

theorem rests_visit_some {cfg : Config} {slot : Slot} {snap : Pheromone.Entry Entity}
    (hkeeps : ¬ RetractsAtObserve cfg slot snap) :
    Rests cfg (visit cfg slot (some snap)).1 (some snap) := by
  rw [visit_eq_own, visit_own]
  simp only
  split_ifs with hup halert hdown
  · exact rests_own (lt_irrefl _) fun hdown => by
      rw [halert] at hdown
      exact lt_irrefl _ hdown.2.1
  · exact rests_own (lt_irrefl _) fun hdown => halert hdown.1
  · -- retracted: the entry is below the threshold of OBSERVE
    have hnone : classify cfg snap.confidence snap.srcCount snap.hitCount = .none := by
      cases hfound : classify cfg snap.confidence snap.srcCount snap.hitCount with
      | none => rfl
      | observe => exact absurd ⟨hdown.1, hfound, hdown.2.2⟩ hkeeps
      | alert =>
          rw [hfound] at hdown
          exact absurd hdown.2.1 (lt_irrefl _)
    have hrests : Rests cfg ⟨snap.keyHash, .none⟩ (some snap) :=
      rests_own (by rw [hnone]; exact lt_irrefl _) fun hdown => by cases hdown.1
    have hsame := visit_eq_own cfg .cleared snap
    rw [tierFor_cleared] at hsame
    exact ⟨by rw [hsame, hrests.decision], by rw [hsame, hrests.tier]; rfl⟩
  · exact rests_own hup hdown

theorem rests_visit {cfg : Config} {slot : Slot} {reading : Option (Pheromone.Entry Entity)}
    (hkeeps : ∀ snap, reading = some snap → ¬ RetractsAtObserve cfg slot snap) :
    Rests cfg (visit cfg slot reading).1 reading := by
  cases reading with
  | none => exact ⟨rfl, rfl⟩
  | some snap => exact rests_visit_some (hkeeps snap rfl)

/-- After such a RETRACT the next visit reports the tier again. -/
theorem visit_visit_emits {cfg : Config} {slot : Slot} {snap : Pheromone.Entry Entity}
    (hretracts : RetractsAtObserve cfg slot snap) :
    (visit cfg (visit cfg slot (some snap)).1 (some snap)).2 = .emitted .observe := by
  obtain ⟨halert, hobserve, hbelow⟩ := hretracts
  have hfirst : visit cfg slot (some snap) = (.cleared, .emitted .retract) := by
    rw [visit_eq_own, visit_own, halert, hobserve]
    simp only
    rw [if_neg (by decide), if_pos ⟨trivial, by decide, hbelow⟩]
  rw [hfirst, visit_eq_own, tierFor_cleared, visit_own, hobserve]
  rfl

/-! ## A sweep over slots which rest -/

theorem sweep_eq_loop (q : Evaluator) (pt : View Entity) (fn : EmitFn Entity) :
    ∃ continues, sweep q pt fn =
      sweepLoop pt.read continues (common q pt) 0 ⟨q, .zero, []⟩ := ⟨_, rfl⟩

/-- The live slots among the `n` slots from slot `i`. -/
def liveSlots (read : ℕ → Option (Pheromone.Entry Entity)) (i n : ℕ) : ℕ :=
  (List.range' i n).countP fun j => (read j).isSome

theorem liveSlots_succ (read : ℕ → Option (Pheromone.Entry Entity)) (i n : ℕ) :
    liveSlots read i (n + 1) = (if (read i).isSome then 1 else 0) + liveSlots read (i + 1) n := by
  rw [liveSlots, List.range'_succ, List.countP_cons, Nat.add_comm, liveSlots]

/-- The counters behind `n` slots of which none has a crossing. -/
def SweepResult.behind (result : SweepResult) (live n : ℕ) : SweepResult :=
  { result with
    slotsScanned := result.slotsScanned + n
    slotsLive := result.slotsLive + live
    suppressed := result.suppressed + live }

/-- The sweep emits nothing, leaves the tiers, and counts each live slot which it has scanned as
suppressed. -/
structure Quiet (pt : View Entity) (q : Evaluator) (s : Sweep Entity) : Prop where
  emits_nothing : s.hits = []
  tiers : s.quorum.slots.map Slot.emittedTier = q.slots.map Slot.emittedTier
  counts : s.result = SweepResult.behind .zero (liveSlots pt.read 0 (common q pt)) (common q pt)

section Loop

variable {read : ℕ → Option (Pheromone.Entry Entity)} {i n : ℕ} {slot : Slot}
  {s : Sweep Entity}

theorem sweepAt_of_rests (hget : s.quorum.slots[i]? = some slot)
    (hrests : Rests s.quorum.config slot (read i)) :
    (sweepAt read i slot s).hits = s.hits ∧
      (sweepAt read i slot s).quorum.slots.map Slot.emittedTier =
        s.quorum.slots.map Slot.emittedTier ∧
      (sweepAt read i slot s).result =
        s.result.behind (if (read i).isSome then 1 else 0) 1 := by
  obtain ⟨hi, hslot⟩ := List.getElem?_eq_some_iff.mp hget
  have htier := hrests.tier
  refine ⟨?_, ?_, ?_⟩
  · have hhits : (sweepAt read i slot s).hits =
        s.hits ++ (hitOf i (visit s.quorum.config slot (read i)).2 (read i)).toList := rfl
    rw [hhits, hrests.decision]
    split_ifs
    · exact List.append_nil _
    · exact List.append_nil _
  · rw [(sweepAt_frame read i slot s).2.1, List.map_set, htier, ← hslot,
      ← List.getElem_map Slot.emittedTier, List.set_getElem_self]
    rwa [List.length_map]
  · have hresult : (sweepAt read i slot s).result =
        ((s.store i (visit s.quorum.config slot (read i)).1).count
          (visit s.quorum.config slot (read i)).2).result := rfl
    rw [hresult, hrests.decision]
    split_ifs
    · rfl
    · rfl

theorem sweepLoop_of_rests (continues : Hit Entity → Bool)
    (hrests : ∀ j slot, i ≤ j → j < i + n → s.quorum.slots[j]? = some slot →
      Rests s.quorum.config slot (read j))
    (hrange : i + n ≤ s.quorum.slots.length) :
    (sweepLoop read continues n i s).hits = s.hits ∧
      (sweepLoop read continues n i s).quorum.slots.map Slot.emittedTier =
        s.quorum.slots.map Slot.emittedTier ∧
      (sweepLoop read continues n i s).result =
        s.result.behind (liveSlots read i n) n := by
  induction n generalizing i s with
  | zero => exact ⟨rfl, rfl, rfl⟩
  | succ n ih =>
      obtain ⟨slot, hget⟩ := exists_slot hrange
      have hhere := hrests i slot le_rfl (by omega) hget
      have hsilent : (crossing s.quorum read i).all continues = true := by
        rw [crossing_of_slot hget, hhere.decision]
        split_ifs
        · rfl
        · rfl
      obtain ⟨hhits, htiers, hresult⟩ := sweepAt_of_rests hget hhere
      have hframe := sweepAt_frame read i slot s
      obtain ⟨hhits', htiers', hresult'⟩ := @ih (i + 1) (sweepAt read i slot s)
        (fun j other hle hlt hother => by
          rw [hframe.2.1, List.getElem?_set_ne (by omega)] at hother
          rw [hframe.1]
          exact hrests j other (by omega) (by omega) hother)
        (range_behind hrange)
      rw [sweepLoop_succ_of_true hget hsilent]
      refine ⟨hhits'.trans hhits, htiers'.trans htiers, ?_⟩
      rw [hresult', hresult, liveSlots_succ]
      simp only [SweepResult.behind, Nat.add_assoc, Nat.add_comm 1 n]

end Loop

theorem quiet_of_rests {q : Evaluator} {pt : View Entity} (fn : EmitFn Entity)
    (hrests : ∀ j slot, j < common q pt → q.slots[j]? = some slot →
      Rests q.config slot (pt.read j)) : Quiet pt q (sweep q pt fn) := by
  obtain ⟨continues, hsweep⟩ := sweep_eq_loop q pt fn
  obtain ⟨hhits, htiers, hresult⟩ := sweepLoop_of_rests (s := ⟨q, .zero, []⟩) continues
    (fun j slot _ hlt hget => hrests j slot (by omega) hget) (common_le q pt)
  rw [← hsweep] at hhits htiers hresult
  exact ⟨hhits, htiers, hresult⟩

/-! ## Two sweeps of one table -/

theorem crossings_eq_nil_of_sweep {q : Evaluator} {pt : View Entity} {fn : EmitFn Entity}
    (hempty : (sweep q pt fn).hits = []) : crossings q pt.read 0 (common q pt) = [] := by
  rw [sweep] at hempty
  rcases sweepWith_cases _ q pt with ⟨-, hloop⟩ | ⟨m, hit, -, -, -, hhits⟩
  · rw [← uninterrupted_hits, ← hloop]
    exact hempty
  · exact absurd (hhits.symm.trans hempty) (List.append_ne_nil_of_right_ne_nil _ (by simp))

/-- The callback answers all calls with true. -/
def Completes (q : Evaluator) (pt : View Entity) : EmitFn Entity → Prop
  | none => True
  | some f => ∀ hit ∈ (sweep q pt (some f)).hits, f hit.action hit.slotIdx hit.entry = true

theorem sweep_of_completes {q : Evaluator} {pt : View Entity} {fn : EmitFn Entity}
    (hcompletes : Completes q pt fn) : sweep q pt fn = uninterrupted q pt := by
  cases fn with
  | none => rfl
  | some f =>
      rcases sweepWith_cases (fun hit => f hit.action hit.slotIdx hit.entry) q pt with
        ⟨-, hloop⟩ | ⟨m, hit, hstops, -, -, hhits⟩
      · exact hloop
      · have hmem : hit ∈ (sweep q pt (some f)).hits := by
          rw [show (sweep q pt (some f)).hits = _ from hhits]
          exact List.mem_append_right _ (List.mem_singleton_self hit)
        exact absurd ((hcompletes hit hmem).symm.trans hstops.answer) (by decide)

/-- What the slots are behind a complete sweep. -/
theorem slots_behind_sweep {q : Evaluator} {pt : View Entity} {fn : EmitFn Entity}
    (hcompletes : Completes q pt fn) :
    (sweep q pt fn).quorum.config = q.config ∧
      common (sweep q pt fn).quorum pt = common q pt ∧
      ∀ j < common q pt, ∃ slot, q.slots[j]? = some slot ∧
        (sweep q pt fn).quorum.slots[j]? = some (visit q.config slot (pt.read j)).1 := by
  have hrange : 0 + common q pt ≤ (⟨q, .zero, []⟩ : Sweep Entity).quorum.slots.length :=
    common_le q pt
  have hswept := wholeLoop_swept pt.read hrange
  rw [sweep_of_completes hcompletes, uninterrupted_eq]
  refine ⟨hswept.config, ?_, fun j hj => ?_⟩
  · rw [common, wholeLoop_length hrange]
    rfl
  · obtain ⟨slot, hget, hafter, -⟩ := hswept.visited j (Nat.zero_le j) (by omega)
    exact ⟨slot, hget, hafter⟩

/-- No slot which the sweep comes to is at ALERT for an entry at OBSERVE which it retracts. -/
def RetractsBelowObserve (q : Evaluator) (pt : View Entity) : Prop :=
  ∀ j < common q pt, ∀ slot snap, q.slots[j]? = some slot → pt.read j = some snap →
    ¬ RetractsAtObserve q.config slot snap

theorem rests_behind_sweep {q : Evaluator} {pt : View Entity} {fn : EmitFn Entity}
    (hcompletes : Completes q pt fn) (hkeeps : RetractsBelowObserve q pt) {j : ℕ} {slot : Slot}
    (hj : j < common q pt) (hget : (sweep q pt fn).quorum.slots[j]? = some slot) :
    Rests q.config slot (pt.read j) := by
  obtain ⟨-, -, hslots⟩ := slots_behind_sweep hcompletes
  obtain ⟨before, hbefore, hafter⟩ := hslots j hj
  obtain rfl := Option.some.inj (hafter.symm.trans hget)
  exact rests_visit fun snap hread => hkeeps j hj before snap hbefore hread

theorem quiet_after_sweep_iff {q : Evaluator} {pt : View Entity} {fn : EmitFn Entity}
    (hcompletes : Completes q pt fn) (again : EmitFn Entity) :
    Quiet pt (sweep q pt fn).quorum (sweep (sweep q pt fn).quorum pt again) ↔
      RetractsBelowObserve q pt := by
  obtain ⟨hconfig, hcommon, hslots⟩ := slots_behind_sweep hcompletes
  constructor
  · intro hquiet j hj slot snap hget hread hretracts
    have hempty := crossings_eq_nil_of_sweep hquiet.emits_nothing
    obtain ⟨before, hbefore, hafter⟩ := hslots j hj
    obtain rfl := Option.some.inj (hbefore.symm.trans hget)
    have hhit : crossing (sweep q pt fn).quorum pt.read j =
        some (⟨.observe, j, snap⟩ : Hit Entity) := by
      rw [crossing, hafter, Option.bind_some, hconfig, hread, visit_visit_emits hretracts]
      rfl
    refine List.ne_nil_of_mem (List.mem_filterMap.mpr ⟨j, ?_, hhit⟩) hempty
    exact List.mem_range'_1.mpr ⟨Nat.zero_le j, by omega⟩
  · intro hkeeps
    refine quiet_of_rests again fun j slot hj hget => ?_
    rw [hconfig]
    exact rests_behind_sweep hcompletes hkeeps (hcommon ▸ hj) hget

/-- Slots of zero bytes have nothing to retract. -/
theorem retractsBelowObserve_of_cleared {q : Evaluator} (pt : View Entity)
    (hcleared : ∀ slot ∈ q.slots, slot = .cleared) : RetractsBelowObserve q pt := by
  rintro j - slot snap hget - ⟨halert, -⟩
  rw [hcleared slot (List.mem_of_getElem? hget), tierFor_cleared] at halert
  cases halert

/-- The counters of the evaluator do not matter to a sweep which follows. -/
theorem quiet_after_preseed {q : Evaluator} (pt : View Entity)
    (hcleared : ∀ slot ∈ q.slots, slot = .cleared) (fn : EmitFn Entity) :
    Quiet pt (preseed q pt).quorum (sweep (preseed q pt).quorum pt fn) := by
  have hcompletes : Completes q pt none := trivial
  obtain ⟨hconfig, hcommon, -⟩ := slots_behind_sweep hcompletes
  refine quiet_of_rests fn fun j slot hj hget => ?_
  have hsame : (preseed q pt).quorum.config = q.config := hconfig
  rw [hsame]
  exact rests_behind_sweep hcompletes (retractsBelowObserve_of_cleared pt hcleared)
    (hcommon ▸ hj) hget

/-- A second sweep of an unchanged table is quiet if and only if the first one, which was
complete, retracted no entry which is at OBSERVE; and the first sweep behind a preseed of a new
evaluator or one which was reset is quiet. -/
theorem repeated_sweep_quiet_iff (pt : View Entity) :
    (∀ (q : Evaluator) (fn again : EmitFn Entity), Completes q pt fn →
      (Quiet pt (sweep q pt fn).quorum (sweep (sweep q pt fn).quorum pt again) ↔
        RetractsBelowObserve q pt)) ∧
    (∀ (capacity : ℕ) (cfg : Option Config) (fn : EmitFn Entity),
      Quiet pt (preseed (create capacity cfg) pt).quorum
        (sweep (preseed (create capacity cfg) pt).quorum pt fn)) ∧
    ∀ (q : Evaluator) (fn : EmitFn Entity),
      Quiet pt (preseed (reset q) pt).quorum (sweep (preseed (reset q) pt).quorum pt fn) :=
  ⟨fun _ _ again hcompletes => quiet_after_sweep_iff hcompletes again,
    fun _ _ fn => quiet_after_preseed pt (fun _ hmem => List.eq_of_mem_replicate hmem) fn,
    fun _ fn => quiet_after_preseed pt (fun _ hmem => List.eq_of_mem_replicate hmem) fn⟩

/-- A table of one entry with this confidence. -/
def tableAt (confidence : UInt32) : View Unit := ⟨1, fun _ => some (witnessed confidence)⟩

/-- A new evaluator, and an entry below both thresholds. -/
theorem repeated_sweep_quiet_falling :
    Quiet (tableAt 1000) (sweep (create 1 none) (tableAt 1000) none).quorum
        (sweep (sweep (create 1 none) (tableAt 1000) none).quorum (tableAt 1000) none) ↔
      RetractsBelowObserve (create 1 none) (tableAt 1000) :=
  (repeated_sweep_quiet_iff (tableAt 1000)).1 (create 1 none) none none trivial

/-- The threshold of RETRACT above the one of OBSERVE. -/
def lateRetraction : Config where
  observeConfidence := 1000
  observeMinHits := 1
  alertConfidence := 20000
  alertMinSources := 2
  alertMinHits := 5
  retractConfidence := 5000

/-- The evaluator when it has reported an ALERT. -/
def alerted : Evaluator :=
  (sweep (create 1 (some lateRetraction)) (tableAt 30000) none).quorum

/-- The confidence falls to 3000, the ALERT is retracted, and the unchanged entry is reported as
an OBSERVE. -/
theorem retraction_reported_again :
    (sweep alerted (tableAt 3000) none).hits.map Hit.action = [.retract] ∧
      (sweep (sweep alerted (tableAt 3000) none).quorum (tableAt 3000) none).hits.map
        Hit.action = [.observe] ∧
      ¬ Quiet (tableAt 3000) (sweep alerted (tableAt 3000) none).quorum
        (sweep (sweep alerted (tableAt 3000) none).quorum (tableAt 3000) none) := by
  have hreported : (sweep (sweep alerted (tableAt 3000) none).quorum (tableAt 3000)
      none).hits.map Hit.action = [.observe] := by decide
  refine ⟨by decide, hreported, fun hquiet => ?_⟩
  rw [hquiet.emits_nothing] at hreported
  cases hreported

end Quorum
end LibWake
