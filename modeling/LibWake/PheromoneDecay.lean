import Mathlib.Data.Finset.Card
import Mathlib.Data.Finset.Range
import LibWake.PheromoneMap

/-!
# What decay forgets

`wake_pheromone_decay` multiplies every confidence by the decay factor of the header, in
0.16 fixed point, and buries what falls below the noise floor.  `wake_pheromone_create` accepts
every 32-bit factor, so the factor decides whether the product is smaller than the confidence.
-/

namespace LibWake
namespace Pheromone

variable {Entity : Type}

/-- `decay` only forgets: no entry gains confidence, every survivor reaches the noise floor, the
count is the number of the entries which were buried, and calls of `decay` alone empty the
table. -/
structure Forgets (table : Table Entity) : Prop where
  not_raised : ∀ idx < table.header.capacity.toNat, ((decay table).1.entries idx).Live →
    (table.entries idx).Live ∧
      ((decay table).1.entries idx).confidence ≤ (table.entries idx).confidence
  above_floor : ∀ idx < table.header.capacity.toNat, ((decay table).1.entries idx).Live →
    table.header.noiseFloor ≤ ((decay table).1.entries idx).confidence
  counted : (decay table).2 = ((Finset.range table.header.capacity.toNat).filter fun idx =>
    (table.entries idx).Live ∧ ((decay table).1.entries idx).keyHash = slotTombstone).card
  dies_out : ∃ rounds, ∀ idx < table.header.capacity.toNat,
    ¬ (((fun state : Table Entity => (decay state).1)^[rounds] table).entries idx).Live

/-- No 32-bit confidence whose scaled product survives the noise floor is kept or raised by the
product. -/
def Header.Shrinks (h : Header) : Prop :=
  ∀ confidence < 2 ^ 32,
    h.noiseFloor.toNat ≤ confidence * h.decayFactorFp16.toNat / 2 ^ 16 % 2 ^ 32 →
      confidence * h.decayFactorFp16.toNat / 2 ^ 16 % 2 ^ 32 < confidence

/-! ## One pass -/

theorem decayedConfidence_toNat (h : Header) (confidence : UInt32) :
    (decayedConfidence h confidence).toNat =
      confidence.toNat * h.decayFactorFp16.toNat / 2 ^ 16 % 2 ^ 32 := by
  unfold decayedConfidence
  rw [Nat.shiftRight_eq_div_pow]
  exact UInt32.toNat_ofNat

/-- A survivor of one pass was live, and holds the scaled product, which reaches the floor. -/
theorem live_of_decayedEntry {h : Header} {entry : Entry Entity}
    (hlive : (decayedEntry h entry).Live) :
    entry.Live ∧ (decayedEntry h entry).confidence = decayedConfidence h entry.confidence ∧
      h.noiseFloor ≤ decayedConfidence h entry.confidence := by
  unfold decayedEntry at hlive ⊢
  by_cases hold : entry.Live
  · rw [if_neg (not_not.mpr hold)] at hlive ⊢
    by_cases hevict : decayedConfidence h entry.confidence < h.noiseFloor
    · rw [if_pos hevict] at hlive
      exact absurd rfl hlive.2
    · rw [if_neg hevict]
      exact ⟨hold, rfl, UInt32.not_lt.mp hevict⟩
  · rw [if_pos hold] at hlive
    exact absurd hlive hold

theorem decayEvicts_iff {h : Header} {entry : Entry Entity} :
    decayEvicts h entry = true ↔
      entry.Live ∧ (decayedEntry h entry).keyHash = slotTombstone := by
  unfold decayEvicts decayedEntry
  by_cases hlive : entry.Live
  · by_cases hevict : decayedConfidence h entry.confidence < h.noiseFloor
    · simp [hlive, hevict]
    · simp [hlive, hevict, hlive.2]
  · simp [hlive]

theorem decay_count (table : Table Entity) :
    (decay table).2 = ((Finset.range table.header.capacity.toNat).filter fun idx =>
      (table.entries idx).Live ∧ ((decay table).1.entries idx).keyHash = slotTombstone).card := by
  have hcount := (decayStep_rewrites table.header).count_foldl
    (show (table, 0).1.header = table.header from rfl) Prod.snd
    (fun entry => decayEvicts table.header entry = true)
    (fun state idx hheader => by simp only [decayStep, hheader]) table.header.capacity.toNat
  rw [show (decay table).2 = _ from hcount, Nat.zero_add]
  congr 1
  apply Finset.filter_congr
  intro idx hidx
  rw [decay_entries, if_pos (Finset.mem_range.mp hidx), decayEvicts_iff]

/-! ## Repeated passes -/

theorem decay_iterate_header (table : Table Entity) (rounds : ℕ) :
    ((fun state : Table Entity => (decay state).1)^[rounds] table).header = table.header := by
  induction rounds with
  | zero => rfl
  | succ rounds ih => rw [Function.iterate_succ_apply', decay_header, ih]

theorem decay_iterate_entries (table : Table Entity) (rounds : ℕ) {idx : ℕ}
    (hlt : idx < table.header.capacity.toNat) :
    ((fun state : Table Entity => (decay state).1)^[rounds] table).entries idx =
      (decayedEntry table.header)^[rounds] (table.entries idx) := by
  induction rounds with
  | zero => rfl
  | succ rounds ih =>
      rw [Function.iterate_succ_apply', Function.iterate_succ_apply', decay_entries,
        decay_iterate_header, if_pos hlt, ih]

namespace Header

variable {h : Header}

/-- A factor below 1.0 shrinks every confidence which stays above a floor of at least one. -/
theorem shrinks_of_lt (hfloor : 0 < h.noiseFloor.toNat)
    (hfactor : h.decayFactorFp16.toNat < 65536) : h.Shrinks := by
  intro confidence _ hsurvives
  have hpos : 0 < confidence := by
    by_contra hzero
    have : confidence = 0 := by omega
    subst this
    simp at hsurvives
    omega
  have hproduct : confidence * h.decayFactorFp16.toNat / 2 ^ 16 < confidence := by
    apply Nat.div_lt_of_lt_mul
    rw [Nat.mul_comm]
    exact Nat.mul_lt_mul_of_pos_right hfactor hpos
  exact (Nat.mod_le _ _).trans_lt hproduct

theorem Shrinks.live_lt (hshrinks : h.Shrinks) {entry : Entry Entity}
    (hlive : (decayedEntry h entry).Live) :
    (decayedEntry h entry).confidence.toNat < entry.confidence.toNat := by
  obtain ⟨_, hconfidence, hfloor⟩ := live_of_decayedEntry hlive
  rw [hconfidence, decayedConfidence_toNat]
  apply hshrinks _ entry.confidence.toNat_lt
  rw [← decayedConfidence_toNat]
  exact UInt32.le_iff_toNat_le.mp hfloor

theorem Shrinks.iterate (hshrinks : h.Shrinks) (entry : Entry Entity) (rounds : ℕ)
    (hlive : ((decayedEntry h)^[rounds] entry).Live) :
    ((decayedEntry h)^[rounds] entry).confidence.toNat + rounds ≤ entry.confidence.toNat := by
  induction rounds with
  | zero => exact le_refl _
  | succ rounds ih =>
      rw [Function.iterate_succ_apply'] at hlive ⊢
      have hprevious := ih (live_of_decayedEntry hlive).1
      have hlowered := hshrinks.live_lt hlive
      omega

end Header

theorem forgets_of_shrinks {table : Table Entity} (hshrinks : table.header.Shrinks) :
    Forgets table where
  not_raised := by
    intro idx hlt hlive
    rw [decay_entries, if_pos hlt] at hlive ⊢
    exact ⟨(live_of_decayedEntry hlive).1,
      UInt32.le_iff_toNat_le.mpr (hshrinks.live_lt hlive).le⟩
  above_floor := by
    intro idx hlt hlive
    rw [decay_entries, if_pos hlt] at hlive ⊢
    obtain ⟨_, hconfidence, hfloor⟩ := live_of_decayedEntry hlive
    exact hconfidence ▸ hfloor
  counted := decay_count table
  dies_out := by
    refine ⟨2 ^ 32, fun idx hlt hlive => ?_⟩
    rw [decay_iterate_entries table _ hlt] at hlive
    have hbound := hshrinks.iterate _ _ hlive
    have hwidth := (table.entries idx).confidence.toNat_lt
    omega

/-! ## The tables of one configuration -/

theorem run_header [Inhabited Entity] {entityHash : Entity → UInt64} {start table : Table Entity}
    {calls : List (Call Entity)} (hrun : (sequential entityHash).run start calls = some table) :
    table.header = start.header := by
  apply (sequential entityHash).run_invariant
    (motive := fun state => state.header = start.header) _ rfl hrun
  intro state call next hheader hstep
  simp only [sequential, Option.some.injEq] at hstep
  rw [← hstep, performCall_header, hheader]

theorem create_noiseFloor_pos [Inhabited Entity] {cfg : Option Config} {clock : UInt32}
    {hashKey : List UInt8} {start : Table Entity}
    (hcreate : create cfg clock hashKey = some start) : 0 < start.header.noiseFloor.toNat := by
  unfold create at hcreate
  simp only at hcreate
  generalize (if (cfg.getD {}).capacity ≠ 0 then (cfg.getD {}).capacity
    else defaultCapacity) = capacity at hcreate
  by_cases hpower : isPowerOf2 capacity.toNat = true
  · simp only [hpower, Bool.not_true, Bool.false_eq_true, if_false, Option.some.injEq] at hcreate
    rw [← hcreate]
    by_cases hchosen : (cfg.getD {}).noiseFloor ≠ 0
    · rw [if_pos hchosen]
      exact Nat.pos_of_ne_zero fun hzero => hchosen (UInt32.toNat_inj.mp hzero)
    · rw [if_neg hchosen]
      show 0 < defaultNoiseFloor.toNat
      decide
  · simp [hpower] at hcreate

/-- The first deposit in a created table claims the home slot of its entity. -/
theorem phtInsert_created [Inhabited Entity] (entityHash : Entity → UInt64)
    {start : Table Entity} (hempty : start.entries = fun _ => Entry.zero)
    (deposit : Deposit Entity) :
    (phtInsert entityHash start deposit).1 =
      start.setEntry (probeIdx start.header (entityKeyHash entityHash deposit.entity) 0)
        (claimedEntry Entry.zero (entityKeyHash entityHash deposit.entity) deposit
          (relativeTime start.header deposit.clock)) := by
  have hkey : (Entry.zero : Entry Entity).keyHash ≠ entityKeyHash entityHash deposit.entity :=
    Ne.symm (entityKeyHash_ne_sentinel entityHash deposit.entity).1
  have hwindow : ∀ key, probeWindow start.header key =
      probeIdx start.header key 0 ::
        (List.range 7).map (fun p => probeIdx start.header key (p + 1)) := fun _ => rfl
  have hprobe : insertProbe start.entries (entityKeyHash entityHash deposit.entity)
      (probeWindow start.header (entityKeyHash entityHash deposit.entity)) none =
        (none, some (probeIdx start.header (entityKeyHash entityHash deposit.entity) 0)) := by
    rw [hwindow, hempty, insertProbe, if_neg hkey,
      if_pos (show (Entry.zero : Entry Entity).keyHash = slotEmpty from rfl)]
    rfl
  unfold phtInsert
  simp only [hprobe]
  rw [hempty]

/-- A created table into which one entity was deposited with the given confidence. -/
def seeded [Inhabited Entity] (entityHash : Entity → UInt64) (start : Table Entity)
    (confidence : UInt32) : Table Entity :=
  (phtInsert entityHash start ⟨default, 0, 0, 0, confidence, false, 0, 0⟩).1

theorem seeded_live [Inhabited Entity] (entityHash : Entity → UInt64)
    {cfg : Option Config} {clock : UInt32} {hashKey : List UInt8} {start : Table Entity}
    (hcreate : create cfg clock hashKey = some start) (confidence : UInt32) :
    ∃ idx < start.header.capacity.toNat, ((seeded entityHash start confidence).entries idx).Live ∧
      ((seeded entityHash start confidence).entries idx).confidence = confidence := by
  obtain ⟨hsound, hempty⟩ := create_eq_some hcreate
  refine ⟨probeIdx start.header (entityKeyHash entityHash default) 0,
    lt_of_mem_probeWindow hsound (mem_probeWindow.mpr ⟨0, by decide, rfl⟩), ?_⟩
  unfold seeded
  rw [phtInsert_created entityHash hempty]
  simp only [Table.setEntry, Function.update_self]
  exact ⟨entityKeyHash_ne_sentinel entityHash default, rfl⟩

theorem seeded_header [Inhabited Entity] (entityHash : Entity → UInt64) (start : Table Entity)
    (confidence : UInt32) : (seeded entityHash start confidence).header = start.header :=
  performCall_header entityHash start (.insert ⟨default, 0, 0, 0, confidence, false, 0, 0⟩)

/-- A confidence which the product keeps or raises above the floor is not forgotten. -/
theorem not_forgets_of_kept [Inhabited Entity] (entityHash : Entity → UInt64)
    {cfg : Option Config} {clock : UInt32} {hashKey : List UInt8} {start : Table Entity}
    (hcreate : create cfg clock hashKey = some start) {confidence : UInt32}
    (hfloor : start.header.noiseFloor ≤ decayedConfidence start.header confidence)
    (hkept : confidence ≤ decayedConfidence start.header confidence) :
    ¬ Forgets (seeded entityHash start confidence) := by
  intro hforgets
  obtain ⟨idx, hlt, hlive, hconfidence⟩ := seeded_live entityHash hcreate confidence
  have hheader := seeded_header entityHash start confidence
  generalize seeded entityHash start confidence = table at *
  rw [← hheader] at hlt hfloor hkept
  have hdecayed : decayedEntry table.header (table.entries idx) = { table.entries idx with
      confidence := decayedConfidence table.header confidence } := by
    unfold decayedEntry
    rw [hconfidence, if_neg (not_not.mpr hlive), if_neg (UInt32.not_lt.mpr hfloor)]
  by_cases hfixed : decayedConfidence table.header confidence = confidence
  · -- the entry is a fixed point of the pass
    have hfix : decayedEntry table.header (table.entries idx) = table.entries idx := by
      rw [hdecayed, hfixed, ← hconfidence]
    obtain ⟨rounds, hdead⟩ := hforgets.dies_out
    apply hdead idx hlt
    rw [decay_iterate_entries table rounds hlt, Function.iterate_fixed hfix]
    exact hlive
  · have hafter : (decay table).1.entries idx = decayedEntry table.header (table.entries idx) := by
      rw [decay_entries, if_pos hlt]
    have hraised := hforgets.not_raised idx hlt
    rw [hafter, hdecayed] at hraised
    have hbound := (hraised hlive).2
    rw [hconfidence] at hbound
    exact hfixed (UInt32.le_antisymm hbound hkept)

/-- Decay only forgets in every table of a configuration exactly when the decay factor is below
1.0, or when the floor lies so high that nothing which the factor keeps or raises survives it. -/
theorem decay_forgets_iff [Inhabited Entity] (entityHash : Entity → UInt64)
    {cfg : Option Config} {clock : UInt32} {hashKey : List UInt8} {start : Table Entity}
    (hcreate : create cfg clock hashKey = some start) :
    (∀ calls table, (sequential entityHash).run start calls = some table → Forgets table) ↔
      start.header.decayFactorFp16.toNat < 65536 ∨ start.header.Shrinks := by
  constructor
  · intro hall
    right
    intro confidence hwidth hfloor
    by_contra hkept
    have hexact : (UInt32.ofNat confidence).toNat = confidence :=
      UInt32.toNat_ofNat_of_lt' hwidth
    have hdecayed := decayedConfidence_toNat start.header (UInt32.ofNat confidence)
    rw [hexact] at hdecayed
    have hsurvives : start.header.noiseFloor ≤
        decayedConfidence start.header (UInt32.ofNat confidence) := by
      rw [UInt32.le_iff_toNat_le, hdecayed]
      exact hfloor
    have hraised : UInt32.ofNat confidence ≤
        decayedConfidence start.header (UInt32.ofNat confidence) := by
      rw [UInt32.le_iff_toNat_le, hdecayed, hexact]
      exact not_lt.mp hkept
    exact not_forgets_of_kept entityHash hcreate hsurvives hraised
      (hall [.insert ⟨default, 0, 0, 0, UInt32.ofNat confidence, false, 0, 0⟩] _ rfl)
  · intro hcondition calls table hrun
    apply forgets_of_shrinks
    rw [run_header hrun]
    rcases hcondition with hfactor | hshrinks
    · exact Header.shrinks_of_lt (create_noiseFloor_pos hcreate) hfactor
    · exact hshrinks

theorem decay_forgets_iff_smallTable :
    (∀ calls table, (sequential (fun n : ℕ => UInt64.ofNat n)).run smallTable calls = some table →
      Forgets table) ↔
      smallTable.header.decayFactorFp16.toNat < 65536 ∨ smallTable.header.Shrinks :=
  decay_forgets_iff _ create_smallTable

/-- With a factor of 2.0 the confidence 200 of a deposit becomes 400. -/
theorem decay_doubles_confidence :
    ∃ start table : Table ℕ,
      create (some { capacity := 2, decayFactorFp16 := 131072 }) 0 [] = some start ∧
      (sequential UInt64.ofNat).run start [.insert ⟨0, 0, 0, 0, 200, false, 0, 0⟩] = some table ∧
      (table.entries 1).confidence = 200 ∧ ((decay table).1.entries 1).Live ∧
      ((decay table).1.entries 1).confidence = 400 ∧ ¬ Forgets table := by
  refine ⟨_, _, rfl, rfl, by decide, by decide, by decide, fun hforgets => ?_⟩
  exact absurd (hforgets.not_raised 1 (by decide) (by decide)).2 (by decide)

end Pheromone
end LibWake
