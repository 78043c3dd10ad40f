import LibWake.PheromoneMap
import LibWake.QuorumModel

/-!
# More evidence

Confidence and hits are 32-bit counters and the source count is a 16-bit counter; all
three wrap.  As long as they do not, a further deposit or reinforcement lowers neither a
counter of its entity nor the tier of the entity under any configuration.
-/

namespace LibWake
namespace Pheromone

variable {Entity : Type}

/-! ## Counters -/

theorem le_add_iff_uint32 {count delta : UInt32} :
    count ≤ count + delta ↔ count.toNat + delta.toNat < 2 ^ 32 := by
  have hcount := count.toNat_lt
  have hdelta := delta.toNat_lt
  rw [UInt32.le_iff_toNat_le, UInt32.toNat_add]
  constructor
  · intro hle
    by_contra hwrap
    rw [Nat.mod_eq_sub_mod (by omega), Nat.mod_eq_of_lt (by omega)] at hle
    omega
  · intro hfits
    rw [Nat.mod_eq_of_lt hfits]
    exact Nat.le_add_right _ _

theorem le_succ_iff_uint16 {count : UInt16} :
    count ≤ count + 1 ↔ count.toNat + 1 < 2 ^ 16 := by
  have hcount := count.toNat_lt
  rw [UInt16.le_iff_toNat_le, UInt16.toNat_add, UInt16.toNat_one]
  constructor
  · intro hle
    by_contra hwrap
    rw [Nat.mod_eq_sub_mod (by omega), Nat.mod_eq_of_lt (by omega)] at hle
    omega
  · intro hfits
    rw [Nat.mod_eq_of_lt hfits]
    exact Nat.le_add_right _ _

/-! ## Tiers -/

theorem classify_mono (cfg : Quorum.Config) {confidence confidence' hitCount hitCount' : UInt32}
    {srcCount srcCount' : UInt16} (hconfidence : confidence ≤ confidence')
    (hsrc : srcCount ≤ srcCount') (hhits : hitCount ≤ hitCount') :
    (Quorum.classify cfg confidence srcCount hitCount).severity ≤
      (Quorum.classify cfg confidence' srcCount' hitCount').severity := by
  unfold Quorum.classify
  by_cases halert : confidence ≥ cfg.alertConfidence ∧ srcCount ≥ cfg.alertMinSources ∧
      hitCount ≥ cfg.alertMinHits.toUInt32
  · have halert' : confidence' ≥ cfg.alertConfidence ∧ srcCount' ≥ cfg.alertMinSources ∧
        hitCount' ≥ cfg.alertMinHits.toUInt32 :=
      ⟨UInt32.le_trans halert.1 hconfidence, UInt16.le_trans halert.2.1 hsrc,
        UInt32.le_trans halert.2.2 hhits⟩
    rw [if_pos halert, if_pos halert']
  · rw [if_neg halert]
    by_cases hobserve : confidence ≥ cfg.observeConfidence ∧
        hitCount ≥ cfg.observeMinHits.toUInt32
    · have hobserve' : confidence' ≥ cfg.observeConfidence ∧
          hitCount' ≥ cfg.observeMinHits.toUInt32 :=
        ⟨UInt32.le_trans hobserve.1 hconfidence, UInt32.le_trans hobserve.2 hhits⟩
      rw [if_pos hobserve, if_pos hobserve']
      split_ifs <;> decide
    · rw [if_neg hobserve]
      exact Nat.zero_le _

/-! ## A deposit on a live entity -/

/-- The entry in which a search for the entity ends. -/
def entityEntry (entityHash : Entity → UInt64) (table : Table Entity) (entity : Entity) :
    Option (Entry Entity) :=
  (probeKey table (entityKeyHash entityHash entity)).map table.entries

/-- No counter falls, no confidence is reported as zero, and no tier is lowered. -/
structure NeverLowers (before after : Entry Entity) (returned : UInt32) : Prop where
  confidence : before.confidence ≤ after.confidence
  hitCount : before.hitCount ≤ after.hitCount
  srcCount : before.srcCount ≤ after.srcCount
  returned : before.confidence ≠ 0 → returned ≠ 0
  tier : ∀ cfg : Quorum.Config,
    (Quorum.classify cfg before.confidence before.srcCount before.hitCount).severity ≤
      (Quorum.classify cfg after.confidence after.srcCount after.hitCount).severity

/-- No counter of the entry wraps under the deposit. -/
structure Fits (entry : Entry Entity) (deposit : Deposit Entity) : Prop where
  confidence : entry.confidence.toNat + deposit.delta.toNat < 2 ^ 32
  hitCount : entry.hitCount.toNat + 1 < 2 ^ 32
  srcCount : deposit.incrementSrc = true → entry.srcCount.toNat + 1 < 2 ^ 16

theorem reinforcedEntry_neverLowers_iff (entry : Entry Entity) (deposit : Deposit Entity)
    (now : UInt32) :
    NeverLowers entry (reinforcedEntry entry deposit now)
        (entry.confidence + deposit.delta) ↔ Fits entry deposit := by
  have hsrc : entry.srcCount ≤ (reinforcedEntry entry deposit now).srcCount ↔
      (deposit.incrementSrc = true → entry.srcCount.toNat + 1 < 2 ^ 16) := by
    simp only [reinforcedEntry]
    split_ifs with hincrement
    · rw [le_succ_iff_uint16]
      simp [hincrement]
    · simp [hincrement]
  constructor
  · intro hlowers
    refine ⟨le_add_iff_uint32.mp hlowers.confidence, ?_, hsrc.mp hlowers.srcCount⟩
    exact le_add_iff_uint32.mp hlowers.hitCount
  · intro hfits
    have hconfidence : entry.confidence ≤ entry.confidence + deposit.delta :=
      le_add_iff_uint32.mpr hfits.confidence
    have hhits : entry.hitCount ≤ entry.hitCount + 1 := le_add_iff_uint32.mpr hfits.hitCount
    have hsources := hsrc.mpr hfits.srcCount
    refine ⟨hconfidence, hhits, hsources, ?_, ?_⟩
    · intro hpositive hzero
      rw [hzero, UInt32.le_iff_toNat_le, UInt32.toNat_zero, Nat.le_zero] at hconfidence
      exact hpositive (UInt32.toNat_inj.mp hconfidence)
    · exact fun cfg => classify_mono cfg hconfidence hsources hhits

/-- On a live entity a deposit or reinforcement never lowers the verdict if and only if
none of its counters wraps. -/
theorem deposit_neverLowers_iff [Inhabited Entity] (entityHash : Entity → UInt64)
    {table : Table Entity} (hreach : (sequential entityHash).Reachable table)
    (deposit : Deposit Entity) {before : Entry Entity}
    (hbefore : entityEntry entityHash table deposit.entity = some before) :
    ∃ after, entityEntry entityHash (phtInsert entityHash table deposit).1 deposit.entity =
        some after ∧
      (NeverLowers before after (phtInsert entityHash table deposit).2 ↔
        Fits before deposit) := by
  have hgood := reachable_wellFormed hreach
  obtain ⟨idx, hprobe, rfl⟩ := Option.map_eq_some_iff.mp hbefore
  have hkey := hgood.probeKey_eq_some_iff.mp hprobe
  have hafter := hgood.insert entityHash deposit
  have hstep := phtInsert_insertStep hgood entityHash deposit
  generalize phtInsert entityHash table deposit = outcome at hstep hafter
  cases hstep with
  | updated slot hslot =>
      have hsame : slot = idx := by
        have hother := hgood.probeKey_eq_some_iff.mpr hslot
        rw [hprobe] at hother
        exact (Option.some.inj hother).symm
      subst hsame
      refine ⟨_, ?_, reinforcedEntry_neverLowers_iff _ _
        (relativeTime table.header deposit.clock)⟩
      have hfound : probeKey (table.setEntry slot (reinforcedEntry (table.entries slot)
          deposit (relativeTime table.header deposit.clock)))
            (entityKeyHash entityHash deposit.entity) = some slot := by
        refine hafter.probeKey_eq_some_iff.mpr ?_
        simpa [Table.setEntry, reinforcedEntry] using hslot
      rw [entityEntry, hfound]
      simp [Table.setEntry]
  | claimed slot habsent hfree => exact absurd hkey (habsent idx)
  | full habsent hfull => exact absurd hkey (habsent idx)

/-! ## At the limit -/

/-- A deposit on entity 5. -/
def depositOf (delta : UInt32) : Deposit ℕ := ⟨5, 0, 0, 0, delta, false, 0, 0⟩

/-- A table which holds entity 5 after one deposit. -/
def deposited (delta : UInt32) : Table ℕ :=
  (phtInsert UInt64.ofNat smallTable (depositOf delta)).1

theorem deposited_reachable (delta : UInt32) :
    (sequential UInt64.ofNat).Reachable (deposited delta) :=
  ((sequential _).reachable_of_initial ⟨_, _, _, create_smallTable⟩).step
    (show (sequential _).step smallTable (.insert (depositOf delta)) = some _ from rfl)

theorem deposit_neverLowers_iff_deposited :
    ∃ before after, entityEntry UInt64.ofNat (deposited 40) 5 = some before ∧
      entityEntry UInt64.ofNat (phtInsert UInt64.ofNat (deposited 40) (depositOf 30)).1 5 =
        some after ∧
      NeverLowers before after (phtInsert UInt64.ofNat (deposited 40) (depositOf 30)).2 := by
  have hbefore : entityEntry UInt64.ofNat (deposited 40) (depositOf 30).entity =
      some ((deposited 40).entries 1) := rfl
  obtain ⟨after, hafter, hiff⟩ := deposit_neverLowers_iff UInt64.ofNat
    (deposited_reachable 40) (depositOf 30) hbefore
  exact ⟨_, after, hbefore, hafter, hiff.mpr ⟨by decide, by decide, by decide⟩⟩

/-- One unit on top of the largest confidence: the entity has none left, and the call
returns 0. -/
theorem deposit_wraps_confidence :
    (sequential UInt64.ofNat).Reachable (deposited 0xFFFFFFFF) ∧
    ∃ before after, entityEntry UInt64.ofNat (deposited 0xFFFFFFFF) 5 = some before ∧
      entityEntry UInt64.ofNat
        (phtInsert UInt64.ofNat (deposited 0xFFFFFFFF) (depositOf 1)).1 5 = some after ∧
      before.confidence = 0xFFFFFFFF ∧ after.confidence = 0 ∧
      (phtInsert UInt64.ofNat (deposited 0xFFFFFFFF) (depositOf 1)).2 = 0 ∧
      ¬ NeverLowers before after
        (phtInsert UInt64.ofNat (deposited 0xFFFFFFFF) (depositOf 1)).2 := by
  refine ⟨deposited_reachable _, _, _, rfl, rfl, by decide, by decide, by decide, ?_⟩
  intro hlowers
  exact hlowers.returned (by decide) (by decide)

end Pheromone
end LibWake
