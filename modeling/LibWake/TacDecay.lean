import LibWake.TacReopen

/-!
# Unfed memory dies out

One pass of `wake_tac_decay` multiplies each weight by a factor below 1.0, which lowers it, and
buries what falls below the noise floor.  No edge weighs more than five budgets, so it survives
fewer passes than that.
-/

namespace LibWake
namespace Tac

/-! ## One pass -/

/-- What a decay pass does to the edges, and its return value. -/
structure Dwindled (before : Table) (after : Table × ℕ) : Prop where
  none_new : ∀ idx < before.header.capacity, (after.1.entries idx).Live → (before.entries idx).Live
  lowered : ∀ idx < before.header.capacity, (after.1.entries idx).Live →
    (after.1.entries idx).weight < (before.entries idx).weight
  above_floor : ∀ idx < before.header.capacity, (after.1.entries idx).Live →
    before.header.noiseFloor ≤ (after.1.entries idx).weight
  kept : ∀ idx < before.header.capacity, (after.1.entries idx).Live →
    after.1.entries idx = { before.entries idx with weight := (after.1.entries idx).weight }
  counted : after.2 = ((Finset.range before.header.capacity).filter fun idx =>
    (before.entries idx).Live ∧ ¬ (after.1.entries idx).Live).card

/-- The loop body evicts the entry. -/
theorem decayStep_count (state : Table × ℕ) (idx : ℕ) :
    (decayStep state idx).2 = if (state.1.entries idx).Live ∧
        ¬ (decayedEntry state.1.header (state.1.entries idx)).Live then state.2 + 1
      else state.2 := by
  unfold decayStep decayedEntry
  by_cases hlive : (state.1.entries idx).Live
  · by_cases hfloor : decayedWeight state.1.header (state.1.entries idx) <
        state.1.header.noiseFloor
    · simp [hlive, hfloor, tombstone_dead]
    · have hkept : Entry.Live { state.1.entries idx with
          weight := decayedWeight state.1.header (state.1.entries idx) } := hlive
      simp [hlive, hfloor, hkept]
  · simp [hlive]

theorem decay_count (table : Table) :
    (decay table).2 = ((Finset.range table.header.capacity).filter fun idx =>
      (table.entries idx).Live ∧
        ¬ (decayedEntry table.header (table.entries idx)).Live).card := by
  have hcount := (decayStep_rewrites table.header).count_foldl
    (show (zeroSidecar table, 0).1.header = table.header from rfl) Prod.snd
    (fun entry => entry.Live ∧ ¬ (decayedEntry table.header entry).Live)
    (fun state idx hheader => by rw [decayStep_count, hheader]) table.header.capacity
  rw [Nat.zero_add] at hcount
  exact hcount

theorem decay_dwindled {table : Table} (hsound : table.header.Sound)
    (hpos : ∀ idx < table.header.capacity, (table.entries idx).Live →
      1 ≤ (table.entries idx).weight) : Dwindled table (decay table) where
  none_new idx hlt hlive := by
    rw [decay_entries, if_pos hlt] at hlive
    exact (live_of_decayedEntry hlive).1
  lowered idx hlt hlive := by
    rw [decay_entries, if_pos hlt] at hlive ⊢
    obtain ⟨hold, _, hentry⟩ := live_of_decayedEntry hlive
    rw [hentry]
    exact decayedWeight_lt hsound (hpos idx hlt hold)
  above_floor idx hlt hlive := by
    rw [decay_entries, if_pos hlt] at hlive ⊢
    obtain ⟨_, hfloor, hentry⟩ := live_of_decayedEntry hlive
    rw [hentry]
    exact hfloor
  kept idx hlt hlive := by
    rw [decay_entries, if_pos hlt] at hlive ⊢
    rw [(live_of_decayedEntry hlive).2.2]
  counted := by
    rw [decay_count]
    congr 1
    apply Finset.filter_congr
    intro idx hidx
    rw [decay_entries, if_pos (Finset.mem_range.mp hidx)]

/-! ## Repeated passes -/

/-- `rounds` decay passes in a row. -/
def decayRounds (table : Table) (rounds : ℕ) : Table :=
  (fun state => (decay state).1)^[rounds] table

theorem decayRounds_succ (table : Table) (rounds : ℕ) :
    decayRounds table (rounds + 1) = (decay (decayRounds table rounds)).1 :=
  Function.iterate_succ_apply' _ _ _

theorem decayRounds_header (table : Table) (rounds : ℕ) :
    (decayRounds table rounds).header = table.header := by
  induction rounds with
  | zero => rfl
  | succ rounds ih => rw [decayRounds_succ, decay_header, ih]

/-- An edge which survives `rounds` passes has lost at least one unit in each. -/
theorem decayRounds_weight {table : Table} (hsound : table.header.Sound) {idx : ℕ}
    (hlt : idx < table.header.capacity)
    (hpos : (table.entries idx).Live → 1 ≤ (table.entries idx).weight) (rounds : ℕ)
    (hlive : ((decayRounds table rounds).entries idx).Live) :
    1 ≤ ((decayRounds table rounds).entries idx).weight ∧
      ((decayRounds table rounds).entries idx).weight + rounds ≤ (table.entries idx).weight ∧
      (table.entries idx).Live := by
  induction rounds with
  | zero => exact ⟨hpos hlive, le_rfl, hlive⟩
  | succ rounds ih =>
      have hheader := decayRounds_header table rounds
      rw [decayRounds_succ, decay_entries, hheader, if_pos hlt] at hlive ⊢
      obtain ⟨hold, hfloor, hentry⟩ := live_of_decayedEntry hlive
      obtain ⟨holdPos, hloss, hstart⟩ := ih hold
      have hlowered := decayedWeight_lt hsound holdPos
      have hfloorPos := hsound.noiseFloor_pos
      rw [hentry]
      exact ⟨hfloorPos.trans_le hfloor, by simp only; omega, hstart⟩

/-- In every reachable state a decay pass lowers or removes every edge, and as many passes as five
budgets have units leave none. -/
theorem decay_dies_out (keyedHash : KeyedHash) (history : History)
    (hreach : (writer keyedHash).Reachable history) :
    Dwindled history.table (decay history.table) ∧
      ∀ rounds, 5 * history.table.header.budgetPerSource ≤ rounds →
        ∀ idx < history.table.header.capacity,
          ¬ ((decayRounds history.table rounds).entries idx).Live := by
  have hgood := audited_rule.reachable hreach
  refine ⟨decay_dwindled hgood.sound fun idx hlt hlive => (hgood.live idx hlt hlive).weight_pos, ?_⟩
  intro rounds hrounds idx hlt hlive
  obtain ⟨hpos, hloss, hstart⟩ := decayRounds_weight hgood.sound hlt
    (fun hstart => (hgood.live idx hlt hstart).weight_pos) rounds hlive
  have haudited := hgood.live idx hlt hstart
  have hfull := calc
    (history.table.entries idx).weight
        ≤ totalSpent (history.table.entries idx).budget := haudited.weight_le
    _ ≤ (history.table.entries idx).srcCount * history.table.header.budgetPerSource :=
      haudited.totalSpent_le
    _ ≤ 5 * history.table.header.budgetPerSource := by
      rw [haudited.srcCount_eq]
      exact Nat.mul_le_mul_right _ (card_usedSlots_le _)
  omega

theorem decay_dies_out_twoWitnesses :
    Dwindled twoWitnesses.table (decay twoWitnesses.table) ∧
      ∀ rounds, 5 * twoWitnesses.table.header.budgetPerSource ≤ rounds →
        ∀ idx < twoWitnesses.table.header.capacity,
          ¬ ((decayRounds twoWitnesses.table rounds).entries idx).Live :=
  decay_dies_out _ twoWitnesses (reachable_replay _ _)

end Tac
end LibWake
