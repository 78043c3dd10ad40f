import LibWake.PheromoneIndexSafety

/-!
# Termination of the reads of an opened table

`wake_pheromone_read_entry` waits until the version of a live entry is even.
With no other process writing the version never changes, so the wait ends at
once or never.  An odd version in the file, which nothing checks, is what a
process leaves that dies between the two version stores of `pht_insert`.
-/

namespace LibWake
namespace Pheromone

open Checked

variable {Entity : Type}

/-! ## The seqlock loop -/

/-- The version says that no writer holds the entry. -/
def Entry.Unlocked (entry : Entry Entity) : Prop := entry.version &&& 1 = 0

instance (entry : Entry Entity) : Decidable entry.Unlocked := by
  unfold Entry.Unlocked
  infer_instance

theorem seqlockRead_of_unlocked {entry : Entry Entity} (hfree : entry.Unlocked)
    (fuel : ℕ) : seqlockRead entry (fuel + 1) = .ok entry := by
  have heven : ¬ entry.version &&& 1 ≠ 0 := not_not.mpr hfree
  simp only [seqlockRead]
  rw [if_neg heven, if_pos trivial, pure_eq_ok]

/-- Every iteration of the loop sees the same odd version. -/
theorem seqlockRead_of_locked {entry : Entry Entity} (hlocked : ¬ entry.Unlocked)
    (fuel : ℕ) : seqlockRead entry fuel = .error .spinning := by
  have hodd : entry.version &&& 1 ≠ 0 := hlocked
  induction fuel with
  | zero => rfl
  | succ fuel ih =>
      simp only [seqlockRead]
      rw [if_pos hodd, ih]

/-! ## One entry -/

/-- Some number of loop iterations is enough for a result. -/
def Returns {α : Type} (run : ℕ → Access α) : Prop := ∃ fuel result, run fuel = .ok result

/-- No live entry of the mapping is locked. -/
def Quiescent (table : Table Entity) : Prop :=
  ∀ idx < table.header.capacity.toNat, (table.entries idx).Live →
    (table.entries idx).Unlocked

theorem readEntry_spins {table : Table Entity} {slotIndex : ℕ}
    (hlt : slotIndex < table.header.capacity.toNat)
    (hlive : (table.entries slotIndex).Live)
    (hlocked : ¬ (table.entries slotIndex).Unlocked) (fuel : ℕ) :
    readEntry fuel table slotIndex = .error .spinning := by
  rw [readEntry, if_neg (Nat.not_le.mpr hlt), slotAt_of_lt hlt, ok_bind,
    if_neg (not_not.mpr hlive), seqlockRead_of_locked hlocked, error_bind]

/-- One iteration is enough for every slot which is not a locked live entry. -/
theorem readEntry_of_unlocked {table : Table Entity} {slotIndex : ℕ}
    (hfree : slotIndex < table.header.capacity.toNat →
      (table.entries slotIndex).Live → (table.entries slotIndex).Unlocked) (fuel : ℕ) :
    readEntry (fuel + 1) table slotIndex =
      .ok ((Quorum.viewOf table).read slotIndex) := by
  unfold readEntry Quorum.viewOf
  by_cases hlt : slotIndex < table.header.capacity.toNat
  · rw [if_neg (Nat.not_le.mpr hlt), slotAt_of_lt hlt, ok_bind]
    by_cases hlive : (table.entries slotIndex).Live
    · rw [if_neg (not_not.mpr hlive), seqlockRead_of_unlocked (hfree hlt hlive), ok_bind,
        pure_eq_ok]
      simp only [if_pos (And.intro hlt hlive)]
    · rw [if_pos hlive, pure_eq_ok]
      simp only [if_neg (show ¬ (_ ∧ _) from fun hboth => hlive hboth.2)]
  · rw [if_pos (Nat.le_of_not_lt hlt), pure_eq_ok]
    simp only [if_neg (show ¬ (_ ∧ _) from fun hboth => hlt hboth.1)]

theorem readEntry_returns_iff (table : Table Entity) (slotIndex : ℕ) :
    (Returns fun fuel => readEntry fuel table slotIndex) ↔
      (slotIndex < table.header.capacity.toNat → (table.entries slotIndex).Live →
        (table.entries slotIndex).Unlocked) := by
  constructor
  · rintro ⟨fuel, result, hresult⟩ hlt hlive
    by_contra hlocked
    simp only [readEntry_spins hlt hlive hlocked] at hresult
    contradiction
  · intro hfree
    exact ⟨1, _, readEntry_of_unlocked hfree 0⟩

/-! ## Loops over the table -/

theorem iterateLoop_returns {Ctx : Type} {fuel : ℕ} {table : Table Entity}
    (hread : ∀ i, ∃ snap, readEntry fuel table i = .ok snap)
    (fn : Entry Entity → Ctx → Bool × Ctx) (n i : ℕ) (state : ℕ × Ctx) :
    ∃ result, iterateLoop fuel table fn n i state = .ok result := by
  induction n generalizing i state with
  | zero => exact ⟨state, rfl⟩
  | succ n ih =>
      obtain ⟨visited, ctx⟩ := state
      obtain ⟨snap, hsnap⟩ := hread i
      rw [iterateLoop, hsnap, ok_bind]
      cases snap with
      | none => exact ih (i + 1) (visited, ctx)
      | some entry =>
          simp only
          split_ifs
          · exact ih (i + 1) _
          · exact ⟨_, rfl⟩

section Quiescent

variable {table : Table Entity} (hquiet : Quiescent table)

include hquiet

theorem readEntry_of_quiescent (slotIndex : ℕ) :
    readEntry 1 table slotIndex = .ok ((Quorum.viewOf table).read slotIndex) :=
  readEntry_of_unlocked (hquiet slotIndex) 0

theorem iterate_returns {Ctx : Type} (fn : Entry Entity → Ctx → Bool × Ctx) (ctx : Ctx) :
    Returns fun fuel => iterate fuel table fn ctx := by
  obtain ⟨result, hresult⟩ := iterateLoop_returns
    (fun i => ⟨_, readEntry_of_quiescent hquiet i⟩) fn table.header.capacity.toNat 0 (0, ctx)
  exact ⟨1, result, hresult⟩

theorem sweepTable_returns (q : Quorum.Evaluator) (fn : Quorum.EmitFn Entity) :
    Returns fun fuel => Quorum.sweepTable fuel q table fn :=
  ⟨1, _, Quorum.sweepTable_eq_ok (readEntry_of_quiescent hquiet) q fn⟩

theorem sweepCollectTable_returns (q : Quorum.Evaluator) :
    Returns fun fuel => Quorum.sweepCollectTable fuel q table :=
  ⟨1, _, Quorum.sweepCollectTable_eq_ok (readEntry_of_quiescent hquiet) q⟩

theorem preseedTable_returns (q : Quorum.Evaluator) :
    Returns fun fuel => Quorum.preseedTable fuel q table :=
  ⟨1, _, Quorum.preseedTable_eq_ok (readEntry_of_quiescent hquiet) q⟩

end Quiescent

/-! ## A writer which dies -/

theorem lockVersion_odd (version : UInt32) : (version + 1 ||| 1) &&& 1 ≠ 0 := by
  intro heven
  have hnat := congrArg UInt32.toNat heven
  rw [UInt32.toNat_and, UInt32.toNat_or, show (1 : UInt32).toNat = 1 from rfl,
    Nat.and_one_is_mod] at hnat
  have hodd : ((version + 1).toNat ||| 1) % 2 = 1 := Nat.or_mod_two_eq_one.mpr (.inr rfl)
  rw [hodd] at hnat
  contradiction

/-- The table after `pht_insert` has claimed slot `idx` and made its version odd,
and its process has died before the second version store. -/
def diedInInsert (entityHash : Entity → UInt64) (table : Table Entity)
    (deposit : Deposit Entity) (idx : ℕ) : Table Entity :=
  table.setEntry idx { table.entries idx with
    keyHash := entityKeyHash entityHash deposit.entity
    version := ((table.entries idx).version + 1) ||| 1 }

/-- The slot which the dead writer had claimed can no longer be read. -/
theorem diedInInsert_spins {entityHash : Entity → UInt64} {table : Table Entity}
    (hsound : table.header.Sound) {deposit : Deposit Entity} {idx : ℕ}
    (hclaim : insertProbe table.entries (entityKeyHash entityHash deposit.entity)
      (probeWindow table.header (entityKeyHash entityHash deposit.entity)) none =
        (none, some idx)) (fuel : ℕ) :
    readEntry fuel (diedInInsert entityHash table deposit idx) idx =
      .error .spinning := by
  have hlt : idx < table.header.capacity.toNat := by
    rcases insertProbe_mem (.inr (congrArg Prod.snd hclaim)) with hmem | hnone
    · exact lt_of_mem_probeWindow hsound hmem
    · contradiction
  have hentry : (diedInInsert entityHash table deposit idx).entries idx =
      { table.entries idx with
        keyHash := entityKeyHash entityHash deposit.entity
        version := ((table.entries idx).version + 1) ||| 1 } :=
    Function.update_self ..
  refine @readEntry_spins _ (diedInInsert entityHash table deposit idx) idx hlt ?_ ?_ fuel
  · rw [hentry]
    exact entityKeyHash_ne_sentinel entityHash deposit.entity
  · rw [hentry]
    exact lockVersion_odd _

/-! ## The condition -/

/-- Every read of an opened table returns if and only if the version of every
live entry in the file is even. -/
theorem reads_return_iff_quiescent (file : List UInt8) (table : Table EntityBytes)
    (hopen : openFile file = some table) :
    ((∀ slotIndex, Returns fun fuel => readEntry fuel table slotIndex) ∧
      (∀ (Ctx : Type) (fn : Entry EntityBytes → Ctx → Bool × Ctx) (ctx : Ctx),
        Returns fun fuel => iterate fuel table fn ctx) ∧
      (∀ q, Returns fun fuel => Quorum.preseedTable fuel q table) ∧
      (∀ q fn, Returns fun fuel => Quorum.sweepTable fuel q table fn) ∧
      (∀ q, Returns fun fuel => Quorum.sweepCollectTable fuel q table)) ↔
    ∀ idx < (headerOf file).capacity.toNat,
      (entryAt file (headerSize + idx * entrySize)).Live →
      (entryAt file (headerSize + idx * entrySize)).version &&& 1 = 0 := by
  obtain ⟨-, -, hheader, hentries⟩ := openFile_eq_some hopen
  have hsame : Quiescent table ↔ ∀ idx < (headerOf file).capacity.toNat,
      (entryAt file (headerSize + idx * entrySize)).Live →
      (entryAt file (headerSize + idx * entrySize)).version &&& 1 = 0 := by
    rw [Quiescent, hheader, hentries]
    exact Iff.rfl
  rw [← hsame]
  constructor
  · rintro ⟨hread, -⟩ idx hlt hlive
    exact (readEntry_returns_iff table idx).mp (hread idx) hlt hlive
  · intro hquiet
    exact ⟨fun slotIndex => (readEntry_returns_iff table slotIndex).mpr (hquiet slotIndex),
      fun _ => iterate_returns hquiet, preseedTable_returns hquiet,
      sweepTable_returns hquiet, sweepCollectTable_returns hquiet⟩

/-- A table file of one live entry with a given low byte of its version. -/
def oneLiveFile (version : UInt8) : List UInt8 :=
  [0x57, 0x4B, 0x41, 0x45, 0x50, 0x48, 0x54, 0, 1, 0, 0, 0, 1] ++
    List.replicate 243 0 ++ [1] ++ List.replicate 31 0 ++ [version] ++
    List.replicate 95 0

theorem reads_return_iff_quiescent_oneLiveFile :
    ∃ table, openFile (oneLiveFile 2) = some table ∧
      ∀ slotIndex, Returns fun fuel => readEntry fuel table slotIndex := by
  have hopens : (openFile (oneLiveFile 2)).isSome = true := by decide +kernel
  obtain ⟨table, hopen⟩ := Option.isSome_iff_exists.mp hopens
  refine ⟨table, hopen, ?_⟩
  exact ((reads_return_iff_quiescent _ table hopen).mpr (by decide +kernel)).1

/-- A live entry with an odd version passes every check of the file and is
never read. -/
theorem accepted_locked_entry :
    ∃ table, openFile (oneLiveFile 1) = some table ∧
      ∀ fuel, readEntry fuel table 0 = .error .spinning := by
  have hopens : (openFile (oneLiveFile 1)).isSome = true := by decide +kernel
  obtain ⟨table, hopen⟩ := Option.isSome_iff_exists.mp hopens
  obtain ⟨hpos, -, -, hentries⟩ := openFile_eq_some hopen
  refine ⟨table, hopen, readEntry_spins hpos ?_ ?_⟩
  · rw [hentries]
    decide +kernel
  · rw [hentries]
    decide +kernel

end Pheromone
end LibWake
