import LibWake.TacCap

/-!
# The sidecar after a decay pass

A decay pass zeroes the sidecar and adds the survivors to it in the order of their slots.  Nothing
is assumed of the two arrays: whatever a crash left in them, the rebuilt records are reachable,
belong to different entities, and list the survivors of their entity up to the length of a record.
-/

namespace LibWake
namespace Tac

open OpenAddressing DenseArray

/-! ## The records in range -/

/-- The table without what lies behind the end of its sidecar. -/
def Table.trim (table : Table) : Table :=
  { table with
    occ := fun idx => if idx < table.header.occSlots then table.occ idx else Occ.zero }

theorem trim_occ_of_lt {table : Table} {idx : ℕ} (hlt : idx < table.header.occSlots) :
    table.trim.occ idx = table.occ idx := if_pos hlt

theorem trim_setOcc {table : Table} {idx : ℕ} (hlt : idx < table.header.occSlots)
    (record : Occ) : (table.setOcc idx record).trim = table.trim.setOcc idx record := by
  unfold Table.trim Table.setOcc
  congr 1
  funext other
  by_cases heq : other = idx
  · subst heq
    simp [hlt]
  · simp [Function.update_of_ne heq]

theorem trim_unseen {h : Header} (hsound : h.Sound) (ehash : UInt64) :
    Unseen Table.trim h ehash where
  header _ := rfl
  read table hheader idx hmem :=
    trim_occ_of_lt (by rw [hheader]; exact lt_of_mem_occWindow hsound hmem)
  write table hheader idx hmem record :=
    (trim_setOcc (by rw [hheader]; exact lt_of_mem_occWindow hsound hmem) record).symm

/-! ## Adding to hash zero -/

theorem occFindIn_zero (table : Table) (window : List ℕ) :
    occFindIn table 0 true window =
      (window.find? fun idx => (table.occ idx).entityHash = 0, table) := by
  induction window with
  | nil => rfl
  | cons idx rest ih =>
      unfold occFindIn
      rw [List.find?_cons]
      by_cases hzero : (table.occ idx).entityHash = 0
      · simp [hzero]
      · simp [hzero, ih]

/-- An entry without an entity hash is counted in a free record, which stays free. -/
theorem occAddSlot_zero_tracks {table : Table} {edges edges' : UInt64 → Finset ℕ}
    (htracks : Tracks table.header table.occ edges) (entryIdx : ℕ)
    (hedges : ∀ ehash, ehash ≠ 0 → edges' ehash = edges ehash) :
    Tracks table.header (occAddSlot table 0 entryIdx).2.occ edges' := by
  unfold occAddSlot occFind
  rw [occFindIn_zero]
  cases hfind : (occWindow table.header 0).find? fun idx => (table.occ idx).entityHash = 0 with
  | none => exact htracks.congr (fun _ => rfl) (fun _ _ => rfl) hedges
  | some idx =>
      have hzero : (table.occ idx).entityHash = 0 := by simpa using List.find?_some hfind
      simp only
      split_ifs
      · exact htracks.congr (fun _ => rfl) (fun _ _ => rfl) hedges
      · refine htracks.congr ?_ ?_ hedges
        · intro other
          by_cases heq : other = idx
          · subst heq
            simp
          · simp [Function.update_of_ne heq]
        · intro other hlive
          have hne : other ≠ idx := fun heq => hlive (heq ▸ hzero)
          simp [Function.update_of_ne hne]

/-! ## The pass -/

/-- The entries below `k` which a decay pass leaves alive, by entity. -/
def survivors (table : Table) (k : ℕ) (ehash : UInt64) : Finset ℕ :=
  (Finset.range k).filter fun idx =>
    (decayedEntry table.header (table.entries idx)).Live ∧
      (table.entries idx).entityHash = ehash

/-- The survivors below `k` for which the record of the entity has room. -/
def recorded (table : Table) (k : ℕ) (ehash : UInt64) : Finset ℕ :=
  lowest perEntityCapMax (survivors table k ehash)

theorem lt_of_mem_survivors {table : Table} {k idx : ℕ} {ehash : UInt64}
    (hmem : idx ∈ survivors table k ehash) : idx < k :=
  Finset.mem_range.mp (Finset.mem_filter.mp hmem).1

@[simp] theorem survivors_zero (table : Table) (ehash : UInt64) :
    survivors table 0 ehash = ∅ := rfl

theorem survivors_succ (table : Table) (k : ℕ) (ehash : UInt64) :
    survivors table (k + 1) ehash =
      if (decayedEntry table.header (table.entries k)).Live ∧
          (table.entries k).entityHash = ehash then insert k (survivors table k ehash)
      else survivors table k ehash := by
  unfold survivors
  rw [Finset.range_add_one, Finset.filter_insert]

theorem recorded_succ_of_ne {table : Table} {k : ℕ} {ehash : UInt64}
    (hother : ¬ ((decayedEntry table.header (table.entries k)).Live ∧
      (table.entries k).entityHash = ehash)) :
    recorded table (k + 1) ehash = recorded table k ehash := by
  rw [recorded, survivors_succ, if_neg hother]
  rfl

theorem recorded_succ_self {table : Table} {k : ℕ}
    (hlive : (decayedEntry table.header (table.entries k)).Live) :
    recorded table (k + 1) (table.entries k).entityHash =
      if (survivors table k (table.entries k).entityHash).card < perEntityCapMax then
        insert k (recorded table k (table.entries k).entityHash)
      else recorded table k (table.entries k).entityHash := by
  rw [recorded, survivors_succ, if_pos ⟨hlive, rfl⟩,
    lowest_insert_of_lt fun _ => lt_of_mem_survivors]
  rfl

/-- The pass has visited the entries below `k`, and its sidecar records their survivors. -/
structure Recording (table : Table) (k : ℕ) (state : Table) : Prop where
  unvisited : ∀ idx, k ≤ idx → state.entries idx = table.entries idx
  tracks : Tracks table.header state.trim.occ (recorded table k)

theorem recording_start (table : Table) : Recording table 0 (zeroSidecar table) where
  unvisited _ _ := rfl
  tracks := by
    apply tracks_of_no_record
    · intro idx
      by_cases hlt : idx < table.header.occSlots
      · simp [Table.trim, zeroSidecar, hlt]
      · simp [Table.trim, zeroSidecar, hlt, Occ.zero]
    · intro ehash _
      simp [recorded, lowest]

/-- A survivor is added to the record of its entity, or the record is full. -/
theorem recorded_survivor {table state : Table} {k : ℕ}
    (hheader : state.header = table.header)
    (htracks : Tracks table.header state.occ (recorded table k))
    (hlive : (decayedEntry table.header (table.entries k)).Live) :
    Tracks table.header (occAddSlot state (table.entries k).entityHash k).2.occ
      (recorded table (k + 1)) := by
  rw [← hheader] at htracks ⊢
  have hothers : ∀ ehash, ehash ≠ (table.entries k).entityHash →
      recorded table (k + 1) ehash = recorded table k ehash := fun ehash hne =>
    recorded_succ_of_ne fun hself => hne hself.2.symm
  by_cases hzero : (table.entries k).entityHash = 0
  · rw [hzero] at hothers ⊢
    exact occAddSlot_zero_tracks htracks k hothers
  · by_cases hroom : (survivors table k (table.entries k).entityHash).card < perEntityCapMax
    · have hsets : recorded table (k + 1) = Function.update (recorded table k)
          (table.entries k).entityHash
          (insert k (recorded table k (table.entries k).entityHash)) := by
        funext ehash
        by_cases heq : ehash = (table.entries k).entityHash
        · rw [heq, Function.update_self, recorded_succ_self hlive, if_pos hroom]
        · rw [Function.update_of_ne heq, hothers ehash heq]
      have hfresh : k ∉ recorded table k (table.entries k).entityHash := fun hmem =>
        lt_irrefl k (lt_of_mem_survivors (lowest_subset _ _ hmem))
      rw [hsets]
      apply occAddSlot_tracks htracks hzero hfresh
      intro _ _
      rw [recorded, card_lowest]
      omega
    · have hsets : recorded table (k + 1) = recorded table k := by
        funext ehash
        by_cases heq : ehash = (table.entries k).entityHash
        · rw [heq, recorded_succ_self hlive, if_neg hroom]
        · exact hothers ehash heq
      have hfull : perEntityCapMax ≤ (recorded table k (table.entries k).entityHash).card := by
        rw [recorded, card_lowest]
        omega
      rw [hsets, occAddSlot_full htracks hzero hfull]
      exact htracks

theorem recording_step {table : Table} (hsound : table.header.Sound) {k : ℕ}
    {state : Table × ℕ} (hheader : state.1.header = table.header)
    (hrecording : Recording table k state.1) :
    Recording table (k + 1) (decayStep state k).1 := by
  have hentry := hrecording.unvisited k le_rfl
  constructor
  · intro idx hle
    have hne : idx ≠ k := by omega
    rw [decayStep_entries, Function.update_of_ne hne]
    exact hrecording.unvisited idx (by omega)
  · have hsame : ¬ (decayedEntry table.header (table.entries k)).Live →
        Tracks table.header state.1.trim.occ (recorded table (k + 1)) := by
      intro hdead
      refine hrecording.tracks.congr (fun _ => rfl) (fun _ _ => rfl) ?_
      exact fun ehash _ => recorded_succ_of_ne fun hself => hdead hself.1
    unfold decayStep
    simp only
    rw [hheader, hentry]
    split_ifs with hlive hfloor
    · apply hsame
      rw [decayedEntry, if_neg (not_not.mpr hlive), if_pos hfloor]
      exact tombstone_dead rfl
    · have hsurvives : (decayedEntry table.header (table.entries k)).Live := by
        rw [decayedEntry, if_neg (not_not.mpr hlive), if_neg hfloor]
        exact hlive
      have hlowered := @recorded_survivor table (state.1.setEntry k { table.entries k with
        weight := decayedWeight table.header (table.entries k) }).trim k hheader
          hrecording.tracks hsurvives
      rwa [Unseen.occAddSlot (by rw [setEntry_header, hheader]; exact trim_unseen hsound _)]
        at hlowered
    · apply hsame
      rwa [decayedEntry, if_pos hlive]

/-! ## The rebuilt sidecar -/

/-- The slot list of a record holds the edges of the entity without repetition: all of them, or
as many of the lowest as a record has room for. -/
structure Indexes (record : Occ) (edges : Finset ℕ) : Prop where
  nodup : (used record.slot record.liveCount).Nodup
  count : record.liveCount = min edges.card perEntityCapMax
  listed : ∀ idx ∈ used record.slot record.liveCount, idx ∈ edges
  complete : edges.card ≤ perEntityCapMax → ∀ idx ∈ edges, idx ∈ used record.slot record.liveCount
  lowest : ∀ idx ∈ used record.slot record.liveCount, ∀ other ∈ edges,
    other ∉ used record.slot record.liveCount → idx < other

theorem Indexes.of_lists {record : Occ} {edges : Finset ℕ}
    (hlists : Lists record.slot record.liveCount (DenseArray.lowest perEntityCapMax edges)) :
    Indexes record edges := by
  have hmem : ∀ idx, idx ∈ used record.slot record.liveCount ↔
      idx ∈ DenseArray.lowest perEntityCapMax edges := fun idx => by
    rw [← hlists.2, List.mem_toFinset]
  refine ⟨hlists.1, ?_, ?_, ?_, ?_⟩
  · rw [← hlists.card_eq, card_lowest]
  · exact fun idx hidx => lowest_subset _ _ ((hmem idx).mp hidx)
  · intro hcard idx hidx
    rwa [hmem, lowest_of_card_le hcard]
  · intro idx hidx other hother hout
    rw [hmem] at hidx hout
    exact lt_of_mem_lowest hidx hother hout

theorem edges_decay (table : Table) (ehash : UInt64) :
    (decay table).1.edges ehash = survivors table table.header.capacity ehash := by
  unfold Table.edges survivors
  rw [decay_header]
  apply Finset.filter_congr
  intro idx hmem
  rw [decay_entries, if_pos (Finset.mem_range.mp hmem)]
  apply and_congr_right
  intro hlive
  rw [(live_of_decayedEntry hlive).2.2]

theorem decay_tracks {table : Table} (hsound : table.header.Sound) :
    Tracks table.header (decay table).1.trim.occ (recorded table table.header.capacity) :=
  (decay_induction (motive := Recording table) (recording_start table)
    fun _ _ _ hheader hrecording => recording_step hsound hheader hrecording).tracks

theorem decay_trim_occ (table : Table) {record : ℕ} (hlt : record < table.header.occSlots) :
    (decay table).1.trim.occ record = (decay table).1.occ record :=
  trim_occ_of_lt (by rw [decay_header]; exact hlt)

theorem decay_record_unique {table : Table} (hsound : table.header.Sound) {ehash : UInt64}
    (hne : ehash ≠ 0) {record other : ℕ} (hrecord : record < table.header.occSlots)
    (hother : other < table.header.occSlots)
    (hhash : ((decay table).1.occ record).entityHash = ehash)
    (hhashOther : ((decay table).1.occ other).entityHash = ehash) : record = other := by
  rw [← decay_trim_occ table hrecord] at hhash
  rw [← decay_trim_occ table hother] at hhashOther
  exact (decay_tracks hsound).wellProbed.unique record other ehash
    (sidecarSlots_eq_live_iff.mpr ⟨hhash, hne⟩)
    (sidecarSlots_eq_live_iff.mpr ⟨hhashOther, hne⟩)

theorem decay_record_found {table : Table} (hsound : table.header.Sound) {ehash : UInt64}
    (hne : ehash ≠ 0) {record : ℕ} (hrecord : record < table.header.occSlots)
    (hhash : ((decay table).1.occ record).entityHash = ehash) :
    (occFind (decay table).1 ehash false).1 = some record := by
  rw [← decay_trim_occ table hrecord] at hhash
  have hfound := @Unseen.occFind Table.trim (decay table).1 ehash
    (by rw [decay_header]; exact trim_unseen hsound ehash) false
  rw [occFind_noClaim _ hne] at hfound
  have hplace := congrArg Prod.fst hfound
  simp only at hplace
  rw [← hplace]
  show probeFind _ _ (occWindow (decay table).1.header ehash) = some record
  rw [decay_header]
  exact ((decay_tracks hsound).find_eq_some_iff hne).mpr hhash

theorem decay_record_indexes {table : Table} (hsound : table.header.Sound) {ehash : UInt64}
    (hne : ehash ≠ 0) {record : ℕ} (hrecord : record < table.header.occSlots)
    (hhash : ((decay table).1.occ record).entityHash = ehash) :
    Indexes ((decay table).1.occ record) ((decay table).1.edges ehash) := by
  rw [← decay_trim_occ table hrecord] at hhash
  have hlists := (decay_tracks hsound).exact record (hhash ▸ hne)
  rw [hhash, decay_trim_occ table hrecord] at hlists
  rw [edges_decay]
  exact Indexes.of_lists hlists

/-- Behind the end of the sidecar the trimmed table holds zero records. -/
theorem decay_trim_untracked {table : Table} {ehash : UInt64} (hne : ehash ≠ 0)
    (habsent : ∀ record < table.header.occSlots,
      ((decay table).1.occ record).entityHash ≠ ehash) (idx : ℕ) :
    ((decay table).1.trim.occ idx).entityHash ≠ ehash := by
  by_cases hlt : idx < table.header.occSlots
  · rw [decay_trim_occ table hlt]
    exact habsent idx hlt
  · have hout : ¬ idx < (decay table).1.header.occSlots := by rwa [decay_header]
    simp [Table.trim, hout, Occ.zero, Ne.symm hne]

theorem edges_decay_of_recorded_empty {table : Table} {ehash : UInt64}
    (hempty : recorded table table.header.capacity ehash = ∅) :
    (decay table).1.edges ehash = ∅ := by
  have hcard := card_lowest perEntityCapMax (survivors table table.header.capacity ehash)
  rw [← recorded, hempty, Finset.card_empty] at hcard
  rw [edges_decay, ← Finset.card_eq_zero]
  simp only [perEntityCapMax] at hcard
  omega

/-- From any contents of the two arrays, the records of the rebuilt sidecar are reachable and
index the surviving edges of different entities; an entity without a record has no edge, or its
probe window is full of others. -/
theorem decay_rebuilds (table : Table) (hopen : openAccepts table.header = true)
    (ehash : UInt64) (hne : ehash ≠ 0) :
    (∀ record < table.header.occSlots, ∀ other < table.header.occSlots,
        ((decay table).1.occ record).entityHash = ehash →
        ((decay table).1.occ other).entityHash = ehash → record = other) ∧
      (∀ record < table.header.occSlots, ((decay table).1.occ record).entityHash = ehash →
        (occFind (decay table).1 ehash false).1 = some record ∧
          Indexes ((decay table).1.occ record) ((decay table).1.edges ehash)) ∧
      ((∀ record < table.header.occSlots, ((decay table).1.occ record).entityHash ≠ ehash) →
        (decay table).1.edges ehash = ∅ ∨
          ∀ record ∈ occWindow table.header ehash,
            ((decay table).1.occ record).entityHash ≠ 0 ∧
              ((decay table).1.occ record).entityHash ≠ ehash) := by
  have hsound := sound_of_openAccepts hopen
  refine ⟨?_, ?_, ?_⟩
  · intro record hrecord other hother hhash hhashOther
    exact decay_record_unique hsound hne hrecord hother hhash hhashOther
  · intro record hrecord hhash
    exact ⟨decay_record_found hsound hne hrecord hhash,
      decay_record_indexes hsound hne hrecord hhash⟩
  · intro habsent
    have huntracked := (decay_tracks hsound).untracked ehash hne
      (decay_trim_untracked hne habsent)
    refine huntracked.imp edges_decay_of_recorded_empty ?_
    intro hfull record hmem
    have hlt := lt_of_mem_occWindow hsound hmem
    have hlive := hfull record hmem
    rw [decay_trim_occ table hlt] at hlive
    exact ⟨hlive, habsent record hlt⟩

/-- Two edges of one entity under a sidecar in which every record claims forty of them. -/
def drifted : Table where
  header := smallTable.header
  entries idx := if idx < 2 then
    { Entry.zero with keyHash := 100, weight := 5000, entityHash := 7 } else Entry.zero
  occ _ := ⟨7, 40, fun _ => 9⟩

theorem decay_rebuilds_drifted :
    (occFind (decay drifted).1 7 false).1 = some 3 ∧
      Indexes ((decay drifted).1.occ 3) ((decay drifted).1.edges 7) :=
  (decay_rebuilds drifted (by decide) 7 (by decide)).2.1 3 (by decide) (by decide +kernel)

end Tac
end LibWake
