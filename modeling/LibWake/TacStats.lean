import LibWake.TacDecay
import LibWake.TacQuery

/-!
# Statistics and walks over the coupling table

`wake_tac_stats` reads the entry array and the sidecar in two loops which know nothing of each
other.  In every reachable state the two agree with the live edges, except that an entity which
the sidecar could not track is missing from the entities at the cap.
-/

namespace LibWake
namespace Tac

open SlotPass

/-! ## What there is to report -/

def liveEdges (table : Table) : Finset ℕ :=
  (Finset.range table.header.capacity).filter fun idx => (table.entries idx).Live

def buriedSlots (table : Table) : Finset ℕ :=
  (Finset.range table.header.capacity).filter fun idx =>
    (table.entries idx).keyHash = slotTombstone

/-- The live edges which a query does not show. -/
def hiddenEdges (table : Table) : Finset ℕ :=
  (liveEdges table).filter fun idx => (table.entries idx).quarantine ≠ 0

/-- The entities with an edge. -/
def edgeEntities (table : Table) : Finset UInt64 :=
  (liveEdges table).image fun idx => (table.entries idx).entityHash

/-- The entities which have as many edges as they may. -/
def cappedEntities (table : Table) : Finset UInt64 :=
  (edgeEntities table).filter fun ehash =>
    (table.edges ehash).card = table.header.perEntityCap

/-- The sidecar has a record of the entity. -/
def Recorded (table : Table) (ehash : UInt64) : Prop :=
  ∃ idx < table.header.occSlots, (table.occ idx).entityHash = ehash

instance (table : Table) (ehash : UInt64) : Decidable (Recorded table ehash) :=
  inferInstanceAs (Decidable (∃ idx < _, _))

/-- The statistics are the true ones, except that nothing computes the longest probe length. -/
structure Stats.Describes (out : Stats) (table : Table) : Prop where
  capacity : out.capacity = table.header.capacity
  occupied : out.occupied = (liveEdges table).card
  tombstones : out.tombstones = (buriedSlots table).card
  quarantined : out.quarantined = (hiddenEdges table).card
  totalWeight : out.totalWeight = ∑ idx ∈ liveEdges table, (table.entries idx).weight
  entitiesAtCap : out.entitiesAtCap = ((cappedEntities table).filter (Recorded table)).card
  maxProbeLen : out.maxProbeLen = 0

/-! ## The loop over the entries -/

/-- The counters of a walk which has seen the entries below `k`. -/
structure EntriesCounted (table : Table) (k : ℕ) (out : Stats) : Prop where
  capacity : out.capacity = table.header.capacity
  occupied : out.occupied =
    ((Finset.range k).filter fun idx => (table.entries idx).Live).card
  tombstones : out.tombstones =
    ((Finset.range k).filter fun idx => (table.entries idx).keyHash = slotTombstone).card
  quarantined : out.quarantined =
    (((Finset.range k).filter fun idx => (table.entries idx).Live).filter fun idx =>
      (table.entries idx).quarantine ≠ 0).card
  totalWeight : out.totalWeight =
    ∑ idx ∈ (Finset.range k).filter fun idx => (table.entries idx).Live,
      (table.entries idx).weight
  entitiesAtCap : out.entitiesAtCap = 0
  maxProbeLen : out.maxProbeLen = 0

theorem filter_range_succ (p : ℕ → Prop) [DecidablePred p] (k : ℕ) :
    (Finset.range (k + 1)).filter p =
      if p k then insert k ((Finset.range k).filter p) else (Finset.range k).filter p := by
  rw [Finset.range_add_one, Finset.filter_insert]

theorem notMem_filter_range (p : ℕ → Prop) [DecidablePred p] (k : ℕ) :
    k ∉ (Finset.range k).filter p := by simp

/-- A slot without an edge can only move the count of the tombstones. -/
theorem EntriesCounted.dead {table : Table} {k : ℕ} {out : Stats}
    (hcounted : EntriesCounted table k out) (hdead : ¬ (table.entries k).Live) {tombstones : ℕ}
    (htombstones : tombstones = ((Finset.range (k + 1)).filter fun idx =>
      (table.entries idx).keyHash = slotTombstone).card) :
    EntriesCounted table (k + 1) { out with tombstones } := by
  refine ⟨hcounted.capacity, ?_, htombstones, ?_, ?_, hcounted.entitiesAtCap,
    hcounted.maxProbeLen⟩
  · rw [filter_range_succ, if_neg hdead, hcounted.occupied]
  · rw [filter_range_succ, if_neg hdead, hcounted.quarantined]
  · rw [filter_range_succ, if_neg hdead, hcounted.totalWeight]

theorem EntriesCounted.next {keyedHash : KeyedHash} {table : Table}
    (hreadable : Readable keyedHash table) {k : ℕ} (hk : k < table.header.capacity) {out : Stats}
    (hcounted : EntriesCounted table k out) :
    EntriesCounted table (k + 1) (statsEntryStep out (table.entries k)) := by
  unfold statsEntryStep
  by_cases hempty : (table.entries k).keyHash = slotEmpty
  · have hdead : ¬ (table.entries k).Live := fun hlive => hlive.1 hempty
    have hnot : (table.entries k).keyHash ≠ slotTombstone := by
      rw [hempty]
      decide
    rw [if_pos hempty]
    apply hcounted.dead hdead
    rw [filter_range_succ, if_neg hnot, hcounted.tombstones]
  · by_cases htomb : (table.entries k).keyHash = slotTombstone
    · have hdead : ¬ (table.entries k).Live := fun hlive => hlive.2 htomb
      rw [if_neg hempty, if_pos htomb]
      apply hcounted.dead hdead
      rw [filter_range_succ, if_pos htomb, Finset.card_insert_of_notMem
        (notMem_filter_range _ k), hcounted.tombstones]
    · have hlive : (table.entries k).Live := ⟨hempty, htomb⟩
      have hnew := notMem_filter_range (fun idx => (table.entries idx).Live) k
      have hweight := hreadable.weight_le k hlive
      have hsum : ∑ idx ∈ (Finset.range k).filter fun idx => (table.entries idx).Live,
          (table.entries idx).weight ≤ k * (5 * 65535) := by
        calc
          _ ≤ ((Finset.range k).filter fun idx => (table.entries idx).Live).card *
              (5 * 65535) := by
            rw [← smul_eq_mul]
            exact Finset.sum_le_card_nsmul _ _ _ fun idx hidx =>
              hreadable.weight_le idx (Finset.mem_filter.mp hidx).2
          _ ≤ k * (5 * 65535) := by
            refine Nat.mul_le_mul_right _ ?_
            exact (Finset.card_filter_le _ _).trans (Finset.card_range k).le
      have hcapacity : k < 2 ^ 32 := by
        have hmax := hreadable.capped.sound.capacity_le
        exact hk.trans_le (hmax.trans (by decide))
      rw [if_neg hempty, if_neg htomb]
      refine ⟨hcounted.capacity, ?_, ?_, ?_, ?_, hcounted.entitiesAtCap, hcounted.maxProbeLen⟩
      · rw [filter_range_succ, if_pos hlive, Finset.card_insert_of_notMem hnew,
          hcounted.occupied]
      · rw [filter_range_succ, if_neg htomb, hcounted.tombstones]
      · rw [filter_range_succ, if_pos hlive, Finset.filter_insert, hcounted.quarantined]
        split_ifs
        · rw [Finset.card_insert_of_notMem fun hmem => hnew (Finset.mem_filter.mp hmem).1]
        · rfl
      · rw [filter_range_succ, if_pos hlive, Finset.sum_insert hnew]
        show (out.totalWeight + (table.entries k).weight) % 2 ^ 64 = _
        rw [hcounted.totalWeight, Nat.mod_eq_of_lt (by omega), Nat.add_comm]

/-! ## The loop over the sidecar -/

/-- The slots of the sidecar which the second loop counts. -/
def recordsAtCap (table : Table) (k : ℕ) : Finset ℕ :=
  (Finset.range k).filter fun idx =>
    (table.occ idx).entityHash ≠ 0 ∧ table.header.perEntityCap ≤ (table.occ idx).liveCount

theorem foldl_statsOccStep (table : Table) (out : Stats) (n : ℕ) :
    (List.range n).foldl (fun stats i => statsOccStep table.header stats (table.occ i)) out =
      { out with entitiesAtCap := out.entitiesAtCap + (recordsAtCap table n).card } := by
  refine foldl_range_induction (motive := fun k state => state =
    { out with entitiesAtCap := out.entitiesAtCap + (recordsAtCap table k).card }) n rfl ?_
  rintro k state - rfl
  unfold statsOccStep recordsAtCap
  rw [filter_range_succ]
  by_cases hzero : (table.occ k).entityHash = 0
  · simp [hzero]
  · by_cases hfull : table.header.perEntityCap ≤ (table.occ k).liveCount
    · rw [if_neg hzero, if_pos hfull, if_pos ⟨hzero, hfull⟩,
        Finset.card_insert_of_notMem (notMem_filter_range _ k)]
      rfl
    · rw [if_neg hzero, if_neg hfull, if_neg fun hboth => hfull hboth.2]

theorem entityHash_mem_edgeEntities {table : Table} {ehash : UInt64}
    (hedge : (table.edges ehash).Nonempty) : ehash ∈ edgeEntities table := by
  obtain ⟨idx, hmem⟩ := hedge
  obtain ⟨hlt, hlive, hhash⟩ := mem_edges.mp hmem
  exact Finset.mem_image.mpr
    ⟨idx, Finset.mem_filter.mpr ⟨Finset.mem_range.mpr hlt, hlive⟩, hhash⟩

/-- The records at the cap are those of the entities at the cap, one each. -/
theorem card_recordsAtCap {table : Table} (hcapped : Capped table) :
    (recordsAtCap table table.header.occSlots).card =
      ((cappedEntities table).filter (Recorded table)).card := by
  have hinjective : Set.InjOn (fun idx => (table.occ idx).entityHash)
      (recordsAtCap table table.header.occSlots) := by
    intro idx hidx other hother heq
    have hne := (Finset.mem_filter.mp hidx).2.1
    exact hcapped.tracks.wellProbed.unique idx other (table.occ idx).entityHash
      (sidecarSlots_eq_live_iff.mpr ⟨rfl, hne⟩)
      (sidecarSlots_eq_live_iff.mpr ⟨heq.symm, hne⟩)
  rw [← Finset.card_image_of_injOn hinjective]
  congr 1
  ext ehash
  rw [Finset.mem_image, Finset.mem_filter, cappedEntities, Finset.mem_filter]
  constructor
  · rintro ⟨idx, hmem, rfl⟩
    obtain ⟨hlt, hne, hfull⟩ := Finset.mem_filter.mp hmem
    have hcard := (hcapped.tracks.exact idx hne).card_eq
    have hwithin := hcapped.within (table.occ idx).entityHash
    have hexact : (table.edges (table.occ idx).entityHash).card = table.header.perEntityCap := by
      omega
    have hedge : (table.edges (table.occ idx).entityHash).Nonempty :=
      Finset.card_pos.mp (hexact ▸ hcapped.sound.cap_pos)
    exact ⟨⟨entityHash_mem_edgeEntities hedge, hexact⟩, idx, Finset.mem_range.mp hlt, rfl⟩
  · rintro ⟨⟨hentity, hexact⟩, idx, hlt, rfl⟩
    have hne : (table.occ idx).entityHash ≠ 0 := by
      intro hzero
      have hempty := hcapped.hashed
      rw [← hzero] at hempty
      rw [hempty, Finset.card_empty] at hexact
      exact absurd hexact hcapped.sound.cap_pos.ne
    have hcard := (hcapped.tracks.exact idx hne).card_eq
    refine ⟨idx, Finset.mem_filter.mpr ⟨Finset.mem_range.mpr hlt, hne, ?_⟩, rfl⟩
    omega

/-- An entity at its cap without a record has no room for one. -/
theorem recorded_or_full {table : Table} (hcapped : Capped table) {ehash : UInt64}
    (hmem : ehash ∈ cappedEntities table) :
    Recorded table ehash ∨
      ∀ idx ∈ occWindow table.header ehash, (table.occ idx).entityHash ≠ 0 := by
  have hexact := (Finset.mem_filter.mp hmem).2
  have hedge : table.edges ehash ≠ ∅ := by
    intro hempty
    rw [hempty, Finset.card_empty] at hexact
    exact absurd hexact hcapped.sound.cap_pos.ne
  have hne : ehash ≠ 0 := fun hzero => hedge (hzero ▸ hcapped.hashed)
  by_cases hrecord : ∃ idx, (table.occ idx).entityHash = ehash
  · obtain ⟨idx, hidx⟩ := hrecord
    refine .inl ⟨idx, ?_, hidx⟩
    by_contra hout
    exact hne (hidx.symm.trans (hcapped.occ_out_of_range (Nat.le_of_not_lt hout)))
  · exact .inr ((hcapped.tracks.untracked ehash hne (not_exists.mp hrecord)).resolve_left hedge)

theorem stats_describes {keyedHash : KeyedHash} {table : Table}
    (hreadable : Readable keyedHash table) : (stats table).Describes table := by
  have hstart : EntriesCounted table 0 ⟨table.header.capacity, 0, 0, 0, 0, 0, 0⟩ :=
    ⟨rfl, rfl, rfl, rfl, rfl, rfl, rfl⟩
  have hcounted : EntriesCounted table table.header.capacity
      ((List.range table.header.capacity).foldl
        (fun out i => statsEntryStep out (table.entries i))
        ⟨table.header.capacity, 0, 0, 0, 0, 0, 0⟩) :=
    foldl_range_induction (motive := EntriesCounted table) table.header.capacity hstart
      fun k out hk hout => EntriesCounted.next hreadable hk hout
  rw [stats, foldl_statsOccStep, hcounted.entitiesAtCap, Nat.zero_add,
    card_recordsAtCap hreadable.capped]
  exact ⟨hcounted.capacity, hcounted.occupied, hcounted.tombstones, hcounted.quarantined,
    hcounted.totalWeight, rfl, hcounted.maxProbeLen⟩

/-! ## Entity by entity -/

theorem filter_liveEdges (table : Table) (ehash : UInt64) :
    ((liveEdges table).filter fun idx => (table.entries idx).entityHash = ehash) =
      table.edges ehash := by
  rw [liveEdges, Finset.filter_filter]
  rfl

theorem card_liveEdges (table : Table) :
    (liveEdges table).card = ∑ ehash ∈ edgeEntities table, (table.edges ehash).card := by
  rw [Finset.card_eq_sum_card_image (fun idx => (table.entries idx).entityHash), edgeEntities]
  simp only [filter_liveEdges]

/-- What queries show of all entities, and what they hide, are the live edges. -/
theorem card_visibleEdges (table : Table) :
    (liveEdges table).card =
      (hiddenEdges table).card + ∑ ehash ∈ edgeEntities table, (table.visibleEdges ehash).card := by
  have hsplit := Finset.card_filter_add_card_filter_not (s := liveEdges table)
    fun idx => (table.entries idx).quarantine ≠ 0
  have hshown : ((liveEdges table).filter fun idx => ¬ (table.entries idx).quarantine ≠ 0).card =
      ∑ ehash ∈ edgeEntities table, (table.visibleEdges ehash).card := by
    rw [Finset.card_eq_sum_card_fiberwise (f := fun idx => (table.entries idx).entityHash)
      (t := edgeEntities table)]
    · refine Finset.sum_congr rfl fun ehash _ => ?_
      rw [Finset.filter_comm, filter_liveEdges, Table.visibleEdges]
      simp only [not_not]
    · intro idx hidx
      exact Finset.mem_image_of_mem _ (Finset.mem_filter.mp hidx).1
  rw [← hshown]
  exact hsplit.symm

/-! ## Walks -/

/-- The loop of `wake_tac_iterate` from slot `i` on. -/
def iterateLoop {Ctx : Type} (table : Table) (fn : Entry → Ctx → Bool × Ctx) :
    ℕ → ℕ → ℕ × Ctx → ℕ × Ctx
  | 0, _, state => state
  | n + 1, i, (seen, ctx) =>
      match readEntry table i with
      | none => iterateLoop table fn n (i + 1) (seen, ctx)
      | some snap =>
          let (goOn, ctx) := fn snap ctx
          if goOn then iterateLoop table fn n (i + 1) (seen + 1, ctx) else (seen + 1, ctx)

/-- `wake_tac_iterate`: the number of edges seen, and the context of the callback. -/
def iterate {Ctx : Type} (table : Table) (fn : Entry → Ctx → Bool × Ctx) (ctx : Ctx) : ℕ × Ctx :=
  iterateLoop table fn table.header.capacity 0 (0, ctx)

/-- The copies of the live edges in slot order. -/
def shownEdges (table : Table) : List Entry :=
  ((List.range table.header.capacity).filter fun idx => (table.entries idx).Live).map
    fun idx => entrySnapshot (table.entries idx)

theorem length_shownEdges (table : Table) :
    (shownEdges table).length = (liveEdges table).card := by
  rw [shownEdges, List.length_map]
  rfl

theorem readEntry_eq {keyedHash : KeyedHash} {table : Table} (hreadable : Readable keyedHash table)
    {idx : ℕ} (hlt : idx < table.header.capacity) :
    readEntry table idx =
      if (table.entries idx).Live then some (entrySnapshot (table.entries idx)) else none := by
  rw [readEntry, if_neg (Nat.not_le.mpr hlt)]
  by_cases hlive : (table.entries idx).Live
  · have hpos := hreadable.weight_pos idx hlive
    rw [if_neg (not_not.mpr hlive), if_pos hlive, if_neg (by omega)]
  · rw [if_pos hlive, if_neg hlive]

theorem iterateLoop_eq {Ctx : Type} {keyedHash : KeyedHash} {table : Table}
    (hreadable : Readable keyedHash table) (fn : Entry → Ctx → Bool × Ctx) (n i : ℕ)
    (hrange : i + n ≤ table.header.capacity) (state : ℕ × Ctx) :
    iterateLoop table fn n i state =
      showUntil fn (((List.range' i n).filter fun idx => (table.entries idx).Live).map
        fun idx => entrySnapshot (table.entries idx)) state := by
  induction n generalizing i state with
  | zero => rfl
  | succ n ih =>
      obtain ⟨seen, ctx⟩ := state
      rw [iterateLoop, readEntry_eq hreadable (by omega : i < _), List.range'_succ]
      by_cases hlive : (table.entries i).Live
      · rw [if_pos hlive, List.filter_cons_of_pos (by simpa using hlive), List.map_cons, showUntil]
        simp only
        split_ifs
        · exact ih (i + 1) (by omega) _
        · rfl
      · rw [if_neg hlive, List.filter_cons_of_neg (by simpa using hlive)]
        exact ih (i + 1) (by omega) _

/-! ## Decay -/

/-- The count which `wake_tac_decay` returns is what the occupied slots lose. -/
theorem card_liveEdges_decay (table : Table) :
    (liveEdges (decay table).1).card + (decay table).2 = (liveEdges table).card := by
  have hafter : liveEdges (decay table).1 = (liveEdges table).filter fun idx =>
      (decayedEntry table.header (table.entries idx)).Live := by
    ext idx
    rw [liveEdges, liveEdges, decay_header, Finset.mem_filter, Finset.mem_filter,
      Finset.mem_filter, Finset.mem_range, decay_entries, and_assoc]
    refine and_congr_right fun hlt => ?_
    rw [if_pos hlt]
    exact ⟨fun hlive => ⟨(live_of_decayedEntry hlive).1, hlive⟩, fun hboth => hboth.2⟩
  have hevicted : (decay table).2 = ((liveEdges table).filter fun idx =>
      ¬ (decayedEntry table.header (table.entries idx)).Live).card := by
    rw [decay_count, liveEdges, Finset.filter_filter]
  rw [hafter, hevicted]
  exact Finset.card_filter_add_card_filter_not _

/-- In every reachable state the statistics are the true ones, an entity at its cap is missing
from them only when its sidecar window is full of other entities, and the walk, the queries and
the decay agree with them. -/
theorem edge_statistics (keyedHash : KeyedHash) (history : History)
    (hreach : (writer keyedHash).Reachable history) :
    (stats history.table).Describes history.table ∧
      (∀ ehash ∈ cappedEntities history.table, Recorded history.table ehash ∨
        ∀ idx ∈ occWindow history.table.header ehash, (history.table.occ idx).entityHash ≠ 0) ∧
      (stats history.table).occupied =
        ∑ ehash ∈ edgeEntities history.table, (history.table.edges ehash).card ∧
      (stats history.table).occupied = (stats history.table).quarantined +
        ∑ ehash ∈ edgeEntities history.table, (history.table.visibleEdges ehash).card ∧
      (stats (decay history.table).1).occupied + (decay history.table).2 =
        (stats history.table).occupied ∧
      (shownEdges history.table).length = (stats history.table).occupied ∧
      ∀ (Ctx : Type) (fn : Entry → Ctx → Bool × Ctx) (ctx : Ctx),
        iterate history.table fn ctx = showUntil fn (shownEdges history.table) (0, ctx) := by
  have hreadable := reachable_readable hreach
  have hdescribes := stats_describes hreadable
  have hnext : (writer keyedHash).Reachable
      ⟨(decay history.table).1, history.events ++ []⟩ :=
    hreach.step (show (writer keyedHash).step history .decay = some _ from rfl)
  have hdecayed := stats_describes (reachable_readable hnext)
  refine ⟨hdescribes, fun _ hmem => recorded_or_full hreadable.capped hmem, ?_, ?_, ?_, ?_,
    fun Ctx fn ctx => ?_⟩
  · rw [hdescribes.occupied, card_liveEdges]
  · rw [hdescribes.occupied, hdescribes.quarantined, card_visibleEdges]
  · rw [hdecayed.occupied, hdescribes.occupied, card_liveEdges_decay]
  · rw [hdescribes.occupied, length_shownEdges]
  · rw [iterate, iterateLoop_eq hreadable fn _ 0 (by omega), shownEdges, List.range_eq_range']

theorem edge_statistics_twoWitnesses :
    (stats twoWitnesses.table).Describes twoWitnesses.table ∧
      (stats twoWitnesses.table).occupied = 1 ∧
      (shownEdges twoWitnesses.table).length = 1 := by
  obtain ⟨hdescribes, -, -, -, -, hshown, -⟩ :=
    edge_statistics _ twoWitnesses (reachable_replay _ _)
  have hone : (stats twoWitnesses.table).occupied = 1 := by decide +kernel
  exact ⟨hdescribes, hone, hshown.trans hone⟩

end Tac
end LibWake
