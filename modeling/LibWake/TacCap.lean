import LibWake.TacInvariant

/-!
# The per-entity cap

The invariant behind the cap: the sidecar tracks the live edges, and every
entity is within its cap, whether the sidecar has a record of it or not.  An
entity without a record gains an edge only if it had none.
-/

namespace LibWake
namespace Tac

structure Capped (table : Table) : Prop where
  sound : table.header.Sound
  hashed : table.edges 0 = ∅
  tracks : Tracks table.header table.occ table.edges
  within : ∀ ehash, (table.edges ehash).card ≤ table.header.perEntityCap

namespace Capped

variable {table : Table}

theorem card_le_capMax (hcapped : Capped table) (ehash : UInt64) :
    (table.edges ehash).card ≤ perEntityCapMax :=
  (hcapped.within ehash).trans hcapped.sound.cap_le

end Capped

/-! ## Tables without edges -/

theorem edges_eq_empty {table : Table}
    (hdead : ∀ idx < table.header.capacity, ¬ (table.entries idx).Live) :
    table.edges = fun _ => ∅ := by
  funext ehash
  apply Finset.eq_empty_of_forall_notMem
  intro idx hmem
  exact hdead idx (mem_edges.mp hmem).1 (mem_edges.mp hmem).2.1

theorem tracks_of_no_record {h : Header} {occ : ℕ → Occ}
    {edges : UInt64 → Finset ℕ} (hempty : ∀ idx, (occ idx).entityHash = 0)
    (hedges : ∀ ehash, ehash ≠ 0 → edges ehash = ∅) : Tracks h occ edges where
  wellProbed := OpenAddressing.WellProbed.of_no_live fun idx key hlive => by
    have hkey := sidecarSlots_eq_live_iff.mp hlive
    exact hkey.2 (hkey.1 ▸ hempty idx)
  exact idx hlive := absurd (hempty idx) hlive
  untracked ehash hne _ := Or.inl (hedges ehash hne)

theorem capped_of_no_edge {table : Table} (hsound : table.header.Sound)
    (hempty : ∀ idx, (table.occ idx).entityHash = 0)
    (hdead : ∀ idx < table.header.capacity, ¬ (table.entries idx).Live) :
    Capped table := by
  have hedges := edges_eq_empty hdead
  refine ⟨hsound, by rw [hedges], ?_, ?_⟩
  · exact tracks_of_no_record hempty fun ehash _ => by rw [hedges]
  · intro ehash
    rw [hedges]
    exact Nat.zero_le _

theorem create_capped {cfg : Option Config} {epoch : UInt32}
    {hashKey : List UInt8} {table : Table}
    (hcreate : create cfg epoch hashKey = some table) : Capped table := by
  obtain ⟨hsound, hentries, hocc⟩ := create_eq_some hcreate
  apply capped_of_no_edge hsound
  · intro idx
    rw [hocc]
    rfl
  · intro idx _
    rw [hentries]
    exact fun hlive => hlive.1 rfl

theorem Capped.occ_out_of_range {table : Table} (hcapped : Capped table)
    {idx : ℕ} (hout : table.header.occSlots ≤ idx) :
    (table.occ idx).entityHash = 0 := by
  by_contra hne
  have hlive := sidecarSlots_eq_live_iff.mpr
    ⟨rfl, hne⟩
  have hmem := (hcapped.tracks.wellProbed.chained idx _ hlive).mem
  have hlt := lt_of_mem_occWindow hcapped.sound hmem
  omega

theorem reset_capped {table : Table} (hcapped : Capped table) :
    Capped (reset table) := by
  apply @capped_of_no_edge (reset table) hcapped.sound
  · intro idx
    unfold reset
    simp only
    split_ifs with hlt
    · rfl
    · exact hcapped.occ_out_of_range (Nat.le_of_not_gt hlt)
  · intro idx hlt hlive
    unfold reset at hlive hlt
    simp only [if_pos hlt] at hlive
    exact hlive.1 rfl

/-! ## A new edge -/

/-- The sidecar once the victim, if any, has been retired: it tracks the
remaining edges, and a tracked entity has room for one more. -/
theorem fillClaimed_tracks {table : Table} (hcapped : Capped table)
    {ehash : UInt64} (hne : ehash ≠ 0) {delta : ℕ} (idx : ℕ) {victim : Option ℕ}
    (slotKey : UInt64) (fresh : Entry)
    (hcap : capDecision table ehash delta = some victim) :
    Tracks table.header (fillClaimed table idx victim slotKey ehash fresh).occ
        (retiredEdges table ehash victim) ∧
      (∀ other,
        ((fillClaimed table idx victim slotKey ehash fresh).occ other).entityHash =
          (table.occ other).entityHash) ∧
      ∀ other, (table.occ other).entityHash = ehash →
        (retiredEdges table ehash victim ehash).card <
          table.header.perEntityCap := by
  cases victim with
  | none =>
      refine ⟨hcapped.tracks, fun _ => rfl, ?_⟩
      intro other hother
      have hcount := capDecision_noVictim hcap
      have hlive : (table.occ other).entityHash ≠ 0 := hother ▸ hne
      rw [← hother, occCount_of_tracked hcapped.tracks hlive] at hcount
      rwa [← hother]
  | some victim =>
      obtain ⟨hvictim, hfull⟩ := capDecision_victim hcap
      obtain ⟨record, hrecord⟩ :
          ∃ record, (table.occ record).entityHash = ehash := by
        by_contra habsent
        push Not at habsent
        rw [occCount_of_untracked hcapped.tracks hne habsent] at hfull
        have := hcapped.sound.cap_pos
        omega
      have hcard := hcapped.card_le_capMax ehash
      have htracks : Tracks table.header table.occ table.edges := hcapped.tracks
      subst hrecord
      have hdel := @occDelSlot_tracks
        ((table.setEntry idx
          { table.entries idx with keyHash := slotKey }).setEntry victim
            { (table.setEntry idx
                { table.entries idx with keyHash := slotKey }).entries victim with
              weight := 0, keyHash := slotTombstone })
        table.edges htracks _ hne hcard _ hvictim
      refine ⟨hdel.1, hdel.2, ?_⟩
      intro other _
      simp only [retiredEdges, Function.update_self]
      rw [Finset.card_erase_of_mem hvictim]
      have hwithin := hcapped.within (table.occ record).entityHash
      have hpos := Finset.card_pos.mpr ⟨victim, hvictim⟩
      omega

/-- `occAddSlot` on a claimed slot: the entity has room, or no record and no free
one in its window. -/
theorem occAddSlot_fillClaimed {table : Table} (hcapped : Capped table)
    {slotKey ehash : UInt64} (hne : ehash ≠ 0) {delta idx : ℕ} {victim : Option ℕ}
    (fresh : Entry) (hcap : capDecision table ehash delta = some victim)
    (hclaim : claimSlot table slotKey = some idx) :
    let filled := fillClaimed table idx victim slotKey ehash fresh
    ((occAddSlot filled ehash idx).1 = true ∧
        occCount filled ehash = (retiredEdges table ehash victim ehash).card ∧
        Tracks filled.header (occAddSlot filled ehash idx).2.occ
          (Function.update (retiredEdges table ehash victim) ehash
            (insert idx (retiredEdges table ehash victim ehash)))) ∨
      (occAddSlot filled ehash idx = (false, filled) ∧
        (∀ other, (filled.occ other).entityHash ≠ ehash) ∧
        ∀ other ∈ occWindow filled.header ehash, (filled.occ other).entityHash ≠ 0) := by
  obtain ⟨htracks, hhash, hroom⟩ :=
    fillClaimed_tracks hcapped hne idx slotKey fresh hcap
  have hheader := fillClaimed_header table idx victim slotKey ehash fresh
  exact occAddSlot_cases (by rwa [hheader]) hne (notMem_retiredEdges hclaim hcap ehash)
    fun other hother => (hroom other (by rw [← hhash, hother])).trans_le
      hcapped.sound.cap_le

/-- The two outcomes of tracking a claimed slot. -/
theorem occAddSlot_claimed {table tracked : Table} (hcapped : Capped table)
    {slotKey ehash : UInt64} (hne : ehash ≠ 0) {delta idx : ℕ}
    {victim : Option ℕ} {fresh : Entry} {answer : Bool}
    (hcap : capDecision table ehash delta = some victim)
    (hclaim : claimSlot table slotKey = some idx)
    (hadd : occAddSlot (fillClaimed table idx victim slotKey ehash fresh)
      ehash idx = (answer, tracked)) :
    (answer = true ∧
        (retiredEdges table ehash victim ehash).card < table.header.perEntityCap ∧
        Tracks table.header tracked.occ
          (Function.update (retiredEdges table ehash victim) ehash
            (insert idx (retiredEdges table ehash victim ehash)))) ∨
      (answer = false ∧ victim = none ∧ tracked.occ = table.occ) := by
  obtain ⟨htracks, hhash, hroom⟩ :=
    fillClaimed_tracks hcapped hne idx slotKey fresh hcap
  have hheader := fillClaimed_header table idx victim slotKey ehash fresh
  have hcases := occAddSlot_fillClaimed hcapped hne fresh hcap hclaim
  simp only [hadd, hheader] at hcases
  rcases hcases with ⟨htrue, hcount, hadded⟩ | ⟨hrefused, habsent, _⟩
  · refine Or.inl ⟨htrue, ?_, hadded⟩
    by_cases hrecord : ∃ other, (table.occ other).entityHash = ehash
    · obtain ⟨other, hother⟩ := hrecord
      exact hroom other hother
    · -- an entity without a record had no edge, or it could not be tracked now
      push Not at hrecord
      have hzero := @occCount_of_untracked
        (fillClaimed table idx victim slotKey ehash fresh) _
        (by rwa [hheader]) _ hne fun other => by rw [hhash]; exact hrecord other
      rw [← hcount, hzero]
      exact hcapped.sound.cap_pos
  · obtain ⟨hfalse, htable⟩ := Prod.mk.injEq .. ▸ hrefused
    refine Or.inr ⟨hfalse, ?_⟩
    cases victim with
    | none => exact ⟨rfl, by rw [htable]; rfl⟩
    | some victim =>
        -- the victim's entity has a record
        exfalso
        have hcount := (capDecision_victim hcap).2
        rw [occCount_of_untracked hcapped.tracks hne
          fun other => by rw [← hhash]; exact habsent other] at hcount
        have := hcapped.sound.cap_pos
        omega

theorem claimedEntry_live (keyedHash : KeyedHash) (table : Table)
    (h : Header) (stale : Entry) (ehash : UInt64) (key : List UInt8)
    (tLo tHi : UInt32) (w : Witnesses) (weight : ℕ) :
    Entry.Live { claimedEntry h stale (slotHashOf keyedHash table ehash tLo tHi)
      ehash key tLo tHi w with weight := weight } :=
  slotHashOf_ne_sentinel keyedHash table ehash tLo tHi

/-- The edges of the table which an insertion leaves. -/
theorem edges_inserted {table tracked : Table} (hsound : table.header.Sound)
    {slotKey ehash : UInt64} {delta idx : ℕ} {victim : Option ℕ} {fresh : Entry}
    {answer : Bool} (hcap : capDecision table ehash delta = some victim)
    (hclaim : claimSlot table slotKey = some idx)
    (hadd : occAddSlot (fillClaimed table idx victim slotKey ehash fresh)
      ehash idx = (answer, tracked)) (final : Entry)
    (hhash : final.entityHash = ehash) (hlive : final.Live) :
    (tracked.setEntry idx final).edges =
      Function.update (retiredEdges table ehash victim) ehash
        (insert idx (retiredEdges table ehash victim ehash)) := by
  have hlt : idx < table.header.capacity :=
    lt_of_mem_probeWindow hsound (claimSlot_some hclaim).1
  have hold : ¬ ((retiredTable table victim).entries idx).Live := by
    have hnot := notMem_retiredEdges hclaim hcap
      ((retiredTable table victim).entries idx).entityHash
    rw [← edges_retiredTable hcap, mem_edges] at hnot
    exact fun h => hnot ⟨hlt, h, rfl⟩
  rw [edges_tracked_setEntry hclaim hcap hadd,
    @edges_setEntry_of_new (retiredTable table victim) _ _ hlt hold hlive,
    edges_retiredTable hcap]
  simp only [hhash]

theorem applyEdge_capped {table : Table} (hcapped : Capped table)
    (keyedHash : KeyedHash) {ehash : UInt64} (hne : ehash ≠ 0)
    (key : List UInt8) (tLo tHi : UInt32) (w : Witnesses) :
    Capped (applyEdge keyedHash table ehash key tLo tHi w).table := by
  have hstep := applyEdge_edgeStep keyedHash table ehash key tLo tHi w
  generalize applyEdge keyedHash table ehash key tLo tHi w = outcome at hstep
  cases hstep with
  | refused => exact hcapped
  | reinforced idx budget bump =>
      have hedges := edges_reinforced table idx w budget bump
      exact ⟨hcapped.sound, by rw [hedges]; exact hcapped.hashed,
        by rw [hedges]; exact hcapped.tracks,
        by rw [hedges]; exact hcapped.within⟩
  | undone idx victim fresh tracked _ hcap hclaim _ hadd =>
      rcases occAddSlot_claimed hcapped hne hcap hclaim hadd with
        ⟨hfalse, _⟩ | ⟨_, rfl, hocc⟩
      · contradiction
      · have hedges : (tracked.setEntry idx
            { fresh with keyHash := slotTombstone }).edges = table.edges := by
          rw [edges_tracked_setEntry hclaim hcap hadd]
          funext other
          rw [edges_setEntry_of_dead (tombstone_dead rfl), edges_retiredTable hcap]
          exact Finset.erase_eq_of_notMem (notMem_retiredEdges hclaim hcap other)
        have hheader := (tracked_setEntry hclaim hcap hadd
          { fresh with keyHash := slotTombstone }).1
        refine ⟨by rw [hheader]; exact hcapped.sound,
          by rw [hedges]; exact hcapped.hashed, ?_, ?_⟩
        · rw [hedges, hheader, setEntry_occ, hocc]
          exact hcapped.tracks
        · rw [hedges, hheader]
          exact hcapped.within
  | inserted idx victim fresh tracked _ hcap hclaim hfresh hadd =>
      rcases occAddSlot_claimed hcapped hne hcap hclaim hadd with
        ⟨_, hroom, htracks⟩ | ⟨hfalse, _⟩
      · have hlive : Entry.Live { fresh with weight := w.delta } := by
          subst hfresh
          exact claimedEntry_live keyedHash table _ _ _ _ _ _ _ _
        have hhash : fresh.entityHash = ehash := by rw [hfresh]; rfl
        have hedges := edges_inserted hcapped.sound hcap hclaim hadd
          { fresh with weight := w.delta } hhash hlive
        have hheader := (tracked_setEntry hclaim hcap hadd
          { fresh with weight := w.delta }).1
        refine ⟨by rw [hheader]; exact hcapped.sound, ?_, ?_, ?_⟩
        · rw [hedges, Function.update_of_ne (Ne.symm hne), ← Finset.subset_empty,
            ← hcapped.hashed]
          exact retiredEdges_subset table ehash victim 0
        · rw [hedges, hheader]
          exact htracks
        · intro other
          rw [hedges, hheader]
          by_cases heq : other = ehash
          · subst heq
            rw [Function.update_self]
            exact (Finset.card_insert_le _ _).trans hroom
          · rw [Function.update_of_ne heq]
            exact (Finset.card_le_card (retiredEdges_subset table ehash victim other)).trans
              (hcapped.within other)
      · contradiction

/-! ## The rebuild -/

theorem decay_edges_subset (table : Table) (ehash : UInt64) :
    (decay table).1.edges ehash ⊆ table.edges ehash := by
  intro idx hmem
  rw [mem_edges, decay_header, decay_entries] at hmem
  obtain ⟨hlt, hlive, hhash⟩ := hmem
  rw [if_pos hlt] at hlive hhash
  obtain ⟨hold, _, hentry⟩ := live_of_decayedEntry hlive
  rw [hentry] at hhash
  exact mem_edges.mpr ⟨hlt, hold, hhash⟩

/-- The rebuild has visited the entries below `k`. -/
structure Rebuilt (table : Table) (k : ℕ) (state : Table) : Prop where
  shrinks : ∀ ehash, state.edges ehash ⊆ table.edges ehash
  tracks : Tracks table.header state.occ
    fun ehash => (state.edges ehash).filter (· < k)

theorem rebuilt_start {table : Table} (hcapped : Capped table) :
    Rebuilt table 0 (zeroSidecar table) where
  shrinks _ := Finset.Subset.refl _
  tracks := by
    apply tracks_of_no_record
    · intro idx
      unfold zeroSidecar
      simp only
      split_ifs with hlt
      · rfl
      · exact hcapped.occ_out_of_range (Nat.le_of_not_gt hlt)
    · intro ehash _
      simp

theorem filter_lt_succ_of_notMem {edges : Finset ℕ} {k : ℕ} (hk : k ∉ edges) :
    edges.filter (· < k + 1) = edges.filter (· < k) := by
  apply Finset.filter_congr
  intro idx hmem
  have hne : idx ≠ k := fun heq => hk (heq ▸ hmem)
  omega

theorem filter_lt_succ_of_mem {edges : Finset ℕ} {k : ℕ} (hk : k ∈ edges) :
    edges.filter (· < k + 1) = insert k (edges.filter (· < k)) := by
  ext idx
  simp only [Finset.mem_filter, Finset.mem_insert]
  constructor
  · rintro ⟨hmem, hlt⟩
    by_cases heq : idx = k
    · exact Or.inl heq
    · exact Or.inr ⟨hmem, by omega⟩
  · rintro (rfl | ⟨hmem, hlt⟩)
    · exact ⟨hk, by omega⟩
    · exact ⟨hmem, by omega⟩

/-- An evicted entry leaves its set and is in no record of the rebuilt sidecar. -/
theorem rebuilt_evicted {table state : Table} {k : ℕ} (hrebuilt : Rebuilt table k state) :
    Rebuilt table (k + 1)
      (state.setEntry k { state.entries k with keyHash := slotTombstone }) := by
  have hedges := fun ehash => @edges_setEntry_of_dead state k
    { state.entries k with keyHash := slotTombstone } (tombstone_dead rfl) ehash
  constructor
  · intro ehash
    rw [hedges]
    exact (Finset.erase_subset _ _).trans (hrebuilt.shrinks ehash)
  · have hsets : (fun ehash => ((state.setEntry k
        { state.entries k with keyHash := slotTombstone }).edges ehash).filter
          (· < k + 1)) = fun ehash => (state.edges ehash).filter (· < k) := by
      funext ehash
      rw [hedges, filter_lt_succ_of_notMem (Finset.notMem_erase _ _)]
      ext idx
      simp only [Finset.mem_filter, Finset.mem_erase]
      constructor
      · rintro ⟨⟨_, hmem⟩, hlt⟩
        exact ⟨hmem, hlt⟩
      · rintro ⟨hmem, hlt⟩
        exact ⟨⟨by omega, hmem⟩, hlt⟩
    rw [hsets]
    exact hrebuilt.tracks

/-- A surviving entry keeps its place in its set and is added to the record. -/
theorem rebuilt_survivor {table state lowered : Table} (hcapped : Capped table) {k : ℕ}
    (hk : k < table.header.capacity) (hheader : state.header = table.header)
    (hrebuilt : Rebuilt table k state) (hlive : (state.entries k).Live)
    (hlowHeader : lowered.header = table.header) (hlowOcc : lowered.occ = state.occ)
    (hedges : lowered.edges = state.edges) :
    Rebuilt table (k + 1) (occAddSlot lowered (state.entries k).entityHash k).2 := by
  have hframe := occAddSlot_frame lowered (state.entries k).entityHash k
  have hadded : (occAddSlot lowered (state.entries k).entityHash k).2.edges =
      state.edges := by
    rw [← hedges]
    exact edges_congr (by rw [hframe.1]) hframe.2
  have hmem : k ∈ state.edges (state.entries k).entityHash :=
    mem_edges.mpr ⟨hheader ▸ hk, hlive, rfl⟩
  have hne : (state.entries k).entityHash ≠ 0 := by
    intro hzero
    have hin := hrebuilt.shrinks _ hmem
    rw [hzero, hcapped.hashed] at hin
    exact Finset.notMem_empty _ hin
  have hroom : ((state.edges (state.entries k).entityHash).filter
      (· < k)).card < perEntityCapMax := by
    have hlt : ((state.edges (state.entries k).entityHash).filter
        (· < k)).card < (state.edges (state.entries k).entityHash).card := by
      apply Finset.card_lt_card
      exact (Finset.ssubset_iff_of_subset (Finset.filter_subset _ _)).mpr
        ⟨k, hmem, by simp⟩
    have hle := Finset.card_le_card (hrebuilt.shrinks (state.entries k).entityHash)
    have hmax := hcapped.card_le_capMax (state.entries k).entityHash
    omega
  have htracks := @occAddSlot_tracks lowered
    (fun ehash => (state.edges ehash).filter (· < k))
    (by rw [hlowHeader, hlowOcc]; exact hrebuilt.tracks) _ hne k
    (by simp) (fun _ _ => hroom)
  constructor
  · rw [hadded]
    exact hrebuilt.shrinks
  · have hsets : (fun ehash =>
        ((occAddSlot lowered (state.entries k).entityHash k).2.edges
          ehash).filter (· < k + 1)) =
        Function.update (fun ehash => (state.edges ehash).filter (· < k))
          (state.entries k).entityHash
          (insert k ((state.edges (state.entries k).entityHash).filter (· < k))) := by
      funext ehash
      rw [hadded]
      by_cases heq : ehash = (state.entries k).entityHash
      · rw [heq, Function.update_self, filter_lt_succ_of_mem hmem]
      · rw [Function.update_of_ne heq, filter_lt_succ_of_notMem]
        intro hother
        exact heq (mem_edges.mp hother).2.2.symm
    rw [hsets, ← hlowHeader]
    exact htracks

theorem rebuilt_skipped {table state : Table} {k : ℕ} (hrebuilt : Rebuilt table k state)
    (hdead : ¬ (state.entries k).Live) : Rebuilt table (k + 1) state := by
  refine ⟨hrebuilt.shrinks, ?_⟩
  have hsets : (fun ehash => (state.edges ehash).filter (· < k + 1)) =
      fun ehash => (state.edges ehash).filter (· < k) := by
    funext ehash
    exact filter_lt_succ_of_notMem fun hmem => hdead (mem_edges.mp hmem).2.1
  rw [hsets]
  exact hrebuilt.tracks

theorem rebuilt_step {table : Table} (hcapped : Capped table)
    {k : ℕ} {state : Table × ℕ} (hk : k < table.header.capacity)
    (hheader : state.1.header = table.header) (hrebuilt : Rebuilt table k state.1) :
    Rebuilt table (k + 1) (decayStep state k).1 := by
  unfold decayStep
  simp only
  split_ifs with hlive hfloor
  · exact rebuilt_evicted hrebuilt
  · refine rebuilt_survivor hcapped hk hheader hrebuilt hlive ?_ ?_ ?_
    · rw [setEntry_header, hheader]
    · rw [setEntry_occ]
    · exact edges_setEntry_of_same Iff.rfl rfl
  · exact rebuilt_skipped hrebuilt hlive

theorem decay_capped {table : Table} (hcapped : Capped table) :
    Capped (decay table).1 := by
  have hrebuilt : Rebuilt table table.header.capacity (decay table).1 :=
    decay_induction (motive := Rebuilt table) (rebuilt_start hcapped)
      fun k state hk hheader hgood => rebuilt_step hcapped hk hheader hgood
  have hsets : (fun ehash => ((decay table).1.edges ehash).filter
      (· < table.header.capacity)) = (decay table).1.edges := by
    funext ehash
    apply Finset.filter_true_of_mem
    intro idx hmem
    rw [← decay_header table]
    exact (mem_edges.mp hmem).1
  refine ⟨by rw [decay_header]; exact hcapped.sound, ?_, ?_, ?_⟩
  · apply Finset.subset_empty.mp
    rw [← hcapped.hashed]
    exact decay_edges_subset table 0
  · rw [decay_header, ← hsets]
    exact hrebuilt.tracks
  · intro ehash
    rw [decay_header]
    exact (Finset.card_le_card (decay_edges_subset table ehash)).trans
      (hcapped.within ehash)

/-! ## Every reachable table -/

theorem reachable_capped {keyedHash : KeyedHash} {history : History}
    (hreach : (writer keyedHash).Reachable history) : Capped history.table :=
  reachable_induction (motive := fun table _ => Capped table)
    (fun _ _ _ _ hcreate => create_capped hcreate)
    (fun _ _ _ key tLo tHi w hcapped hne _ _ =>
      applyEdge_capped hcapped keyedHash hne key tLo tHi w)
    (fun _ _ hcapped => decay_capped hcapped)
    (fun _ _ hcapped => reset_capped hcapped) hreach

/-- In every reachable state every entity has at most `perEntityCap` live
edges. -/
theorem edges_card_le_perEntityCap (keyedHash : KeyedHash) (history : History)
    (hreach : (writer keyedHash).Reachable history) (ehash : UInt64) :
    (history.table.edges ehash).card ≤ history.table.header.perEntityCap :=
  (reachable_capped hreach).within ehash

theorem edges_card_le_perEntityCap_twoWitnesses :
    3 ∈ twoWitnesses.table.edges 7 ∧ (twoWitnesses.table.edges 7).card ≤ 32 :=
  ⟨by decide, edges_card_le_perEntityCap (fun _ _ => 7) twoWitnesses
    (reachable_replay _ _) 7⟩

end Tac
end LibWake
