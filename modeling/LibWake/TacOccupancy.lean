import LibWake.OpenAddressing
import LibWake.DenseArray
import LibWake.TacModel

/-!
# The occupancy sidecar of the coupling table

The sidecar is a hash table without tombstones from entity hashes to dense
lists of entry indices.  `Tracks` says that its records list a given family of
edge sets exactly, and that an entity without a record either has no edges or
has a full probe window.  Adding and removing an index keep it.
-/

namespace LibWake
namespace Tac

open OpenAddressing

/-- The sidecar as an open-addressed table: hash zero is an empty slot. -/
def sidecarSlots (occ : ℕ → Occ) (idx : ℕ) : Slot UInt64 :=
  Slot.ofTag 0 0 (occ idx).entityHash

theorem sidecarSlots_eq_live_iff {occ : ℕ → Occ} {idx : ℕ} {ehash : UInt64} :
    sidecarSlots occ idx = .live ehash ↔
      (occ idx).entityHash = ehash ∧ ehash ≠ 0 := by
  unfold sidecarSlots
  rw [Slot.ofTag_eq_live_iff]
  constructor
  · rintro ⟨heq, hne, _⟩
    exact ⟨heq, heq ▸ hne⟩
  · rintro ⟨heq, hne⟩
    exact ⟨heq, heq ▸ hne, heq ▸ hne⟩

theorem sidecarSlots_isFree_iff {occ : ℕ → Occ} {idx : ℕ} :
    (sidecarSlots occ idx).isFree = true ↔ (occ idx).entityHash = 0 := by
  simp [sidecarSlots]

@[simp] theorem setOcc_occ (table : Table) (idx : ℕ) (record : Occ) :
    (table.setOcc idx record).occ = Function.update table.occ idx record := rfl

@[simp] theorem setEntry_header (table : Table) (idx : ℕ) (entry : Entry) :
    (table.setEntry idx entry).header = table.header := rfl

@[simp] theorem setEntry_entries (table : Table) (idx : ℕ) (entry : Entry) :
    (table.setEntry idx entry).entries =
      Function.update table.entries idx entry := rfl

@[simp] theorem setEntry_occ (table : Table) (idx : ℕ) (entry : Entry) :
    (table.setEntry idx entry).occ = table.occ := rfl

/-! ## The probe loop -/

theorem occFindIn_header (table : Table) (ehash : UInt64) (claim : Bool)
    (window : List ℕ) :
    (occFindIn table ehash claim window).2.header = table.header := by
  induction window with
  | nil => rfl
  | cons idx rest ih =>
      unfold occFindIn
      split_ifs
      · rfl
      · rfl
      · rfl
      · exact ih

theorem mem_of_occFindIn {table : Table} {ehash : UInt64} {claim : Bool}
    {window : List ℕ} {idx : ℕ}
    (hfind : (occFindIn table ehash claim window).1 = some idx) :
    idx ∈ window := by
  induction window with
  | nil => simp [occFindIn] at hfind
  | cons head rest ih =>
      unfold occFindIn at hfind
      split_ifs at hfind
      · simp only [Option.some.injEq] at hfind
        exact hfind ▸ List.mem_cons_self
      · simp only [Option.some.injEq] at hfind
        exact hfind ▸ List.mem_cons_self
      · exact List.mem_cons_of_mem _ (ih hfind)

/-- A change of the table which the sidecar loops of one entity neither see nor disturb. -/
structure Unseen (change : Table → Table) (h : Header) (ehash : UInt64) : Prop where
  header : ∀ table, (change table).header = table.header
  read : ∀ table, table.header = h → ∀ idx ∈ occWindow h ehash,
    (change table).occ idx = table.occ idx
  write : ∀ table, table.header = h → ∀ idx ∈ occWindow h ehash, ∀ record,
    (change table).setOcc idx record = change (table.setOcc idx record)

namespace Unseen

variable {change : Table → Table} {table : Table} {ehash : UInt64}

theorem occFind (hunseen : Unseen change table.header ehash) (claim : Bool) :
    occFind (change table) ehash claim =
      ((occFind table ehash claim).1, change (occFind table ehash claim).2) := by
  have hloop : ∀ window, (∀ idx ∈ window, idx ∈ occWindow table.header ehash) →
      occFindIn (change table) ehash claim window =
        ((occFindIn table ehash claim window).1,
          change (occFindIn table ehash claim window).2) := by
    intro window hwindow
    induction window with
    | nil => rfl
    | cons idx rest ih =>
        have hmem := hwindow idx List.mem_cons_self
        unfold occFindIn
        rw [hunseen.read table rfl idx hmem, hunseen.write table rfl idx hmem,
          ih fun other hother => hwindow other (List.mem_cons_of_mem _ hother)]
        split_ifs <;> rfl
  unfold Tac.occFind
  rw [hunseen.header]
  exact hloop _ fun _ hmem => hmem

theorem occAddSlot (hunseen : Unseen change table.header ehash) (entryIdx : ℕ) :
    occAddSlot (change table) ehash entryIdx =
      ((occAddSlot table ehash entryIdx).1, change (occAddSlot table ehash entryIdx).2) := by
  have hheader := occFindIn_header table ehash true (occWindow table.header ehash)
  unfold Tac.occAddSlot
  rw [hunseen.occFind]
  unfold Tac.occFind
  cases hfind : occFindIn table ehash true (occWindow table.header ehash) with
  | mk place found =>
      rw [hfind] at hheader
      cases place with
      | none => rfl
      | some idx =>
          have hmem : idx ∈ occWindow table.header ehash :=
            mem_of_occFindIn (congrArg Prod.fst hfind)
          simp only
          rw [hunseen.read found hheader idx hmem, hunseen.write found hheader idx hmem]
          split_ifs <;> rfl

end Unseen

theorem occFindIn_noClaim (table : Table) {ehash : UInt64} (hne : ehash ≠ 0)
    (window : List ℕ) :
    occFindIn table ehash false window =
      (probeFind (sidecarSlots table.occ) ehash window, table) := by
  induction window with
  | nil => rfl
  | cons idx rest ih =>
      unfold occFindIn probeFind
      by_cases heq : (table.occ idx).entityHash = ehash
      · simp [sidecarSlots, Slot.ofTag, heq, hne]
      · by_cases hzero : (table.occ idx).entityHash = 0
        · simp [sidecarSlots, Slot.ofTag, hzero, Ne.symm hne]
        · rw [if_neg heq, if_neg hzero, ih]
          simp [sidecarSlots, Slot.ofTag, heq, hzero]

/-- With `claim` the loop stops at the record when the search finds one, else
at the first free slot, which it takes over. -/
theorem occFindIn_claim (table : Table) {ehash : UInt64} (hne : ehash ≠ 0)
    (window : List ℕ) :
    occFindIn table ehash true window =
      match probeFind (sidecarSlots table.occ) ehash window with
      | some idx => (some idx, table)
      | none =>
          match probeFree (sidecarSlots table.occ) window with
          | some idx => (some idx, table.setOcc idx
              { table.occ idx with liveCount := 0, entityHash := ehash })
          | none => (none, table) := by
  induction window with
  | nil => rfl
  | cons idx rest ih =>
      unfold occFindIn probeFind probeFree
      rw [List.find?_cons]
      unfold probeFree at ih
      by_cases heq : (table.occ idx).entityHash = ehash
      · simp [sidecarSlots, Slot.ofTag, heq, hne]
      · by_cases hzero : (table.occ idx).entityHash = 0
        · simp [sidecarSlots, Slot.ofTag, Slot.isFree, hzero, Ne.symm hne]
        · simp only [sidecarSlots, Slot.ofTag, heq, hzero, if_false,
            Slot.isFree] at ih ⊢
          exact ih

theorem occFind_noClaim (table : Table) {ehash : UInt64} (hne : ehash ≠ 0) :
    occFind table ehash false =
      (probeFind (sidecarSlots table.occ) ehash
        (occWindow table.header ehash), table) :=
  occFindIn_noClaim table hne _

/-! ## What the sidecar tracks -/

/-- The records list the edge sets `edges` exactly.  An entity without a
record has no edge, or no free slot in its window. -/
structure Tracks (h : Header) (occ : ℕ → Occ)
    (edges : UInt64 → Finset ℕ) : Prop where
  wellProbed : WellProbed (occWindow h) (sidecarSlots occ)
  exact : ∀ idx, (occ idx).entityHash ≠ 0 →
    DenseArray.Lists (occ idx).slot (occ idx).liveCount
      (edges (occ idx).entityHash)
  untracked : ∀ ehash, ehash ≠ 0 →
    (∀ idx, (occ idx).entityHash ≠ ehash) →
      edges ehash = ∅ ∨
        ∀ idx ∈ occWindow h ehash, (occ idx).entityHash ≠ 0

namespace Tracks

variable {h : Header} {occ : ℕ → Occ} {edges : UInt64 → Finset ℕ}

theorem find_eq_some_iff (htracks : Tracks h occ edges)
    {ehash : UInt64} {idx : ℕ} (hne : ehash ≠ 0) :
    probeFind (sidecarSlots occ) ehash (occWindow h ehash) = some idx ↔
      (occ idx).entityHash = ehash := by
  rw [htracks.wellProbed.probeFind_eq_some_iff, sidecarSlots_eq_live_iff]
  simp [hne]

theorem find_eq_none_iff (htracks : Tracks h occ edges)
    {ehash : UInt64} (hne : ehash ≠ 0) :
    probeFind (sidecarSlots occ) ehash (occWindow h ehash) = none ↔
      ∀ idx, (occ idx).entityHash ≠ ehash := by
  rw [htracks.wellProbed.probeFind_eq_none_iff]
  simp [sidecarSlots_eq_live_iff, hne]

/-- The sidecar says nothing about hash zero, and nothing depends on the contents of a free
record. -/
theorem congr (htracks : Tracks h occ edges) {occ' : ℕ → Occ} {edges' : UInt64 → Finset ℕ}
    (hhash : ∀ idx, (occ' idx).entityHash = (occ idx).entityHash)
    (hrecord : ∀ idx, (occ idx).entityHash ≠ 0 → occ' idx = occ idx)
    (hedges : ∀ ehash, ehash ≠ 0 → edges' ehash = edges ehash) : Tracks h occ' edges' := by
  have hslots : sidecarSlots occ' = sidecarSlots occ := by
    funext idx
    rw [sidecarSlots, sidecarSlots, hhash]
  refine ⟨hslots ▸ htracks.wellProbed, ?_, ?_⟩
  · intro idx hlive
    rw [hhash] at hlive
    rw [hrecord idx hlive, hedges _ hlive]
    exact htracks.exact idx hlive
  · intro ehash hne habsent
    simp only [hhash] at habsent ⊢
    rw [hedges ehash hne]
    exact htracks.untracked ehash hne habsent

/-- The edge sets of an untracked entity with a full window are free to
change: the sidecar says nothing about them. -/
theorem update_untracked (htracks : Tracks h occ edges) {ehash : UInt64}
    (habsent : ∀ idx, (occ idx).entityHash ≠ ehash)
    (hfull : ∀ idx ∈ occWindow h ehash, (occ idx).entityHash ≠ 0)
    (set : Finset ℕ) :
    Tracks h occ (Function.update edges ehash set) := by
  refine ⟨htracks.wellProbed, ?_, ?_⟩
  · intro idx hlive
    rw [Function.update_of_ne (habsent idx)]
    exact htracks.exact idx hlive
  · intro other hne hother
    by_cases heq : other = ehash
    · subst heq
      exact Or.inr hfull
    · rw [Function.update_of_ne heq]
      exact htracks.untracked other hne hother

theorem update_record (htracks : Tracks h occ edges)
    {idx : ℕ} (hlive : (occ idx).entityHash ≠ 0)
    (record : Occ) (hsame : record.entityHash = (occ idx).entityHash)
    {set : Finset ℕ}
    (hlists : DenseArray.Lists record.slot record.liveCount set) :
    Tracks h (Function.update occ idx record)
      (Function.update edges (occ idx).entityHash set) := by
  have hhash : ∀ other, (Function.update occ idx record other).entityHash =
      (occ other).entityHash := by
    intro other
    by_cases heq : other = idx
    · subst heq
      simp [hsame]
    · simp [Function.update_of_ne heq]
  have hslots : sidecarSlots (Function.update occ idx record) =
      sidecarSlots occ := by
    funext other
    simp [sidecarSlots, hhash]
  refine ⟨hslots ▸ htracks.wellProbed, ?_, ?_⟩
  · intro other hother
    by_cases heq : other = idx
    · subst heq
      simpa [hsame] using hlists
    · have hne : (occ other).entityHash ≠ (occ idx).entityHash := by
        intro hhashes
        rw [hhash] at hother
        apply heq
        exact htracks.wellProbed.unique other idx _
          (sidecarSlots_eq_live_iff.mpr ⟨hhashes, hlive⟩)
          (sidecarSlots_eq_live_iff.mpr ⟨rfl, hlive⟩)
      rw [Function.update_of_ne heq, Function.update_of_ne hne]
      rw [hhash] at hother
      exact htracks.exact other hother
  · intro ehash hne habsent
    simp only [hhash] at habsent ⊢
    rw [Function.update_of_ne (Ne.symm (habsent idx))]
    exact htracks.untracked ehash hne habsent

/-- Taking over the first free slot of the window for an entity which has no
record, and hence no edge. -/
theorem claim (htracks : Tracks h occ edges) {ehash : UInt64} {idx : ℕ}
    (hne : ehash ≠ 0) (habsent : ∀ other, (occ other).entityHash ≠ ehash)
    (hfree : probeFree (sidecarSlots occ) (occWindow h ehash) = some idx) :
    edges ehash = ∅ ∧
      Tracks h (Function.update occ idx
        { occ idx with liveCount := 0, entityHash := ehash }) edges := by
  have hzero : (occ idx).entityHash = 0 :=
    sidecarSlots_isFree_iff.mp (probeFree_some_isFree hfree)
  have hempty : edges ehash = ∅ := by
    rcases htracks.untracked ehash hne habsent with hempty | hfull
    · exact hempty
    · exact absurd hzero (hfull idx (probeFree_some_mem hfree))
  refine ⟨hempty, ?_, ?_, ?_⟩
  · have hslots : sidecarSlots (Function.update occ idx
        { occ idx with liveCount := 0, entityHash := ehash }) =
          Function.update (sidecarSlots occ) idx (.live ehash) := by
      funext other
      by_cases heq : other = idx
      · subst heq
        simp [sidecarSlots, hne]
      · simp [sidecarSlots, Function.update_of_ne heq]
    rw [hslots]
    apply htracks.wellProbed.claim _ hfree
    intro other hlive
    exact habsent other (sidecarSlots_eq_live_iff.mp hlive).1
  · intro other hlive
    by_cases heq : other = idx
    · subst heq
      simpa [hempty] using DenseArray.Lists.nil (occ other).slot
    · rw [Function.update_of_ne heq] at hlive ⊢
      exact htracks.exact other hlive
  · intro other hother hnone
    have hold : ∀ slot, (occ slot).entityHash ≠ other := by
      intro slot hslot
      by_cases heq : slot = idx
      · subst heq
        exact hother (hslot ▸ hzero)
      · have := hnone slot
        rw [Function.update_of_ne heq] at this
        exact this hslot
    refine (htracks.untracked other hother hold).imp_right ?_
    intro hfull slot hmem
    by_cases heq : slot = idx
    · subst heq
      simpa using hne
    · rw [Function.update_of_ne heq]
      exact hfull slot hmem

end Tracks

/-! ## Counting, adding and removing -/

theorem occCount_of_tracked {table : Table} {edges : UInt64 → Finset ℕ}
    (htracks : Tracks table.header table.occ edges) {idx : ℕ}
    (hlive : (table.occ idx).entityHash ≠ 0) :
    occCount table (table.occ idx).entityHash =
      (edges (table.occ idx).entityHash).card := by
  unfold occCount
  rw [occFind_noClaim table hlive,
    (htracks.find_eq_some_iff hlive).mpr rfl]
  exact (htracks.exact idx hlive).card_eq.symm

theorem occCount_of_untracked {table : Table} {edges : UInt64 → Finset ℕ}
    (htracks : Tracks table.header table.occ edges) {ehash : UInt64}
    (hne : ehash ≠ 0) (habsent : ∀ idx, (table.occ idx).entityHash ≠ ehash) :
    occCount table ehash = 0 := by
  unfold occCount
  rw [occFind_noClaim table hne, (htracks.find_eq_none_iff hne).mpr habsent]

/-- `occAddSlot` refuses without touching the table, or changes the sidecar
only. -/
theorem occAddSlot_frame (table : Table) (ehash : UInt64) (entryIdx : ℕ) :
    (occAddSlot table ehash entryIdx).2.header = table.header ∧
      (occAddSlot table ehash entryIdx).2.entries = table.entries := by
  have hfind : ∀ window, (occFindIn table ehash true window).2.header =
      table.header ∧
        (occFindIn table ehash true window).2.entries = table.entries := by
    intro window
    induction window with
    | nil => exact ⟨rfl, rfl⟩
    | cons idx rest ih =>
        unfold occFindIn
        by_cases heq : (table.occ idx).entityHash = ehash
        · simp [heq]
        · by_cases hzero : (table.occ idx).entityHash = 0
          · rw [if_neg heq, if_pos hzero]
            exact ⟨rfl, rfl⟩
          · simpa [heq, hzero] using ih
  have hthis := hfind (occWindow table.header ehash)
  unfold occAddSlot occFind
  cases hcase : occFindIn table ehash true (occWindow table.header ehash) with
  | mk found next =>
      rw [hcase] at hthis
      cases found with
      | none => exact hthis
      | some idx =>
          simp only
          split_ifs <;> exact hthis

/-- Either the entity is, or becomes, tracked and the index is added to its
list; or it cannot be tracked, and the table is unchanged. -/
theorem occAddSlot_cases {table : Table} {edges : UInt64 → Finset ℕ}
    (htracks : Tracks table.header table.occ edges)
    {ehash : UInt64} (hne : ehash ≠ 0) {entryIdx : ℕ}
    (hfresh : entryIdx ∉ edges ehash)
    (hroom : ∀ idx, (table.occ idx).entityHash = ehash →
      (edges ehash).card < perEntityCapMax) :
    ((occAddSlot table ehash entryIdx).1 = true ∧
        occCount table ehash = (edges ehash).card ∧
        Tracks table.header (occAddSlot table ehash entryIdx).2.occ
          (Function.update edges ehash (insert entryIdx (edges ehash)))) ∨
      (occAddSlot table ehash entryIdx = (false, table) ∧
        (∀ idx, (table.occ idx).entityHash ≠ ehash) ∧
        ∀ idx ∈ occWindow table.header ehash,
          (table.occ idx).entityHash ≠ 0) := by
  unfold occAddSlot occFind
  rw [occFindIn_claim table hne]
  cases hfind : probeFind (sidecarSlots table.occ) ehash
      (occWindow table.header ehash) with
  | some idx =>
      left
      have hhash := (htracks.find_eq_some_iff hne).mp hfind
      have hlive : (table.occ idx).entityHash ≠ 0 := hhash ▸ hne
      have hlists := htracks.exact idx hlive
      have hcount : (edges (table.occ idx).entityHash).card =
          (table.occ idx).liveCount := hlists.card_eq
      rw [hhash] at hlists hcount
      have hlt : ¬ (table.occ idx).liveCount ≥ perEntityCapMax := by
        have := hroom idx hhash
        omega
      refine ⟨by simp [hlt], ?_, ?_⟩
      · rw [← hhash]
        exact occCount_of_tracked htracks hlive
      · simp only [hlt, if_false, setOcc_occ]
        have hstep := htracks.update_record hlive
          ({ table.occ idx with
            slot := Function.update (table.occ idx).slot
              (table.occ idx).liveCount entryIdx
            liveCount := (table.occ idx).liveCount + 1 }) rfl
          (hlists.push hfresh)
        rwa [hhash] at hstep
  | none =>
      have habsent := (htracks.find_eq_none_iff hne).mp hfind
      cases hfree : probeFree (sidecarSlots table.occ)
          (occWindow table.header ehash) with
      | some idx =>
          left
          obtain ⟨hempty, hclaimed⟩ := htracks.claim hne habsent hfree
          have hpos : ¬ (0 ≥ perEntityCapMax) := by decide
          refine ⟨by simp [hpos], ?_, ?_⟩
          · rw [occCount_of_untracked htracks hne habsent, hempty]
            rfl
          · simp only [setOcc_occ, Function.update_self, hpos, if_false,
              Function.update_idem]
            have hnil : DenseArray.Lists (table.occ idx).slot 0
                (edges ehash) := hempty ▸ DenseArray.Lists.nil _
            have hself : (Function.update table.occ idx
                { table.occ idx with liveCount := 0, entityHash := ehash }
                  idx).entityHash = ehash := by simp
            have hstep := hclaimed.update_record
              (by rw [hself]; exact hne : (Function.update table.occ idx
                { table.occ idx with liveCount := 0, entityHash := ehash }
                  idx).entityHash ≠ 0)
              ({ table.occ idx with
                slot := Function.update (table.occ idx).slot 0 entryIdx
                liveCount := 0 + 1
                entityHash := ehash }) hself.symm
              (hnil.push hfresh)
            rw [hself, Function.update_idem] at hstep
            exact hstep
      | none =>
          right
          refine ⟨rfl, habsent, ?_⟩
          intro idx hmem hzero
          obtain ⟨held, hheld⟩ := probeFree_eq_none_iff.mp hfree idx hmem
          have := sidecarSlots_eq_live_iff.mp hheld
          exact this.2 (this.1 ▸ hzero)

/-- A full record refuses a further index. -/
theorem occAddSlot_full {table : Table} {edges : UInt64 → Finset ℕ}
    (htracks : Tracks table.header table.occ edges) {ehash : UInt64} (hne : ehash ≠ 0)
    (hfull : perEntityCapMax ≤ (edges ehash).card) (entryIdx : ℕ) :
    occAddSlot table ehash entryIdx = (false, table) := by
  unfold occAddSlot occFind
  rw [occFindIn_claim table hne]
  cases hfind : probeFind (sidecarSlots table.occ) ehash (occWindow table.header ehash) with
  | some idx =>
      have hhash := (htracks.find_eq_some_iff hne).mp hfind
      have hcount := (htracks.exact idx (hhash ▸ hne)).card_eq
      rw [hhash] at hcount
      have hge : (table.occ idx).liveCount ≥ perEntityCapMax := hcount ▸ hfull
      simp only [hge, if_true]
  | none =>
      have habsent := (htracks.find_eq_none_iff hne).mp hfind
      have hbusy : probeFree (sidecarSlots table.occ) (occWindow table.header ehash) = none := by
        rcases htracks.untracked ehash hne habsent with hempty | hlive
        · rw [hempty, Finset.card_empty] at hfull
          exact absurd hfull (by decide)
        · apply probeFree_eq_none_iff.mpr
          intro idx hmem
          exact ⟨_, sidecarSlots_eq_live_iff.mpr ⟨rfl, hlive idx hmem⟩⟩
      rw [hbusy]

/-- Whatever `occAddSlot` answers, the sidecar tracks the grown edge set. -/
theorem occAddSlot_tracks {table : Table} {edges : UInt64 → Finset ℕ}
    (htracks : Tracks table.header table.occ edges)
    {ehash : UInt64} (hne : ehash ≠ 0) {entryIdx : ℕ}
    (hfresh : entryIdx ∉ edges ehash)
    (hroom : ∀ idx, (table.occ idx).entityHash = ehash →
      (edges ehash).card < perEntityCapMax) :
    Tracks table.header (occAddSlot table ehash entryIdx).2.occ
      (Function.update edges ehash (insert entryIdx (edges ehash))) := by
  rcases occAddSlot_cases htracks hne hfresh hroom with
    ⟨_, _, hadded⟩ | ⟨hrefused, habsent, hfull⟩
  · exact hadded
  · rw [hrefused]
    exact htracks.update_untracked habsent hfull _

theorem occDelSlot_frame (table : Table) (ehash : UInt64) (entryIdx : ℕ) :
    (occDelSlot table ehash entryIdx).header = table.header ∧
      (occDelSlot table ehash entryIdx).entries = table.entries := by
  unfold occDelSlot
  cases (occFind table ehash false).1 with
  | none => exact ⟨rfl, rfl⟩
  | some idx =>
      simp only
      split <;> exact ⟨rfl, rfl⟩

theorem occDelSlot_tracks {table : Table} {edges : UInt64 → Finset ℕ}
    (htracks : Tracks table.header table.occ edges) {idx : ℕ}
    (hlive : (table.occ idx).entityHash ≠ 0)
    (hcap : (edges (table.occ idx).entityHash).card ≤ perEntityCapMax)
    {entryIdx : ℕ} (hmem : entryIdx ∈ edges (table.occ idx).entityHash) :
    Tracks table.header
      (occDelSlot table (table.occ idx).entityHash entryIdx).occ
      (Function.update edges (table.occ idx).entityHash
        ((edges (table.occ idx).entityHash).erase entryIdx)) ∧
      (∀ other, ((occDelSlot table (table.occ idx).entityHash entryIdx).occ
        other).entityHash = (table.occ other).entityHash) := by
  have hlists := htracks.exact idx hlive
  have hcount := hlists.card_eq
  unfold occDelSlot
  rw [occFind_noClaim table hlive, (htracks.find_eq_some_iff hlive).mpr rfl]
  have hmin : min (table.occ idx).liveCount perEntityCapMax =
      (table.occ idx).liveCount := by omega
  simp only [hmin]
  cases hslot : (List.range (table.occ idx).liveCount).find?
      fun i => decide ((table.occ idx).slot i = entryIdx) with
  | none =>
      obtain ⟨i, hi, heq⟩ := hlists.mem_iff.mp hmem
      have := List.find?_eq_none.mp hslot i (List.mem_range.mpr hi)
      simp [heq] at this
  | some i =>
      have hi : i < (table.occ idx).liveCount :=
        List.mem_range.mp (List.mem_of_find?_eq_some hslot)
      have heq : (table.occ idx).slot i = entryIdx := by
        simpa using List.find?_some hslot
      constructor
      · have hstep := htracks.update_record hlive
          ({ table.occ idx with
            slot := Function.update (table.occ idx).slot i
              ((table.occ idx).slot ((table.occ idx).liveCount - 1))
            liveCount := (table.occ idx).liveCount - 1 }) rfl
          (hlists.swapRemove hi)
        rw [heq] at hstep
        exact hstep
      · intro other
        by_cases hother : other = idx
        · subst hother
          simp
        · simp [Function.update_of_ne hother]

end Tac
end LibWake
