import LibWake.TacChecked

/-!
# Which indices of an opened table are in range

The checked functions agree with the unchecked ones on every table with a
sound header, whatever its arrays hold, except for one eviction: a record
which claims more than `perEntityCapMax` edges sends `occDelSlot` beyond the
end of its slot list.
-/

namespace LibWake
namespace Tac

open Checked

/-! ## The sidecar -/

theorem occFind_lt {table : Table} (hsound : table.header.Sound)
    {ehash : UInt64} {claim : Bool} {idx : ℕ}
    (hfind : (occFind table ehash claim).1 = some idx) :
    idx < table.header.occSlots :=
  lt_of_mem_occWindow hsound (mem_of_occFindIn hfind)

theorem occFindInChecked_eq (table : Table) (ehash : UInt64) (claim : Bool)
    {window : List ℕ} (hwindow : ∀ idx ∈ window, idx < table.header.occSlots) :
    occFindInChecked table ehash claim window =
      .ok (occFindIn table ehash claim window) := by
  induction window with
  | nil => rfl
  | cons idx rest ih =>
      have hlt := hwindow idx List.mem_cons_self
      have hrest := ih fun other hmem => hwindow other (List.mem_cons_of_mem _ hmem)
      unfold occFindInChecked occFindIn
      rw [readOccAt_of_lt hlt, ok_bind, hrest, writeOccAt_of_lt hlt]
      split_ifs <;> rfl

theorem occFindChecked_eq {table : Table} (hsound : table.header.Sound)
    (ehash : UInt64) (claim : Bool) :
    occFindChecked table ehash claim = .ok (occFind table ehash claim) :=
  occFindInChecked_eq table ehash claim fun _ hmem =>
    lt_of_mem_occWindow hsound hmem

theorem occCountChecked_eq {table : Table} (hsound : table.header.Sound)
    (ehash : UInt64) :
    occCountChecked table ehash = .ok (occCount table ehash) := by
  unfold occCountChecked occCount
  rw [occFindChecked_eq hsound, ok_bind]
  cases hfind : (occFind table ehash false).1 with
  | none => rfl
  | some idx =>
      simp only [readOccAt_of_lt (occFind_lt hsound hfind), ok_bind, pure_eq_ok]

theorem occAddSlotChecked_eq {table : Table} (hsound : table.header.Sound)
    (ehash : UInt64) (entryIdx : ℕ) :
    occAddSlotChecked table ehash entryIdx =
      .ok (occAddSlot table ehash entryIdx) := by
  unfold occAddSlotChecked occAddSlot
  rw [occFindChecked_eq hsound, ok_bind]
  have hheader := occFindIn_header table ehash true (occWindow table.header ehash)
  cases hfind : occFind table ehash true with
  | mk found next =>
      have hnext : next.header = table.header := by
        have : (occFind table ehash true).2.header = table.header := hheader
        rwa [hfind] at this
      cases found with
      | none => rfl
      | some idx =>
          have hlt : idx < next.header.occSlots := by
            rw [hnext]
            exact occFind_lt hsound (by rw [hfind])
          simp only [readOccAt_of_lt hlt, ok_bind]
          split_ifs with hfull
          · rfl
          · rw [writeSlotAt_of_lt (Nat.lt_of_not_ge hfull), ok_bind,
              writeOccAt_of_lt hlt]
            rfl

/-- The count which the sidecar stores decides whether `occDelSlot` stays
inside the slot list. -/
theorem occDelSlotChecked_eq {table : Table} (hsound : table.header.Sound)
    {ehash : UInt64} (entryIdx : ℕ)
    (hfits : occCount table ehash ≤ perEntityCapMax) :
    occDelSlotChecked table ehash entryIdx =
      .ok (occDelSlot table ehash entryIdx) := by
  unfold occDelSlotChecked occDelSlot
  rw [occFindChecked_eq hsound, ok_bind]
  unfold occCount at hfits
  cases hfind : (occFind table ehash false).1 with
  | none => rfl
  | some idx =>
      have hlt := occFind_lt hsound hfind
      simp only [hfind] at hfits
      simp only [readOccAt_of_lt hlt, ok_bind]
      rw [find_eq_ok (table.occ idx).slot, ok_bind]
      · cases hlisted : (List.range (min (table.occ idx).liveCount
            perEntityCapMax)).find? fun i =>
              decide ((table.occ idx).slot i = entryIdx) with
        | none => rfl
        | some i =>
            have hi := List.mem_range.mp (List.mem_of_find?_eq_some hlisted)
            simp only
            rw [readSlotAt_of_lt (by omega), ok_bind,
              writeSlotAt_of_lt (by omega), ok_bind, writeOccAt_of_lt hlt]
      · intro i hi
        exact readSlotAt_of_lt (by have := List.mem_range.mp hi; omega)

theorem occDelSlotChecked_fault {table : Table} (hsound : table.header.Sound)
    {ehash : UInt64} {entryIdx recordIdx i : ℕ}
    (hfind : (occFind table ehash false).1 = some recordIdx)
    (hover : perEntityCapMax < (table.occ recordIdx).liveCount)
    (hi : i < perEntityCapMax) (hslot : (table.occ recordIdx).slot i = entryIdx) :
    occDelSlotChecked table ehash entryIdx =
      .error (.recordSlot ((table.occ recordIdx).liveCount - 1)) := by
  unfold occDelSlotChecked
  rw [occFindChecked_eq hsound, ok_bind]
  simp only [hfind, readOccAt_of_lt (occFind_lt hsound hfind), ok_bind]
  rw [find_eq_ok (table.occ recordIdx).slot, ok_bind]
  · cases hlisted : (List.range (min (table.occ recordIdx).liveCount
        perEntityCapMax)).find? fun j =>
          decide ((table.occ recordIdx).slot j = entryIdx) with
    | none =>
        have hmiss := List.find?_eq_none.mp hlisted i
          (List.mem_range.mpr (by omega))
        simp [hslot] at hmiss
    | some j =>
        have hread : (table.occ recordIdx).readSlotAt
            ((table.occ recordIdx).liveCount - 1) =
              .error (.recordSlot ((table.occ recordIdx).liveCount - 1)) :=
          read_of_le (by omega)
        simp only [hread, error_bind]
  · intro j hj
    exact readSlotAt_of_lt (by have := List.mem_range.mp hj; omega)

/-! ## The entry array -/

theorem findSlotInChecked_eq (table : Table) (slotKey : UInt64)
    {window : List ℕ} (hwindow : ∀ idx ∈ window, idx < table.header.capacity) :
    findSlotInChecked table slotKey window =
      .ok (findSlotIn table slotKey window) := by
  induction window with
  | nil => rfl
  | cons idx rest ih =>
      have hrest := ih fun other hmem => hwindow other (List.mem_cons_of_mem _ hmem)
      unfold findSlotInChecked findSlotIn
      rw [readEntryAt_of_lt (hwindow idx List.mem_cons_self), ok_bind, hrest]
      split_ifs <;> rfl

theorem mem_of_findSlotIn {table : Table} {slotKey : UInt64}
    {window : List ℕ} {idx : ℕ} (hfind : findSlotIn table slotKey window = some idx) :
    idx ∈ window := by
  induction window with
  | nil => simp [findSlotIn] at hfind
  | cons head rest ih =>
      unfold findSlotIn at hfind
      split_ifs at hfind
      · simp only [Option.some.injEq] at hfind
        exact hfind ▸ List.mem_cons_self
      · exact List.mem_cons_of_mem _ (ih hfind)

theorem findSlot_lt {table : Table} (hsound : table.header.Sound)
    {slotKey : UInt64} {idx : ℕ} (hfind : findSlot table slotKey = some idx) :
    idx < table.header.capacity :=
  lt_of_mem_probeWindow hsound (mem_of_findSlotIn hfind)

theorem findSlotChecked_eq {table : Table} (hsound : table.header.Sound)
    (slotKey : UInt64) :
    findSlotChecked table slotKey = .ok (findSlot table slotKey) :=
  findSlotInChecked_eq table slotKey fun _ hmem =>
    lt_of_mem_probeWindow hsound hmem

theorem claimSlot_lt {table : Table} (hsound : table.header.Sound)
    {slotKey : UInt64} {idx : ℕ} (hclaim : claimSlot table slotKey = some idx) :
    idx < table.header.capacity :=
  lt_of_mem_probeWindow hsound (claimSlot_some hclaim).1

theorem claimSlotChecked_eq {table : Table} (hsound : table.header.Sound)
    (slotKey : UInt64) :
    claimSlotChecked table slotKey = .ok (claimSlot table slotKey) :=
  find_eq_ok _ fun _ hmem => readEntryAt_of_lt (lt_of_mem_probeWindow hsound hmem)

theorem applyExistingChecked_eq {table : Table} {idx : ℕ}
    (hlt : idx < table.header.capacity) (w : Witnesses) :
    applyExistingChecked table idx w = .ok (applyExisting table idx w) := by
  simp only [applyExistingChecked, applyExisting, readEntryAt_of_lt hlt, ok_bind]
  split_ifs
  · rfl
  · cases chargeExisting table.header (table.entries idx).budget w.w0Src
        w.w1Src w.delta with
    | none => rfl
    | some charged =>
        simp only [writeEntryAt_of_lt hlt, ok_bind, pure_eq_ok]

/-! ## The victim -/

theorem weakestStepChecked_eq (table : Table) (ehash : UInt64) (record : Occ)
    (best : Option ℕ × ℕ) {i : ℕ} (hi : i < perEntityCapMax) :
    weakestStepChecked table ehash record best i =
      .ok (weakestStep table ehash record best i) := by
  unfold weakestStepChecked weakestStep
  rw [readSlotAt_of_lt hi, ok_bind]
  by_cases hrange : record.slot i ≥ table.header.capacity
  · simp [hrange]
  · simp only [if_neg hrange, readEntryAt_of_lt (Nat.lt_of_not_ge hrange), ok_bind]
    split_ifs <;> rfl

theorem weakestEdgeChecked_eq {table : Table} (hsound : table.header.Sound)
    (ehash : UInt64) :
    weakestEdgeChecked table ehash = .ok (weakestEdge table ehash) := by
  unfold weakestEdgeChecked weakestEdge
  rw [occFindChecked_eq hsound, ok_bind]
  cases hfind : (occFind table ehash false).1 with
  | none => rfl
  | some recordIdx =>
      simp only [readOccAt_of_lt (occFind_lt hsound hfind), ok_bind]
      apply foldlM_eq_ok (motive := fun _ => True)
      · intro i hi best _
        have hlt := List.mem_range.mp hi
        exact weakestStepChecked_eq table ehash _ best (by omega)
      · exact fun _ _ _ _ => trivial
      · trivial

theorem capDecisionChecked_eq {table : Table} (hsound : table.header.Sound)
    (ehash : UInt64) (delta : ℕ) :
    capDecisionChecked table ehash delta = .ok (capDecision table ehash delta) := by
  unfold capDecisionChecked capDecision
  rw [occCountChecked_eq hsound, ok_bind]
  split_ifs
  · rw [weakestEdgeChecked_eq hsound, ok_bind]
    cases weakestEdge table ehash with
    | mk found weakestW =>
        cases found with
        | none => rfl
        | some victim => rfl
  · rfl

/-- The victim search proposes an index which it read from the record. -/
theorem weakestFold_listed {table : Table} {ehash : UInt64} {record : Occ}
    {listed : List ℕ} {best : Option ℕ × ℕ} {victim : ℕ}
    (hbest : best.1 ≠ some victim)
    (hvictim : (listed.foldl (weakestStep table ehash record) best).1 =
      some victim) :
    ∃ i ∈ listed, record.slot i = victim := by
  induction listed generalizing best with
  | nil => exact absurd hvictim hbest
  | cons i rest ih =>
      by_cases hslot : record.slot i = victim
      · exact ⟨i, List.mem_cons_self, hslot⟩
      · rw [List.foldl_cons] at hvictim
        have hnext : (weakestStep table ehash record best i).1 ≠ some victim := by
          unfold weakestStep
          simp only
          split_ifs
          all_goals first
            | exact hbest
            | simpa using hslot
        obtain ⟨j, hmem, heq⟩ := ih hnext hvictim
        exact ⟨j, List.mem_cons_of_mem _ hmem, heq⟩

theorem capDecision_listed {table : Table} {ehash : UInt64} {delta victim : ℕ}
    (hcap : capDecision table ehash delta = some (some victim)) :
    ∃ recordIdx, (occFind table ehash false).1 = some recordIdx ∧
      ∃ i < perEntityCapMax, (table.occ recordIdx).slot i = victim := by
  unfold capDecision at hcap
  split_ifs at hcap with hfull
  · cases hweak : weakestEdge table ehash with
    | mk found weakestW =>
        rw [hweak] at hcap
        cases found with
        | none => simp at hcap
        | some found =>
            simp only at hcap
            split_ifs at hcap
            simp only [Option.some.injEq] at hcap
            subst hcap
            unfold weakestEdge at hweak
            cases hfind : (occFind table ehash false).1 with
            | none => simp [hfind] at hweak
            | some recordIdx =>
                simp only [hfind] at hweak
                obtain ⟨i, hi, hslot⟩ :=
                  weakestFold_listed (by simp) (congrArg Prod.fst hweak)
                have hlt := List.mem_range.mp hi
                exact ⟨recordIdx, rfl, i, by omega, hslot⟩
  · simp at hcap

/-! ## One edge -/

/-- If this `applyEdge` evicts a victim, the sidecar record of the entity
claims no more edges than its slot list can hold. -/
def EvictionFits (table : Table) (slotKey ehash : UInt64) (delta : ℕ) : Prop :=
  ∀ victim idx, findSlot table slotKey = none →
    capDecision table ehash delta = some (some victim) →
    claimSlot table slotKey = some idx →
    occCount table ehash ≤ perEntityCapMax

section OneEdge

variable {table : Table}

/-- The table on which the victim's index is dropped from the sidecar. -/
def tombstonedVictim (table : Table) (idx victim : ℕ) (slotKey : UInt64) : Table :=
  let claimed := table.setEntry idx { table.entries idx with keyHash := slotKey }
  claimed.setEntry victim
    { claimed.entries victim with weight := 0, keyHash := slotTombstone }

theorem retireVictimChecked_eq {ehash : UInt64} {idx victim : ℕ} (slotKey : UInt64)
    (hvictim : victim < table.header.capacity) :
    retireVictimChecked
        (table.setEntry idx { table.entries idx with keyHash := slotKey })
        ehash (some victim) =
      occDelSlotChecked (tombstonedVictim table idx victim slotKey) ehash victim := by
  rw [retireVictimChecked, readEntryAt_of_lt (by simpa using hvictim), ok_bind,
    writeEntryAt_of_lt (by simpa using hvictim), ok_bind]
  rfl

variable (hsound : table.header.Sound)

include hsound

theorem fillClaimedChecked_eq {slotKey ehash : UInt64} {delta idx : ℕ}
    {victim : Option ℕ} (hne : ehash ≠ 0) (fresh : Entry)
    (hcap : capDecision table ehash delta = some victim)
    (hclaim : claimSlot table slotKey = some idx)
    (hfits : ∀ v, victim = some v → occCount table ehash ≤ perEntityCapMax) :
    fillClaimedChecked table idx victim slotKey ehash fresh =
      .ok (fillClaimed table idx victim slotKey ehash fresh) := by
  have hlt := claimSlot_lt hsound hclaim
  unfold fillClaimedChecked fillClaimed
  rw [readEntryAt_of_lt hlt, ok_bind, writeEntryAt_of_lt hlt, ok_bind]
  cases victim with
  | none =>
      rw [retireVictimChecked, pure_eq_ok, ok_bind,
        writeEntryAt_of_lt (by simpa using hlt)]
      rfl
  | some victim =>
      have hvictim := (mem_edges.mp (capDecision_victim hcap).1).1
      have hcount : occCount (tombstonedVictim table idx victim slotKey) ehash =
          occCount table ehash := by
        unfold occCount
        rw [occFind_noClaim _ hne, occFind_noClaim _ hne]
        rfl
      rw [retireVictimChecked_eq slotKey hvictim,
        @occDelSlotChecked_eq (tombstonedVictim table idx victim slotKey)
          hsound _ victim (hcount ▸ hfits victim rfl), ok_bind, writeEntryAt_of_lt]
      · rfl
      · rw [(occDelSlot_frame _ _ _).1]
        exact hlt

theorem fillClaimedChecked_fault {slotKey ehash : UInt64} {delta idx victim : ℕ}
    (hne : ehash ≠ 0) (fresh : Entry)
    (hcap : capDecision table ehash delta = some (some victim))
    (hclaim : claimSlot table slotKey = some idx)
    (hover : perEntityCapMax < occCount table ehash) :
    fillClaimedChecked table idx (some victim) slotKey ehash fresh =
      .error (.recordSlot (occCount table ehash - 1)) := by
  have hlt := claimSlot_lt hsound hclaim
  have hvictim := (mem_edges.mp (capDecision_victim hcap).1).1
  obtain ⟨recordIdx, hfind, i, hi, hslot⟩ := capDecision_listed hcap
  have hcount : occCount table ehash = (table.occ recordIdx).liveCount := by
    unfold occCount
    rw [hfind]
  have hsame : (occFind (tombstonedVictim table idx victim slotKey) ehash
      false).1 = some recordIdx := by
    rw [← hfind, occFind_noClaim _ hne, occFind_noClaim _ hne]
    rfl
  unfold fillClaimedChecked
  rw [readEntryAt_of_lt hlt, ok_bind, writeEntryAt_of_lt hlt, ok_bind,
    retireVictimChecked_eq slotKey hvictim,
    @occDelSlotChecked_fault (tombstonedVictim table idx victim slotKey)
      hsound _ _ _ _ hsame (hcount ▸ hover) hi hslot, error_bind, hcount]
  rfl

theorem applyNewChecked_eq {slotKey ehash : UInt64} (hne : ehash ≠ 0)
    (key : List UInt8) (tLo tHi : UInt32) (w : Witnesses)
    (hfits : ∀ victim idx, capDecision table ehash w.delta = some (some victim) →
      claimSlot table slotKey = some idx → occCount table ehash ≤ perEntityCapMax) :
    applyNewChecked table slotKey ehash key tLo tHi w =
      .ok (applyNew table slotKey ehash key tLo tHi w) := by
  unfold applyNewChecked applyNew
  rw [capDecisionChecked_eq hsound, ok_bind]
  cases hcap : capDecision table ehash w.delta with
  | none => rfl
  | some victim =>
      simp only [claimSlotChecked_eq hsound, ok_bind]
      cases hclaim : claimSlot table slotKey with
      | none => rfl
      | some idx =>
          have hlt := claimSlot_lt hsound hclaim
          simp only [readEntryAt_of_lt hlt, ok_bind]
          generalize claimedEntry table.header (table.entries idx) slotKey ehash
            key tLo tHi w = fresh
          have hfill := fillClaimedChecked_eq hsound hne fresh hcap hclaim
            fun v hv => hfits v idx (hv ▸ hcap) hclaim
          have hheader := fillClaimed_header table idx victim slotKey ehash fresh
          rw [hfill, ok_bind, occAddSlotChecked_eq (by rwa [hheader]), ok_bind]
          have hframe := (occAddSlot_frame
            (fillClaimed table idx victim slotKey ehash fresh) ehash idx).1
          cases hadd : occAddSlot (fillClaimed table idx victim slotKey ehash fresh)
              ehash idx with
          | mk answer tracked =>
              rw [hadd, hheader] at hframe
              cases answer with
              | false =>
                  simp only [writeEntryAt_of_lt (hframe ▸ hlt), ok_bind, pure_eq_ok]
              | true =>
                  simp only [writeEntryAt_of_lt (hframe ▸ hlt), ok_bind, pure_eq_ok]

theorem applyEdgeChecked_eq (keyedHash : KeyedHash) {ehash : UInt64}
    (hne : ehash ≠ 0) (key : List UInt8) (tLo tHi : UInt32) (w : Witnesses)
    (hfits : EvictionFits table (slotHashOf keyedHash table ehash tLo tHi) ehash
      w.delta) :
    applyEdgeChecked keyedHash table ehash key tLo tHi w =
      .ok (applyEdge keyedHash table ehash key tLo tHi w) := by
  unfold applyEdgeChecked applyEdge
  simp only [findSlotChecked_eq hsound, ok_bind]
  cases hfind : findSlot table (slotHashOf keyedHash table ehash tLo tHi) with
  | some idx => exact applyExistingChecked_eq (findSlot_lt hsound hfind) w
  | none =>
      exact applyNewChecked_eq hsound hne key tLo tHi w
        fun victim idx => hfits victim idx hfind

theorem applyEdgeChecked_fault (keyedHash : KeyedHash) {ehash : UInt64}
    (hne : ehash ≠ 0) (key : List UInt8) (tLo tHi : UInt32) (w : Witnesses)
    (hover : ¬ EvictionFits table (slotHashOf keyedHash table ehash tLo tHi)
      ehash w.delta) :
    applyEdgeChecked keyedHash table ehash key tLo tHi w =
      .error (.recordSlot (occCount table ehash - 1)) := by
  unfold EvictionFits at hover
  push Not at hover
  obtain ⟨victim, idx, hfind, hcap, hclaim, hcount⟩ := hover
  simp only [applyEdgeChecked, findSlotChecked_eq hsound, ok_bind, hfind,
    applyNewChecked, capDecisionChecked_eq hsound, hcap,
    claimSlotChecked_eq hsound, hclaim,
    readEntryAt_of_lt (claimSlot_lt hsound hclaim)]
  rw [fillClaimedChecked_fault hsound hne _ hcap hclaim hcount, error_bind]

end OneEdge

end Tac
end LibWake
