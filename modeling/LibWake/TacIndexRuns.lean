import LibWake.TacIndexSafety

/-!
# Runs on an opened table

The calls which a table opened from a file can receive, and the exact
condition under which every index they compute is in range.
-/

namespace LibWake
namespace Tac

open Checked

/-! ## Batches -/

/-- The call of `applyEdge` which a batch makes for one pair stays inside the
slot list of the entity's record. -/
def PairFits (keyedHash : KeyedHash) (ehash : UInt64) (nowRel : UInt32)
    (table : Table) (pair : Activation × Activation) : Prop :=
  let a := pair.1.technique
  let b := pair.2.technique
  EvictionFits table
    (slotHashOf keyedHash table ehash (if a < b then a else b)
      (if a < b then b else a)) ehash
    (Witnesses.delta ⟨pair.1.etaFp16, normalizeSource pair.1.sourceId,
      pair.2.etaFp16, normalizeSource pair.2.sourceId, nowRel⟩)

/-- Every pair fits on the table which the pairs before it left. -/
def PairsFit (keyedHash : KeyedHash) (ehash : UInt64) (key : List UInt8)
    (nowRel : UInt32) : BatchState → List (Activation × Activation) → Prop
  | _, [] => True
  | state, pair :: rest =>
      PairFits keyedHash ehash nowRel state.table pair ∧
        PairsFit keyedHash ehash key nowRel
          (batchStep keyedHash ehash key nowRel state pair) rest

section Batch

variable {keyedHash : KeyedHash} {ehash : UInt64} (hne : ehash ≠ 0)
  {key : List UInt8} {nowRel : UInt32} {state : BatchState}

include hne

theorem batchStepChecked_eq (hsound : state.table.header.Sound)
    {pair : Activation × Activation}
    (hfits : PairFits keyedHash ehash nowRel state.table pair) :
    batchStepChecked keyedHash ehash key nowRel state pair =
      .ok (batchStep keyedHash ehash key nowRel state pair) := by
  simp only [batchStepChecked]
  rw [applyEdgeChecked_eq hsound keyedHash hne key _ _ _ hfits, ok_bind]
  rfl

theorem batchStepChecked_fault (hsound : state.table.header.Sound)
    {pair : Activation × Activation}
    (hover : ¬ PairFits keyedHash ehash nowRel state.table pair) :
    ∃ fault, batchStepChecked keyedHash ehash key nowRel state pair =
      .error fault := by
  simp only [batchStepChecked]
  rw [applyEdgeChecked_fault hsound keyedHash hne key _ _ _ hover]
  exact ⟨_, rfl⟩

theorem pairsChecked {pairs : List (Activation × Activation)}
    (hsound : state.table.header.Sound) :
    (PairsFit keyedHash ehash key nowRel state pairs →
      pairs.foldlM (batchStepChecked keyedHash ehash key nowRel) state =
        .ok (pairs.foldl (batchStep keyedHash ehash key nowRel) state)) ∧
    (¬ PairsFit keyedHash ehash key nowRel state pairs →
      ∃ fault, pairs.foldlM (batchStepChecked keyedHash ehash key nowRel) state =
        .error fault) := by
  induction pairs generalizing state with
  | nil => exact ⟨fun _ => rfl, fun hnot => absurd trivial hnot⟩
  | cons pair rest ih =>
      rw [List.foldlM_cons, List.foldl_cons]
      have hnext : (batchStep keyedHash ehash key nowRel state
          pair).table.header.Sound := by
        unfold batchStep
        simp only [applyEdge_header]
        exact hsound
      constructor
      · rintro ⟨hpair, hrest⟩
        rw [batchStepChecked_eq hne hsound hpair, ok_bind]
        exact (ih hnext).1 hrest
      · intro hnot
        by_cases hpair : PairFits keyedHash ehash nowRel state.table pair
        · rw [batchStepChecked_eq hne hsound hpair, ok_bind]
          exact (ih hnext).2 fun hrest => hnot ⟨hpair, hrest⟩
        · obtain ⟨fault, hfault⟩ :=
            @batchStepChecked_fault _ _ hne key _ _ hsound _ hpair
          exact ⟨fault, by rw [hfault, error_bind]⟩

end Batch

/-! ## Decay and the read path -/

/-- The sidecar with its first `k` records zeroed. -/
def zeroedBelow (table : Table) (k : ℕ) : Table :=
  { table with
    occ := fun idx =>
      if idx < k then { table.occ idx with liveCount := 0, entityHash := 0 }
      else table.occ idx }

theorem zeroStepChecked_eq {table : Table} {k : ℕ}
    (hk : k < table.header.occSlots) :
    zeroStepChecked (zeroedBelow table k) k = .ok (zeroedBelow table (k + 1)) := by
  have hlt : k < (zeroedBelow table k).header.occSlots := hk
  rw [zeroStepChecked, readOccAt_of_lt hlt, ok_bind, writeOccAt_of_lt hlt]
  congr 1
  unfold Table.setOcc zeroedBelow
  congr 1
  funext idx
  by_cases heq : idx = k
  · subst heq
    simp
  · rw [Function.update_of_ne heq]
    by_cases hlt : idx < k
    · simp only [if_pos hlt, if_pos (Nat.lt_succ_of_lt hlt)]
    · simp only [if_neg hlt, if_neg (show ¬ idx < k + 1 by omega)]

theorem zeroChecked_eq (table : Table) :
    (List.range table.header.occSlots).foldlM zeroStepChecked table =
      .ok (zeroSidecar table) := by
  have hloop : ∀ k ≤ table.header.occSlots,
      (List.range k).foldlM zeroStepChecked table = .ok (zeroedBelow table k) := by
    intro k
    induction k with
    | zero => exact fun _ => rfl
    | succ k ih =>
        intro hk
        rw [List.range_succ, List.foldlM_append, ih (by omega), ok_bind,
          List.foldlM_cons, zeroStepChecked_eq (by omega), ok_bind]
        rfl
  exact hloop table.header.occSlots le_rfl

theorem decayStepChecked_eq {state : Table × ℕ}
    (hsound : state.1.header.Sound) {idx : ℕ}
    (hlt : idx < state.1.header.capacity) :
    decayStepChecked state idx = .ok (decayStep state idx) := by
  unfold decayStepChecked decayStep
  simp only [readEntryAt_of_lt hlt, ok_bind, writeEntryAt_of_lt hlt]
  split_ifs
  · rfl
  · rw [occAddSlotChecked_eq (by simpa using hsound), ok_bind, pure_eq_ok]
  · rfl

theorem decayChecked_eq {table : Table} (hsound : table.header.Sound) :
    decayChecked table = .ok (decay table) := by
  unfold decayChecked decay
  rw [zeroChecked_eq, ok_bind]
  apply foldlM_eq_ok (motive := fun state => state.1.header = table.header)
  · intro idx hmem state hheader
    apply decayStepChecked_eq
    · rwa [hheader]
    · rw [hheader]
      exact List.mem_range.mp hmem
  · intro idx _ state hheader
    rw [decayStep_header, hheader]
  · rfl

theorem scanChecked_eq {σ : Type} (table : Table) (step : σ → Entry → σ)
    (init : σ) :
    scanChecked table step init =
      .ok ((List.range table.header.capacity).foldl
        (fun state i => step state (table.entries i)) init) := by
  apply foldlM_eq_ok (motive := fun _ => True)
  · intro i hi state _
    rw [readEntryAt_of_lt (List.mem_range.mp hi)]
    rfl
  · exact fun _ _ _ _ => trivial
  · trivial

theorem queryChecked_eq (keyedHash : KeyedHash) (table : Table)
    (key : List UInt8) :
    queryChecked keyedHash table key = .ok (query keyedHash table key) := by
  unfold queryChecked query
  split_ifs
  · rfl
  · rw [scanChecked_eq, ok_bind]
    rfl

theorem routeChecked_eq (keyedHash : KeyedHash) (table : Table)
    (key : List UInt8) (acts : List Activation) (outCap : ℕ) :
    routeChecked keyedHash table key acts outCap =
      .ok (route keyedHash table key acts outCap) := by
  unfold routeChecked route
  split_ifs
  · rfl
  · simp only [scanChecked_eq, ok_bind]
    rfl

theorem readEntryChecked_eq (table : Table) (slot : ℕ) :
    readEntryChecked table slot = .ok (readEntry table slot) := by
  unfold readEntryChecked readEntry
  by_cases hrange : slot ≥ table.header.capacity
  · simp [hrange]
  · simp only [if_neg hrange, readEntryAt_of_lt (Nat.lt_of_not_ge hrange), ok_bind]
    split_ifs <;> rfl

theorem statsChecked_eq (table : Table) :
    statsChecked table = .ok (stats table) := by
  unfold statsChecked
  rw [scanChecked_eq, ok_bind]
  apply foldlM_eq_ok (motive := fun _ => True)
  · intro i hi state _
    rw [readOccAt_of_lt (List.mem_range.mp hi)]
    rfl
  · exact fun _ _ _ _ => trivial
  · trivial

/-! ## Calls and runs -/

/-- A call on a table which was opened from a file. -/
inductive OpenedCall where
  | write (call : Call)
  | query (key : List UInt8)
  | route (key : List UInt8) (acts : List Activation) (outCap : ℕ)
  | readEntry (slot : ℕ)
  | stats

/-- The table after a call. -/
def performOpened (keyedHash : KeyedHash) (table : Table) : OpenedCall → Table
  | .write call => (performCall keyedHash table call).1
  | _ => table

/-- The call with every index checked. -/
def performChecked (keyedHash : KeyedHash) (table : Table) :
    OpenedCall → Access Table
  | .write (.reinforce key tA tB etaFp16 sourceId nowRel) => do
      return (← reinforceChecked keyedHash table key tA tB etaFp16 sourceId
        nowRel).table
  | .write (.reinforceBatch key acts nowRel) => do
      return (← reinforceBatchChecked keyedHash table key acts nowRel).table
  | .write .decay => do return (← decayChecked table).1
  | .write .reset => .ok (reset table)
  | .query key => do
      let _ ← queryChecked keyedHash table key
      return table
  | .route key acts outCap => do
      let _ ← routeChecked keyedHash table key acts outCap
      return table
  | .readEntry slot => do
      let _ ← readEntryChecked table slot
      return table
  | .stats => do
      let _ ← statsChecked table
      return table

/-- No eviction of the call takes its victim out of a sidecar record which
claims more than `perEntityCapMax` edges. -/
def CallFits (keyedHash : KeyedHash) (table : Table) : OpenedCall → Prop
  | .write (.reinforce key tA tB etaFp16 sourceId nowRel) =>
      ¬ (key = [] ∨ sourceId = srcNone ∨ tA = tB) →
        EvictionFits table
          (slotHashOf keyedHash table (entityHashOf keyedHash table key)
            (if tA < tB then tA else tB) (if tA < tB then tB else tA))
          (entityHashOf keyedHash table key)
          (Witnesses.delta ⟨etaFp16, normalizeSource sourceId, 0, srcNone, nowRel⟩)
  | .write (.reinforceBatch key acts nowRel) =>
      ¬ (key = [] ∨ acts.length < 2) →
        PairsFit keyedHash (entityHashOf keyedHash table key) key nowRel
          ⟨table, 0, []⟩ (batchPairs acts)
  | _ => True

theorem performChecked_eq {keyedHash : KeyedHash} {table : Table}
    (hsound : table.header.Sound) {call : OpenedCall}
    (hfits : CallFits keyedHash table call) :
    performChecked keyedHash table call =
      .ok (performOpened keyedHash table call) := by
  cases call with
  | write call =>
      cases call with
      | reinforce key tA tB etaFp16 sourceId nowRel =>
          simp only [performChecked, performOpened, performCall, reinforceChecked,
            reinforce]
          by_cases hinvalid : key = [] ∨ sourceId = srcNone ∨ tA = tB
          · simp only [if_pos hinvalid]
            rfl
          · simp only [if_neg hinvalid]
            rw [applyEdgeChecked_eq hsound keyedHash (entityHashOf_ne_zero _ _ _)
              key _ _ _ (hfits hinvalid)]
            rfl
      | reinforceBatch key acts nowRel =>
          simp only [performChecked, performOpened, performCall,
            reinforceBatchChecked, reinforceBatch]
          by_cases hinvalid : key = [] ∨ acts.length < 2
          · simp only [if_pos hinvalid]
            rfl
          · simp only [if_neg hinvalid]
            rw [(@pairsChecked _ _ (entityHashOf_ne_zero _ _ _) _ _
              ⟨table, 0, []⟩ _ hsound).1 (hfits hinvalid)]
            rfl
      | decay =>
          simp only [performChecked, performOpened, performCall,
            decayChecked_eq hsound, ok_bind, pure_eq_ok]
      | reset => rfl
  | query key => simp [performChecked, performOpened, queryChecked_eq]
  | route key acts outCap => simp [performChecked, performOpened, routeChecked_eq]
  | readEntry slot => simp [performChecked, performOpened, readEntryChecked_eq]
  | stats => simp [performChecked, performOpened, statsChecked_eq]

theorem performChecked_fault {keyedHash : KeyedHash} {table : Table}
    (hsound : table.header.Sound) {call : OpenedCall}
    (hover : ¬ CallFits keyedHash table call) :
    ∃ fault, performChecked keyedHash table call = .error fault := by
  cases call with
  | write call =>
      cases call with
      | reinforce key tA tB etaFp16 sourceId nowRel =>
          simp only [CallFits, Classical.not_imp] at hover
          obtain ⟨hvalid, hover⟩ := hover
          simp only [performChecked, reinforceChecked, if_neg hvalid]
          rw [applyEdgeChecked_fault hsound keyedHash (entityHashOf_ne_zero _ _ _)
            key _ _ _ hover]
          exact ⟨_, rfl⟩
      | reinforceBatch key acts nowRel =>
          simp only [CallFits, Classical.not_imp] at hover
          obtain ⟨hvalid, hover⟩ := hover
          obtain ⟨fault, hfault⟩ := (@pairsChecked _ _ (entityHashOf_ne_zero _ _ _)
            _ _ ⟨table, 0, []⟩ _ hsound).2 hover
          exact ⟨fault, by
            simp only [performChecked, reinforceBatchChecked, if_neg hvalid, hfault,
              error_bind]⟩
      | decay => exact absurd trivial hover
      | reset => exact absurd trivial hover
  | query => exact absurd trivial hover
  | route => exact absurd trivial hover
  | readEntry => exact absurd trivial hover
  | stats => exact absurd trivial hover

theorem performOpened_header (keyedHash : KeyedHash) (table : Table)
    (call : OpenedCall) :
    (performOpened keyedHash table call).header = table.header := by
  cases call with
  | write call =>
      refine @performCall_induction keyedHash
        (fun other _ => other.header = table.header)
        (fun other _ ehash key tLo tHi w hother _ _ _ =>
          (applyEdge_header keyedHash other ehash key tLo tHi w).trans hother)
        (fun other _ hother => (decay_header other).trans hother)
        (fun _ _ hother => hother) table [] rfl call
  | query => rfl
  | route => rfl
  | readEntry => rfl
  | stats => rfl

/-- The runs of calls on a table whose header `wake_tac_open` accepted. -/
def opened (keyedHash : KeyedHash) : TransitionSystem Table OpenedCall where
  Initial table := openAccepts table.header = true
  step table call := some (performOpened keyedHash table call)

theorem runChecked_iff {keyedHash : KeyedHash} {table : Table}
    (hsound : table.header.Sound) (calls : List OpenedCall) :
    (∃ final, calls.foldlM (performChecked keyedHash) table = .ok final) ↔
      (opened keyedHash).RunMeets (CallFits keyedHash) table calls := by
  induction calls generalizing table with
  | nil => exact ⟨fun _ => trivial, fun _ => ⟨table, rfl⟩⟩
  | cons call rest ih =>
      have hnext : (performOpened keyedHash table call).header.Sound := by
        rwa [performOpened_header]
      rw [List.foldlM_cons]
      by_cases hfits : CallFits keyedHash table call
      · rw [performChecked_eq hsound hfits, ok_bind, ih hnext]
        constructor
        · intro hrest
          refine ⟨hfits, fun next hstep => ?_⟩
          simp only [opened, Option.some.injEq] at hstep
          exact hstep ▸ hrest
        · intro hmeets
          exact hmeets.2 _ rfl
      · obtain ⟨fault, hfault⟩ := performChecked_fault hsound hfits
        rw [hfault, error_bind]
        constructor
        · rintro ⟨_, hok⟩
          contradiction
        · intro hmeets
          exact absurd hmeets.1 hfits

/-- On a table with an accepted header and arbitrary arrays, a sequence of
calls keeps every index in range exactly when none of its evictions takes the
victim out of a record which claims more than `perEntityCapMax` edges. -/
theorem opened_run_in_range_iff (keyedHash : KeyedHash) (table : Table)
    (hopen : openAccepts table.header = true) (calls : List OpenedCall) :
    (∃ final, calls.foldlM (performChecked keyedHash) table = .ok final) ↔
      (opened keyedHash).RunMeets (CallFits keyedHash) table calls :=
  runChecked_iff (sound_of_openAccepts hopen) calls

/-! ## A crafted file -/

/-- A hash under which entity and pair land in slot 0 and slot 1. -/
def craftedHash : KeyedHash := fun bytes _ => if bytes.length = 1 then 2 else 5

/-- A two-slot file with an accepted header: entry 0 is a weak edge of entity
hash 2, and the entity's record claims 33 edges. -/
def craftedTable : Table where
  header := {
    magic := magicWord
    formatVersion := version
    capacity := 2
    mask := 1
    hashKey := []
    epoch := 0
    decayNovelFp16 := defaultDecayNovelFp16
    decayCorrFp16 := defaultDecayCorrFp16
    noiseFloor := defaultNoiseFloor
    occSlots := 2
    budgetPerSource := defaultBudgetPerSource
    perEntityCap := 1
    corroborationSrcMin := defaultCorroborationMin
    tickSeconds := defaultTickSeconds
    quarantineMinW := defaultQuarantineMinW }
  entries idx :=
    if idx = 0 then { Entry.zero with keyHash := 9, weight := 1, entityHash := 2 }
    else Entry.zero
  occ idx := if idx = 0 then ⟨2, 33, fun _ => 0⟩ else Occ.zero

def craftedCall : OpenedCall := .write (.reinforce [7] 1 2 0xFFFF 1 0)

theorem opened_run_in_range_iff_crafted :
    (∃ final, [craftedCall].foldlM (performChecked craftedHash) craftedTable =
        .ok final) ↔
      (opened craftedHash).RunMeets (CallFits craftedHash) craftedTable
        [craftedCall] :=
  opened_run_in_range_iff craftedHash craftedTable (by decide) [craftedCall]

/-- The eviction reads `slot[32]` of a list of 32 slots. -/
theorem crafted_run_out_of_range :
    openAccepts craftedTable.header = true ∧
      [craftedCall].foldlM (performChecked craftedHash) craftedTable =
        .error (.recordSlot 32) :=
  ⟨by decide, rfl⟩

end Tac
end LibWake
