import LibWake.TacEdges

/-!
# The stores of the writer

Each update of the coupling table as the list of its stores into the mapping, in the
order in which the code makes them.  The single writer reads back only what it has
stored itself, so its stores are determined when the update starts; performed one after
the other they give the table after the update.

A read-modify-write is the store of its result, and a branch which leaves a field as it
is stores its old value.  The plain writes to the budgets, to the identity bytes, and
the updates of the sidecar count as one store each: no reader of entries loads them.
-/

namespace LibWake
namespace Tac

/-! ## Stores -/

/-- The fields of an entry, as they are loaded and stored. -/
inductive Field where
  | keyHash | weight | reinfCount | lastReinf | tLo | tHi | etaMaxFp16 | srcCount
  | quarantine | firstSeen | entityHash | version | budget | ident
  deriving DecidableEq, Repr

/-- Copy one field of `source` into `target`. -/
def Field.copy (source target : Entry) : Field → Entry
  | .keyHash => { target with keyHash := source.keyHash }
  | .weight => { target with weight := source.weight }
  | .reinfCount => { target with reinfCount := source.reinfCount }
  | .lastReinf => { target with lastReinf := source.lastReinf }
  | .tLo => { target with tLo := source.tLo }
  | .tHi => { target with tHi := source.tHi }
  | .etaMaxFp16 => { target with etaMaxFp16 := source.etaMaxFp16 }
  | .srcCount => { target with srcCount := source.srcCount }
  | .quarantine => { target with quarantine := source.quarantine }
  | .firstSeen => { target with firstSeen := source.firstSeen }
  | .entityHash => { target with entityHash := source.entityHash }
  | .version => { target with version := source.version }
  | .budget => { target with budget := source.budget }
  | .ident =>
      { target with
        identLen := source.identLen
        identFlags := source.identFlags
        ident := source.ident }

/-- One store: a field of `source` into an entry, or an update of the sidecar. -/
inductive Store where
  | entry (idx : ℕ) (field : Field) (source : Entry)
  | sidecar (occ : ℕ → Occ)

def Store.perform (table : Table) : Store → Table
  | .entry idx field source => table.setEntry idx (field.copy source (table.entries idx))
  | .sidecar occ => { table with occ := occ }

/-- The table after some stores. -/
def performAll (table : Table) (stores : List Store) : Table :=
  stores.foldl Store.perform table

/-- The stores of some fields of `source` into one entry. -/
def storeFields (idx : ℕ) (source : Entry) (fields : List Field) : List Store :=
  fields.map fun field => .entry idx field source

/-! ## The stores of each update -/

/-- The in-place path of `apply_edge`. -/
def reinforceOrder : List Field :=
  [.budget, .weight, .reinfCount, .lastReinf, .etaMaxFp16, .srcCount, .quarantine]

def existingStores (table : Table) (idx : ℕ) (w : Witnesses) : List Store :=
  let entry := table.entries idx
  if quarantineRefuses entry w then []
  else
    match chargeExisting table.header entry.budget w.w0Src w.w1Src w.delta with
    | none => []
    | some (budget, bump, _) =>
        storeFields idx (reinforcedEntry table.header entry w budget bump) reinforceOrder

/-- Retiring the cap victim. -/
def retireStores (claimed : Table) (ehash : UInt64) : Option ℕ → List Store
  | none => []
  | some victim =>
      [.entry victim .weight { claimed.entries victim with weight := 0 },
        .entry victim .keyHash { claimed.entries victim with keyHash := slotTombstone },
        .sidecar (retireVictim claimed ehash (some victim)).occ]

/-- The fields of a claimed slot up to the odd version, and behind it. -/
def fillOrder : List Field :=
  [.weight, .tLo, .tHi, .reinfCount, .lastReinf, .etaMaxFp16, .quarantine, .firstSeen,
    .budget, .srcCount]

def lockedOrder : List Field := [.entityHash, .ident, .version]

/-- Filling the claimed slot: weight 0 first, then every other field. -/
def fillStores (idx : ℕ) (stale fresh : Entry) : List Store :=
  storeFields idx fresh fillOrder ++
    .entry idx .version { fresh with version := (stale.version + 1) ||| 1 } ::
      storeFields idx fresh lockedOrder

/-- The new-edge path of `apply_edge`: the claim, the victim, the fields, the sidecar,
and last the weight; or the tombstone when the sidecar cannot track the entity. -/
def newStores (table : Table) (slotKey ehash : UInt64) (key : List UInt8)
    (tLo tHi : UInt32) (w : Witnesses) : List Store :=
  match capDecision table ehash w.delta with
  | none => []
  | some victim =>
      match claimSlot table slotKey with
      | none => []
      | some idx =>
          let stale := table.entries idx
          let fresh := claimedEntry table.header stale slotKey ehash key tLo tHi w
          let filled := fillClaimed table idx victim slotKey ehash fresh
          let added := occAddSlot filled ehash idx
          .entry idx .keyHash fresh ::
            (retireStores (table.setEntry idx { stale with keyHash := slotKey }) ehash
                victim ++
              fillStores idx stale fresh ++
              [.sidecar added.2.occ,
                if added.1 then .entry idx .weight { fresh with weight := w.delta }
                else .entry idx .keyHash { fresh with keyHash := slotTombstone }])

/-- The stores of `apply_edge`. -/
def edgeStores (keyedHash : KeyedHash) (table : Table) (ehash : UInt64)
    (key : List UInt8) (tLo tHi : UInt32) (w : Witnesses) : List Store :=
  let slotKey := slotHashOf keyedHash table ehash tLo tHi
  match findSlot table slotKey with
  | some idx => existingStores table idx w
  | none => newStores table slotKey ehash key tLo tHi w

/-- The loop body of `wake_tac_decay` for entry `idx`. -/
def decayEntryStores (table : Table) (idx : ℕ) : List Store :=
  let entry := table.entries idx
  if ¬ entry.Live then []
  else if decayedWeight table.header entry < table.header.noiseFloor then
    [.entry idx .keyHash { entry with keyHash := slotTombstone }]
  else
    let lowered := { entry with weight := decayedWeight table.header entry }
    [.entry idx .weight lowered,
      .sidecar (occAddSlot (table.setEntry idx lowered) entry.entityHash idx).2.occ]

/-- The loop of `wake_tac_decay` over some entries. -/
def decayLoopStores : Table → List ℕ → List Store
  | _, [] => []
  | table, idx :: rest =>
      decayEntryStores table idx ++ decayLoopStores (decayStep (table, 0) idx).1 rest

/-- The stores of `wake_tac_decay`. -/
def decayStores (table : Table) : List Store :=
  .sidecar (zeroSidecar table).occ ::
    decayLoopStores (zeroSidecar table) (List.range table.header.capacity)

/-! ## Performing them one after the other -/

@[simp] theorem performAll_nil (table : Table) : performAll table [] = table := rfl

@[simp] theorem performAll_cons (table : Table) (store : Store) (rest : List Store) :
    performAll table (store :: rest) = performAll (store.perform table) rest := rfl

theorem performAll_append (table : Table) (front back : List Store) :
    performAll table (front ++ back) = performAll (performAll table front) back :=
  List.foldl_append

theorem perform_sidecar {table after : Table} (hheader : after.header = table.header)
    (hentries : after.entries = table.entries) :
    Store.perform table (.sidecar after.occ) = after := by
  cases after
  simp only at hheader hentries
  simp [Store.perform, hheader, hentries]

theorem setEntry_setEntry (table : Table) (idx : ℕ) (first second : Entry) :
    (table.setEntry idx first).setEntry idx second = table.setEntry idx second := by
  simp [Table.setEntry]

theorem performAll_storeFields (table : Table) (idx : ℕ) (source : Entry)
    (fields : List Field) :
    performAll table (storeFields idx source fields) =
      table.setEntry idx
        (fields.foldl (fun target field => field.copy source target) (table.entries idx)) := by
  induction fields generalizing table with
  | nil => simp [storeFields, Table.setEntry]
  | cons field rest ih =>
      have hrest := ih (table.setEntry idx (field.copy source (table.entries idx)))
      rw [setEntry_setEntry, setEntry_entries, Function.update_self] at hrest
      exact hrest

theorem performAll_existingStores (table : Table) (idx : ℕ) (w : Witnesses) :
    performAll table (existingStores table idx w) = (applyExisting table idx w).table := by
  simp only [existingStores, applyExisting]
  split_ifs
  · rfl
  · cases chargeExisting table.header (table.entries idx).budget w.w0Src w.w1Src
        w.delta with
    | none => rfl
    | some charged =>
        obtain ⟨budget, bump, accepted⟩ := charged
        simp only [performAll_storeFields]
        congr 1
        simp only [reinforceOrder, List.foldl_cons, List.foldl_nil, Field.copy,
          reinforcedEntry, quarantineReassess]
        split_ifs <;> rfl

theorem performAll_retireStores (claimed : Table) (ehash : UInt64) (victim : Option ℕ) :
    performAll claimed (retireStores claimed ehash victim) =
      retireVictim claimed ehash victim := by
  cases victim with
  | none => rfl
  | some victim =>
      obtain ⟨hheader, hentries⟩ := occDelSlot_frame
        (claimed.setEntry victim
          { claimed.entries victim with weight := 0, keyHash := slotTombstone }) ehash victim
      rw [retireStores, performAll_cons, performAll_cons, performAll_cons, performAll_nil]
      apply perform_sidecar
      · exact hheader
      · rw [retireVictim, hentries]
        simp [Store.perform, Field.copy, Table.setEntry]

theorem performAll_fillStores (table : Table) (idx : ℕ) (stale : Entry) {fresh : Entry}
    (hkey : (table.entries idx).keyHash = fresh.keyHash) :
    performAll table (fillStores idx stale fresh) = table.setEntry idx fresh := by
  rw [fillStores, performAll_append, performAll_cons, performAll_storeFields,
    performAll_storeFields]
  simp only [Store.perform, setEntry_setEntry, setEntry_entries, Function.update_self]
  congr 1
  simp only [fillOrder, lockedOrder, List.foldl_cons, List.foldl_nil, Field.copy, hkey]

theorem performAll_newStores (table : Table) (slotKey ehash : UInt64) (key : List UInt8)
    (tLo tHi : UInt32) (w : Witnesses) :
    performAll table (newStores table slotKey ehash key tLo tHi w) =
      (applyNew table slotKey ehash key tLo tHi w).table := by
  unfold newStores applyNew
  cases hcap : capDecision table ehash w.delta with
  | none => rfl
  | some victim =>
      simp only
      cases hclaim : claimSlot table slotKey with
      | none => rfl
      | some idx =>
          simp only
          generalize hfresh : claimedEntry table.header (table.entries idx) slotKey ehash
            key tLo tHi w = fresh
          have hkey : fresh.keyHash = slotKey := by rw [← hfresh]; rfl
          obtain ⟨hheader, hentries⟩ := occAddSlot_frame
            (fillClaimed table idx victim slotKey ehash fresh) ehash idx
          have hclaimed : Store.perform table (.entry idx .keyHash fresh) =
              table.setEntry idx { table.entries idx with keyHash := slotKey } := by
            rw [Store.perform, Field.copy, hkey]
          have hretired : ((retireVictim (table.setEntry idx
              { table.entries idx with keyHash := slotKey }) ehash victim).entries
                idx).keyHash = fresh.keyHash := by
            cases victim with
            | none => simp [retireVictim, hkey]
            | some victim =>
                have hne := claimed_ne_victim hclaim hcap
                rw [retireVictim, (occDelSlot_frame _ _ _).2, setEntry_entries,
                  Function.update_of_ne hne.symm]
                simp [hkey]
          rw [performAll_cons, hclaimed, performAll_append, performAll_append,
            performAll_retireStores, performAll_fillStores _ _ _ hretired,
            performAll_cons, performAll_cons, performAll_nil]
          change Store.perform (Store.perform (fillClaimed table idx victim slotKey ehash
            fresh) _) _ = _
          rw [perform_sidecar hheader hentries]
          cases hadd : occAddSlot (fillClaimed table idx victim slotKey ehash fresh) ehash
              idx with
          | mk added tracked =>
              rw [hadd] at hentries
              have hfilled : tracked.entries idx = fresh := by
                rw [hentries, fillClaimed_entries fresh hclaim hcap, Function.update_self]
              cases added with
              | false => simp [Store.perform, Field.copy, hfilled]
              | true => simp [Store.perform, Field.copy, hfilled]

/-- The stores of `apply_edge`, one after the other, are `applyEdge`. -/
theorem performAll_edgeStores (keyedHash : KeyedHash) (table : Table) (ehash : UInt64)
    (key : List UInt8) (tLo tHi : UInt32) (w : Witnesses) :
    performAll table (edgeStores keyedHash table ehash key tLo tHi w) =
      (applyEdge keyedHash table ehash key tLo tHi w).table := by
  simp only [edgeStores, applyEdge]
  cases findSlot table (slotHashOf keyedHash table ehash tLo tHi) with
  | some idx => exact performAll_existingStores table idx w
  | none => exact performAll_newStores table _ ehash key tLo tHi w

theorem performAll_decayEntryStores (state : Table × ℕ) (idx : ℕ) :
    performAll state.1 (decayEntryStores state.1 idx) = (decayStep state idx).1 := by
  simp only [decayEntryStores, decayStep]
  split_ifs with hlive hnoise
  · rfl
  · obtain ⟨hheader, hentries⟩ := occAddSlot_frame
      (state.1.setEntry idx { state.1.entries idx with
        weight := decayedWeight state.1.header (state.1.entries idx) })
      (state.1.entries idx).entityHash idx
    rw [performAll_cons, performAll_cons, performAll_nil]
    exact perform_sidecar hheader hentries
  · rfl

theorem decayStep_table (table : Table) (evicted : ℕ) (idx : ℕ) :
    (decayStep (table, evicted) idx).1 = (decayStep (table, 0) idx).1 := by
  rw [← performAll_decayEntryStores, ← performAll_decayEntryStores]

theorem performAll_decayLoopStores (table : Table) (evicted : ℕ) (listed : List ℕ) :
    performAll table (decayLoopStores table listed) =
      (listed.foldl decayStep (table, evicted)).1 := by
  induction listed generalizing table evicted with
  | nil => rfl
  | cons idx rest ih =>
      have hstep := performAll_decayEntryStores (table, evicted) idx
      simp only at hstep
      rw [decayLoopStores, performAll_append, hstep, List.foldl_cons, ← decayStep_table,
        ih _ (decayStep (table, evicted) idx).2]

/-- The stores of `wake_tac_decay`, one after the other, are `decay`. -/
theorem performAll_decayStores (table : Table) :
    performAll table (decayStores table) = (decay table).1 :=
  performAll_decayLoopStores (zeroSidecar table) 0 _

end Tac
end LibWake
