import LibWake.CheckedAccess
import LibWake.TacRead

/-!
# The coupling table with checked indices

Every function of the table once more, with each access to the entry array,
to the sidecar and to the slot list of a sidecar record going through a bounds
check.  On a table whose header passed the checks of `wake_tac_open`, the
checked function agrees with the unchecked one and faults in one case only:
when `occDelSlot` reads the last listed slot of a record whose stored count
exceeds the length of the list.  Nothing is assumed about the arrays.
-/

namespace LibWake
namespace Tac

open Checked

inductive Fault where
  | entry (idx : ℕ)
  | sidecar (idx : ℕ)
  | recordSlot (i : ℕ)
  deriving DecidableEq, Repr

abbrev Access (α : Type) := Except Fault α

def Table.readEntryAt (table : Table) (idx : ℕ) : Access Entry :=
  Checked.read table.header.capacity table.entries Fault.entry idx

def Table.readOccAt (table : Table) (idx : ℕ) : Access Occ :=
  Checked.read table.header.occSlots table.occ Fault.sidecar idx

def Occ.readSlotAt (record : Occ) (i : ℕ) : Access ℕ :=
  Checked.read perEntityCapMax record.slot Fault.recordSlot i

def Table.writeEntryAt (table : Table) (idx : ℕ) (entry : Entry) : Access Table := do
  let entries ← Checked.write table.header.capacity table.entries Fault.entry
    idx entry
  return { table with entries := entries }

def Table.writeOccAt (table : Table) (idx : ℕ) (record : Occ) : Access Table := do
  let occ ← Checked.write table.header.occSlots table.occ Fault.sidecar idx record
  return { table with occ := occ }

def Occ.writeSlotAt (record : Occ) (i entryIdx : ℕ) : Access Occ := do
  let slot ← Checked.write perEntityCapMax record.slot Fault.recordSlot i entryIdx
  return { record with slot := slot }

section Accesses

variable {table : Table} {record : Occ} {idx i : ℕ}

theorem readEntryAt_of_lt (hlt : idx < table.header.capacity) :
    table.readEntryAt idx = .ok (table.entries idx) :=
  read_of_lt hlt

theorem readOccAt_of_lt (hlt : idx < table.header.occSlots) :
    table.readOccAt idx = .ok (table.occ idx) :=
  read_of_lt hlt

theorem readSlotAt_of_lt (hlt : i < perEntityCapMax) :
    record.readSlotAt i = .ok (record.slot i) :=
  read_of_lt hlt

theorem writeEntryAt_of_lt (hlt : idx < table.header.capacity) (entry : Entry) :
    table.writeEntryAt idx entry = .ok (table.setEntry idx entry) := by
  rw [Table.writeEntryAt, write_of_lt hlt]
  rfl

theorem writeOccAt_of_lt (hlt : idx < table.header.occSlots) (record : Occ) :
    table.writeOccAt idx record = .ok (table.setOcc idx record) := by
  rw [Table.writeOccAt, write_of_lt hlt]
  rfl

theorem writeSlotAt_of_lt (hlt : i < perEntityCapMax) (entryIdx : ℕ) :
    record.writeSlotAt i entryIdx =
      .ok { record with slot := Function.update record.slot i entryIdx } := by
  rw [Occ.writeSlotAt, write_of_lt hlt]
  rfl

end Accesses

/-! ## The functions with checked accesses -/

def occFindInChecked (table : Table) (ehash : UInt64) (claim : Bool) :
    List ℕ → Access (Option ℕ × Table)
  | [] => return (none, table)
  | idx :: rest => do
      let record ← table.readOccAt idx
      if record.entityHash = ehash then return (some idx, table)
      else if record.entityHash = 0 then
        if claim then
          let claimed ← table.writeOccAt idx
            { record with liveCount := 0, entityHash := ehash }
          return (some idx, claimed)
        else return (none, table)
      else occFindInChecked table ehash claim rest

def occFindChecked (table : Table) (ehash : UInt64) (claim : Bool) :
    Access (Option ℕ × Table) :=
  occFindInChecked table ehash claim (occWindow table.header ehash)

def occCountChecked (table : Table) (ehash : UInt64) : Access ℕ := do
  match (← occFindChecked table ehash false).1 with
  | some idx => return (← table.readOccAt idx).liveCount
  | none => return 0

def occAddSlotChecked (table : Table) (ehash : UInt64) (entryIdx : ℕ) :
    Access (Bool × Table) := do
  match ← occFindChecked table ehash true with
  | (none, found) => return (false, found)
  | (some idx, found) =>
      let record ← found.readOccAt idx
      if record.liveCount ≥ perEntityCapMax then return (false, found)
      else
        let filled ← record.writeSlotAt record.liveCount entryIdx
        let tracked ← found.writeOccAt idx
          { filled with liveCount := record.liveCount + 1 }
        return (true, tracked)

def occDelSlotChecked (table : Table) (ehash : UInt64) (entryIdx : ℕ) :
    Access Table := do
  match (← occFindChecked table ehash false).1 with
  | none => return table
  | some idx =>
      let record ← table.readOccAt idx
      match ← Checked.find record.readSlotAt (· = entryIdx)
          (List.range (min record.liveCount perEntityCapMax)) with
      | none => return table
      | some i =>
          let last ← record.readSlotAt (record.liveCount - 1)
          let moved ← record.writeSlotAt i last
          table.writeOccAt idx { moved with liveCount := record.liveCount - 1 }

def findSlotInChecked (table : Table) (slotKey : UInt64) :
    List ℕ → Access (Option ℕ)
  | [] => return none
  | idx :: rest => do
      let entry ← table.readEntryAt idx
      if entry.keyHash = slotKey then return some idx
      else if entry.keyHash = slotEmpty then return none
      else findSlotInChecked table slotKey rest

def findSlotChecked (table : Table) (slotKey : UInt64) : Access (Option ℕ) :=
  findSlotInChecked table slotKey (probeWindow table.header slotKey)

def applyExistingChecked (table : Table) (idx : ℕ) (w : Witnesses) :
    Access Outcome := do
  let entry ← table.readEntryAt idx
  if quarantineRefuses entry w then return ⟨table, .refusedQuarantine, []⟩
  else
    match chargeExisting table.header entry.budget w.w0Src w.w1Src w.delta with
    | none => return ⟨table, .refusedBudget, []⟩
    | some (budget, bump, accepted) =>
        let written ← table.writeEntryAt idx
          (reinforcedEntry table.header entry w budget bump)
        return ⟨written, .applied,
          accepted.map (Event.charged idx) ++ [.applied idx w.etaHi]⟩

/-- A listed index beyond the capacity is skipped before it is used. -/
def weakestStepChecked (table : Table) (ehash : UInt64) (record : Occ)
    (best : Option ℕ × ℕ) (i : ℕ) : Access (Option ℕ × ℕ) := do
  let idx ← record.readSlotAt i
  if idx ≥ table.header.capacity then return best
  else
    let entry ← table.readEntryAt idx
    if ¬ entry.Live then return best
    else if entry.entityHash ≠ ehash then return best
    else if entry.weight < best.2 then return (some idx, entry.weight)
    else return best

def weakestEdgeChecked (table : Table) (ehash : UInt64) :
    Access (Option ℕ × ℕ) := do
  match (← occFindChecked table ehash false).1 with
  | none => return (none, uint32Max)
  | some recordIdx =>
      let record ← table.readOccAt recordIdx
      (List.range (min record.liveCount perEntityCapMax)).foldlM
        (weakestStepChecked table ehash record) (none, uint32Max)

def capDecisionChecked (table : Table) (ehash : UInt64) (delta : ℕ) :
    Access (Option (Option ℕ)) := do
  if (← occCountChecked table ehash) ≥ table.header.perEntityCap then
    match ← weakestEdgeChecked table ehash with
    | (none, _) => return none
    | (some victim, weakestW) =>
        return if delta ≤ weakestW then none else some (some victim)
  else return some none

def claimSlotChecked (table : Table) (slotKey : UInt64) : Access (Option ℕ) :=
  Checked.find table.readEntryAt (fun entry => ¬ entry.Live)
    (probeWindow table.header slotKey)

def retireVictimChecked (table : Table) (ehash : UInt64) :
    Option ℕ → Access Table
  | none => return table
  | some victim => do
      let entry ← table.readEntryAt victim
      let retired ← table.writeEntryAt victim
        { entry with weight := 0, keyHash := slotTombstone }
      occDelSlotChecked retired ehash victim

def fillClaimedChecked (table : Table) (idx : ℕ) (victim : Option ℕ)
    (slotKey ehash : UInt64) (fresh : Entry) : Access Table := do
  let stale ← table.readEntryAt idx
  let claimed ← table.writeEntryAt idx { stale with keyHash := slotKey }
  let retired ← retireVictimChecked claimed ehash victim
  retired.writeEntryAt idx fresh

def applyNewChecked (table : Table) (slotKey ehash : UInt64) (key : List UInt8)
    (tLo tHi : UInt32) (w : Witnesses) : Access Outcome := do
  match ← capDecisionChecked table ehash w.delta with
  | none => return ⟨table, .refusedCap, []⟩
  | some victim =>
      match ← claimSlotChecked table slotKey with
      | none => return ⟨table, .tableFull, []⟩
      | some idx =>
          let stale ← table.readEntryAt idx
          let fresh := claimedEntry table.header stale slotKey ehash key tLo tHi w
          let filled ← fillClaimedChecked table idx victim slotKey ehash fresh
          let charges := (chargeFresh table.header w.w0Src w.w1Src w.delta).2.2
          let events := .claimed idx :: charges.map (Event.charged idx)
          match ← occAddSlotChecked filled ehash idx with
          | (false, tracked) =>
              let undone ← tracked.writeEntryAt idx
                { fresh with keyHash := slotTombstone }
              return ⟨undone, .refusedCap, events⟩
          | (true, tracked) =>
              let published ← tracked.writeEntryAt idx
                { fresh with weight := w.delta }
              return ⟨published, .applied, events ++ [.applied idx w.etaHi]⟩

def applyEdgeChecked (keyedHash : KeyedHash) (table : Table) (ehash : UInt64)
    (key : List UInt8) (tLo tHi : UInt32) (w : Witnesses) : Access Outcome := do
  let slotKey := slotHashOf keyedHash table ehash tLo tHi
  match ← findSlotChecked table slotKey with
  | some idx => applyExistingChecked table idx w
  | none => applyNewChecked table slotKey ehash key tLo tHi w

def reinforceChecked (keyedHash : KeyedHash) (table : Table) (key : List UInt8)
    (tA tB : UInt32) (etaFp16 sourceId : UInt16) (nowRel : UInt32) :
    Access Outcome :=
  if key = [] ∨ sourceId = srcNone ∨ tA = tB then .ok ⟨table, .invalid, []⟩
  else
    applyEdgeChecked keyedHash table (entityHashOf keyedHash table key) key
      (if tA < tB then tA else tB) (if tA < tB then tB else tA)
      ⟨etaFp16, normalizeSource sourceId, 0, srcNone, nowRel⟩

def batchStepChecked (keyedHash : KeyedHash) (ehash : UInt64) (key : List UInt8)
    (nowRel : UInt32) (state : BatchState) (pair : Activation × Activation) :
    Access BatchState := do
  let a := pair.1.technique
  let b := pair.2.technique
  let outcome ← applyEdgeChecked keyedHash state.table ehash key
    (if a < b then a else b) (if a < b then b else a)
    ⟨pair.1.etaFp16, normalizeSource pair.1.sourceId,
      pair.2.etaFp16, normalizeSource pair.2.sourceId, nowRel⟩
  return ⟨outcome.table,
    if outcome.result = .applied then (state.applied + 1) % 2 ^ 32
      else state.applied,
    state.events ++ outcome.events⟩

def reinforceBatchChecked (keyedHash : KeyedHash) (table : Table)
    (key : List UInt8) (acts : List Activation) (nowRel : UInt32) :
    Access BatchState :=
  if key = [] ∨ acts.length < 2 then .ok ⟨table, 0, []⟩
  else
    (batchPairs acts).foldlM
      (batchStepChecked keyedHash (entityHashOf keyedHash table key) key nowRel)
      ⟨table, 0, []⟩

def decayStepChecked (state : Table × ℕ) (idx : ℕ) : Access (Table × ℕ) := do
  let table := state.1
  let entry ← table.readEntryAt idx
  if ¬ entry.Live then return state
  else if decayedWeight table.header entry < table.header.noiseFloor then
    let evicted ← table.writeEntryAt idx { entry with keyHash := slotTombstone }
    return (evicted, state.2 + 1)
  else
    let lowered ← table.writeEntryAt idx
      { entry with weight := decayedWeight table.header entry }
    let added ← occAddSlotChecked lowered entry.entityHash idx
    return (added.2, state.2)

/-- One iteration of the first loop of `wake_tac_decay`. -/
def zeroStepChecked (table : Table) (idx : ℕ) : Access Table := do
  let record ← table.readOccAt idx
  table.writeOccAt idx { record with liveCount := 0, entityHash := 0 }

def decayChecked (table : Table) : Access (Table × ℕ) := do
  let zeroed ← (List.range table.header.occSlots).foldlM zeroStepChecked table
  (List.range table.header.capacity).foldlM decayStepChecked (zeroed, 0)

/-- A read-only scan of the entry array. -/
def scanChecked {σ : Type} (table : Table) (step : σ → Entry → σ) (init : σ) :
    Access σ :=
  (List.range table.header.capacity).foldlM
    (fun state i => do return step state (← table.readEntryAt i)) init

def queryChecked (keyedHash : KeyedHash) (table : Table) (key : List UInt8) :
    Access (Option Snapshot) :=
  if key = [] then .ok none
  else do
    return some (← scanChecked table
      (queryStep (entityHashOf keyedHash table key)) ⟨0, 0, []⟩)

def routeChecked (keyedHash : KeyedHash) (table : Table) (key : List UInt8)
    (acts : List Activation) (outCap : ℕ) : Access (List RoutedInput) :=
  if key = [] ∨ outCap = 0 then .ok []
  else do
    let used := acts.take (min (min acts.length outCap) queryTopMax)
    let acc ← scanChecked table
      (routeStep (entityHashOf keyedHash table key) used) (fun _ => 0)
    return used.zipIdx.map fun act => ⟨act.1.technique, min (acc act.2) uint32Max⟩

def readEntryChecked (table : Table) (slot : ℕ) : Access (Option Entry) :=
  if slot ≥ table.header.capacity then .ok none
  else do
    let entry ← table.readEntryAt slot
    if ¬ entry.Live then return none
    else if entry.weight = 0 then return none
    else return some (entrySnapshot entry)

def statsChecked (table : Table) : Access Stats := do
  let counted ← scanChecked table statsEntryStep
    ⟨table.header.capacity, 0, 0, 0, 0, 0, 0⟩
  (List.range table.header.occSlots).foldlM
    (fun stats i => do
      return statsOccStep table.header stats (← table.readOccAt i)) counted

end Tac
end LibWake
