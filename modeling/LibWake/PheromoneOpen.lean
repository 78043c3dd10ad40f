import Mathlib.Data.Vector.Basic
import LibWake.ByteOrder
import LibWake.CheckedAccess
import LibWake.PheromoneModel

/-!
# Opened pheromone tables

`wake_pheromone_open` over the bytes of a file, and the functions which may
follow it on the opened table.  The header says how many entries are mapped,
and each slot index goes through a check against that capacity.  The seqlock
loop of `wake_pheromone_read_entry` has no bound, so it runs on fuel; no other
process writes, so every load of one call sees the same entry.
-/

namespace LibWake
namespace Pheromone

open Checked

/-! ## Files -/

def headerSize : ℕ := 256
def entrySize : ℕ := 128
def entitySize : ℕ := 64

/-- `wake_entity_t`, whose bytes the table copies as they are. -/
abbrev EntityBytes := List.Vector UInt8 entitySize

/-- `compute_map_size`. -/
def computeMapSize (capacity : UInt32) : ℕ :=
  headerSize + capacity.toNat * entrySize

/-- The little-endian field of `n` bytes at an offset. -/
def fieldAt (file : List UInt8) (off n : ℕ) : ℕ := leNat ((file.drop off).take n)

/-- `wake_pheromone_header_t` at the start of the file. -/
def headerOf (file : List UInt8) : Header where
  magic := UInt64.ofNat (fieldAt file 0 8)
  formatVersion := UInt32.ofNat (fieldAt file 8 4)
  capacity := UInt32.ofNat (fieldAt file 12 4)
  mask := UInt64.ofNat (fieldAt file 16 8)
  hashKey := (file.drop 24).take 16
  epoch := UInt32.ofNat (fieldAt file 40 4)
  decayFactorFp16 := UInt32.ofNat (fieldAt file 44 4)
  noiseFloor := UInt32.ofNat (fieldAt file 48 4)

/-- `wake_pheromone_entry_t` at an offset of the file. -/
def entryAt (file : List UInt8) (off : ℕ) : Entry EntityBytes where
  keyHash := UInt64.ofNat (fieldAt file off 8)
  confidence := UInt32.ofNat (fieldAt file (off + 8) 4)
  hitCount := UInt32.ofNat (fieldAt file (off + 12) 4)
  lastUpdate := UInt32.ofNat (fieldAt file (off + 16) 4)
  srcCount := UInt16.ofNat (fieldAt file (off + 20) 2)
  action := UInt8.ofNat (fieldAt file (off + 22) 1)
  outcome := UInt8.ofNat (fieldAt file (off + 23) 1)
  firstSeen := UInt32.ofNat (fieldAt file (off + 24) 4)
  tenantId := UInt32.ofNat (fieldAt file (off + 28) 4)
  version := UInt32.ofNat (fieldAt file (off + 32) 4)
  phaseFlags := UInt32.ofNat (fieldAt file (off + 36) 4)
  reasons := fun i => UInt64.ofNat (fieldAt file (off + 40 + 8 * i.val) 8)
  entity := List.Vector.ofFn fun i => file.getD (off + 64 + i.val) 0

/-- `wake_pheromone_open` of a file which can be mapped; `none` is NULL. -/
def openFile (file : List UInt8) : Option (Table EntityBytes) :=
  if file.length < headerSize then none
  else if (headerOf file).magic ≠ magicWord then none
  else if (headerOf file).formatVersion ≠ version then none
  else if !isPowerOf2 (headerOf file).capacity.toNat then none
  else if file.length < computeMapSize (headerOf file).capacity then none
  else some {
    header := headerOf file
    entries := fun idx => entryAt file (headerSize + idx * entrySize) }

theorem openFile_eq_some {file : List UInt8} {table : Table EntityBytes}
    (hopen : openFile file = some table) :
    0 < table.header.capacity.toNat ∧
      computeMapSize table.header.capacity ≤ file.length ∧
      table.header = headerOf file ∧
      table.entries = fun idx => entryAt file (headerSize + idx * entrySize) := by
  unfold openFile at hopen
  split_ifs at hopen with hshort hmagic hversion hcapacity hsize
  simp only [Option.some.injEq] at hopen
  subst hopen
  simp only [Bool.not_eq_true', Bool.not_eq_false] at hcapacity
  exact ⟨pos_of_isPowerOf2 hcapacity, Nat.le_of_not_gt hsize, rfl, rfl⟩

/-! ## Accesses -/

/-- A slot index which is not below the capacity, or fuel which ran out in the
seqlock loop. -/
inductive Fault where
  | index (idx : ℕ)
  | spinning
  deriving DecidableEq, Repr

abbrev Access (α : Type) := Except Fault α

variable {Entity : Type}

def Table.slotAt (table : Table Entity) (idx : ℕ) : Access (Entry Entity) :=
  Checked.read table.header.capacity.toNat table.entries Fault.index idx

def Table.setSlotAt (table : Table Entity) (idx : ℕ) (entry : Entry Entity) :
    Access (Table Entity) := do
  let entries ← Checked.write table.header.capacity.toNat table.entries Fault.index
    idx entry
  return { table with entries := entries }

section Accesses

variable {table : Table Entity} {idx : ℕ}

theorem slotAt_of_lt (hlt : idx < table.header.capacity.toNat) :
    table.slotAt idx = .ok (table.entries idx) :=
  read_of_lt hlt

theorem slotAt_of_le (hle : table.header.capacity.toNat ≤ idx) :
    table.slotAt idx = .error (.index idx) :=
  read_of_le hle

theorem setSlotAt_of_lt (hlt : idx < table.header.capacity.toNat)
    (entry : Entry Entity) :
    table.setSlotAt idx entry = .ok (table.setEntry idx entry) := by
  rw [Table.setSlotAt, write_of_lt hlt]
  rfl

end Accesses

/-! ## Writers and lookup with checked indices -/

def probeKeyInChecked (table : Table Entity) (key : UInt64) :
    List ℕ → Access (Option ℕ)
  | [] => return none
  | idx :: rest => do
      let entry ← table.slotAt idx
      if entry.keyHash = key then return some idx
      else if entry.keyHash = slotEmpty then return none
      else probeKeyInChecked table key rest

def probeKeyChecked (table : Table Entity) (key : UInt64) : Access (Option ℕ) :=
  probeKeyInChecked table key (probeWindow table.header key)

def insertProbeChecked (table : Table Entity) (key : UInt64) :
    List ℕ → Option ℕ → Access (Option ℕ × Option ℕ)
  | [], first => return (none, first)
  | idx :: rest, first => do
      let entry ← table.slotAt idx
      if entry.keyHash = key then return (some idx, first)
      else if entry.keyHash = slotEmpty then return (none, first.or (some idx))
      else if entry.keyHash = slotTombstone then
        insertProbeChecked table key rest (first.or (some idx))
      else insertProbeChecked table key rest first

def phtInsertChecked (entityHash : Entity → UInt64) (table : Table Entity)
    (deposit : Deposit Entity) : Access (Table Entity × UInt32) := do
  let key := entityKeyHash entityHash deposit.entity
  let now := relativeTime table.header deposit.clock
  match ← insertProbeChecked table key (probeWindow table.header key) none with
  | (some idx, _) =>
      let entry ← table.slotAt idx
      let after ← table.setSlotAt idx (reinforcedEntry entry deposit now)
      return (after, entry.confidence + deposit.delta)
  | (none, none) => return (table, 0)
  | (none, some idx) =>
      let entry ← table.slotAt idx
      let after ← table.setSlotAt idx (claimedEntry entry key deposit now)
      return (after, deposit.delta)

def lookupChecked (entityHash : Entity → UInt64) (table : Table Entity)
    (entity : Entity) : Access UInt32 := do
  match ← probeKeyChecked table (entityKeyHash entityHash entity) with
  | some idx => return (← table.slotAt idx).confidence
  | none => return 0

def removeChecked (entityHash : Entity → UInt64) (table : Table Entity)
    (entity : Entity) : Access (Table Entity × Bool) := do
  match ← probeKeyChecked table (entityKeyHash entityHash entity) with
  | some idx =>
      let entry ← table.slotAt idx
      let after ← table.setSlotAt idx { entry with keyHash := slotTombstone }
      return (after, true)
  | none => return (table, false)

def noteReasonChecked (entityHash : Entity → UInt64) (table : Table Entity)
    (entity : Entity) (word : UInt64) : Access (Table Entity) := do
  if reasonKind word = 0 then return table
  else
    match ← probeKeyChecked table (entityKeyHash entityHash entity) with
    | some idx =>
        let entry ← table.slotAt idx
        table.setSlotAt idx { entry with reasons := notedReasons entry.reasons word }
    | none => return table

def decayStepChecked (state : Table Entity × ℕ) (idx : ℕ) :
    Access (Table Entity × ℕ) := do
  let entry ← state.1.slotAt idx
  let after ← state.1.setSlotAt idx (decayedEntry state.1.header entry)
  return (after, if decayEvicts state.1.header entry then state.2 + 1 else state.2)

def decayChecked (table : Table Entity) : Access (Table Entity × ℕ) :=
  (List.range table.header.capacity.toNat).foldlM decayStepChecked (table, 0)

/-! ## Cold-path reads -/

/-- The seqlock loop of `wake_pheromone_read_entry`: `fuel` iterations at most. -/
def seqlockRead (entry : Entry Entity) : ℕ → Access (Entry Entity)
  | 0 => throw .spinning
  | fuel + 1 =>
      let v1 := entry.version
      if v1 &&& 1 ≠ 0 then seqlockRead entry fuel
      else
        let v2 := entry.version
        if v1 = v2 then return { entry with version := v1 }
        else seqlockRead entry fuel

/-- `wake_pheromone_read_entry`; `none` is the answer false. -/
def readEntry (fuel : ℕ) (table : Table Entity) (slotIndex : ℕ) :
    Access (Option (Entry Entity)) :=
  if slotIndex ≥ table.header.capacity.toNat then return none
  else do
    let entry ← table.slotAt slotIndex
    if ¬ entry.Live then return none
    else
      let out ← seqlockRead entry fuel
      return some out

/-- The loop of `wake_pheromone_iterate` from slot `i`; the callback reads and
changes its context, and false stops the loop. -/
def iterateLoop {Ctx : Type} (fuel : ℕ) (table : Table Entity)
    (fn : Entry Entity → Ctx → Bool × Ctx) : ℕ → ℕ → ℕ × Ctx → Access (ℕ × Ctx)
  | 0, _, state => return state
  | n + 1, i, (visited, ctx) => do
      match ← readEntry fuel table i with
      | none => iterateLoop fuel table fn n (i + 1) (visited, ctx)
      | some snap =>
          let (goOn, ctx) := fn snap ctx
          if goOn then iterateLoop fuel table fn n (i + 1) (visited + 1, ctx)
          else return (visited + 1, ctx)

/-- `wake_pheromone_iterate`: the number of entries visited, and the context. -/
def iterate {Ctx : Type} (fuel : ℕ) (table : Table Entity)
    (fn : Entry Entity → Ctx → Bool × Ctx) (ctx : Ctx) : Access (ℕ × Ctx) :=
  iterateLoop fuel table fn table.header.capacity.toNat 0 (0, ctx)

/-! ## Statistics -/

/-- `wake_pheromone_stats_t`. -/
structure Stats where
  capacity : UInt32
  occupied : UInt32
  tombstones : UInt32
  maxProbeLen : UInt32
  totalConfidence : UInt64
  deriving DecidableEq, Repr

/-- The home slot of a key. -/
def homeSlot (h : Header) (keyHash : UInt64) : UInt64 := keyHash &&& h.mask

/-- The probe length of an entry in slot `i`, in the arithmetic of the code. -/
def probeLen (h : Header) (i : UInt64) (keyHash : UInt64) : UInt32 :=
  if i ≥ homeSlot h keyHash then (i - homeSlot h keyHash).toUInt32
  else (h.capacity.toUInt64 - homeSlot h keyHash + i).toUInt32

/-- The loop body of `wake_pheromone_stats`.  The home slot of a live entry is
a slot index too, though the code reads nothing there. -/
def statsStep (table : Table Entity) (out : Stats) (i : ℕ) : Access Stats := do
  let entry ← table.slotAt i
  if entry.keyHash = slotEmpty then return out
  else if entry.keyHash = slotTombstone then
    return { out with tombstones := out.tombstones + 1 }
  else
    let _ ← table.slotAt (homeSlot table.header entry.keyHash).toNat
    let len := probeLen table.header (UInt64.ofNat i) entry.keyHash
    return { out with
      occupied := out.occupied + 1
      totalConfidence := out.totalConfidence + entry.confidence.toUInt64
      maxProbeLen := if len > out.maxProbeLen then len else out.maxProbeLen }

/-- `wake_pheromone_stats`. -/
def stats (table : Table Entity) : Access Stats :=
  (List.range table.header.capacity.toNat).foldlM (statsStep table)
    ⟨table.header.capacity, 0, 0, 0, 0⟩

end Pheromone
end LibWake
