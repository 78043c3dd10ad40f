import Mathlib.Data.Fin.VecNotation
import Mathlib.Logic.Function.Basic
import LibWake.MaskedIndex
import LibWake.TransitionSystem

/-!
# The pheromone table

The sequential functions of `wake_pheromone`: lifecycle, insertion, lookup,
removal, reasons and decay.  The table never looks inside an entity, so the
entity type is a parameter, and `wake_entity_hash` under the process-global key
is the function `entityHash`.

Evidence counters have the width of the code's fields and wrap as they do.
The clock reading of a call is an argument of the call.
-/

namespace LibWake
namespace Pheromone

/-! ## Constants -/

def probeMax : ℕ := 8
def slotEmpty : UInt64 := 0
def slotTombstone : UInt64 := 0xDEADDEADDEADDEAD
def defaultCapacity : UInt32 := 65536
def defaultDecayFp16 : UInt32 := 62259
def defaultNoiseFloor : UInt32 := 100
def magicWord : UInt64 := 0x0054485045414B57
def version : UInt32 := 1

/-! ## Data -/

/-- There are three reason words. -/
scoped instance reasonWords : NeZero 3 := ⟨by decide⟩

structure Header where
  magic : UInt64
  formatVersion : UInt32
  capacity : UInt32
  mask : UInt64
  hashKey : List UInt8
  epoch : UInt32
  decayFactorFp16 : UInt32
  noiseFloor : UInt32
  deriving DecidableEq, Repr

structure Entry (Entity : Type) where
  keyHash : UInt64
  confidence : UInt32
  hitCount : UInt32
  lastUpdate : UInt32
  srcCount : UInt16
  action : UInt8
  outcome : UInt8
  firstSeen : UInt32
  tenantId : UInt32
  version : UInt32
  phaseFlags : UInt32
  reasons : Fin 3 → UInt64
  entity : Entity

structure Table (Entity : Type) where
  header : Header
  entries : ℕ → Entry Entity

/-- `wake_pheromone_config_t`; a zero field asks for the default. -/
structure Config where
  capacity : UInt32 := 0
  decayFactorFp16 : UInt32 := 0
  noiseFloor : UInt32 := 0
  deriving DecidableEq, Repr

variable {Entity : Type}

/-- The entry of zero bytes. -/
def Entry.zero [Inhabited Entity] : Entry Entity where
  keyHash := slotEmpty
  confidence := 0
  hitCount := 0
  lastUpdate := 0
  srcCount := 0
  action := 0
  outcome := 0
  firstSeen := 0
  tenantId := 0
  version := 0
  phaseFlags := 0
  reasons := fun _ => 0
  entity := default

/-- The key hash is neither of the two sentinels. -/
def Entry.Live (entry : Entry Entity) : Prop :=
  entry.keyHash ≠ slotEmpty ∧ entry.keyHash ≠ slotTombstone

instance (entry : Entry Entity) : Decidable entry.Live := by
  unfold Entry.Live
  infer_instance

def Table.setEntry (table : Table Entity) (idx : ℕ) (entry : Entry Entity) :
    Table Entity :=
  { table with entries := Function.update table.entries idx entry }

/-- `wake_pheromone_create` after the file has been mapped: `none` is `EINVAL`. -/
def create [Inhabited Entity] (cfg : Option Config) (clock : UInt32)
    (hashKey : List UInt8) : Option (Table Entity) :=
  let chosen := cfg.getD {}
  let capacity := if chosen.capacity ≠ 0 then chosen.capacity else defaultCapacity
  if !isPowerOf2 capacity.toNat then none
  else
    some {
      header := {
        magic := magicWord
        formatVersion := version
        capacity := capacity
        mask := UInt64.ofNat (capacity.toNat - 1)
        hashKey := hashKey
        epoch := clock
        decayFactorFp16 :=
          if chosen.decayFactorFp16 ≠ 0 then chosen.decayFactorFp16
          else defaultDecayFp16
        noiseFloor :=
          if chosen.noiseFloor ≠ 0 then chosen.noiseFloor else defaultNoiseFloor }
      entries := fun _ => Entry.zero }

/-! ## Keys and probe windows -/

/-- `relative_time`. -/
def relativeTime (h : Header) (clock : UInt32) : UInt32 := clock - h.epoch

/-- `entity_key_hash`: the two sentinels are nudged away. -/
def entityKeyHash (entityHash : Entity → UInt64) (entity : Entity) : UInt64 :=
  let h := entityHash entity
  if h = slotEmpty ∨ h = slotTombstone then h ^^^ 1 else h

/-- Slot index of probe `p`. -/
def probeIdx (h : Header) (key : UInt64) (p : ℕ) : ℕ :=
  (((key &&& h.mask) + UInt64.ofNat p) &&& h.mask).toNat

def probeWindow (h : Header) (key : UInt64) : List ℕ :=
  (List.range probeMax).map (probeIdx h key)

/-- The probe loop of `wake_pheromone_lookup`, `wake_pheromone_remove` and
`wake_pheromone_note_reason`: the slot in which it stops with the key. -/
def probeKeyIn (entries : ℕ → Entry Entity) (key : UInt64) : List ℕ → Option ℕ
  | [] => none
  | idx :: rest =>
      if (entries idx).keyHash = key then some idx
      else if (entries idx).keyHash = slotEmpty then none
      else probeKeyIn entries key rest

def probeKey (table : Table Entity) (key : UInt64) : Option ℕ :=
  probeKeyIn table.entries key (probeWindow table.header key)

/-! ## Insertion -/

/-- The arguments of `wake_pheromone_deposit` and `wake_pheromone_reinforce`;
only the second sets `incrementSrc`. -/
structure Deposit (Entity : Type) where
  entity : Entity
  action : UInt8
  outcome : UInt8
  tenantId : UInt32
  delta : UInt32
  incrementSrc : Bool
  phaseFlags : UInt32
  clock : UInt32

/-- The probe loop of `pht_insert`: the slot which holds the key, if it is met,
and `first_available`. -/
def insertProbe (entries : ℕ → Entry Entity) (key : UInt64) :
    List ℕ → Option ℕ → Option ℕ × Option ℕ
  | [], first => (none, first)
  | idx :: rest, first =>
      if (entries idx).keyHash = key then (some idx, first)
      else if (entries idx).keyHash = slotEmpty then
        (none, first.or (some idx))
      else if (entries idx).keyHash = slotTombstone then
        insertProbe entries key rest (first.or (some idx))
      else insertProbe entries key rest first

/-- The update of an entry which already holds the key. -/
def reinforcedEntry (entry : Entry Entity) (deposit : Deposit Entity)
    (now : UInt32) : Entry Entity :=
  { entry with
    confidence := entry.confidence + deposit.delta
    hitCount := entry.hitCount + 1
    lastUpdate := now
    srcCount := if deposit.incrementSrc then entry.srcCount + 1 else entry.srcCount
    phaseFlags := entry.phaseFlags ||| deposit.phaseFlags }

/-- The fields of a slot claimed for a new key. -/
def claimedEntry (stale : Entry Entity) (key : UInt64) (deposit : Deposit Entity)
    (now : UInt32) : Entry Entity where
  keyHash := key
  confidence := deposit.delta
  hitCount := 1
  lastUpdate := now
  srcCount := 1
  action := deposit.action
  outcome := deposit.outcome
  firstSeen := now
  tenantId := deposit.tenantId
  version := ((stale.version + 1) ||| 1) + 1
  phaseFlags := deposit.phaseFlags
  reasons := fun _ => 0
  entity := deposit.entity

/-- `pht_insert` with no other process running: the re-check of the slot and
the compare-and-swap then always succeed.  The result is the new confidence,
or 0 when the probe range is full. -/
def phtInsert (entityHash : Entity → UInt64) (table : Table Entity)
    (deposit : Deposit Entity) : Table Entity × UInt32 :=
  let key := entityKeyHash entityHash deposit.entity
  let now := relativeTime table.header deposit.clock
  match insertProbe table.entries key (probeWindow table.header key) none with
  | (some idx, _) =>
      (table.setEntry idx (reinforcedEntry (table.entries idx) deposit now),
        (table.entries idx).confidence + deposit.delta)
  | (none, none) => (table, 0)
  | (none, some idx) =>
      (table.setEntry idx (claimedEntry (table.entries idx) key deposit now),
        deposit.delta)

/-! ## Lookup, removal and reasons -/

/-- `wake_pheromone_lookup`. -/
def lookup (entityHash : Entity → UInt64) (table : Table Entity)
    (entity : Entity) : UInt32 :=
  match probeKey table (entityKeyHash entityHash entity) with
  | some idx => (table.entries idx).confidence
  | none => 0

/-- `wake_pheromone_remove`. -/
def remove (entityHash : Entity → UInt64) (table : Table Entity)
    (entity : Entity) : Table Entity × Bool :=
  match probeKey table (entityKeyHash entityHash entity) with
  | some idx =>
      (table.setEntry idx { table.entries idx with keyHash := slotTombstone }, true)
  | none => (table, false)

/-- The kind in the low byte of a reason word; kind 0 is no reason. -/
def reasonKind (word : UInt64) : UInt8 := word.toUInt8

/-- The three reason words after a note. -/
def notedReasons (reasons : Fin 3 → UInt64) (word : UInt64) : Fin 3 → UInt64 :=
  if reasonKind (reasons 0) = reasonKind word then Function.update reasons 0 word
  else ![word, reasons 0, reasons 1]

/-- `wake_pheromone_note_reason`. -/
def noteReason (entityHash : Entity → UInt64) (table : Table Entity)
    (entity : Entity) (word : UInt64) : Table Entity :=
  if reasonKind word = 0 then table
  else
    match probeKey table (entityKeyHash entityHash entity) with
    | some idx =>
        table.setEntry idx { table.entries idx with
          reasons := notedReasons (table.entries idx).reasons word }
    | none => table

/-! ## Decay -/

/-- One decay factor applied in 0.16 fixed point, cast to 32 bits. -/
def decayedConfidence (h : Header) (confidence : UInt32) : UInt32 :=
  UInt32.ofNat ((confidence.toNat * h.decayFactorFp16.toNat) >>> 16)

/-- What `wake_pheromone_decay` makes of an entry, with no other process
running. -/
def decayedEntry (h : Header) (entry : Entry Entity) : Entry Entity :=
  if ¬ entry.Live then entry
  else if decayedConfidence h entry.confidence < h.noiseFloor then
    { entry with keyHash := slotTombstone }
  else { entry with confidence := decayedConfidence h entry.confidence }

/-- The loop body evicts the entry. -/
def decayEvicts (h : Header) (entry : Entry Entity) : Bool :=
  entry.Live && decayedConfidence h entry.confidence < h.noiseFloor

/-- The loop body of `wake_pheromone_decay` for entry `idx`. -/
def decayStep (state : Table Entity × ℕ) (idx : ℕ) : Table Entity × ℕ :=
  (state.1.setEntry idx (decayedEntry state.1.header (state.1.entries idx)),
    if decayEvicts state.1.header (state.1.entries idx) then state.2 + 1
    else state.2)

/-- `wake_pheromone_decay`: the table and the number of evicted entries. -/
def decay (table : Table Entity) : Table Entity × ℕ :=
  (List.range table.header.capacity.toNat).foldl decayStep (table, 0)

/-! ## Sequential runs -/

inductive Call (Entity : Type) where
  | insert (deposit : Deposit Entity)
  | remove (entity : Entity)
  | noteReason (entity : Entity) (word : UInt64)
  | decay

/-- The table after one call. -/
def performCall (entityHash : Entity → UInt64) (table : Table Entity) :
    Call Entity → Table Entity
  | .insert deposit => (phtInsert entityHash table deposit).1
  | .remove entity => (Pheromone.remove entityHash table entity).1
  | .noteReason entity word => Pheromone.noteReason entityHash table entity word
  | .decay => (Pheromone.decay table).1

/-- The sequential runs on a table which `create` made. -/
def sequential [Inhabited Entity] (entityHash : Entity → UInt64) :
    TransitionSystem (Table Entity) (Call Entity) where
  Initial table := ∃ cfg clock hashKey, create cfg clock hashKey = some table
  step table call := some (performCall entityHash table call)

end Pheromone
end LibWake
