import Mathlib.Data.Fin.VecNotation
import Mathlib.Logic.Function.Basic
import LibWake.ByteOrder
import LibWake.MaskedIndex

/-!
# The transient associative coupling table

The write side of `wake_tac`: the header and its checks, the entry array, the
per-entity occupancy sidecar, the budget slots, and the four calls of the
single writer.  Both arrays are total functions of an index; which indices a
call may touch is a theorem about the code, not part of the data type.

Hashes, packed techniques, source ids and fidelity weights keep their machine
types.  Counters are natural numbers, reduced by an explicit modulus wherever
the code adds in 16 or 32 bits.  `wake_hash_bytes_keyed` is the parameter
`keyedHash`, applied to the bytes and to the key stored in the header.
-/

namespace LibWake
namespace Tac

/-! ## Constants -/

def probeMax : ℕ := 8
def occProbeMax : ℕ := 16
def maxCapacity : ℕ := 2 ^ 24
def slotEmpty : UInt64 := 0
def slotTombstone : UInt64 := 0xDEADDEADDEADDEAD

def defaultCapacity : ℕ := 65536
def defaultDecayNovelFp16 : ℕ := 62576
def defaultDecayCorrFp16 : ℕ := 65504
def defaultNoiseFloor : ℕ := 1000
def defaultPerEntityCap : ℕ := 32
def perEntityCapMax : ℕ := 32
def defaultCorroborationMin : ℕ := 2
def defaultBudgetPerSource : ℕ := 20000
def defaultTickSeconds : ℕ := 60
def defaultQuarantineMinW : ℕ := 4000

def etaStrongFp16 : UInt16 := 39321
def deltaMax : ℕ := 4095
def budgetSlots : ℕ := 5
def srcNone : UInt16 := 0
def srcOther : UInt16 := 0xFFFF
def quarantineSharePct : ℕ := 80
def identMax : ℕ := 54
def identHashed : UInt8 := 1
def magicWord : UInt64 := 0x00434154454B4157
def version : ℕ := 1
def uint16Max : ℕ := 2 ^ 16 - 1
def uint32Max : ℕ := 2 ^ 32 - 1

/-! ## Data -/

/-- `wake_hash_bytes_keyed`: the bytes, then the key. -/
abbrev KeyedHash := List UInt8 → List UInt8 → UInt64

structure Budget where
  sourceId : UInt16
  spent : ℕ
  deriving DecidableEq, Repr

/-- One entry; `budget 0 .. budget 3` are the named slots and `budget 4` is
the shared overflow bucket. -/
structure Entry where
  keyHash : UInt64
  weight : ℕ
  reinfCount : ℕ
  lastReinf : UInt32
  firstSeen : UInt32
  version : UInt32
  tLo : UInt32
  tHi : UInt32
  etaMaxFp16 : UInt16
  srcCount : ℕ
  quarantine : UInt8
  budget : Fin 5 → Budget
  entityHash : UInt64
  identLen : ℕ
  identFlags : UInt8
  ident : List UInt8

/-- One record of the occupancy sidecar; `slot` is the array of entry indices
of which the first `liveCount` are used. -/
structure Occ where
  entityHash : UInt64
  liveCount : ℕ
  slot : ℕ → ℕ

structure Header where
  magic : UInt64
  formatVersion : ℕ
  capacity : ℕ
  mask : UInt64
  hashKey : List UInt8
  epoch : UInt32
  decayNovelFp16 : ℕ
  decayCorrFp16 : ℕ
  noiseFloor : ℕ
  occSlots : ℕ
  budgetPerSource : ℕ
  perEntityCap : ℕ
  corroborationSrcMin : ℕ
  tickSeconds : ℕ
  quarantineMinW : ℕ
  deriving DecidableEq, Repr

structure Table where
  header : Header
  entries : ℕ → Entry
  occ : ℕ → Occ

/-- `wake_tac_config_t`; a zero field asks for the default. -/
structure Config where
  capacity : ℕ := 0
  occSlots : ℕ := 0
  decayNovelFp16 : ℕ := 0
  decayCorrFp16 : ℕ := 0
  noiseFloor : ℕ := 0
  budgetPerSource : ℕ := 0
  perEntityCap : ℕ := 0
  corroborationSrcMin : ℕ := 0
  tickSeconds : ℕ := 0
  quarantineMinW : ℕ := 0
  deriving DecidableEq, Repr

structure Activation where
  technique : UInt32
  etaFp16 : UInt16
  sourceId : UInt16
  deriving DecidableEq, Repr

inductive Result where
  | applied
  | refusedCap
  | refusedBudget
  | refusedQuarantine
  | tableFull
  | invalid
  deriving DecidableEq, Repr

/-- What a write did to a slot.  Events are an account of the run which the
table does not store: the claim of a slot, each charge which `budgetCharge`
accepted, and each reinforcement which was applied, with its larger eta. -/
inductive Event where
  | claimed (idx : ℕ)
  | charged (idx : ℕ) (source : UInt16)
  | applied (idx : ℕ) (etaHi : UInt16)
  deriving DecidableEq, Repr

def Budget.zero : Budget := ⟨srcNone, 0⟩

/-- The entry of zero bytes. -/
def Entry.zero : Entry where
  keyHash := slotEmpty
  weight := 0
  reinfCount := 0
  lastReinf := 0
  firstSeen := 0
  version := 0
  tLo := 0
  tHi := 0
  etaMaxFp16 := 0
  srcCount := 0
  quarantine := 0
  budget := fun _ => Budget.zero
  entityHash := 0
  identLen := 0
  identFlags := 0
  ident := List.replicate identMax 0

def Occ.zero : Occ := ⟨0, 0, fun _ => 0⟩

/-- `key_hash` is neither of the two sentinels. -/
def Entry.Live (entry : Entry) : Prop :=
  entry.keyHash ≠ slotEmpty ∧ entry.keyHash ≠ slotTombstone

instance (entry : Entry) : Decidable entry.Live := by
  unfold Entry.Live
  infer_instance

def Table.setEntry (table : Table) (idx : ℕ) (entry : Entry) : Table :=
  { table with entries := Function.update table.entries idx entry }

def Table.setOcc (table : Table) (idx : ℕ) (record : Occ) : Table :=
  { table with occ := Function.update table.occ idx record }

/-! ## Lifecycle -/

/-- A configured value, or the default when it is zero or absent. -/
def orDefault (cfg : Option Config) (field : Config → ℕ) (dflt : ℕ) : ℕ :=
  match cfg with
  | some c => if field c ≠ 0 then field c else dflt
  | none => dflt

/-- `wake_tac_create` after the file has been mapped: `none` is `EINVAL`. -/
def create (cfg : Option Config) (epoch : UInt32) (hashKey : List UInt8) :
    Option Table :=
  let capacity := orDefault cfg Config.capacity defaultCapacity
  let occSlots := orDefault cfg Config.occSlots capacity
  let budget := orDefault cfg Config.budgetPerSource defaultBudgetPerSource
  let dNovel := orDefault cfg Config.decayNovelFp16 defaultDecayNovelFp16
  let dCorr := orDefault cfg Config.decayCorrFp16 defaultDecayCorrFp16
  let cap := orDefault cfg Config.perEntityCap defaultPerEntityCap
  if !isPowerOf2 capacity || !isPowerOf2 occSlots ||
      capacity > maxCapacity || occSlots < capacity ||
      occSlots > maxCapacity ||
      budget > uint16Max || budget < deltaMax ||
      dNovel ≥ 65536 || dCorr ≥ 65536 ||
      cap = 0 || cap > perEntityCapMax then none
  else
    some {
      header := {
        magic := magicWord
        formatVersion := version
        capacity := capacity
        mask := UInt64.ofNat (capacity - 1)
        hashKey := hashKey
        epoch := epoch
        decayNovelFp16 := dNovel
        decayCorrFp16 := dCorr
        noiseFloor := orDefault cfg Config.noiseFloor defaultNoiseFloor
        occSlots := occSlots
        budgetPerSource := budget
        perEntityCap := cap
        corroborationSrcMin :=
          orDefault cfg Config.corroborationSrcMin defaultCorroborationMin
        tickSeconds := orDefault cfg Config.tickSeconds defaultTickSeconds
        quarantineMinW :=
          orDefault cfg Config.quarantineMinW defaultQuarantineMinW }
      entries := fun _ => Entry.zero
      occ := fun _ => Occ.zero }

/-- The field checks of `wake_tac_open`.  The product in the noise-floor check
is a 32-bit product. -/
def openAccepts (h : Header) : Bool :=
  !(h.magic ≠ magicWord || h.formatVersion ≠ version ||
    !isPowerOf2 h.capacity || !isPowerOf2 h.occSlots ||
    h.capacity > maxCapacity ||
    h.occSlots < h.capacity || h.occSlots > maxCapacity ||
    h.mask ≠ UInt64.ofNat (h.capacity - 1) ||
    h.decayNovelFp16 = 0 || h.decayNovelFp16 ≥ 65536 ||
    h.decayCorrFp16 = 0 || h.decayCorrFp16 ≥ 65536 ||
    h.noiseFloor = 0 ||
    h.noiseFloor ≥ h.budgetPerSource * budgetSlots % 2 ^ 32 ||
    h.budgetPerSource < deltaMax ||
    h.budgetPerSource > uint16Max ||
    h.perEntityCap = 0 ||
    h.perEntityCap > perEntityCapMax ||
    h.corroborationSrcMin = 0)

/-- `wake_tac_reset`: both arrays are zeroed, the header stays. -/
def reset (table : Table) : Table :=
  { table with
    entries := fun idx =>
      if idx < table.header.capacity then Entry.zero else table.entries idx
    occ := fun idx =>
      if idx < table.header.occSlots then Occ.zero else table.occ idx }

/-! ## Hashing and probe windows -/

/-- `entity_hash_of`: the keyed hash of the entity key, never zero. -/
def entityHashOf (keyedHash : KeyedHash) (table : Table) (key : List UInt8) :
    UInt64 :=
  let h := keyedHash key table.header.hashKey
  if h = 0 then 1 else h

/-- `slot_hash_of`: the keyed hash of the 16 bytes `(ehash, t_lo, t_hi)`, with
the two sentinels nudged away. -/
def slotHashOf (keyedHash : KeyedHash) (table : Table)
    (ehash : UInt64) (tLo tHi : UInt32) : UInt64 :=
  let h := keyedHash
    (leBytes 8 ehash.toNat ++ leBytes 4 tLo.toNat ++ leBytes 4 tHi.toNat)
    table.header.hashKey
  if h = slotEmpty ∨ h = slotTombstone then h ^^^ 1 else h

/-- Entry index of probe `p`, as the loops compute it and cast it to 32 bits. -/
def probeIdx (h : Header) (slotKey : UInt64) (p : ℕ) : ℕ :=
  (((slotKey &&& h.mask) + UInt64.ofNat p) &&& h.mask).toUInt32.toNat

def probeWindow (h : Header) (slotKey : UInt64) : List ℕ :=
  (List.range probeMax).map (probeIdx h slotKey)

/-- Sidecar index of probe `p`. -/
def occIdx (h : Header) (ehash : UInt64) (p : ℕ) : ℕ :=
  (((ehash &&& UInt64.ofNat (h.occSlots - 1)) + UInt64.ofNat p) &&&
    UInt64.ofNat (h.occSlots - 1)).toNat

def occWindow (h : Header) (ehash : UInt64) : List ℕ :=
  (List.range occProbeMax).map (occIdx h ehash)

/-! ## Occupancy sidecar -/

/-- The probe loop of `occ_find`. -/
def occFindIn (table : Table) (ehash : UInt64) (claim : Bool) :
    List ℕ → Option ℕ × Table
  | [] => (none, table)
  | idx :: rest =>
      if (table.occ idx).entityHash = ehash then (some idx, table)
      else if (table.occ idx).entityHash = 0 then
        if claim then
          (some idx, table.setOcc idx
            { table.occ idx with liveCount := 0, entityHash := ehash })
        else (none, table)
      else occFindIn table ehash claim rest

/-- `occ_find`: the index of the record and the table after a claim. -/
def occFind (table : Table) (ehash : UInt64) (claim : Bool) :
    Option ℕ × Table :=
  occFindIn table ehash claim (occWindow table.header ehash)

/-- `occ_count`. -/
def occCount (table : Table) (ehash : UInt64) : ℕ :=
  match (occFind table ehash false).1 with
  | some idx => (table.occ idx).liveCount
  | none => 0

/-- `occ_add_slot`. -/
def occAddSlot (table : Table) (ehash : UInt64) (entryIdx : ℕ) : Bool × Table :=
  match occFind table ehash true with
  | (none, found) => (false, found)
  | (some idx, found) =>
      let record := found.occ idx
      if record.liveCount ≥ perEntityCapMax then (false, found)
      else
        (true, found.setOcc idx
          { record with
            slot := Function.update record.slot record.liveCount entryIdx
            liveCount := record.liveCount + 1 })

/-- `occ_del_slot`: swap the last used index into the hole. -/
def occDelSlot (table : Table) (ehash : UInt64) (entryIdx : ℕ) : Table :=
  match (occFind table ehash false).1 with
  | none => table
  | some idx =>
      let record := table.occ idx
      match (List.range (min record.liveCount perEntityCapMax)).find?
          fun i => record.slot i = entryIdx with
      | none => table
      | some i =>
          table.setOcc idx
            { record with
              slot := Function.update record.slot i
                (record.slot (record.liveCount - 1))
              liveCount := record.liveCount - 1 }

/-! ## Slot lookup -/

/-- The probe loop of `find_slot`. -/
def findSlotIn (table : Table) (slotKey : UInt64) : List ℕ → Option ℕ
  | [] => none
  | idx :: rest =>
      if (table.entries idx).keyHash = slotKey then some idx
      else if (table.entries idx).keyHash = slotEmpty then none
      else findSlotIn table slotKey rest

/-- `find_slot`; `none` is `UINT32_MAX`. -/
def findSlot (table : Table) (slotKey : UInt64) : Option ℕ :=
  findSlotIn table slotKey (probeWindow table.header slotKey)

/-! ## Budgets -/

/-- The four slots which carry a source id. -/
def namedSlots : List (Fin 5) := [0, 1, 2, 3]

def overflowSlot : Fin 5 := 4

/-- `normalize_source`. -/
def normalizeSource (source : UInt16) : UInt16 :=
  if source = srcOther then srcOther - 1 else source

/-- The named-slot loop of `budget_knows_source`; `none` when it runs through. -/
def namedKnowsSource (budget : Fin 5 → Budget) (source : UInt16) :
    List (Fin 5) → Option Bool
  | [] => none
  | i :: rest =>
      if (budget i).sourceId = source then some true
      else if (budget i).sourceId = srcNone then some false
      else namedKnowsSource budget source rest

/-- `budget_knows_source`. -/
def budgetKnowsSource (budget : Fin 5 → Budget) (source : UInt16) : Bool :=
  match namedKnowsSource budget source namedSlots with
  | some known => known
  | none => (budget overflowSlot).sourceId != srcNone

/-- `budget_charge`: `none` is a refused charge, which changes nothing; the
Boolean of an accepted charge is `*new_source`. -/
def budgetCharge (h : Header) (budget : Fin 5 → Budget)
    (source : UInt16) (delta : ℕ) : Option ((Fin 5 → Budget) × Bool) :=
  match namedSlots.find? fun i => (budget i).sourceId = source with
  | some i =>
      if (budget i).spent + delta > h.budgetPerSource then none
      else
        some (Function.update budget i
          { budget i with spent := ((budget i).spent + delta) % 2 ^ 16 }, false)
  | none =>
      match namedSlots.find? fun i => (budget i).sourceId = srcNone with
      | some i =>
          if delta > h.budgetPerSource then none
          else some (Function.update budget i ⟨source, delta % 2 ^ 16⟩, true)
      | none =>
          let other := budget overflowSlot
          if other.spent + delta > h.budgetPerSource then none
          else
            some (Function.update budget overflowSlot
              ⟨if other.sourceId = srcNone then srcOther else other.sourceId,
                (other.spent + delta) % 2 ^ 16⟩,
              other.sourceId == srcNone)

/-- A charge whose refusal is ignored, with the list of accepted sources. -/
def chargeIgnoringRefusal (h : Header) (budget : Fin 5 → Budget)
    (source : UInt16) (delta : ℕ) : (Fin 5 → Budget) × Bool × List UInt16 :=
  match budgetCharge h budget source delta with
  | some (charged, isNew) => (charged, isNew, [source])
  | none => (budget, false, [])

/-- The charges of one call on an existing edge: the budgets afterwards, the
number of new sources, and the accepted sources.  `none` refuses the call. -/
def chargeExisting (h : Header) (budget : Fin 5 → Budget)
    (w0Src w1Src : UInt16) (delta : ℕ) :
    Option ((Fin 5 → Budget) × ℕ × List UInt16) :=
  let have2 : Bool := w1Src ≠ srcNone && w1Src ≠ w0Src
  match budgetCharge h budget w0Src delta with
  | none =>
      if have2 then
        (budgetCharge h budget w1Src delta).map fun charged =>
          (charged.1, charged.2.toNat, [w1Src])
      else none
  | some (first, new0) =>
      if have2 then
        let second := chargeIgnoringRefusal h first w1Src delta
        some (second.1, new0.toNat + second.2.1.toNat, w0Src :: second.2.2)
      else some (first, new0.toNat, [w0Src])

/-- The charges of one call on a freshly claimed edge. -/
def chargeFresh (h : Header) (w0Src w1Src : UInt16) (delta : ℕ) :
    (Fin 5 → Budget) × ℕ × List UInt16 :=
  let first := chargeIgnoringRefusal h (fun _ => Budget.zero) w0Src delta
  if w1Src ≠ srcNone ∧ w1Src ≠ w0Src then
    let second := chargeIgnoringRefusal h first.1 w1Src delta
    (second.1, first.2.1.toNat + second.2.1.toNat, first.2.2 ++ second.2.2)
  else (first.1, first.2.1.toNat, first.2.2)

/-- The largest `spent` of the five slots. -/
def topSpent (budget : Fin 5 → Budget) : ℕ :=
  [0, 1, 2, 3, 4].foldl
    (fun top i => if (budget i).spent > top then (budget i).spent else top) 0

/-- `quarantine_reassess`. -/
def quarantineReassess (h : Header) (entry : Entry) : Entry :=
  if h.quarantineMinW = 0 ∨ h.quarantineMinW = uint32Max then entry
  else if entry.srcCount ≥ 2 then { entry with quarantine := 0 }
  else if entry.weight < h.quarantineMinW then entry
  else if topSpent entry.budget * 100 ≥ entry.weight * quarantineSharePct then
    { entry with quarantine := 1 }
  else entry

/-! ## Reinforcement -/

/-- `WAKE_TAC_DELTA`. -/
def deltaOf (etaFp16 : UInt16) : ℕ := etaFp16.toNat >>> 4

/-- The larger eta of the witnesses which are present. -/
def etaHigh (w0Eta w1Eta w1Src : UInt16) : UInt16 :=
  if w1Src ≠ srcNone ∧ w1Eta > w0Eta then w1Eta else w0Eta

/-- The smaller eta of the witnesses which are present. -/
def etaLow (w0Eta w1Eta w1Src : UInt16) : UInt16 :=
  if w1Src ≠ srcNone ∧ w1Eta < w0Eta then w1Eta else w0Eta

/-- The joint strength of a pair: the weaker leg, and at least one. -/
def jointDelta (w0Eta w1Eta w1Src : UInt16) : ℕ :=
  let delta := deltaOf (etaLow w0Eta w1Eta w1Src)
  if delta = 0 then 1 else delta

/-- The two witnesses of one call, and its clock value; the second witness is
absent when `w1Src` is `srcNone`. -/
structure Witnesses where
  w0Eta : UInt16
  w0Src : UInt16
  w1Eta : UInt16
  w1Src : UInt16
  nowRel : UInt32
  deriving DecidableEq, Repr

def Witnesses.etaHi (w : Witnesses) : UInt16 := etaHigh w.w0Eta w.w1Eta w.w1Src
def Witnesses.delta (w : Witnesses) : ℕ := jointDelta w.w0Eta w.w1Eta w.w1Src

/-- The quarantine gate of an existing edge. -/
def quarantineRefuses (entry : Entry) (w : Witnesses) : Bool :=
  entry.quarantine != 0 && budgetKnowsSource entry.budget w.w0Src &&
    (w.w1Src == srcNone || budgetKnowsSource entry.budget w.w1Src)

/-- The field updates of an applied reinforcement of an existing edge. -/
def reinforcedEntry (h : Header) (entry : Entry) (w : Witnesses)
    (budget : Fin 5 → Budget) (bump : ℕ) : Entry :=
  quarantineReassess h
    { entry with
      budget := budget
      weight := (entry.weight + w.delta) % 2 ^ 32
      reinfCount := (entry.reinfCount + 1) % 2 ^ 32
      lastReinf := w.nowRel
      etaMaxFp16 := if entry.etaMaxFp16 < w.etaHi then w.etaHi else entry.etaMaxFp16
      srcCount :=
        if bump ≠ 0 then
          if entry.srcCount + bump > budgetSlots then budgetSlots
          else entry.srcCount + bump
        else entry.srcCount }

structure Outcome where
  table : Table
  result : Result
  events : List Event

/-- The existing-edge branch of `apply_edge`. -/
def applyExisting (table : Table) (idx : ℕ) (w : Witnesses) : Outcome :=
  let entry := table.entries idx
  if quarantineRefuses entry w then ⟨table, .refusedQuarantine, []⟩
  else
    match chargeExisting table.header entry.budget w.w0Src w.w1Src w.delta with
    | none => ⟨table, .refusedBudget, []⟩
    | some (budget, bump, accepted) =>
        ⟨table.setEntry idx (reinforcedEntry table.header entry w budget bump),
          .applied,
          accepted.map (Event.charged idx) ++ [.applied idx w.etaHi]⟩

/-- One step of the victim search: the candidate victim and `weakest_w`. -/
def weakestStep (table : Table) (ehash : UInt64) (record : Occ)
    (best : Option ℕ × ℕ) (i : ℕ) : Option ℕ × ℕ :=
  let idx := record.slot i
  if idx ≥ table.header.capacity then best
  else if ¬ (table.entries idx).Live then best
  else if (table.entries idx).entityHash ≠ ehash then best
  else if (table.entries idx).weight < best.2 then
    (some idx, (table.entries idx).weight)
  else best

/-- The weakest live edge of the entity which its sidecar record lists. -/
def weakestEdge (table : Table) (ehash : UInt64) : Option ℕ × ℕ :=
  match (occFind table ehash false).1 with
  | none => (none, uint32Max)
  | some recordIdx =>
      let record := table.occ recordIdx
      (List.range (min record.liveCount perEntityCapMax)).foldl
        (weakestStep table ehash record) (none, uint32Max)

/-- The cap decision: `none` refuses the new edge, `some victim` lets it in,
replacing `victim` when there is one. -/
def capDecision (table : Table) (ehash : UInt64) (delta : ℕ) :
    Option (Option ℕ) :=
  if occCount table ehash ≥ table.header.perEntityCap then
    match weakestEdge table ehash with
    | (none, _) => none
    | (some victim, weakestW) => if delta ≤ weakestW then none else some (some victim)
  else some none

/-- The claim loop: the first slot of the window which holds no live key. -/
def claimSlot (table : Table) (slotKey : UInt64) : Option ℕ :=
  (probeWindow table.header slotKey).find? fun idx =>
    ¬ (table.entries idx).Live

/-- Retire the cap victim: weight 0, tombstone, and out of the sidecar. -/
def retireVictim (table : Table) (ehash : UInt64) : Option ℕ → Table
  | none => table
  | some victim =>
      occDelSlot
        (table.setEntry victim
          { table.entries victim with weight := 0, keyHash := slotTombstone })
        ehash victim

/-- The stored copy of the leading key bytes, zero padded. -/
def identBytes (key : List UInt8) : List UInt8 :=
  key.take identMax ++ List.replicate (identMax - min key.length identMax) 0

/-- The fields of a claimed slot before its weight is published. -/
def claimedEntry (h : Header) (stale : Entry) (slotKey ehash : UInt64)
    (key : List UInt8) (tLo tHi : UInt32) (w : Witnesses) : Entry :=
  let charges := chargeFresh h w.w0Src w.w1Src w.delta
  let lockVersion := (stale.version + 1) ||| 1
  { keyHash := slotKey
    weight := 0
    reinfCount := 1
    lastReinf := w.nowRel
    firstSeen := w.nowRel
    version := lockVersion + 1
    tLo := tLo
    tHi := tHi
    etaMaxFp16 := w.etaHi
    srcCount := charges.2.1
    quarantine := 0
    budget := charges.1
    entityHash := ehash
    identLen := min key.length identMax
    identFlags := if key.length > identMax then identHashed else 0
    ident := identBytes key }

/-- The table once `idx` has been claimed, the victim retired and the fields
of the claimed slot written. -/
def fillClaimed (table : Table) (idx : ℕ) (victim : Option ℕ)
    (slotKey ehash : UInt64) (fresh : Entry) : Table :=
  let claimed := table.setEntry idx { table.entries idx with keyHash := slotKey }
  (retireVictim claimed ehash victim).setEntry idx fresh

/-- The new-edge branch of `apply_edge`, from the cap decision on. -/
def applyNew (table : Table) (slotKey ehash : UInt64) (key : List UInt8)
    (tLo tHi : UInt32) (w : Witnesses) : Outcome :=
  match capDecision table ehash w.delta with
  | none => ⟨table, .refusedCap, []⟩
  | some victim =>
      match claimSlot table slotKey with
      | none => ⟨table, .tableFull, []⟩
      | some idx =>
          let fresh := claimedEntry table.header (table.entries idx)
            slotKey ehash key tLo tHi w
          let filled := fillClaimed table idx victim slotKey ehash fresh
          let charges := (chargeFresh table.header w.w0Src w.w1Src w.delta).2.2
          let events := .claimed idx :: charges.map (Event.charged idx)
          match occAddSlot filled ehash idx with
          | (false, tracked) =>
              ⟨tracked.setEntry idx { fresh with keyHash := slotTombstone },
                .refusedCap, events⟩
          | (true, tracked) =>
              ⟨tracked.setEntry idx { fresh with weight := w.delta },
                .applied, events ++ [.applied idx w.etaHi]⟩

/-- `apply_edge`. -/
def applyEdge (keyedHash : KeyedHash) (table : Table) (ehash : UInt64)
    (key : List UInt8) (tLo tHi : UInt32) (w : Witnesses) : Outcome :=
  let slotKey := slotHashOf keyedHash table ehash tLo tHi
  match findSlot table slotKey with
  | some idx => applyExisting table idx w
  | none => applyNew table slotKey ehash key tLo tHi w

/-- `wake_tac_reinforce`; the empty list stands for a null or empty key. -/
def reinforce (keyedHash : KeyedHash) (table : Table) (key : List UInt8)
    (tA tB : UInt32) (etaFp16 sourceId : UInt16) (nowRel : UInt32) : Outcome :=
  if key = [] ∨ sourceId = srcNone ∨ tA = tB then ⟨table, .invalid, []⟩
  else
    applyEdge keyedHash table (entityHashOf keyedHash table key) key
      (if tA < tB then tA else tB) (if tA < tB then tB else tA)
      ⟨etaFp16, normalizeSource sourceId, 0, srcNone, nowRel⟩

/-- The pairs which the two loops of `wake_tac_reinforce_batch` hand to
`apply_edge`, in order. -/
def batchPairs : List Activation → List (Activation × Activation)
  | [] => []
  | first :: rest =>
      (if first.sourceId = srcNone then []
        else
          (rest.filter fun second =>
            second.sourceId ≠ srcNone ∧ first.technique ≠ second.technique).map
              fun second => (first, second)) ++
        batchPairs rest

/-- The table, the number of applied pairs and the events so far. -/
structure BatchState where
  table : Table
  applied : ℕ
  events : List Event

/-- The loop body of `wake_tac_reinforce_batch`. -/
def batchStep (keyedHash : KeyedHash) (ehash : UInt64) (key : List UInt8)
    (nowRel : UInt32) (state : BatchState) (pair : Activation × Activation) :
    BatchState :=
  let a := pair.1.technique
  let b := pair.2.technique
  let outcome := applyEdge keyedHash state.table ehash key
    (if a < b then a else b) (if a < b then b else a)
    ⟨pair.1.etaFp16, normalizeSource pair.1.sourceId,
      pair.2.etaFp16, normalizeSource pair.2.sourceId, nowRel⟩
  ⟨outcome.table,
    if outcome.result = .applied then (state.applied + 1) % 2 ^ 32
      else state.applied,
    state.events ++ outcome.events⟩

/-- `wake_tac_reinforce_batch`; the empty list stands for a null array. -/
def reinforceBatch (keyedHash : KeyedHash) (table : Table) (key : List UInt8)
    (acts : List Activation) (nowRel : UInt32) : BatchState :=
  if key = [] ∨ acts.length < 2 then ⟨table, 0, []⟩
  else
    (batchPairs acts).foldl
      (batchStep keyedHash (entityHashOf keyedHash table key) key nowRel)
      ⟨table, 0, []⟩

/-! ## Decay -/

/-- `edge_corroborated`. -/
def edgeCorroborated (h : Header) (srcCount : ℕ) (etaMax : UInt16) : Bool :=
  srcCount ≥ h.corroborationSrcMin && etaMax ≥ etaStrongFp16

/-- The decay factor which `wake_tac_decay` picks for an entry. -/
def decayFactor (h : Header) (entry : Entry) : ℕ :=
  if edgeCorroborated h entry.srcCount entry.etaMaxFp16 then h.decayCorrFp16
  else h.decayNovelFp16

/-- One decay factor applied in 0.16 fixed point. -/
def decayedWeight (h : Header) (entry : Entry) : ℕ :=
  (entry.weight * decayFactor h entry) >>> 16 % 2 ^ 32

/-- The loop body of `wake_tac_decay` for entry `idx`. -/
def decayStep (state : Table × ℕ) (idx : ℕ) : Table × ℕ :=
  let table := state.1
  let entry := table.entries idx
  if ¬ entry.Live then state
  else if decayedWeight table.header entry < table.header.noiseFloor then
    (table.setEntry idx { entry with keyHash := slotTombstone }, state.2 + 1)
  else
    let lowered := table.setEntry idx
      { entry with weight := decayedWeight table.header entry }
    ((occAddSlot lowered entry.entityHash idx).2, state.2)

/-- The first loop of `wake_tac_decay`. -/
def zeroSidecar (table : Table) : Table :=
  { table with
    occ := fun idx =>
      if idx < table.header.occSlots then
        { table.occ idx with liveCount := 0, entityHash := 0 }
      else table.occ idx }

/-- `wake_tac_decay`: the table afterwards and the number of evicted edges. -/
def decay (table : Table) : Table × ℕ :=
  (List.range table.header.capacity).foldl decayStep (zeroSidecar table, 0)

end Tac
end LibWake
