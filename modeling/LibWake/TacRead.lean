import LibWake.TacInvariant

/-!
# The read path of the coupling table

`wake_tac_query`, `wake_tac_route`, `wake_tac_read_entry` and
`wake_tac_stats`.  Each walks the entry array, and is written as a fold of the
code's loop body over the entries.
-/

namespace LibWake
namespace Tac

def queryTopMax : ℕ := 32

/-! ## Query -/

structure Edge where
  tLo : UInt32
  tHi : UInt32
  weight : ℕ
  etaMaxFp16 : UInt16
  srcCount : ℕ
  quarantine : UInt8
  deriving DecidableEq, Repr

/-- `wake_tac_snapshot_t`; `top` holds the `top_count` filled entries. -/
structure Snapshot where
  couplingMass : ℕ
  edgeCount : ℕ
  top : List Edge
  deriving DecidableEq, Repr

def Edge.zero : Edge := ⟨0, 0, 0, 0, 0, 0⟩

/-- The index which the scan of `top_insert` ends with. -/
def lightestIdx (top : List Edge) : ℕ :=
  (List.range queryTopMax).foldl
    (fun minI i =>
      if (top.getD i Edge.zero).weight < (top.getD minI Edge.zero).weight then i
      else minI) 0

/-- `top_insert`. -/
def topInsert (top : List Edge) (cand : Edge) : List Edge :=
  if top.length < queryTopMax then top ++ [cand]
  else if cand.weight > (top.getD (lightestIdx top) Edge.zero).weight then
    top.set (lightestIdx top) cand
  else top

/-- The entry counts for `wake_tac_query` and `wake_tac_route`. -/
def visibleTo (ehash : UInt64) (entry : Entry) : Prop :=
  entry.Live ∧ entry.weight ≠ 0 ∧ entry.entityHash = ehash ∧
    entry.quarantine = 0

instance (ehash : UInt64) (entry : Entry) : Decidable (visibleTo ehash entry) := by
  unfold visibleTo
  infer_instance

def edgeOf (entry : Entry) : Edge :=
  ⟨entry.tLo, entry.tHi, entry.weight, entry.etaMaxFp16, entry.srcCount, 0⟩

/-- The loop body of `wake_tac_query`. -/
def queryStep (ehash : UInt64) (snapshot : Snapshot) (entry : Entry) : Snapshot :=
  if visibleTo ehash entry then
    ⟨(snapshot.couplingMass + entry.weight) % 2 ^ 32,
      (snapshot.edgeCount + 1) % 2 ^ 32,
      topInsert snapshot.top (edgeOf entry)⟩
  else snapshot

/-- `wake_tac_query`: `none` when the key is null or empty.  The call returns
whether `edgeCount` is positive. -/
def query (keyedHash : KeyedHash) (table : Table) (key : List UInt8) :
    Option Snapshot :=
  if key = [] then none
  else
    some ((List.range table.header.capacity).foldl
      (fun snapshot i => queryStep (entityHashOf keyedHash table key) snapshot
        (table.entries i)) ⟨0, 0, []⟩)

/-! ## Route -/

structure RoutedInput where
  technique : UInt32
  inputFp16 : ℕ
  deriving DecidableEq, Repr

/-- The positions which the inner loop of `wake_tac_route` finds for the two
ends of an edge: the last activation of each technique, where an activation of
`el` is not also taken for `eh`. -/
def endpoints (acts : List Activation) (el eh : UInt32) :
    Option ℕ × Option ℕ :=
  acts.zipIdx.foldl
    (fun found act =>
      if act.1.technique = el then (some act.2, found.2)
      else if act.1.technique = eh then (found.1, some act.2)
      else found) (none, none)

/-- What one edge adds for an activation of weight `eta`. -/
def routedForce (weight : ℕ) (etaFp16 : UInt16) : ℕ :=
  (weight * etaFp16.toNat) >>> 16

/-- `acc[k] += force`, in 64 bits. -/
def accumulate (acc : ℕ → ℕ) (k force : ℕ) : ℕ → ℕ :=
  Function.update acc k ((acc k + force) % 2 ^ 64)

/-- The loop body of `wake_tac_route`. -/
def routeStep (ehash : UInt64) (acts : List Activation)
    (acc : ℕ → ℕ) (entry : Entry) : ℕ → ℕ :=
  if visibleTo ehash entry then
    match endpoints acts entry.tLo entry.tHi with
    | (some xi, some xj) =>
        let etaOf := fun k => (acts.map Activation.etaFp16).getD k 0
        accumulate
          (accumulate acc xi (routedForce entry.weight (etaOf xj)))
          xj (routedForce entry.weight (etaOf xi))
    | _ => acc
  else acc

/-- `wake_tac_route`: the written prefix of `out`.  A null `acts` or `out` is
the empty list or a zero `outCap`. -/
def route (keyedHash : KeyedHash) (table : Table) (key : List UInt8)
    (acts : List Activation) (outCap : ℕ) : List RoutedInput :=
  if key = [] ∨ outCap = 0 then []
  else
    let used := acts.take (min (min acts.length outCap) queryTopMax)
    let acc := (List.range table.header.capacity).foldl
      (fun acc i => routeStep (entityHashOf keyedHash table key) used acc
        (table.entries i)) (fun _ => 0)
    used.zipIdx.map fun act => ⟨act.1.technique, min (acc act.2) uint32Max⟩

/-! ## Single entries and statistics -/

/-- The copy which `wake_tac_read_entry` hands out. -/
def entrySnapshot (entry : Entry) : Entry :=
  { Entry.zero with
    keyHash := entry.keyHash
    weight := entry.weight
    reinfCount := entry.reinfCount
    lastReinf := entry.lastReinf
    tLo := entry.tLo
    tHi := entry.tHi
    etaMaxFp16 := entry.etaMaxFp16
    srcCount := entry.srcCount
    quarantine := entry.quarantine
    firstSeen := entry.firstSeen
    entityHash := entry.entityHash }

/-- `wake_tac_read_entry` with no writer running. -/
def readEntry (table : Table) (slot : ℕ) : Option Entry :=
  if slot ≥ table.header.capacity then none
  else if ¬ (table.entries slot).Live then none
  else if (table.entries slot).weight = 0 then none
  else some (entrySnapshot (table.entries slot))

structure Stats where
  capacity : ℕ
  occupied : ℕ
  tombstones : ℕ
  entitiesAtCap : ℕ
  quarantined : ℕ
  maxProbeLen : ℕ
  totalWeight : ℕ
  deriving DecidableEq, Repr

/-- The first loop of `wake_tac_stats`. -/
def statsEntryStep (stats : Stats) (entry : Entry) : Stats :=
  if entry.keyHash = slotEmpty then stats
  else if entry.keyHash = slotTombstone then
    { stats with tombstones := stats.tombstones + 1 }
  else
    { stats with
      occupied := stats.occupied + 1
      totalWeight := (stats.totalWeight + entry.weight) % 2 ^ 64
      quarantined :=
        if entry.quarantine ≠ 0 then stats.quarantined + 1 else stats.quarantined }

/-- The second loop of `wake_tac_stats`. -/
def statsOccStep (h : Header) (stats : Stats) (record : Occ) : Stats :=
  if record.entityHash = 0 then stats
  else if record.liveCount ≥ h.perEntityCap then
    { stats with entitiesAtCap := stats.entitiesAtCap + 1 }
  else stats

/-- `wake_tac_stats`. -/
def stats (table : Table) : Stats :=
  (List.range table.header.occSlots).foldl
    (fun stats i => statsOccStep table.header stats (table.occ i))
    ((List.range table.header.capacity).foldl
      (fun stats i => statsEntryStep stats (table.entries i))
      ⟨table.header.capacity, 0, 0, 0, 0, 0, 0⟩)

end Tac
end LibWake
