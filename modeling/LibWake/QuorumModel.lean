import LibWake.PheromoneModel

/-!
# The quorum evaluator

The functions of `wake_quorum`: classification, the two sweeps, preseeding and
reset.  A sweep looks at the pheromone table through `wake_pheromone_read_entry`
only, so a table is given by its capacity and by what that function returns for
each slot.
-/

namespace LibWake
namespace Quorum

/-! ## Data -/

/-- `wake_quorum_tier_t`. -/
inductive Tier where
  | none
  | observe
  | alert
  deriving DecidableEq, Repr

/-- The value of a tier, which the code compares. -/
def Tier.severity : Tier → ℕ
  | .none => 0
  | .observe => 1
  | .alert => 2

/-- `wake_quorum_action_t` without the action which is never emitted. -/
inductive Action where
  | observe
  | alert
  | retract
  deriving DecidableEq, Repr

/-- `wake_quorum_config_t`. -/
structure Config where
  observeConfidence : UInt32
  observeMinHits : UInt16
  alertConfidence : UInt32
  alertMinSources : UInt16
  alertMinHits : UInt16
  retractConfidence : UInt32
  deriving DecidableEq, Repr

/-- `wake_quorum_default_config`. -/
def defaultConfig : Config where
  observeConfidence := 5000
  observeMinHits := 3
  alertConfidence := 20000
  alertMinSources := 2
  alertMinHits := 5
  retractConfidence := 2000

/-- `wake_quorum_slot_t`. -/
structure Slot where
  keyHash : UInt64
  emittedTier : Tier
  deriving DecidableEq, Repr

/-- A slot of zero bytes. -/
def Slot.cleared : Slot := ⟨0, .none⟩

/-- `wake_quorum_t`; the capacity is the length of the slot list. -/
structure Evaluator where
  config : Config
  slots : List Slot
  observationsEmitted : UInt64
  alertsEmitted : UInt64
  retractionsEmitted : UInt64
  suppressed : UInt64
  deriving DecidableEq, Repr

/-- `wake_quorum_sweep_result_t`. -/
structure SweepResult where
  slotsScanned : ℕ
  slotsLive : ℕ
  newObservations : ℕ
  newAlerts : ℕ
  newRetractions : ℕ
  suppressed : ℕ
  deriving DecidableEq, Repr

variable {Entity : Type}

/-- `wake_quorum_hit_t`. -/
structure Hit (Entity : Type) where
  action : Action
  slotIdx : ℕ
  entry : Pheromone.Entry Entity

/-- A pheromone table as a sweep sees it: `none` for a dead slot, and the
snapshot of a live one. -/
structure View (Entity : Type) where
  capacity : ℕ
  read : ℕ → Option (Pheromone.Entry Entity)

/-! ## Lifecycle -/

/-- `wake_quorum_create`. -/
def create (capacity : ℕ) (cfg : Option Config) : Evaluator where
  config := cfg.getD defaultConfig
  slots := List.replicate capacity .cleared
  observationsEmitted := 0
  alertsEmitted := 0
  retractionsEmitted := 0
  suppressed := 0

/-- `wake_quorum_reset`. -/
def reset (q : Evaluator) : Evaluator where
  config := q.config
  slots := List.replicate q.slots.length .cleared
  observationsEmitted := 0
  alertsEmitted := 0
  retractionsEmitted := 0
  suppressed := 0

/-! ## One slot -/

/-- `wake_quorum_classify`. -/
def classify (cfg : Config) (confidence : UInt32) (srcCount : UInt16)
    (hitCount : UInt32) : Tier :=
  if confidence ≥ cfg.alertConfidence ∧ srcCount ≥ cfg.alertMinSources ∧
      hitCount ≥ cfg.alertMinHits.toUInt32 then .alert
  else if confidence ≥ cfg.observeConfidence ∧
      hitCount ≥ cfg.observeMinHits.toUInt32 then .observe
  else .none

/-- What a sweep decides at one slot. -/
inductive Decision where
  | dead
  | emitted (action : Action)
  | suppressed
  deriving DecidableEq, Repr

/-- The slot once the reuse check has seen the key. -/
def Slot.claimedBy (slot : Slot) (keyHash : UInt64) : Slot :=
  if keyHash ≠ slot.keyHash then ⟨keyHash, .none⟩ else slot

/-- The loop body of both sweeps up to the report of its decision. -/
def visit (cfg : Config) (slot : Slot) : Option (Pheromone.Entry Entity) → Slot × Decision
  | none => (.cleared, .dead)
  | some snap =>
      let claimed := slot.claimedBy snap.keyHash
      let tier := classify cfg snap.confidence snap.srcCount snap.hitCount
      if tier.severity > claimed.emittedTier.severity then
        ({ claimed with emittedTier := tier },
          .emitted (if tier = .alert then .alert else .observe))
      else if claimed.emittedTier = .alert ∧ tier.severity < Tier.alert.severity ∧
          snap.confidence < cfg.retractConfidence then
        (.cleared, .emitted .retract)
      else (claimed, .suppressed)

/-! ## Sweeps -/

/-- A sweep in progress: `hits` lists all emissions so far. -/
structure Sweep (Entity : Type) where
  quorum : Evaluator
  result : SweepResult
  hits : List (Hit Entity)

def SweepResult.zero : SweepResult := ⟨0, 0, 0, 0, 0, 0⟩

/-- The counters after a decision. -/
def Sweep.count (s : Sweep Entity) : Decision → Sweep Entity
  | .dead => { s with result := { s.result with
      slotsScanned := s.result.slotsScanned + 1 } }
  | .emitted .observe =>
      { s with
        quorum := { s.quorum with observationsEmitted := s.quorum.observationsEmitted + 1 }
        result := { s.result with
          slotsScanned := s.result.slotsScanned + 1
          slotsLive := s.result.slotsLive + 1
          newObservations := s.result.newObservations + 1 } }
  | .emitted .alert =>
      { s with
        quorum := { s.quorum with alertsEmitted := s.quorum.alertsEmitted + 1 }
        result := { s.result with
          slotsScanned := s.result.slotsScanned + 1
          slotsLive := s.result.slotsLive + 1
          newAlerts := s.result.newAlerts + 1 } }
  | .emitted .retract =>
      { s with
        quorum := { s.quorum with retractionsEmitted := s.quorum.retractionsEmitted + 1 }
        result := { s.result with
          slotsScanned := s.result.slotsScanned + 1
          slotsLive := s.result.slotsLive + 1
          newRetractions := s.result.newRetractions + 1 } }
  | .suppressed =>
      { s with
        quorum := { s.quorum with suppressed := s.quorum.suppressed + 1 }
        result := { s.result with
          slotsScanned := s.result.slotsScanned + 1
          slotsLive := s.result.slotsLive + 1
          suppressed := s.result.suppressed + 1 } }

/-- Store the slot which the sweep has decided on. -/
def Sweep.store (s : Sweep Entity) (i : ℕ) (slot : Slot) : Sweep Entity :=
  { s with quorum := { s.quorum with slots := s.quorum.slots.set i slot } }

/-- The emission of a decision. -/
def hitOf (i : ℕ) : Decision → Option (Pheromone.Entry Entity) → Option (Hit Entity)
  | .emitted action, some snap => some ⟨action, i, snap⟩
  | _, _ => none

/-- The loop body of both sweeps for slot `i`. -/
def sweepAt (read : ℕ → Option (Pheromone.Entry Entity)) (i : ℕ) (slot : Slot)
    (s : Sweep Entity) : Sweep Entity :=
  let (decided, decision) := visit s.quorum.config slot (read i)
  { (s.store i decided).count decision with
    hits := s.hits ++ (hitOf i decision (read i)).toList }

/-- The loop of both sweeps over `n` slots from slot `i`; it stops behind an
emission which `continues` answers with false. -/
def sweepLoop (read : ℕ → Option (Pheromone.Entry Entity))
    (continues : Hit Entity → Bool) : ℕ → ℕ → Sweep Entity → Sweep Entity
  | 0, _, s => s
  | n + 1, i, s =>
      match s.quorum.slots[i]? with
      | none => s
      | some slot =>
          let next := sweepAt read i slot s
          if (hitOf i (visit s.quorum.config slot (read i)).2 (read i)).all continues then
            sweepLoop read continues n (i + 1) next
          else next

/-- A sweep over the slots which both sides have. -/
def sweepWith (continues : Hit Entity → Bool) (q : Evaluator) (pt : View Entity) :
    Sweep Entity :=
  sweepLoop pt.read continues (min q.slots.length pt.capacity) 0 ⟨q, .zero, []⟩

/-- The callback of a sweep, which may be NULL. -/
abbrev EmitFn (Entity : Type) := Option (Action → ℕ → Pheromone.Entry Entity → Bool)

/-- `wake_quorum_sweep`: the callback is called with the hits, in their order. -/
def sweep (q : Evaluator) (pt : View Entity) (fn : EmitFn Entity) : Sweep Entity :=
  sweepWith (fun hit =>
    match fn with
    | none => true
    | some f => f hit.action hit.slotIdx hit.entry) q pt

/-- `wake_quorum_sweep_collect`, which never stops. -/
def sweepCollect (q : Evaluator) (pt : View Entity) : Sweep Entity :=
  sweepWith (fun _ => true) q pt

/-- The hits which `wake_quorum_sweep_collect` writes to the array of its caller. -/
def collectedHits (s : Sweep Entity) (hitsCapacity : ℕ) : List (Hit Entity) :=
  s.hits.take hitsCapacity

/-- `wake_quorum_preseed`: a sweep without a callback, whose counters are
dropped. -/
def preseed (q : Evaluator) (pt : View Entity) : Sweep Entity :=
  let s := sweep q pt none
  { s with quorum := { s.quorum with
      observationsEmitted := 0
      alertsEmitted := 0
      retractionsEmitted := 0
      suppressed := 0 } }

end Quorum
end LibWake
