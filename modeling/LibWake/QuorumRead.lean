import LibWake.PheromoneOpen
import LibWake.QuorumModel

/-!
# Sweeps over an opened table

The sweeps once more, each slot now read through `wake_pheromone_read_entry` of
an opened table, which may fail to return.  Where every read returns, a sweep
is the sweep over what the reads return.
-/

namespace LibWake
namespace Quorum

open Checked Pheromone

variable {Entity : Type}

/-- `sweepLoop` with reads which may fail. -/
def sweepLoopOn (read : ℕ → Access (Option (Pheromone.Entry Entity)))
    (continues : Hit Entity → Bool) : ℕ → ℕ → Sweep Entity → Access (Sweep Entity)
  | 0, _, s => return s
  | n + 1, i, s =>
      match s.quorum.slots[i]? with
      | none => return s
      | some slot => do
          let snap ← read i
          let next := sweepAt (fun _ => snap) i slot s
          if (hitOf i (visit s.quorum.config slot snap).2 snap).all continues then
            sweepLoopOn read continues n (i + 1) next
          else return next

/-- A sweep over the slots which both sides have. -/
def sweepTableWith (fuel : ℕ) (continues : Hit Entity → Bool) (q : Evaluator)
    (pt : Table Entity) : Access (Sweep Entity) :=
  sweepLoopOn (readEntry fuel pt) continues
    (min q.slots.length pt.header.capacity.toNat) 0 ⟨q, .zero, []⟩

/-- `wake_quorum_sweep`. -/
def sweepTable (fuel : ℕ) (q : Evaluator) (pt : Table Entity) (fn : EmitFn Entity) :
    Access (Sweep Entity) :=
  sweepTableWith fuel (fun hit =>
    match fn with
    | none => true
    | some f => f hit.action hit.slotIdx hit.entry) q pt

/-- `wake_quorum_sweep_collect`. -/
def sweepCollectTable (fuel : ℕ) (q : Evaluator) (pt : Table Entity) :
    Access (Sweep Entity) :=
  sweepTableWith fuel (fun _ => true) q pt

/-- `wake_quorum_preseed`. -/
def preseedTable (fuel : ℕ) (q : Evaluator) (pt : Table Entity) :
    Access (Sweep Entity) := do
  let s ← sweepTable fuel q pt none
  return { s with quorum := { s.quorum with
    observationsEmitted := 0
    alertsEmitted := 0
    retractionsEmitted := 0
    suppressed := 0 } }

/-- What the reads of a table return where they return. -/
def viewOf (pt : Table Entity) : View Entity where
  capacity := pt.header.capacity.toNat
  read i :=
    if i < pt.header.capacity.toNat ∧ (pt.entries i).Live then some (pt.entries i)
    else none

/-! ## Reads which return -/

section Returns

variable {read : ℕ → Access (Option (Pheromone.Entry Entity))}
  {pure : ℕ → Option (Pheromone.Entry Entity)} (hread : ∀ i, read i = .ok (pure i))

include hread

theorem sweepLoopOn_eq_ok (continues : Hit Entity → Bool) (n i : ℕ)
    (s : Sweep Entity) :
    sweepLoopOn read continues n i s = .ok (sweepLoop pure continues n i s) := by
  induction n generalizing i s with
  | zero => rfl
  | succ n ih =>
      unfold sweepLoopOn sweepLoop
      cases hslot : s.quorum.slots[i]? with
      | none => rfl
      | some slot =>
          simp only [hread i, ok_bind]
          split_ifs
          · exact ih (i + 1) (sweepAt (fun _ => pure i) i slot s)
          · rfl

end Returns

section Table

variable {fuel : ℕ} {pt : Table Entity}
  (hread : ∀ i, readEntry fuel pt i = .ok ((viewOf pt).read i))

include hread

theorem sweepTable_eq_ok (q : Evaluator) (fn : EmitFn Entity) :
    sweepTable fuel q pt fn = .ok (sweep q (viewOf pt) fn) :=
  sweepLoopOn_eq_ok hread _ _ _ _

theorem sweepCollectTable_eq_ok (q : Evaluator) :
    sweepCollectTable fuel q pt = .ok (sweepCollect q (viewOf pt)) :=
  sweepLoopOn_eq_ok hread _ _ _ _

theorem preseedTable_eq_ok (q : Evaluator) :
    preseedTable fuel q pt = .ok (preseed q (viewOf pt)) := by
  rw [preseedTable, sweepTable_eq_ok hread, ok_bind]
  rfl

end Table

/-! ## Faults -/

/-- A sweep fails only with the faults of its reads. -/
theorem sweepLoopOn_avoids {bad : Pheromone.Fault → Prop}
    {read : ℕ → Access (Option (Pheromone.Entry Entity))}
    (hread : ∀ i, Avoids bad (read i)) (continues : Hit Entity → Bool) (n i : ℕ)
    (s : Sweep Entity) : Avoids bad (sweepLoopOn read continues n i s) := by
  induction n generalizing i s with
  | zero => exact .ok s
  | succ n ih =>
      unfold sweepLoopOn
      cases hslot : s.quorum.slots[i]? with
      | none => exact .ok s
      | some slot =>
          apply (hread i).bind
          intro snap _
          simp only
          split_ifs
          · exact ih (i + 1) (sweepAt (fun _ => snap) i slot s)
          · exact .ok _

end Quorum
end LibWake
