import Mathlib.Logic.Relation
import LibWake.PheromoneMap

/-!
# Concurrent insertion into the pheromone table

`pht_insert` as a sequence of atomic operations on the shared entries.  A
process is described by the operation which it performs next; any number of
processes interleave, one operation at a time.  A process which runs alone
performs exactly the sequential `phtInsert`.
-/

namespace LibWake
namespace Pheromone

variable {Entity : Type}

/-- The next atomic operation of a process, with the local variables which are
live there.  The plain writes of the cold fields are one operation. -/
inductive Phase where
  | probing (probe : ℕ) (first : Option ℕ)
  | addConfidence (idx : ℕ)
  | addHit (idx : ℕ) (newConf : UInt32)
  | storeUpdate (idx : ℕ) (newConf : UInt32)
  | addSrc (idx : ℕ) (newConf : UInt32)
  | orFlags (idx : ℕ) (newConf : UInt32)
  | recheck (idx : ℕ)
  | swap (idx : ℕ) (expected : UInt64)
  | loadVersion (idx : ℕ)
  | lockVersion (idx : ℕ) (ver : UInt32)
  | writeCold (idx : ℕ) (writeVer : UInt32)
  | unlockVersion (idx : ℕ) (writeVer : UInt32)
  | clearReason (idx : ℕ) (i : Fin 3)
  | initConfidence (idx : ℕ)
  | initHit (idx : ℕ)
  | initUpdate (idx : ℕ)
  | initSrc (idx : ℕ)
  | initFlags (idx : ℕ)
  | returned (value : UInt32)
  deriving DecidableEq, Repr

/-- Behind the probe loop: give up, or go for the first available slot. -/
def afterProbe : Option ℕ → Phase
  | none => .returned 0
  | some idx => .recheck idx

/-- The next iteration of the probe loop. -/
def nextProbe (probe : ℕ) (first : Option ℕ) : Phase :=
  if probe + 1 < probeMax then .probing (probe + 1) first else afterProbe first

/-- The conditional tail of the update branch. -/
def afterSrc (deposit : Deposit Entity) (idx : ℕ) (newConf : UInt32) : Phase :=
  if deposit.phaseFlags ≠ 0 then .orFlags idx newConf else .returned newConf

def afterUpdate (deposit : Deposit Entity) (idx : ℕ) (newConf : UInt32) : Phase :=
  if deposit.incrementSrc then .addSrc idx newConf
  else afterSrc deposit idx newConf

/-- One atomic operation of `pht_insert`; `none` once the call has returned. -/
def stepPhase (h : Header) (key : UInt64) (deposit : Deposit Entity)
    (entries : ℕ → Entry Entity) : Phase → Option ((ℕ → Entry Entity) × Phase)
  | .probing probe first =>
      let idx := probeIdx h key probe
      if (entries idx).keyHash = key then some (entries, .addConfidence idx)
      else if (entries idx).keyHash = slotEmpty then
        some (entries, afterProbe (first.or (some idx)))
      else if (entries idx).keyHash = slotTombstone then
        some (entries, nextProbe probe (first.or (some idx)))
      else some (entries, nextProbe probe first)
  | .addConfidence idx =>
      some (Function.update entries idx { entries idx with
          confidence := (entries idx).confidence + deposit.delta },
        .addHit idx ((entries idx).confidence + deposit.delta))
  | .addHit idx newConf =>
      some (Function.update entries idx { entries idx with
          hitCount := (entries idx).hitCount + 1 },
        .storeUpdate idx newConf)
  | .storeUpdate idx newConf =>
      some (Function.update entries idx { entries idx with
          lastUpdate := relativeTime h deposit.clock },
        afterUpdate deposit idx newConf)
  | .addSrc idx newConf =>
      some (Function.update entries idx { entries idx with
          srcCount := (entries idx).srcCount + 1 },
        afterSrc deposit idx newConf)
  | .orFlags idx newConf =>
      some (Function.update entries idx { entries idx with
          phaseFlags := (entries idx).phaseFlags ||| deposit.phaseFlags },
        .returned newConf)
  | .recheck idx =>
      let expected := (entries idx).keyHash
      if expected ≠ slotEmpty ∧ expected ≠ slotTombstone then
        some (entries, .returned 0)
      else some (entries, .swap idx expected)
  | .swap idx expected =>
      if (entries idx).keyHash = expected then
        some (Function.update entries idx { entries idx with keyHash := key },
          .loadVersion idx)
      else if (entries idx).keyHash = key then some (entries, .addConfidence idx)
      else some (entries, .returned 0)
  | .loadVersion idx => some (entries, .lockVersion idx (entries idx).version)
  | .lockVersion idx ver =>
      some (Function.update entries idx { entries idx with
          version := (ver + 1) ||| 1 },
        .writeCold idx ((ver + 1) ||| 1))
  | .writeCold idx writeVer =>
      some (Function.update entries idx { entries idx with
          entity := deposit.entity
          action := deposit.action
          outcome := deposit.outcome
          firstSeen := relativeTime h deposit.clock
          tenantId := deposit.tenantId },
        .unlockVersion idx writeVer)
  | .unlockVersion idx writeVer =>
      some (Function.update entries idx { entries idx with version := writeVer + 1 },
        .clearReason idx 0)
  | .clearReason idx i =>
      some (Function.update entries idx { entries idx with
          reasons := Function.update (entries idx).reasons i 0 },
        match i with
        | 0 => .clearReason idx 1
        | 1 => .clearReason idx 2
        | 2 => .initConfidence idx)
  | .initConfidence idx =>
      some (Function.update entries idx { entries idx with
          confidence := deposit.delta },
        .initHit idx)
  | .initHit idx =>
      some (Function.update entries idx { entries idx with hitCount := 1 },
        .initUpdate idx)
  | .initUpdate idx =>
      some (Function.update entries idx { entries idx with
          lastUpdate := relativeTime h deposit.clock },
        .initSrc idx)
  | .initSrc idx =>
      some (Function.update entries idx { entries idx with srcCount := 1 },
        .initFlags idx)
  | .initFlags idx =>
      some (Function.update entries idx { entries idx with
          phaseFlags := deposit.phaseFlags },
        .returned deposit.delta)
  | .returned _ => none

/-! ## A process on its own -/

/-- Some number of operations of one process lead from one state to another. -/
def Leads (h : Header) (key : UInt64) (deposit : Deposit Entity)
    (before after : (ℕ → Entry Entity) × Phase) : Prop :=
  Relation.ReflTransGen
    (fun x y => stepPhase h key deposit x.1 x.2 = some y) before after

section Alone

variable {h : Header} {key : UInt64} {deposit : Deposit Entity}
  {entries : ℕ → Entry Entity}

theorem Leads.step {phase : Phase} {next after : (ℕ → Entry Entity) × Phase}
    (hstep : stepPhase h key deposit entries phase = some next)
    (hrest : Leads h key deposit next after) :
    Leads h key deposit (entries, phase) after :=
  Relation.ReflTransGen.head hstep hrest

/-- The probe loop of a process which runs alone ends as `insertProbe` does. -/
theorem leads_probing {k : ℕ} (hk : k < probeMax) (first : Option ℕ) :
    Leads h key deposit (entries, .probing k first)
      (entries,
        match insertProbe entries key
            ((List.range' k (probeMax - k)).map (probeIdx h key)) first with
        | (some idx, _) => .addConfidence idx
        | (none, available) => afterProbe available) := by
  obtain ⟨n, hn⟩ : ∃ n, probeMax - k = n + 1 := ⟨probeMax - k - 1, by omega⟩
  induction n generalizing k first with
  | zero =>
      refine Relation.ReflTransGen.single ?_
      have hlast : ¬ k + 1 < probeMax := by omega
      simp only [stepPhase, nextProbe, hlast, if_false, hn, List.range'_succ,
        List.range'_zero, List.map_cons, List.map_nil, insertProbe]
      split_ifs <;> rfl
  | succ n ih =>
      have hnext : k + 1 < probeMax := by omega
      have hrange : (List.range' k (probeMax - k)).map (probeIdx h key) =
          probeIdx h key k ::
            (List.range' (k + 1) (probeMax - (k + 1))).map (probeIdx h key) := by
        rw [hn, List.range'_succ, List.map_cons]
        congr 3
        omega
      rw [hrange, insertProbe]
      have hrest := fun available => ih hnext available (by omega)
      split_ifs with hkey hempty htomb
      · exact Relation.ReflTransGen.single (by simp [stepPhase, hkey])
      · exact Relation.ReflTransGen.single
          (by simp only [stepPhase, if_neg hkey, if_pos hempty])
      · refine Leads.step ?_ (hrest (first.or (some (probeIdx h key k))))
        simp only [stepPhase, if_neg hkey, if_neg hempty, if_pos htomb, nextProbe,
          if_pos hnext]
      · refine Leads.step ?_ (hrest first)
        simp only [stepPhase, if_neg hkey, if_neg hempty, if_neg htomb, nextProbe,
          if_pos hnext]

theorem leads_update (idx : ℕ) :
    Leads h key deposit (entries, .addConfidence idx)
      (Function.update entries idx
        (reinforcedEntry (entries idx) deposit (relativeTime h deposit.clock)),
        .returned ((entries idx).confidence + deposit.delta)) := by
  refine .step rfl (.step rfl (.step rfl ?_))
  simp only [Function.update_self, Function.update_idem, afterUpdate]
  cases hsrc : deposit.incrementSrc with
  | true =>
      refine .step rfl ?_
      simp only [Function.update_self, Function.update_idem, afterSrc]
      split_ifs with hflags
      · refine .step rfl ?_
        simp only [Function.update_self, Function.update_idem, reinforcedEntry, hsrc,
          if_true]
        exact Relation.ReflTransGen.refl
      · rw [not_not] at hflags
        simp only [reinforcedEntry, hsrc, if_true, hflags, UInt32.or_zero]
        exact Relation.ReflTransGen.refl
  | false =>
      simp only [Bool.false_eq_true, if_false, afterSrc]
      split_ifs with hflags
      · refine .step rfl ?_
        simp only [Function.update_self, Function.update_idem, reinforcedEntry, hsrc,
          Bool.false_eq_true, if_false]
        exact Relation.ReflTransGen.refl
      · rw [not_not] at hflags
        simp only [reinforcedEntry, hsrc, Bool.false_eq_true, if_false, hflags,
          UInt32.or_zero]
        exact Relation.ReflTransGen.refl

theorem leads_claim {idx : ℕ}
    (hfree : (entries idx).keyHash = slotEmpty ∨
      (entries idx).keyHash = slotTombstone) :
    Leads h key deposit (entries, .recheck idx)
      (Function.update entries idx
        (claimedEntry (entries idx) key deposit (relativeTime h deposit.clock)),
        .returned deposit.delta) := by
  have hrecheck : ¬ ((entries idx).keyHash ≠ slotEmpty ∧
      (entries idx).keyHash ≠ slotTombstone) := by tauto
  refine .step (by simp only [stepPhase, if_neg hrecheck]; rfl) ?_
  refine .step (by simp only [stepPhase, if_true]; rfl) ?_
  refine .step rfl (.step rfl (.step rfl (.step rfl (.step rfl (.step rfl
    (.step rfl (.step rfl (.step rfl (.step rfl (.step rfl (.step rfl ?_)))))))))))
  simp only [Function.update_self, Function.update_idem]
  have hreasons : Function.update (Function.update (Function.update
      (entries idx).reasons 0 0) 1 0) 2 0 = fun _ => 0 := by
    funext i
    match i with
    | 0 => rfl
    | 1 => rfl
    | 2 => rfl
  rw [hreasons]
  exact Relation.ReflTransGen.refl

end Alone

/-- A process which runs alone on a well-formed table performs `phtInsert`. -/
theorem leads_phtInsert {table : Table Entity} (hgood : WellFormed table)
    (entityHash : Entity → UInt64) (deposit : Deposit Entity) :
    Leads table.header (entityKeyHash entityHash deposit.entity) deposit
      (table.entries, .probing 0 none)
      ((phtInsert entityHash table deposit).1.entries,
        .returned (phtInsert entityHash table deposit).2) := by
  have hprobe := @leads_probing Entity table.header
    (entityKeyHash entityHash deposit.entity) deposit table.entries 0 (by decide) none
  have hwindow : (List.range' 0 (probeMax - 0)).map (probeIdx table.header
      (entityKeyHash entityHash deposit.entity)) =
        probeWindow table.header (entityKeyHash entityHash deposit.entity) := by
    rw [probeWindow, List.range_eq_range']
    rfl
  rw [hwindow] at hprobe
  refine Relation.ReflTransGen.trans hprobe ?_
  rcases hgood.insertProbe_cases entityHash deposit.entity with
    ⟨idx, first, hfound, _⟩ | ⟨hfound, _⟩
  · simp only [phtInsert, hfound]
    exact leads_update idx
  · simp only [phtInsert, hfound]
    cases hfree : OpenAddressing.probeFree (tagSlots table.entries)
        (probeWindow table.header (entityKeyHash entityHash deposit.entity)) with
    | none => exact Relation.ReflTransGen.refl
    | some idx =>
        apply leads_claim
        have hdead := tagSlots_isFree_iff.mp
          (OpenAddressing.probeFree_some_isFree hfree)
        unfold Entry.Live at hdead
        tauto

/-! ## Interleavings -/

/-- The shared table and the phase of every process. -/
structure Shared (P Entity : Type) where
  table : Table Entity
  phase : P → Phase

/-- One operation of one process, which the scheduler picks. -/
def concurrent {P : Type} [DecidableEq P] (entityHash : Entity → UInt64)
    (args : P → Deposit Entity) : TransitionSystem (Shared P Entity) P where
  Initial shared := ∀ p, shared.phase p = .probing 0 none
  step shared p :=
    (stepPhase shared.table.header (entityKeyHash entityHash (args p).entity)
      (args p) shared.table.entries (shared.phase p)).map fun next =>
        ⟨{ shared.table with entries := next.1 },
          Function.update shared.phase p next.2⟩

end Pheromone
end LibWake
