import Mathlib.Data.Fintype.Basic
import Mathlib.Tactic.FinCases
import LibWake.PheromoneConcurrent
import LibWake.ScannedClaims

/-!
# Deposits while the table is maintained

Any number of processes run `wake_pheromone_deposit` and `wake_pheromone_reinforce`
while one more process runs `wake_pheromone_remove` and `wake_pheromone_decay`, one
atomic operation at a time.  An insertion which has scanned part of its window loses
track of its key when maintenance tombstones a slot behind it; as long as that does not
happen, every key hash is live in one slot.
-/

namespace LibWake
namespace Pheromone

open OpenAddressing SlotPass

variable {Entity : Type}

/-! ## The maintaining process -/

/-- The next atomic operation of the maintaining process, with the local variables
which are live there. -/
inductive Maintenance where
  | idle
  | removeProbing (key : UInt64) (probe : ℕ)
  | removeSwap (key : UInt64) (idx : ℕ)
  | removed (found : Bool)
  | decayKey (i evicted : ℕ)
  | decayConfidence (i : ℕ) (kh : UInt64) (evicted : ℕ)
  | decayEvict (i : ℕ) (kh : UInt64) (evicted : ℕ)
  | decayLower (i : ℕ) (old new : UInt32) (evicted : ℕ)
  | decayed (evicted : ℕ)
  deriving DecidableEq, Repr

/-- The call has returned, or none has been made. -/
def Maintenance.isIdle : Maintenance → Bool
  | .idle | .removed _ | .decayed _ => true
  | _ => false

/-- The next iteration of the loop of `wake_pheromone_decay`. -/
def nextDecay (h : Header) (i evicted : ℕ) : Maintenance :=
  if i < h.capacity.toNat then .decayKey i evicted else .decayed evicted

/-- One atomic operation of `wake_pheromone_remove` or `wake_pheromone_decay`. -/
def stepMaintenance (h : Header) (entries : ℕ → Entry Entity) :
    Maintenance → Option ((ℕ → Entry Entity) × Maintenance)
  | .removeProbing key probe =>
      let idx := probeIdx h key probe
      if (entries idx).keyHash = key then some (entries, .removeSwap key idx)
      else if (entries idx).keyHash = slotEmpty then some (entries, .removed false)
      else if probe + 1 < probeMax then some (entries, .removeProbing key (probe + 1))
      else some (entries, .removed false)
  | .removeSwap key idx =>
      if (entries idx).keyHash = key then
        some (Function.update entries idx { entries idx with keyHash := slotTombstone },
          .removed true)
      else some (entries, .removed false)
  | .decayKey i evicted =>
      if (entries i).Live then
        some (entries, .decayConfidence i (entries i).keyHash evicted)
      else some (entries, nextDecay h (i + 1) evicted)
  | .decayConfidence i kh evicted =>
      let new := decayedConfidence h (entries i).confidence
      if new < h.noiseFloor then some (entries, .decayEvict i kh evicted)
      else some (entries, .decayLower i (entries i).confidence new evicted)
  | .decayEvict i kh evicted =>
      if (entries i).keyHash = kh then
        some (Function.update entries i { entries i with keyHash := slotTombstone },
          nextDecay h (i + 1) (evicted + 1))
      else some (entries, nextDecay h (i + 1) evicted)
  | .decayLower i old new evicted =>
      if (entries i).confidence = old then
        some (Function.update entries i { entries i with confidence := new },
          nextDecay h (i + 1) evicted)
      else some (entries, nextDecay h (i + 1) evicted)
  | .idle | .removed _ | .decayed _ => none

/-- The slot which the next operation turns into a tombstone. -/
def Maintenance.buries (entries : ℕ → Entry Entity) : Maintenance → Option ℕ
  | .removeSwap key idx => if (entries idx).keyHash = key then some idx else none
  | .decayEvict i kh _ => if (entries i).keyHash = kh then some i else none
  | _ => none

/-- Maintenance changes no key hash except that of the slot which it buries. -/
theorem stepMaintenance_tagSlots {h : Header} {entries : ℕ → Entry Entity}
    {phase : Maintenance} {next : (ℕ → Entry Entity) × Maintenance}
    (hstep : stepMaintenance h entries phase = some next) :
    (phase.buries entries = none ∧ tagSlots next.1 = tagSlots entries) ∨
      ∃ idx, phase.buries entries = some idx ∧
        tagSlots next.1 = Function.update (tagSlots entries) idx .tombstone := by
  have hburied : ∀ idx, tagSlots (Function.update entries idx
      { entries idx with keyHash := slotTombstone }) =
        Function.update (tagSlots entries) idx .tombstone :=
    fun idx => tagSlots_update entries idx _
  cases phase with
  | idle => cases hstep
  | removed found => cases hstep
  | decayed evicted => cases hstep
  | removeProbing key probe =>
      left
      simp only [stepMaintenance] at hstep
      split_ifs at hstep <;> cases hstep <;> exact ⟨rfl, rfl⟩
  | removeSwap key idx =>
      by_cases hkey : (entries idx).keyHash = key
      · simp only [stepMaintenance, if_pos hkey, Option.some.injEq] at hstep
        subst hstep
        exact .inr ⟨idx, if_pos hkey, hburied idx⟩
      · simp only [stepMaintenance, if_neg hkey, Option.some.injEq] at hstep
        subst hstep
        exact .inl ⟨if_neg hkey, rfl⟩
  | decayKey i evicted =>
      left
      simp only [stepMaintenance] at hstep
      split_ifs at hstep <;> cases hstep <;> exact ⟨rfl, rfl⟩
  | decayConfidence i kh evicted =>
      left
      simp only [stepMaintenance] at hstep
      split_ifs at hstep <;> cases hstep <;> exact ⟨rfl, rfl⟩
  | decayEvict i kh evicted =>
      by_cases hkey : (entries i).keyHash = kh
      · simp only [stepMaintenance, if_pos hkey, Option.some.injEq] at hstep
        subst hstep
        exact .inr ⟨i, if_pos hkey, hburied i⟩
      · simp only [stepMaintenance, if_neg hkey, Option.some.injEq] at hstep
        subst hstep
        exact .inl ⟨if_neg hkey, rfl⟩
  | decayLower i old new evicted =>
      left
      simp only [stepMaintenance] at hstep
      split_ifs at hstep <;> cases hstep
      · exact ⟨rfl, tagSlots_rewrite rfl⟩
      · exact ⟨rfl, rfl⟩

/-! ## Maintenance on its own -/

/-- Some number of operations of the maintaining process lead from one state to
another. -/
def Maintains (h : Header) (before after : (ℕ → Entry Entity) × Maintenance) : Prop :=
  Relation.ReflTransGen (fun x y => stepMaintenance h x.1 x.2 = some y) before after

section Alone

variable {h : Header} {entries : ℕ → Entry Entity}

theorem Maintains.step {phase : Maintenance}
    {next after : (ℕ → Entry Entity) × Maintenance}
    (hstep : stepMaintenance h entries phase = some next)
    (hrest : Maintains h next after) : Maintains h (entries, phase) after :=
  Relation.ReflTransGen.head hstep hrest

/-- The probe loop of a removal which runs alone ends as `probeKeyIn` does. -/
theorem maintains_removeProbing {key : UInt64} {k : ℕ} (hk : k < probeMax) :
    Maintains h (entries, .removeProbing key k)
      (entries,
        match probeKeyIn entries key
            ((List.range' k (probeMax - k)).map (probeIdx h key)) with
        | some idx => .removeSwap key idx
        | none => .removed false) := by
  obtain ⟨n, hn⟩ : ∃ n, probeMax - k = n + 1 := ⟨probeMax - k - 1, by omega⟩
  induction n generalizing k with
  | zero =>
      refine Relation.ReflTransGen.single ?_
      have hlast : ¬ k + 1 < probeMax := by omega
      simp only [stepMaintenance, hlast, if_false, hn, List.range'_succ,
        List.range'_zero, List.map_cons, List.map_nil, probeKeyIn]
      split_ifs <;> rfl
  | succ n ih =>
      have hnext : k + 1 < probeMax := by omega
      have hrange : (List.range' k (probeMax - k)).map (probeIdx h key) =
          probeIdx h key k ::
            (List.range' (k + 1) (probeMax - (k + 1))).map (probeIdx h key) := by
        rw [hn, List.range'_succ, List.map_cons]
        congr 3
        omega
      rw [hrange, probeKeyIn]
      split_ifs with hkey hempty
      · exact Relation.ReflTransGen.single (by simp [stepMaintenance, hkey])
      · exact Relation.ReflTransGen.single
          (by simp only [stepMaintenance, if_neg hkey, if_pos hempty])
      · refine Maintains.step ?_ (ih hnext (by omega))
        simp only [stepMaintenance, if_neg hkey, if_neg hempty, if_pos hnext]

theorem maintains_decayKey (i evicted : ℕ) :
    Maintains h (entries, .decayKey i evicted)
      (Function.update entries i (decayedEntry h (entries i)),
        nextDecay h (i + 1)
          (if decayEvicts h (entries i) then evicted + 1 else evicted)) := by
  by_cases hlive : (entries i).Live
  · refine .step (by simp only [stepMaintenance, if_pos hlive]; rfl) ?_
    by_cases hfloor : decayedConfidence h (entries i).confidence < h.noiseFloor
    · refine .step (by simp only [stepMaintenance, if_pos hfloor]; rfl) ?_
      refine .step (by simp only [stepMaintenance, if_true]; rfl) ?_
      simp only [decayedEntry, decayEvicts, hlive, hfloor, not_true_eq_false, if_false,
        if_true, decide_true, Bool.and_self]
      exact Relation.ReflTransGen.refl
    · refine .step (by simp only [stepMaintenance, if_neg hfloor]; rfl) ?_
      refine .step (by simp only [stepMaintenance, if_true]; rfl) ?_
      simp only [decayedEntry, decayEvicts, hlive, hfloor, not_true_eq_false, if_false,
        decide_true, decide_false, Bool.and_false, Bool.false_eq_true]
      exact Relation.ReflTransGen.refl
  · refine .step (by simp only [stepMaintenance, if_neg hlive]; rfl) ?_
    simp only [decayedEntry, decayEvicts, hlive, not_false_eq_true, if_true, decide_false,
      Bool.false_and, Bool.false_eq_true, if_false, Function.update_eq_self]
    exact Relation.ReflTransGen.refl

end Alone

/-- A removal which runs alone performs `remove`. -/
theorem maintains_remove (entityHash : Entity → UInt64) (table : Table Entity)
    (entity : Entity) :
    Maintains table.header
      (table.entries, .removeProbing (entityKeyHash entityHash entity) 0)
      ((remove entityHash table entity).1.entries,
        .removed (remove entityHash table entity).2) := by
  have hprobe := @maintains_removeProbing Entity table.header table.entries
    (entityKeyHash entityHash entity) 0 (by decide)
  have hwindow : (List.range' 0 (probeMax - 0)).map (probeIdx table.header
      (entityKeyHash entityHash entity)) =
        probeWindow table.header (entityKeyHash entityHash entity) := by
    rw [probeWindow, List.range_eq_range']
    rfl
  rw [hwindow] at hprobe
  refine Relation.ReflTransGen.trans hprobe ?_
  unfold remove probeKey
  cases hfound : probeKeyIn table.entries (entityKeyHash entityHash entity)
      (probeWindow table.header (entityKeyHash entityHash entity)) with
  | none => exact Relation.ReflTransGen.refl
  | some idx =>
      have hkey : (table.entries idx).keyHash = entityKeyHash entityHash entity := by
        obtain ⟨hempty, htomb⟩ := entityKeyHash_ne_sentinel entityHash entity
        exact keyHash_of_probeKeyIn hempty htomb hfound
      exact Relation.ReflTransGen.single (by simp only [stepMaintenance, if_pos hkey]; rfl)

/-- A decay which runs alone performs `decay`. -/
theorem maintains_decay (table : Table Entity) :
    Maintains table.header (table.entries, nextDecay table.header 0 0)
      ((decay table).1.entries, .decayed (decay table).2) := by
  have hloop : (decay table).1.header = table.header ∧
      Maintains table.header (table.entries, nextDecay table.header 0 0)
        ((decay table).1.entries,
          nextDecay table.header table.header.capacity.toNat (decay table).2) := by
    refine foldl_range_induction (motive := fun k (state : Table Entity × ℕ) =>
      state.1.header = table.header ∧
        Maintains table.header (table.entries, nextDecay table.header 0 0)
          (state.1.entries, nextDecay table.header k state.2)) table.header.capacity.toNat
      ⟨rfl, Relation.ReflTransGen.refl⟩ ?_
    rintro k state hk ⟨hheader, hfront⟩
    refine ⟨hheader, Relation.ReflTransGen.trans hfront ?_⟩
    rw [nextDecay, if_pos hk]
    simp only [decayStep, Table.setEntry, hheader]
    exact maintains_decayKey k state.2
  have hend : nextDecay table.header table.header.capacity.toNat (decay table).2 =
      .decayed (decay table).2 := if_neg (lt_irrefl _)
  rw [← hend]
  exact hloop.2

/-! ## Interleavings -/

/-- The shared table, the running or returned call of every depositing process, and the
maintaining process. -/
structure Maintained (P Entity : Type) where
  table : Table Entity
  call : P → Option (Deposit Entity × Phase)
  maintenance : Maintenance

/-- What the scheduler picks: a process starts a call or performs its next operation. -/
inductive Action (P Entity : Type) where
  | deposit (p : P) (args : Deposit Entity)
  | work (p : P)
  | remove (entity : Entity)
  | decay
  | maintain

/-- The process runs no call. -/
def callIsOver : Option (Deposit Entity × Phase) → Bool
  | none | some (_, .returned _) => true
  | _ => false

def maintainedStep {P : Type} [DecidableEq P] (entityHash : Entity → UInt64)
    (state : Maintained P Entity) : Action P Entity → Option (Maintained P Entity)
  | .deposit p args =>
      if callIsOver (state.call p) then
        some { state with
          call := Function.update state.call p (some (args, .probing 0 none)) }
      else none
  | .work p =>
      match state.call p with
      | none => none
      | some (args, phase) =>
          (stepPhase state.table.header (entityKeyHash entityHash args.entity) args
            state.table.entries phase).map fun next =>
              { state with
                table := { state.table with entries := next.1 }
                call := Function.update state.call p (some (args, next.2)) }
  | .remove entity =>
      if state.maintenance.isIdle then
        some { state with
          maintenance := .removeProbing (entityKeyHash entityHash entity) 0 }
      else none
  | .decay =>
      if state.maintenance.isIdle then
        some { state with maintenance := nextDecay state.table.header 0 0 }
      else none
  | .maintain =>
      (stepMaintenance state.table.header state.table.entries state.maintenance).map
        fun next =>
          { state with
            table := { state.table with entries := next.1 }
            maintenance := next.2 }

/-- Depositing processes and one maintaining process on a table fresh from `create`. -/
def maintained {P : Type} [DecidableEq P] [Inhabited Entity]
    (entityHash : Entity → UInt64) :
    TransitionSystem (Maintained P Entity) (Action P Entity) where
  Initial state := (∃ cfg clock hashKey, create cfg clock hashKey = some state.table) ∧
    (∀ p, state.call p = none) ∧ state.maintenance = .idle
  step := maintainedStep entityHash

/-! ## Pending insertions -/

/-- The slots which a pending insertion has probed, and the available one which it
remembers.  Once the loop has ended the rest of the window counts as probed. -/
def Phase.scan (h : Header) (key : UInt64) : Phase → Option (List ℕ × Option ℕ)
  | .probing probe first => some ((probeWindow h key).take probe, first)
  | .recheck idx | .swap idx _ => some (probeWindow h key, some idx)
  | _ => none

/-- A pending insertion relies on the key hash in slot `idx`. -/
def Phase.ReliesOn (h : Header) (key : UInt64) (entries : ℕ → Entry Entity)
    (phase : Phase) (idx : ℕ) : Prop :=
  match phase.scan h key with
  | none => False
  | some (passed, first) => ScanReliesOn (tagSlots entries) key passed first idx

/-- The step tombstones no slot on which a pending insertion relies. -/
def Undisturbed {P : Type} (entityHash : Entity → UInt64) (state : Maintained P Entity) :
    Action P Entity → Prop
  | .maintain => ∀ idx ∈ state.maintenance.buries state.table.entries,
      ∀ p, ∀ running ∈ state.call p,
        ¬ running.2.ReliesOn state.table.header
          (entityKeyHash entityHash running.1.entity) state.table.entries idx
  | _ => True

instance (h : Header) (key : UInt64) (entries : ℕ → Entry Entity) (phase : Phase)
    (idx : ℕ) : Decidable (phase.ReliesOn h key entries idx) := by
  unfold Phase.ReliesOn ScanReliesOn
  cases phase.scan h key with
  | none => exact inferInstanceAs (Decidable False)
  | some scanned =>
      obtain ⟨passed, first⟩ := scanned
      cases first with
      | none => exact inferInstanceAs (Decidable (idx ∈ passed))
      | some slot => exact inferInstanceAs (Decidable (_ ∨ _ ∧ _))

instance {P : Type} [Fintype P] (entityHash : Entity → UInt64)
    (state : Maintained P Entity) (action : Action P Entity) :
    Decidable (Undisturbed entityHash state action) := by
  cases action with
  | maintain =>
      unfold Undisturbed
      infer_instance
  | _ => exact .isTrue trivial

/-- What a pending insertion knows of the slots. -/
structure Phase.Sound (h : Header) (key : UInt64) (slots : ℕ → Slot UInt64)
    (phase : Phase) : Prop where
  scanned : ∀ passed first, phase.scan h key = some (passed, first) →
    Scan slots key passed first
  bounded : ∀ probe first, phase = .probing probe first → probe < probeMax
  expects : ∀ idx expected, phase = .swap idx expected →
    expected = slotEmpty ∨ expected = slotTombstone

theorem Phase.scan_prefix {h : Header} {key : UInt64} {phase : Phase} {passed : List ℕ}
    {first : Option ℕ} (hscan : phase.scan h key = some (passed, first)) :
    ∃ rest, passed ++ rest = probeWindow h key := by
  cases phase <;> cases hscan
  · exact ⟨_, List.take_append_drop _ _⟩
  · exact ⟨[], List.append_nil _⟩
  · exact ⟨[], List.append_nil _⟩

namespace Phase.Sound

variable {h : Header} {key : UInt64} {slots : ℕ → Slot UInt64}

theorem of_scan_eq_none {phase : Phase} (hnone : phase.scan h key = none) :
    phase.Sound h key slots := by
  refine ⟨?_, ?_, ?_⟩
  · rw [hnone]
    exact fun _ _ heq => by cases heq
  · rintro probe first rfl
    cases hnone
  · rintro idx expected rfl
    cases hnone

theorem start : (Phase.probing 0 none).Sound h key slots := by
  refine ⟨?_, ?_, fun _ _ heq => by cases heq⟩
  · intro passed first heq
    cases heq
    exact Scan.start
  · intro probe first heq
    cases heq
    decide

theorem afterProbe {first : Option ℕ} (hscan : ∀ idx, first = some idx →
    Scan slots key (probeWindow h key) first) : (afterProbe first).Sound h key slots := by
  cases first with
  | none => exact of_scan_eq_none rfl
  | some idx =>
      refine ⟨?_, (fun _ _ heq => by cases heq), fun _ _ heq => by cases heq⟩
      intro passed first heq
      cases heq
      exact hscan idx rfl

end Phase.Sound

/-! ## One operation of an insertion -/

section Step

variable {h : Header} {key : UInt64} {deposit : Deposit Entity}
  {entries : ℕ → Entry Entity} {phase : Phase} {next : (ℕ → Entry Entity) × Phase}

theorem probeWindow_split {k : ℕ} (hk : k < probeMax) :
    probeWindow h key =
      (probeWindow h key).take k ++ probeIdx h key k :: (probeWindow h key).drop (k + 1) := by
  have hlength : k < (probeWindow h key).length := by simpa [probeWindow] using hk
  conv_lhs => rw [← List.take_append_drop k (probeWindow h key)]
  rw [List.drop_eq_getElem_cons hlength]
  congr 2
  simp [probeWindow]

theorem probeWindow_take_succ {k : ℕ} (hk : k < probeMax) :
    (probeWindow h key).take (k + 1) =
      (probeWindow h key).take k ++ [probeIdx h key k] := by
  have hlength : k < (probeWindow h key).length := by simpa [probeWindow] using hk
  rw [List.take_succ_eq_append_getElem hlength]
  simp [probeWindow]

theorem Phase.Sound.nextProbe {slots : ℕ → Slot UInt64} {k : ℕ} {first : Option ℕ}
    (hscan : Scan slots key ((probeWindow h key).take (k + 1)) first) :
    (nextProbe k first).Sound h key slots := by
  unfold Pheromone.nextProbe
  split_ifs with hk
  · refine ⟨?_, ?_, fun _ _ heq => by cases heq⟩
    · intro passed first heq
      cases heq
      exact hscan
    · intro probe first heq
      cases heq
      exact hk
  · refine afterProbe fun idx hfirst => ?_
    have hall : (probeWindow h key).take (k + 1) = probeWindow h key :=
      List.take_of_length_le (by simp [probeWindow]; omega)
    rwa [hall] at hscan

/-- One iteration of the probe loop changes nothing and scans one more slot. -/
theorem Phase.Sound.step_probing {k : ℕ} {first : Option ℕ}
    (hgood : WellProbed (probeWindow h) (tagSlots entries))
    (hsound : (Phase.probing k first).Sound h key (tagSlots entries))
    (hstep : stepPhase h key deposit entries (.probing k first) = some next) :
    next.1 = entries ∧ next.2.Sound h key (tagSlots entries) := by
  have hk : k < probeMax := hsound.bounded k first rfl
  have hscan := hsound.scanned _ _ rfl
  have hsucc := @probeWindow_take_succ h key k hk
  simp only [stepPhase] at hstep
  split_ifs at hstep with hkey hempty htomb <;> cases hstep
  · exact ⟨rfl, .of_scan_eq_none rfl⟩
  · -- the chain ends here
    refine ⟨rfl, .afterProbe fun slot hslot => ?_⟩
    have hslotEmpty : tagSlots entries (probeIdx h key k) = .empty :=
      Slot.ofTag_eq_empty_iff.mpr hempty
    have hpass := hscan.pass_free (by rw [hslotEmpty]; rfl)
    rw [hslot] at hpass ⊢
    rw [probeWindow_split hk, List.append_cons]
    refine hpass.extend fun habsent other _ => ?_
    exact hgood.absent_behind_empty (probeWindow_split hk) hslotEmpty
      (fun s hmem => habsent s (List.mem_append_left _ hmem)) other
  · refine ⟨rfl, .nextProbe ?_⟩
    rw [hsucc]
    exact hscan.pass_free (tagSlots_isFree_iff.mpr fun hlive => hlive.2 htomb)
  · refine ⟨rfl, .nextProbe ?_⟩
    rw [hsucc]
    exact hscan.pass_other ⟨_, tagSlots_eq_live_iff.mpr ⟨rfl, hempty, htomb⟩, hkey⟩

/-- Behind the claim of a slot an insertion changes no key hash. -/
theorem stepPhase_settled (hnone : phase.scan h key = none)
    (hstep : stepPhase h key deposit entries phase = some next) :
    tagSlots next.1 = tagSlots entries ∧ next.2.scan h key = none := by
  cases phase with
  | probing probe first => cases hnone
  | recheck idx => cases hnone
  | swap idx expected => cases hnone
  | returned value => cases hstep
  | storeUpdate idx newConf =>
      cases hstep
      refine ⟨tagSlots_rewrite rfl, ?_⟩
      unfold afterUpdate afterSrc
      split_ifs <;> rfl
  | addSrc idx newConf =>
      cases hstep
      refine ⟨tagSlots_rewrite rfl, ?_⟩
      unfold afterSrc
      split_ifs <;> rfl
  | clearReason idx i =>
      cases hstep
      refine ⟨tagSlots_rewrite rfl, ?_⟩
      fin_cases i <;> rfl
  | loadVersion idx =>
      cases hstep
      exact ⟨rfl, rfl⟩
  | addConfidence idx => cases hstep; exact ⟨tagSlots_rewrite rfl, rfl⟩
  | addHit idx newConf => cases hstep; exact ⟨tagSlots_rewrite rfl, rfl⟩
  | orFlags idx newConf => cases hstep; exact ⟨tagSlots_rewrite rfl, rfl⟩
  | lockVersion idx ver => cases hstep; exact ⟨tagSlots_rewrite rfl, rfl⟩
  | writeCold idx writeVer => cases hstep; exact ⟨tagSlots_rewrite rfl, rfl⟩
  | unlockVersion idx writeVer => cases hstep; exact ⟨tagSlots_rewrite rfl, rfl⟩
  | initConfidence idx => cases hstep; exact ⟨tagSlots_rewrite rfl, rfl⟩
  | initHit idx => cases hstep; exact ⟨tagSlots_rewrite rfl, rfl⟩
  | initUpdate idx => cases hstep; exact ⟨tagSlots_rewrite rfl, rfl⟩
  | initSrc idx => cases hstep; exact ⟨tagSlots_rewrite rfl, rfl⟩
  | initFlags idx => cases hstep; exact ⟨tagSlots_rewrite rfl, rfl⟩

/-- An operation of an insertion leaves the key hashes alone, or claims the first free
slot of its window. -/
theorem Phase.Sound.step (hgood : WellProbed (probeWindow h) (tagSlots entries))
    (hkeyed : key ≠ slotEmpty ∧ key ≠ slotTombstone)
    (hsound : phase.Sound h key (tagSlots entries))
    (hstep : stepPhase h key deposit entries phase = some next) :
    next.2.Sound h key (tagSlots next.1) ∧
      (tagSlots next.1 = tagSlots entries ∨
        ∃ idx, probeFree (tagSlots entries) (probeWindow h key) = some idx ∧
          tagSlots next.1 = Function.update (tagSlots entries) idx (.live key) ∧
          WellProbed (probeWindow h) (tagSlots next.1)) := by
  cases hscan : phase.scan h key with
  | none =>
      obtain ⟨hslots, hnext⟩ := stepPhase_settled hscan hstep
      exact ⟨.of_scan_eq_none hnext, .inl hslots⟩
  | some scanned =>
      cases phase with
      | probing k first =>
          obtain ⟨hsame, hnext⟩ := hsound.step_probing hgood hstep
          rw [hsame]
          exact ⟨hnext, .inl rfl⟩
      | recheck idx =>
          have hpassed := hsound.scanned _ _ rfl
          simp only [stepPhase] at hstep
          split_ifs at hstep with htaken <;> cases hstep
          · exact ⟨.of_scan_eq_none rfl, .inl rfl⟩
          · refine ⟨⟨?_, (fun _ _ heq => by cases heq), ?_⟩, .inl rfl⟩
            · intro passed first heq
              cases heq
              exact hpassed
            · intro slot expected heq
              cases heq
              tauto
      | swap idx expected =>
          have hpassed := hsound.scanned _ _ rfl
          have hsentinel := hsound.expects idx expected rfl
          simp only [stepPhase] at hstep
          split_ifs at hstep with hclaim hkey <;> cases hstep
          · have hslots : tagSlots (Function.update entries idx
                { entries idx with keyHash := key }) =
                  Function.update (tagSlots entries) idx (.live key) := by
              rw [tagSlots_update, Slot.ofTag_eq_live_iff.mpr ⟨rfl, hkeyed⟩]
            have hfree : (tagSlots entries idx).isFree = true := by
              rw [tagSlots_isFree_iff, Entry.Live, hclaim]
              tauto
            refine ⟨.of_scan_eq_none rfl, .inr ⟨idx, ?_, hslots, ?_⟩⟩
            · have hfirst := hpassed.probeFree_eq hfree []
              rwa [List.append_nil] at hfirst
            · rw [hslots]
              exact hgood.claim_scanned hpassed hfree
          · exact ⟨.of_scan_eq_none rfl, .inl rfl⟩
          · exact ⟨.of_scan_eq_none rfl, .inl rfl⟩
      | returned value => cases hstep
      | _ => cases hscan

end Step

/-! ## What the other processes do to a pending insertion -/

namespace Phase.Sound

variable {h : Header} {key : UInt64} {slots : ℕ → Slot UInt64} {phase : Phase}

theorem claim (hsound : phase.Sound h key slots) {other : UInt64} {idx : ℕ}
    (hfirst : probeFree slots (probeWindow h other) = some idx) :
    phase.Sound h key (Function.update slots idx (.live other)) := by
  refine ⟨fun passed first hscan => ?_, hsound.bounded, hsound.expects⟩
  obtain ⟨rest, hwindow⟩ := scan_prefix hscan
  refine (hsound.scanned passed first hscan).claim rest (probeFree_some_isFree hfirst) ?_
  rintro rfl
  rwa [hwindow]

theorem bury (hsound : phase.Sound h key slots) {idx : ℕ}
    (hrelies : ∀ passed first, phase.scan h key = some (passed, first) →
      ¬ ScanReliesOn slots key passed first idx) :
    phase.Sound h key (Function.update slots idx .tombstone) := by
  refine ⟨fun passed first hscan => ?_, hsound.bounded, hsound.expects⟩
  exact (hsound.scanned passed first hscan).bury (hrelies passed first hscan)

end Phase.Sound

/-! ## Runs -/

/-- The table is well formed and every pending insertion is sound. -/
structure Kept {P : Type} (entityHash : Entity → UInt64) (state : Maintained P Entity) :
    Prop where
  wellFormed : WellFormed state.table
  pending : ∀ p args phase, state.call p = some (args, phase) →
    phase.Sound state.table.header (entityKeyHash entityHash args.entity)
      (tagSlots state.table.entries)

/-- The call which a process runs after one process started or continued its own. -/
theorem eq_or_of_update_eq_some {P α : Type} [DecidableEq P] {call : P → Option α} {p q : P}
    {own running : α} (hcall : Function.update call p (some own) q = some running) :
    own = running ∨ call q = some running := by
  by_cases hq : q = p
  · rw [hq, Function.update_self] at hcall
    exact .inl (Option.some.inj hcall)
  · rw [Function.update_of_ne hq] at hcall
    exact .inr hcall

/-- No key hash is live in two slots. -/
def UniqueKeys (table : Table Entity) : Prop :=
  ∀ idx other, (table.entries idx).Live →
    (table.entries idx).keyHash = (table.entries other).keyHash → idx = other

theorem WellFormed.uniqueKeys {table : Table Entity} (hgood : WellFormed table) :
    UniqueKeys table := by
  intro idx other hlive hsame
  refine hgood.wellProbed.unique idx other (table.entries idx).keyHash
    (tagSlots_eq_live_iff.mpr ⟨rfl, hlive⟩) (tagSlots_eq_live_iff.mpr ⟨hsame.symm, ?_⟩)
  rw [Entry.Live, ← hsame]
  exact hlive

namespace Kept

variable {P : Type} [DecidableEq P] {entityHash : Entity → UInt64}
  {state next : Maintained P Entity}

theorem work (hkept : Kept entityHash state) {p : P}
    (hstep : maintainedStep entityHash state (.work p) = some next) :
    Kept entityHash next := by
  simp only [maintainedStep] at hstep
  cases hcall : state.call p with
  | none =>
      rw [hcall] at hstep
      cases hstep
  | some running =>
      obtain ⟨args, phase⟩ := running
      rw [hcall] at hstep
      obtain ⟨after, hafter, rfl⟩ := Option.map_eq_some_iff.mp hstep
      have hkeyed := entityKeyHash_ne_sentinel entityHash args.entity
      obtain ⟨hown, hslots⟩ :=
        (hkept.pending p args phase hcall).step hkept.wellFormed.wellProbed hkeyed hafter
      constructor
      · refine ⟨hkept.wellFormed.sound, ?_⟩
        rcases hslots with hsame | ⟨idx, _, _, hgood⟩
        · exact hsame ▸ hkept.wellFormed.wellProbed
        · exact hgood
      · intro q other otherPhase hq
        rcases eq_or_of_update_eq_some hq with heq | hq
        · cases heq
          exact hown
        · have hsound := hkept.pending q other otherPhase hq
          rcases hslots with hsame | ⟨idx, hfirst, hclaimed, _⟩
          · exact hsame ▸ hsound
          · exact hclaimed ▸ hsound.claim hfirst

theorem maintain (hkept : Kept entityHash state)
    (hundisturbed : Undisturbed entityHash state .maintain)
    (hstep : maintainedStep entityHash state .maintain = some next) :
    Kept entityHash next := by
  obtain ⟨after, hafter, rfl⟩ := Option.map_eq_some_iff.mp hstep
  rcases stepMaintenance_tagSlots hafter with ⟨_, hsame⟩ | ⟨idx, hburies, hburied⟩
  · refine ⟨⟨hkept.wellFormed.sound, hsame ▸ hkept.wellFormed.wellProbed⟩, ?_⟩
    intro p args phase hcall
    exact hsame ▸ hkept.pending p args phase hcall
  · refine ⟨⟨hkept.wellFormed.sound, hkept.wellFormed.wellProbed.bury fun other => ?_⟩, ?_⟩
    · rw [hburied]
      by_cases hother : other = idx
      · rw [hother, Function.update_self]
        exact .inr rfl
      · exact .inl (Function.update_of_ne hother _ _)
    · intro p args phase hcall
      refine hburied ▸ (hkept.pending p args phase hcall).bury ?_
      intro passed first hscan hrelies
      refine hundisturbed idx hburies p (args, phase) hcall ?_
      rw [Phase.ReliesOn, hscan]
      exact hrelies

theorem step (hkept : Kept entityHash state) {action : Action P Entity}
    (hundisturbed : Undisturbed entityHash state action)
    (hstep : maintainedStep entityHash state action = some next) :
    Kept entityHash next := by
  cases action with
  | deposit p args =>
      simp only [maintainedStep] at hstep
      split_ifs at hstep with hover
      cases hstep
      refine ⟨hkept.wellFormed, fun q other phase hq => ?_⟩
      rcases eq_or_of_update_eq_some hq with heq | hq
      · cases heq
        exact .start
      · exact hkept.pending q other phase hq
  | work p => exact hkept.work hstep
  | remove entity =>
      simp only [maintainedStep] at hstep
      split_ifs at hstep with hidle
      cases hstep
      exact ⟨hkept.wellFormed, hkept.pending⟩
  | decay =>
      simp only [maintainedStep] at hstep
      split_ifs at hstep with hidle
      cases hstep
      exact ⟨hkept.wellFormed, hkept.pending⟩
  | maintain => exact hkept.maintain hundisturbed hstep

end Kept

/-- While maintenance tombstones no slot on which a pending insertion relies, every key
hash is live in one slot. -/
theorem undisturbed_run_uniqueKeys {P : Type} [DecidableEq P] [Inhabited Entity]
    (entityHash : Entity → UInt64) {start : Maintained P Entity}
    {schedule : List (Action P Entity)} (hstart : (maintained entityHash).Initial start)
    (hundisturbed : (maintained entityHash).RunMeets (Undisturbed entityHash) start schedule) :
    (maintained entityHash).Always (fun state => UniqueKeys state.table) start schedule := by
  intro front back middle hschedule hrun
  rw [← hschedule] at hundisturbed
  have hkept : Kept entityHash middle := by
    refine (maintained entityHash).run_invariant_of_runMeets ?_ ?_ hundisturbed.of_append hrun
    · intro state action next hkept hguard hstep
      exact hkept.step hguard hstep
    · obtain ⟨⟨cfg, clock, hashKey, hcreate⟩, hidle, _⟩ := hstart
      refine ⟨create_wellFormed hcreate, fun p args phase hcall => ?_⟩
      rw [hidle p] at hcall
      cases hcall
  exact hkept.wellFormed.uniqueKeys

/-! ## Two processes and a removal -/

/-- A deposit of 40 on the entity. -/
def depositOn (entity : ℕ) : Deposit ℕ where
  entity := entity
  action := 0
  outcome := 0
  tenantId := 0
  delta := 40
  incrementSrc := false
  phaseFlags := 0
  clock := 0

/-- A fresh table of four slots: entities 4 and 8 share their home slot. -/
def freshTable : Maintained Bool ℕ where
  table := { smallTable with header := { smallTable.header with capacity := 4, mask := 3 } }
  call := fun _ => none
  maintenance := .idle

theorem freshTable_initial : (maintained UInt64.ofNat).Initial freshTable :=
  ⟨⟨some { capacity := 4 }, 0, [], rfl⟩, fun _ => rfl, rfl⟩

/-- One process deposits on 4, which is removed before the other deposits on 8. -/
def removedBetweenDeposits : List (Action Bool ℕ) :=
  .deposit false (depositOn 4) :: List.replicate 15 (.work false) ++
    [.remove 4, .maintain, .maintain, .deposit true (depositOn 8)] ++
    List.replicate 16 (.work true)

/-- Entity 4 is removed after a deposit on 8 has probed past its slot; the other process
then deposits on 8 too, and both claim a slot. -/
def removedBehindProbe : List (Action Bool ℕ) :=
  .deposit false (depositOn 4) :: List.replicate 15 (.work false) ++
    .deposit true (depositOn 8) :: List.replicate 2 (.work true) ++
    [.remove 4, .maintain, .maintain, .deposit false (depositOn 8)] ++
    List.replicate 4 (.work false) ++ List.replicate 2 (.work true)

theorem undisturbed_run_uniqueKeys_removedBetweenDeposits :
    (maintained UInt64.ofNat).Always (fun state => UniqueKeys state.table) freshTable
        removedBetweenDeposits ∧
      ∃ final, (maintained UInt64.ofNat).run freshTable removedBetweenDeposits =
          some final ∧
        (final.table.entries 0).keyHash = 8 := by
  have hundisturbed : (maintained UInt64.ofNat).RunMeets (Undisturbed UInt64.ofNat)
      freshTable removedBetweenDeposits := by decide +kernel
  exact ⟨undisturbed_run_uniqueKeys UInt64.ofNat freshTable_initial hundisturbed, _, rfl,
    by decide +kernel⟩

theorem removal_behind_probe_duplicates_key :
    (maintained UInt64.ofNat).Initial freshTable ∧
      ∃ final, (maintained UInt64.ofNat).run freshTable removedBehindProbe =
          some final ∧
        (final.table.entries 0).keyHash = entityKeyHash UInt64.ofNat 8 ∧
        (final.table.entries 1).keyHash = entityKeyHash UInt64.ofNat 8 ∧
        ¬ UniqueKeys final.table := by
  refine ⟨freshTable_initial, _, rfl, by decide +kernel, by decide +kernel, ?_⟩
  intro hunique
  have hsame := hunique 0 1 (by decide +kernel) (by decide +kernel)
  exact absurd hsame (by decide)

end Pheromone
end LibWake
