import LibWake.PheromoneMap
import LibWake.QuorumRead

/-!
# Slot indices on an opened table

`wake_pheromone_open` sizes the mapping from the stored capacity, and the probe
loops mask with the stored mask, which nothing checks.  The indices stay inside
the mapping, for every entity and every hash, exactly when the stored mask is
below the stored capacity.
-/

namespace LibWake
namespace Pheromone

open Checked

variable {Entity : Type}

/-! ## Calls on an opened table -/

inductive OpenedCall (Entity : Type) where
  | write (call : Call Entity)
  | lookup (entity : Entity)
  | readEntry (slotIndex : ℕ)
  | stats
  | sweep (q : Quorum.Evaluator) (fn : Quorum.EmitFn Entity)

/-- The table after one call, each slot index of which has been checked. -/
def performChecked (entityHash : Entity → UInt64) (fuel : ℕ) (table : Table Entity) :
    OpenedCall Entity → Access (Table Entity)
  | .write (.insert deposit) => do
      return (← phtInsertChecked entityHash table deposit).1
  | .write (.remove entity) => do
      return (← removeChecked entityHash table entity).1
  | .write (.noteReason entity word) => noteReasonChecked entityHash table entity word
  | .write .decay => do return (← decayChecked table).1
  | .lookup entity => do
      let _ ← lookupChecked entityHash table entity
      return table
  | .readEntry slotIndex => do
      let _ ← Pheromone.readEntry fuel table slotIndex
      return table
  | .stats => do
      let _ ← Pheromone.stats table
      return table
  | .sweep q fn => do
      let _ ← Quorum.sweepTable fuel q table fn
      return table

/-- A slot index was not below the capacity. -/
def IndexFault (fault : Fault) : Prop := ∃ idx, fault = .index idx

/-- No call of any run computes a slot index outside the mapping, whatever the
hash of an entity is. -/
def IndicesInRange (table : Table Entity) : Prop :=
  ∀ (entityHash : Entity → UInt64) (fuel : ℕ) (calls : List (OpenedCall Entity)),
    Avoids IndexFault (calls.foldlM (performChecked entityHash fuel) table)

/-- Every masked value is below the capacity. -/
def Header.MaskFits (h : Header) : Prop := h.mask.toNat < h.capacity.toNat

instance (h : Header) : Decidable h.MaskFits := by
  unfold Header.MaskFits
  infer_instance

theorem Header.Sound.maskFits {h : Header} (hsound : h.Sound) : h.MaskFits := by
  have hcapacity := h.capacity.toNat_lt
  have hpos := hsound.capacity_pos
  rw [Header.MaskFits, hsound.mask_eq, UInt64.toNat_ofNat', Nat.mod_eq_of_lt (by omega)]
  omega

/-! ## A mask which fits -/

section Fits

variable {table : Table Entity} (hfits : table.header.MaskFits)

include hfits

theorem toNat_and_mask_lt (x : UInt64) :
    (x &&& table.header.mask).toNat < table.header.capacity.toNat := by
  rw [UInt64.toNat_and]
  exact lt_of_le_of_lt Nat.and_le_right hfits

theorem lt_of_mem_window {key : UInt64} {idx : ℕ}
    (hmem : idx ∈ probeWindow table.header key) : idx < table.header.capacity.toNat := by
  obtain ⟨p, _, rfl⟩ := mem_probeWindow.mp hmem
  exact toNat_and_mask_lt hfits _

omit hfits in
theorem probeKeyIn_mem {entries : ℕ → Entry Entity} {key : UInt64} {window : List ℕ}
    {idx : ℕ} (hprobe : probeKeyIn entries key window = some idx) : idx ∈ window := by
  induction window with
  | nil => simp [probeKeyIn] at hprobe
  | cons head rest ih =>
      unfold probeKeyIn at hprobe
      split_ifs at hprobe with hkey hempty
      · rw [Option.some.inj hprobe]
        exact List.mem_cons_self
      · exact List.mem_cons_of_mem _ (ih hprobe)

omit hfits in
theorem insertProbe_mem {entries : ℕ → Entry Entity} {key : UInt64} {idx : ℕ}
    {window : List ℕ} {first : Option ℕ}
    (hprobe : (insertProbe entries key window first).1 = some idx ∨
      (insertProbe entries key window first).2 = some idx) :
    idx ∈ window ∨ first = some idx := by
  induction window generalizing first with
  | nil =>
      rcases hprobe with hfound | hfirst
      · simp [insertProbe] at hfound
      · exact .inr hfirst
  | cons head rest ih =>
      have hor : first.or (some head) = some idx → idx ∈ head :: rest ∨ first = some idx := by
        intro hor
        cases first with
        | none =>
            rw [← Option.some.inj hor]
            exact .inl List.mem_cons_self
        | some taken => exact .inr hor
      unfold insertProbe at hprobe
      split_ifs at hprobe with hkey hempty htomb
      · rcases hprobe with hfound | hfirst
        · rw [Option.some.inj hfound]
          exact .inl List.mem_cons_self
        · exact .inr hfirst
      · rcases hprobe with hfound | hfirst
        · contradiction
        · exact hor hfirst
      · rcases ih hprobe with hmem | hfirst
        · exact .inl (List.mem_cons_of_mem _ hmem)
        · exact hor hfirst
      · exact (ih hprobe).imp_left (List.mem_cons_of_mem _)

omit hfits in
theorem probeKeyInChecked_eq {key : UInt64} {window : List ℕ}
    (hwindow : ∀ idx ∈ window, idx < table.header.capacity.toNat) :
    probeKeyInChecked table key window = .ok (probeKeyIn table.entries key window) := by
  induction window with
  | nil => rfl
  | cons idx rest ih =>
      have hrest := ih fun other hmem => hwindow other (List.mem_cons_of_mem _ hmem)
      unfold probeKeyInChecked probeKeyIn
      rw [slotAt_of_lt (hwindow idx List.mem_cons_self), ok_bind]
      split_ifs
      · rfl
      · rfl
      · exact hrest

omit hfits in
theorem insertProbeChecked_eq {key : UInt64} {window : List ℕ} {first : Option ℕ}
    (hwindow : ∀ idx ∈ window, idx < table.header.capacity.toNat) :
    insertProbeChecked table key window first =
      .ok (insertProbe table.entries key window first) := by
  induction window generalizing first with
  | nil => rfl
  | cons idx rest ih =>
      have hrest : ∀ first, insertProbeChecked table key rest first =
          .ok (insertProbe table.entries key rest first) :=
        fun first => ih fun other hmem => hwindow other (List.mem_cons_of_mem _ hmem)
      unfold insertProbeChecked insertProbe
      rw [slotAt_of_lt (hwindow idx List.mem_cons_self), ok_bind]
      split_ifs
      · rfl
      · rfl
      · exact hrest _
      · exact hrest _

theorem probeKeyChecked_eq (key : UInt64) :
    probeKeyChecked table key = .ok (probeKey table key) :=
  probeKeyInChecked_eq fun _ hmem => lt_of_mem_window hfits hmem

theorem lt_of_probeKey {key : UInt64} {idx : ℕ} (hprobe : probeKey table key = some idx) :
    idx < table.header.capacity.toNat :=
  lt_of_mem_window hfits (probeKeyIn_mem hprobe)

theorem phtInsertChecked_eq (entityHash : Entity → UInt64) (deposit : Deposit Entity) :
    phtInsertChecked entityHash table deposit =
      .ok (phtInsert entityHash table deposit) := by
  simp only [phtInsertChecked, phtInsert]
  rw [insertProbeChecked_eq fun _ hmem => lt_of_mem_window hfits hmem, ok_bind]
  have hmem : ∀ idx, (insertProbe table.entries (entityKeyHash entityHash deposit.entity)
        (probeWindow table.header (entityKeyHash entityHash deposit.entity)) none).1 =
          some idx ∨
      (insertProbe table.entries (entityKeyHash entityHash deposit.entity)
        (probeWindow table.header (entityKeyHash entityHash deposit.entity)) none).2 =
          some idx → idx < table.header.capacity.toNat := by
    intro idx hprobe
    rcases insertProbe_mem hprobe with hmem | hnone
    · exact lt_of_mem_window hfits hmem
    · contradiction
  cases hprobe : insertProbe table.entries (entityKeyHash entityHash deposit.entity)
      (probeWindow table.header (entityKeyHash entityHash deposit.entity)) none with
  | mk found first =>
      rw [hprobe] at hmem
      cases found with
      | some idx =>
          have hlt := hmem idx (.inl rfl)
          simp only [slotAt_of_lt hlt, setSlotAt_of_lt hlt, ok_bind, pure_eq_ok]
      | none =>
          cases first with
          | none => rfl
          | some idx =>
              have hlt := hmem idx (.inr rfl)
              simp only [slotAt_of_lt hlt, setSlotAt_of_lt hlt, ok_bind, pure_eq_ok]

theorem lookupChecked_eq (entityHash : Entity → UInt64) (entity : Entity) :
    lookupChecked entityHash table entity = .ok (lookup entityHash table entity) := by
  rw [lookupChecked, lookup, probeKeyChecked_eq hfits, ok_bind]
  cases hprobe : probeKey table (entityKeyHash entityHash entity) with
  | none => rfl
  | some idx => simp only [slotAt_of_lt (lt_of_probeKey hfits hprobe), ok_bind, pure_eq_ok]

theorem removeChecked_eq (entityHash : Entity → UInt64) (entity : Entity) :
    removeChecked entityHash table entity = .ok (remove entityHash table entity) := by
  rw [removeChecked, remove, probeKeyChecked_eq hfits, ok_bind]
  cases hprobe : probeKey table (entityKeyHash entityHash entity) with
  | none => rfl
  | some idx =>
      have hlt := lt_of_probeKey hfits hprobe
      simp only [slotAt_of_lt hlt, setSlotAt_of_lt hlt, ok_bind, pure_eq_ok]

theorem noteReasonChecked_eq (entityHash : Entity → UInt64) (entity : Entity)
    (word : UInt64) :
    noteReasonChecked entityHash table entity word =
      .ok (noteReason entityHash table entity word) := by
  unfold noteReasonChecked noteReason
  split_ifs with hkind
  · rfl
  · rw [probeKeyChecked_eq hfits, ok_bind]
    cases hprobe : probeKey table (entityKeyHash entityHash entity) with
    | none => rfl
    | some idx =>
        have hlt := lt_of_probeKey hfits hprobe
        simp only [slotAt_of_lt hlt, setSlotAt_of_lt hlt, ok_bind]

omit hfits in
theorem decayChecked_eq (table : Table Entity) :
    decayChecked table = .ok (decay table) := by
  apply foldlM_eq_ok (motive := fun state : Table Entity × ℕ =>
    state.1.header = table.header)
  · intro idx hmem state hheader
    have hlt : idx < state.1.header.capacity.toNat := by
      rw [hheader]
      exact List.mem_range.mp hmem
    simp only [decayStepChecked, slotAt_of_lt hlt, setSlotAt_of_lt hlt, ok_bind,
      pure_eq_ok]
    rfl
  · exact fun _ _ _ hheader => hheader
  · rfl

/-- On a table whose mask fits, a writing call is the call of the sequential
model. -/
theorem performChecked_write (entityHash : Entity → UInt64) (fuel : ℕ)
    (call : Call Entity) :
    performChecked entityHash fuel table (.write call) =
      .ok (performCall entityHash table call) := by
  cases call with
  | insert deposit => rw [performChecked, phtInsertChecked_eq hfits]; rfl
  | remove entity => rw [performChecked, removeChecked_eq hfits]; rfl
  | noteReason entity word => rw [performChecked, noteReasonChecked_eq hfits]; rfl
  | decay => rw [performChecked, decayChecked_eq]; rfl

end Fits

/-! ## Reads -/

theorem seqlockRead_avoids (entry : Entry Entity) (fuel : ℕ) :
    Avoids IndexFault (seqlockRead entry fuel) := by
  have hspinning : ¬ IndexFault .spinning := by
    rintro ⟨idx, hidx⟩
    contradiction
  induction fuel with
  | zero => exact .error hspinning
  | succ fuel ih =>
      simp only [seqlockRead]
      split_ifs
      · exact ih
      · exact .ok _

theorem readEntry_avoids (fuel : ℕ) (table : Table Entity) (slotIndex : ℕ) :
    Avoids IndexFault (readEntry fuel table slotIndex) := by
  unfold readEntry
  split_ifs with hover
  · exact .ok none
  · rw [slotAt_of_lt (Nat.lt_of_not_ge hover), ok_bind]
    split_ifs
    · exact (seqlockRead_avoids _ _).bind fun out _ => .ok (some out)
    · exact .ok none

theorem stats_avoids {table : Table Entity} (hfits : table.header.MaskFits) :
    Avoids IndexFault (stats table) := by
  apply Avoids.foldlM (motive := fun _ => True)
  · intro i hmem out _
    rw [statsStep, slotAt_of_lt (List.mem_range.mp hmem), ok_bind]
    split_ifs
    · exact .ok out
    · exact .ok _
    · rw [homeSlot, slotAt_of_lt (toNat_and_mask_lt hfits _), ok_bind]
      exact .ok _
  · exact fun _ _ _ _ _ _ => trivial
  · trivial

/-! ## Runs -/

theorem performChecked_avoids {table : Table Entity} (hfits : table.header.MaskFits)
    (entityHash : Entity → UInt64) (fuel : ℕ) (call : OpenedCall Entity) :
    Avoids IndexFault (performChecked entityHash fuel table call) := by
  cases call with
  | write call =>
      rw [performChecked_write hfits]
      exact .ok _
  | lookup entity =>
      rw [performChecked, lookupChecked_eq hfits]
      exact .ok table
  | readEntry slotIndex =>
      exact (readEntry_avoids fuel table slotIndex).bind fun _ _ => .ok table
  | stats => exact (stats_avoids hfits).bind fun _ _ => .ok table
  | sweep q fn =>
      exact (Quorum.sweepLoopOn_avoids (readEntry_avoids fuel table) _ _ _ _).bind
        fun _ _ => .ok table

theorem performChecked_header {table next : Table Entity}
    (hfits : table.header.MaskFits) {entityHash : Entity → UInt64} {fuel : ℕ}
    {call : OpenedCall Entity}
    (hstep : performChecked entityHash fuel table call = .ok next) :
    next.header = table.header := by
  cases call with
  | write call =>
      rw [performChecked_write hfits, Except.ok.injEq] at hstep
      rw [← hstep, performCall_header]
  | lookup entity =>
      obtain ⟨_, _, hnext⟩ := bind_eq_ok.mp hstep
      rw [← Except.ok.inj hnext]
  | readEntry slotIndex =>
      obtain ⟨_, _, hnext⟩ := bind_eq_ok.mp hstep
      rw [← Except.ok.inj hnext]
  | stats =>
      obtain ⟨_, _, hnext⟩ := bind_eq_ok.mp hstep
      rw [← Except.ok.inj hnext]
  | sweep q fn =>
      obtain ⟨_, _, hnext⟩ := bind_eq_ok.mp hstep
      rw [← Except.ok.inj hnext]

theorem indicesInRange_of_maskFits {table : Table Entity}
    (hfits : table.header.MaskFits) : IndicesInRange table := by
  intro entityHash fuel calls
  apply Avoids.foldlM (motive := fun state : Table Entity => state.header.MaskFits)
  · exact fun call _ state hstate => performChecked_avoids hstate entityHash fuel call
  · intro call _ state next hstate hstep
    rwa [performChecked_header hstate hstep]
  · exact hfits

/-! ## A mask which does not fit -/

/-- A key of 64 ones probes the slot of the mask first. -/
theorem probeIdx_ones (h : Header) : probeIdx h (-1) 0 = h.mask.toNat := by
  unfold probeIdx
  rw [UInt64.neg_one_and, show UInt64.ofNat 0 = 0 from rfl, UInt64.add_zero,
    UInt64.and_self]

theorem lookup_ones_fault (entity : Entity) {table : Table Entity}
    (hover : ¬ table.header.MaskFits) (fuel : ℕ) :
    performChecked (fun _ => -1) fuel table (.lookup entity) =
      .error (.index table.header.mask.toNat) := by
  have hkey : entityKeyHash (fun _ : Entity => -1) entity = -1 := by
    have hsentinel : ¬ ((-1 : UInt64) = slotEmpty ∨ (-1 : UInt64) = slotTombstone) := by
      decide
    simp only [entityKeyHash, if_neg hsentinel]
  have hwindow : probeWindow table.header (-1) =
      table.header.mask.toNat ::
        ((List.range probeMax).tail.map (probeIdx table.header (-1))) := by
    rw [← probeIdx_ones]
    rfl
  have hprobe : probeKeyChecked table (-1) = .error (.index table.header.mask.toNat) := by
    rw [probeKeyChecked, hwindow, probeKeyInChecked,
      slotAt_of_le (Nat.le_of_not_gt hover), error_bind]
  rw [performChecked, lookupChecked, hkey, hprobe]
  rfl

theorem maskFits_of_indicesInRange [Inhabited Entity] {table : Table Entity}
    (hrange : IndicesInRange table) : table.header.MaskFits := by
  by_contra hover
  have hfault : [OpenedCall.lookup (default : Entity)].foldlM
      (performChecked (fun _ => -1) 0) table =
        .error (.index table.header.mask.toNat) := by
    rw [List.foldlM_cons, lookup_ones_fault _ hover, error_bind]
  exact hrange _ _ _ _ hfault ⟨_, rfl⟩

/-- The slot indices of every run on an opened table are below its capacity if
and only if the stored mask is. -/
theorem indicesInRange_iff_maskFits (file : List UInt8) (table : Table EntityBytes)
    (hopen : openFile file = some table) :
    IndicesInRange table ↔ (headerOf file).mask.toNat < (headerOf file).capacity.toNat := by
  rw [← (openFile_eq_some hopen).2.2.1]
  exact ⟨maskFits_of_indicesInRange, indicesInRange_of_maskFits⟩

/-- A table file of one entry with a given low byte of the mask. -/
def oneEntryFile (mask : UInt8) : List UInt8 :=
  [0x57, 0x4B, 0x41, 0x45, 0x50, 0x48, 0x54, 0, 1, 0, 0, 0, 1, 0, 0, 0, mask] ++
    List.replicate 367 0

theorem indicesInRange_iff_maskFits_oneEntryFile :
    ∃ table, openFile (oneEntryFile 0) = some table ∧ IndicesInRange table := by
  have hopens : (openFile (oneEntryFile 0)).isSome = true := by decide +kernel
  obtain ⟨table, hopen⟩ := Option.isSome_iff_exists.mp hopens
  exact ⟨table, hopen,
    (indicesInRange_iff_maskFits (oneEntryFile 0) table hopen).mpr (by decide +kernel)⟩

/-- A file whose mask is not below its capacity passes every check. -/
theorem accepted_mask_over_capacity :
    ∃ table, openFile (oneEntryFile 1) = some table ∧ ¬ IndicesInRange table := by
  have hopens : (openFile (oneEntryFile 1)).isSome = true := by decide +kernel
  obtain ⟨table, hopen⟩ := Option.isSome_iff_exists.mp hopens
  refine ⟨table, hopen, fun hrange => ?_⟩
  have hfits := maskFits_of_indicesInRange hrange
  rw [(openFile_eq_some hopen).2.2.1] at hfits
  exact absurd hfits (by decide +kernel)

end Pheromone
end LibWake
