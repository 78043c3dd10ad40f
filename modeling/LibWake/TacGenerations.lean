import LibWake.TacStores

/-!
# The generations of a slot

One slot goes through generations: it is free, is claimed for a key, has its weight
zeroed, is filled, and is published by the store of its weight; it is free again when
its key becomes a tombstone.  Between a claim and the zeroing of the weight the slot
shows the new key beside the weight and the triple of the generation before.  The stores
of every update follow these stages.
-/

namespace LibWake
namespace Tac

inductive Stage where
  | free | claimed | zeroed | published
  deriving DecidableEq, Repr

/-- The stage behind a store of one field of `source`. -/
def Stage.after (source : Entry) : Stage → Field → Stage
  | _, .keyHash => if source.Live then .claimed else .free
  | .claimed, .weight => .zeroed
  | .zeroed, .weight => .published
  | stage, _ => stage

/-- The stage of a slot between two updates. -/
def Stage.settled (entry : Entry) : Stage := if entry.Live then .published else .free

/-- What the writer may store at a stage: a claimed slot is zeroed before anything else,
and a weight is only published beside the key of its triple. -/
def Stage.Allows (keyedHash : KeyedHash) (root : Table) (entry source : Entry) :
    Stage → Field → Prop
  | .free, .keyHash => source.Live
  | .claimed, .weight => source.weight = 0
  | .zeroed, .weight => KeyedAs keyedHash root entry
  | .zeroed, .keyHash => ¬ source.Live
  | .zeroed, _ => True
  | .published, .keyHash => ¬ source.Live
  | .published, .tLo | .published, .tHi | .published, .entityHash => False
  | .published, _ => True
  | _, _ => False

/-- Stores into one slot which follow the stages to the end of an update. -/
def Lawful (keyedHash : KeyedHash) (root : Table) :
    Stage → Entry → List (Field × Entry) → Prop
  | stage, entry, [] => stage = .settled entry
  | stage, entry, (field, source) :: rest =>
      stage.Allows keyedHash root entry source field ∧
        Lawful keyedHash root (stage.after source field) (field.copy source entry) rest

/-! ## The stores into one slot -/

def Store.at (slot : ℕ) : Store → Option (Field × Entry)
  | .entry idx field source => if idx = slot then some (field, source) else none
  | .sidecar _ => none

def slotStores (stores : List Store) (slot : ℕ) : List (Field × Entry) :=
  stores.filterMap (Store.at slot)

@[simp] theorem slotStores_nil (slot : ℕ) : slotStores [] slot = [] := rfl

@[simp] theorem slotStores_cons_sidecar (occ : ℕ → Occ) (rest : List Store) (slot : ℕ) :
    slotStores (.sidecar occ :: rest) slot = slotStores rest slot := rfl

@[simp] theorem slotStores_cons_same (slot : ℕ) (field : Field) (source : Entry)
    (rest : List Store) :
    slotStores (.entry slot field source :: rest) slot =
      (field, source) :: slotStores rest slot :=
  List.filterMap_cons_some (if_pos rfl)

theorem slotStores_cons_other {idx slot : ℕ} (hne : idx ≠ slot) (field : Field)
    (source : Entry) (rest : List Store) :
    slotStores (.entry idx field source :: rest) slot = slotStores rest slot :=
  List.filterMap_cons_none (if_neg hne)

@[simp] theorem slotStores_append (front back : List Store) (slot : ℕ) :
    slotStores (front ++ back) slot = slotStores front slot ++ slotStores back slot :=
  List.filterMap_append

@[simp] theorem slotStores_storeFields_same (slot : ℕ) (source : Entry)
    (fields : List Field) :
    slotStores (storeFields slot source fields) slot =
      fields.map fun field => (field, source) := by
  induction fields with
  | nil => rfl
  | cons field rest ih =>
      rw [storeFields, List.map_cons, slotStores_cons_same, List.map_cons, ← ih]
      rfl

theorem slotStores_storeFields_other {idx slot : ℕ} (hne : idx ≠ slot) (source : Entry)
    (fields : List Field) : slotStores (storeFields idx source fields) slot = [] := by
  induction fields with
  | nil => rfl
  | cons field rest ih =>
      rw [storeFields, List.map_cons, slotStores_cons_other hne]
      exact ih

/-! ## The updates are lawful -/

section Lawful

variable {keyedHash : KeyedHash} {table : Table}

theorem lawful_nil (entry : Entry) :
    Lawful keyedHash table (.settled entry) entry [] := rfl

theorem lawful_existingStores {idx : ℕ} (hlive : (table.entries idx).Live) (w : Witnesses)
    (slot : ℕ) :
    Lawful keyedHash table (.settled (table.entries slot)) (table.entries slot)
      (slotStores (existingStores table idx w) slot) := by
  simp only [existingStores]
  split_ifs
  · exact lawful_nil _
  · cases chargeExisting table.header (table.entries idx).budget w.w0Src w.w1Src
        w.delta with
    | none => exact lawful_nil _
    | some charged =>
        obtain ⟨budget, bump, accepted⟩ := charged
        by_cases hslot : idx = slot
        · subst hslot
          have hstage : Stage.settled (table.entries idx) = .published := if_pos hlive
          rw [slotStores_storeFields_same, hstage]
          simp only [reinforceOrder, List.map_cons, List.map_nil, Lawful, Stage.Allows,
            Stage.after, Field.copy, true_and]
          exact (if_pos hlive).symm
        · simp only [slotStores_storeFields_other hslot]
          exact lawful_nil _

theorem lawful_retireStores {claimed : Table} {ehash : UInt64} {victim slot : ℕ}
    (hslot : victim = slot) (hlive : (claimed.entries slot).Live) :
    Lawful keyedHash table (.settled (claimed.entries slot)) (claimed.entries slot)
      (slotStores (retireStores claimed ehash (some victim)) slot) := by
  subst hslot
  have hstage : Stage.settled (claimed.entries victim) = .published := if_pos hlive
  rw [hstage]
  simp only [retireStores, slotStores_cons_same, slotStores_cons_sidecar, slotStores_nil,
    Lawful, Stage.Allows, Stage.after, Field.copy, true_and]
  refine ⟨fun h => h.2 rfl, ?_⟩
  rw [if_neg fun h => h.2 rfl]
  exact (if_neg fun h => h.2 rfl).symm

theorem slotStores_retireStores_other {claimed : Table} {ehash : UInt64}
    {victim : Option ℕ} {slot : ℕ} (hslot : victim ≠ some slot) :
    slotStores (retireStores claimed ehash victim) slot = [] := by
  cases victim with
  | none => rfl
  | some victim =>
      have hne : victim ≠ slot := fun heq => hslot (congrArg some heq)
      rw [retireStores, slotStores_cons_other hne, slotStores_cons_other hne,
        slotStores_cons_sidecar, slotStores_nil]

theorem lawful_claim {idx : ℕ} (hdead : ¬ (table.entries idx).Live) {fresh : Entry}
    (hzero : fresh.weight = 0) (hkeyed : KeyedAs keyedHash table fresh) (hlive : fresh.Live)
    (stale final : Entry) {field : Field}
    (hfinal : field = .weight ∨ field = .keyHash ∧ ¬ final.Live) :
    Lawful keyedHash table (.settled (table.entries idx)) (table.entries idx)
      ((.keyHash, fresh) :: slotStores (fillStores idx stale fresh) idx ++
        [(field, final)]) := by
  have hstage : Stage.settled (table.entries idx) = .free := if_neg hdead
  rw [hstage]
  simp only [fillStores, slotStores_append, slotStores_storeFields_same,
    slotStores_cons_same, fillOrder, lockedOrder, List.map_cons, List.map_nil,
    List.cons_append, List.nil_append, Lawful, Stage.Allows, Stage.after, Field.copy,
    if_pos hlive, hzero, true_and]
  refine ⟨hlive, ?_⟩
  rcases hfinal with rfl | ⟨rfl, hdead⟩
  · refine ⟨⟨hkeyed.key_eq, hkeyed.ordered⟩, ?_⟩
    exact (if_pos hlive).symm
  · refine ⟨hdead, ?_⟩
    simp only [if_neg hdead]
    exact (if_neg hdead).symm

section NewStores

variable {ehash : UInt64} {key : List UInt8} {tLo tHi : UInt32} {w : Witnesses}
  {victim : Option ℕ} {idx : ℕ}

/-- What a new edge stores into the slot which it claims. -/
theorem lawful_newStores_claimed (hordered : tLo < tHi)
    (hcap : capDecision table ehash w.delta = some victim)
    (hclaim : claimSlot table (slotHashOf keyedHash table ehash tLo tHi) = some idx) :
    Lawful keyedHash table (.settled (table.entries idx)) (table.entries idx)
      (slotStores (newStores table (slotHashOf keyedHash table ehash tLo tHi) ehash key
        tLo tHi w) idx) := by
  simp only [newStores, hcap, hclaim]
  generalize hfresh : claimedEntry table.header (table.entries idx)
    (slotHashOf keyedHash table ehash tLo tHi) ehash key tLo tHi w = fresh
  have hkeyed : KeyedAs keyedHash table fresh := by
    rw [← hfresh]
    exact ⟨rfl, hordered⟩
  have hlive : fresh.Live := by
    rw [Entry.Live, hkeyed.key_eq]
    exact slotHashOf_ne_sentinel _ _ _ _ _
  have hzero : fresh.weight = 0 := by rw [← hfresh]; rfl
  have hvictim : victim ≠ some idx := by
    rintro rfl
    exact claimed_ne_victim hclaim hcap rfl
  rw [slotStores_cons_same, slotStores_append, slotStores_append,
    slotStores_retireStores_other hvictim, List.nil_append, slotStores_cons_sidecar]
  have hfree := (claimSlot_some hclaim).2
  split_ifs
  · rw [slotStores_cons_same, slotStores_nil]
    exact lawful_claim hfree hzero hkeyed hlive _ _ (.inl rfl)
  · rw [slotStores_cons_same, slotStores_nil]
    exact lawful_claim hfree hzero hkeyed hlive _ _ (.inr ⟨rfl, fun h => h.2 rfl⟩)

/-- Into every other slot a new edge stores at most the retirement of its victim. -/
theorem lawful_newStores_other {slot : ℕ} (hslot : idx ≠ slot)
    (hcap : capDecision table ehash w.delta = some victim)
    (hclaim : claimSlot table (slotHashOf keyedHash table ehash tLo tHi) = some idx) :
    Lawful keyedHash table (.settled (table.entries slot)) (table.entries slot)
      (slotStores (newStores table (slotHashOf keyedHash table ehash tLo tHi) ehash key
        tLo tHi w) slot) := by
  simp only [newStores, hcap, hclaim]
  generalize claimedEntry table.header (table.entries idx)
    (slotHashOf keyedHash table ehash tLo tHi) ehash key tLo tHi w = fresh
  have hfill : slotStores (fillStores idx (table.entries idx) fresh) slot = [] := by
    rw [fillStores, slotStores_append, slotStores_storeFields_other hslot,
      slotStores_cons_other hslot, slotStores_storeFields_other hslot, List.nil_append]
  have hend : slotStores [if (occAddSlot (fillClaimed table idx victim
      (slotHashOf keyedHash table ehash tLo tHi) ehash fresh) ehash idx).1 = true
      then Store.entry idx .weight { fresh with weight := w.delta }
      else .entry idx .keyHash { fresh with keyHash := slotTombstone }] slot = [] := by
    split_ifs
    · exact slotStores_cons_other hslot _ _ []
    · exact slotStores_cons_other hslot _ _ []
  rw [slotStores_cons_other hslot, slotStores_append, slotStores_append, hfill,
    slotStores_cons_sidecar, hend, List.append_nil, List.append_nil]
  by_cases hvictim : victim = some slot
  · subst hvictim
    have hvictimLive := (mem_edges.mp (capDecision_victim hcap).1).2.1
    have hsame : (table.setEntry idx { table.entries idx with
        keyHash := slotHashOf keyedHash table ehash tLo tHi }).entries slot =
          table.entries slot := by
      rw [setEntry_entries, Function.update_of_ne (Ne.symm hslot)]
    rw [← hsame]
    exact lawful_retireStores rfl (by rw [hsame]; exact hvictimLive)
  · rw [slotStores_retireStores_other hvictim]
    exact lawful_nil _

end NewStores

theorem lawful_newStores {ehash : UInt64} (key : List UInt8) {tLo tHi : UInt32}
    (hordered : tLo < tHi) (w : Witnesses) (slot : ℕ) :
    Lawful keyedHash table (.settled (table.entries slot)) (table.entries slot)
      (slotStores (newStores table (slotHashOf keyedHash table ehash tLo tHi) ehash key
        tLo tHi w) slot) := by
  cases hcap : capDecision table ehash w.delta with
  | none =>
      simp only [newStores, hcap]
      exact lawful_nil _
  | some victim =>
      cases hclaim : claimSlot table (slotHashOf keyedHash table ehash tLo tHi) with
      | none =>
          simp only [newStores, hcap, hclaim]
          exact lawful_nil _
      | some idx =>
          by_cases hslot : idx = slot
          · subst hslot
            exact lawful_newStores_claimed hordered hcap hclaim
          · exact lawful_newStores_other hslot hcap hclaim

theorem lawful_edgeStores (hlinked : Linked keyedHash table) (ehash : UInt64)
    (key : List UInt8) {tLo tHi : UInt32} (hordered : tLo < tHi) (w : Witnesses) (slot : ℕ) :
    Lawful keyedHash table (.settled (table.entries slot)) (table.entries slot)
      (slotStores (edgeStores keyedHash table ehash key tLo tHi w) slot) := by
  simp only [edgeStores]
  cases hfind : findSlot table (slotHashOf keyedHash table ehash tLo tHi) with
  | some idx =>
      have hne := slotHashOf_ne_sentinel keyedHash table ehash tLo tHi
      apply lawful_existingStores
      rw [Entry.Live, (hlinked.findSlot_eq_some_iff hne.1 hne.2).mp hfind]
      exact hne
  | none => exact lawful_newStores key hordered w slot

/-! ## Decay -/

/-- The stores of a decay pass into one entry. -/
def decaySlot (h : Header) (entry : Entry) : List (Field × Entry) :=
  if ¬ entry.Live then []
  else if decayedWeight h entry < h.noiseFloor then
    [(.keyHash, { entry with keyHash := slotTombstone })]
  else [(.weight, { entry with weight := decayedWeight h entry })]

theorem slotStores_decayEntryStores_same (table : Table) (slot : ℕ) :
    slotStores (decayEntryStores table slot) slot =
      decaySlot table.header (table.entries slot) := by
  simp only [decayEntryStores, decaySlot]
  split_ifs <;> simp

theorem slotStores_decayEntryStores_other (table : Table) {idx slot : ℕ}
    (hne : idx ≠ slot) : slotStores (decayEntryStores table idx) slot = [] := by
  simp only [decayEntryStores]
  split_ifs <;> simp [slotStores_cons_other hne]

/-- A decay pass stores into the entries which it has yet to visit. -/
theorem slotStores_decayLoopStores (table : Table) {listed : List ℕ} (hnodup : listed.Nodup)
    (slot : ℕ) :
    slotStores (decayLoopStores table listed) slot =
      if slot ∈ listed then decaySlot table.header (table.entries slot) else [] := by
  induction listed generalizing table with
  | nil => rfl
  | cons idx rest ih =>
      rw [List.nodup_cons] at hnodup
      have hrest := ih (decayStep (table, 0) idx).1 hnodup.2
      rw [decayStep_header, decayStep_entries] at hrest
      rw [decayLoopStores, slotStores_append, hrest]
      by_cases hslot : idx = slot
      · subst hslot
        rw [slotStores_decayEntryStores_same, if_neg hnodup.1, List.append_nil,
          if_pos List.mem_cons_self]
      · rw [slotStores_decayEntryStores_other table hslot, List.nil_append,
          Function.update_of_ne (Ne.symm hslot)]
        simp [Ne.symm hslot]

theorem lawful_decaySlot (h : Header) (entry : Entry) :
    Lawful keyedHash table (.settled entry) entry (decaySlot h entry) := by
  unfold decaySlot
  split_ifs with hlive hnoise
  · rw [Stage.settled, if_pos hlive]
    simp only [Lawful, Stage.Allows, Stage.after, Field.copy]
    refine ⟨fun h => h.2 rfl, ?_⟩
    rw [if_neg fun h => h.2 rfl]
    exact (if_neg fun h => h.2 rfl).symm
  · rw [Stage.settled, if_pos hlive]
    simp only [Lawful, Stage.Allows, Stage.after, Field.copy, true_and]
    exact (if_pos hlive).symm
  · exact lawful_nil _

theorem lawful_decayStores (slot : ℕ) :
    Lawful keyedHash table (.settled (table.entries slot)) (table.entries slot)
      (slotStores (decayStores table) slot) := by
  have hslot := slotStores_decayLoopStores (zeroSidecar table)
    (List.nodup_range (n := table.header.capacity)) slot
  rw [decayStores, slotStores_cons_sidecar]
  refine hslot ▸ ?_
  split_ifs
  · exact lawful_decaySlot _ _
  · exact lawful_nil _

end Lawful

end Tac
end LibWake
