import LibWake.OpenAddressing
import LibWake.SlotPass
import LibWake.PheromoneModel

/-!
# The pheromone table as a finite map

The table instantiates open addressing with its own probe windows.  In every
sequentially reachable state the probe loops decide membership, and each call
changes the one slot which belongs to its key.
-/

namespace LibWake
namespace Pheromone

open OpenAddressing SlotPass

variable {Entity : Type}

/-! ## Headers and windows -/

/-- The mask belongs to the capacity. -/
structure Header.Sound (h : Header) : Prop where
  capacity_pos : 0 < h.capacity.toNat
  mask_eq : h.mask = UInt64.ofNat (h.capacity.toNat - 1)

theorem create_eq_some [Inhabited Entity] {cfg : Option Config} {clock : UInt32}
    {hashKey : List UInt8} {table : Table Entity}
    (hcreate : create cfg clock hashKey = some table) :
    table.header.Sound ∧ table.entries = fun _ => Entry.zero := by
  unfold create at hcreate
  simp only at hcreate
  generalize (if (cfg.getD {}).capacity ≠ 0 then (cfg.getD {}).capacity
    else defaultCapacity) = capacity at hcreate
  by_cases hpower : isPowerOf2 capacity.toNat = true
  · simp only [hpower, Bool.not_true, Bool.false_eq_true, if_false,
      Option.some.injEq] at hcreate
    subst hcreate
    exact ⟨⟨pos_of_isPowerOf2 hpower, rfl⟩, rfl⟩
  · simp [hpower] at hcreate

theorem lt_of_mem_probeWindow {h : Header} (hsound : h.Sound) {key : UInt64}
    {idx : ℕ} (hmem : idx ∈ probeWindow h key) : idx < h.capacity.toNat := by
  obtain ⟨p, _, rfl⟩ := List.mem_map.mp hmem
  unfold probeIdx
  rw [hsound.mask_eq]
  have hcapacity := h.capacity.toNat_lt
  exact toNat_and_ofNat_pred_lt _ hsound.capacity_pos (by omega)

theorem mem_probeWindow {h : Header} {key : UInt64} {idx : ℕ} :
    idx ∈ probeWindow h key ↔ ∃ p < probeMax, probeIdx h key p = idx := by
  simp [probeWindow]

theorem entityKeyHash_ne_sentinel (entityHash : Entity → UInt64) (entity : Entity) :
    entityKeyHash entityHash entity ≠ slotEmpty ∧
      entityKeyHash entityHash entity ≠ slotTombstone := by
  simp only [entityKeyHash]
  split_ifs with hsentinel
  · rcases hsentinel with hempty | htomb
    · rw [hempty]
      decide
    · rw [htomb]
      decide
  · exact not_or.mp hsentinel

/-! ## The slots -/

/-- The entries as an open-addressed table. -/
def tagSlots (entries : ℕ → Entry Entity) (idx : ℕ) : Slot UInt64 :=
  Slot.ofTag slotEmpty slotTombstone (entries idx).keyHash

theorem tagSlots_eq_live_iff {entries : ℕ → Entry Entity} {idx : ℕ} {key : UInt64} :
    tagSlots entries idx = .live key ↔
      (entries idx).keyHash = key ∧ (entries idx).Live := by
  unfold tagSlots
  rw [Slot.ofTag_eq_live_iff]
  exact Iff.rfl

theorem tagSlots_isFree_iff {entries : ℕ → Entry Entity} {idx : ℕ} :
    (tagSlots entries idx).isFree = true ↔ ¬ (entries idx).Live := by
  unfold tagSlots Entry.Live
  rw [Slot.isFree_ofTag]
  tauto

theorem tagSlots_update (entries : ℕ → Entry Entity) (idx : ℕ) (entry : Entry Entity) :
    tagSlots (Function.update entries idx entry) =
      Function.update (tagSlots entries) idx
        (Slot.ofTag slotEmpty slotTombstone entry.keyHash) :=
  Function.comp_update (fun stored : Entry Entity =>
    Slot.ofTag slotEmpty slotTombstone stored.keyHash) entries idx entry

theorem tagSlots_rewrite {entries : ℕ → Entry Entity} {idx : ℕ} {entry : Entry Entity}
    (hkey : entry.keyHash = (entries idx).keyHash) :
    tagSlots (Function.update entries idx entry) = tagSlots entries := by
  rw [tagSlots_update, hkey]
  exact Function.update_eq_self idx _

theorem tagSlots_setEntry (table : Table Entity) (idx : ℕ) (entry : Entry Entity) :
    tagSlots (table.setEntry idx entry).entries =
      Function.update (tagSlots table.entries) idx
        (Slot.ofTag slotEmpty slotTombstone entry.keyHash) :=
  tagSlots_update table.entries idx entry

/-- The slots are well probed in the windows of the header. -/
structure WellFormed (table : Table Entity) : Prop where
  sound : table.header.Sound
  wellProbed : WellProbed (probeWindow table.header) (tagSlots table.entries)

/-! ## The probe loops -/

theorem probeKeyIn_eq_probeTag (entries : ℕ → Entry Entity) (key : UInt64)
    (window : List ℕ) :
    probeKeyIn entries key window =
      probeTag slotEmpty (fun idx => (entries idx).keyHash) key window := by
  induction window with
  | nil => rfl
  | cons idx rest ih => simp only [probeKeyIn, probeTag, ih]

theorem probeKeyIn_eq (entries : ℕ → Entry Entity) {key : UInt64}
    (hempty : key ≠ slotEmpty) (htomb : key ≠ slotTombstone) (window : List ℕ) :
    probeKeyIn entries key window = probeFind (tagSlots entries) key window := by
  rw [probeKeyIn_eq_probeTag]
  exact probeTag_eq_probeFind hempty htomb _ _

theorem keyHash_of_probeKeyIn {entries : ℕ → Entry Entity} {key : UInt64}
    (hempty : key ≠ slotEmpty) (htomb : key ≠ slotTombstone) {window : List ℕ} {idx : ℕ}
    (hprobe : probeKeyIn entries key window = some idx) : (entries idx).keyHash = key := by
  rw [probeKeyIn_eq _ hempty htomb] at hprobe
  exact (tagSlots_eq_live_iff.mp (probeFind_some_mem hprobe).2).1

/-- `pht_insert` finds the key as a search does, and otherwise stops with the
first free slot of the window. -/
theorem insertProbe_eq (entries : ℕ → Entry Entity) {key : UInt64}
    (hempty : key ≠ slotEmpty) (htomb : key ≠ slotTombstone)
    (window : List ℕ) (first : Option ℕ) :
    (insertProbe entries key window first).1 =
        probeFind (tagSlots entries) key window ∧
      (probeFind (tagSlots entries) key window = none →
        (insertProbe entries key window first).2 =
          first.or (probeFree (tagSlots entries) window)) := by
  induction window generalizing first with
  | nil =>
      refine ⟨rfl, fun _ => ?_⟩
      simp [insertProbe, probeFree]
  | cons idx rest ih =>
      unfold insertProbe probeFind probeFree
      rw [List.find?_cons]
      unfold probeFree at ih
      by_cases hkey : (entries idx).keyHash = key
      · simp [tagSlots, Slot.ofTag, hkey, hempty, htomb]
      · by_cases hfree : (entries idx).keyHash = slotEmpty
        · simp [tagSlots, Slot.ofTag, Slot.isFree, hfree, Ne.symm hempty]
        · by_cases hbury : (entries idx).keyHash = slotTombstone
          · have hthis := ih (first.or (some idx))
            have hor : (first.or (some idx)).or
                (rest.find? fun other => (tagSlots entries other).isFree) =
                  first.or (some idx) := by
              cases first <;> rfl
            rw [hor] at hthis
            simpa [tagSlots, Slot.ofTag, Slot.isFree, hbury, Ne.symm htomb,
              show slotTombstone ≠ slotEmpty by decide] using hthis
          · simpa [tagSlots, Slot.ofTag, Slot.isFree, hkey, hfree, hbury]
              using ih first

namespace WellFormed

variable {table : Table Entity} {entityHash : Entity → UInt64} {entity : Entity}

theorem probeKey_eq_some_iff (hgood : WellFormed table) {idx : ℕ} :
    probeKey table (entityKeyHash entityHash entity) = some idx ↔
      (table.entries idx).keyHash = entityKeyHash entityHash entity := by
  obtain ⟨hempty, htomb⟩ := entityKeyHash_ne_sentinel entityHash entity
  rw [probeKey, probeKeyIn_eq _ hempty htomb,
    hgood.wellProbed.probeFind_eq_some_iff, tagSlots_eq_live_iff]
  constructor
  · exact fun h => h.1
  · intro heq
    exact ⟨heq, by rw [Entry.Live, heq]; exact ⟨hempty, htomb⟩⟩

theorem probeKey_eq_none_iff (hgood : WellFormed table) :
    probeKey table (entityKeyHash entityHash entity) = none ↔
      ∀ idx, (table.entries idx).keyHash ≠ entityKeyHash entityHash entity := by
  constructor
  · intro hnone idx heq
    rw [hgood.probeKey_eq_some_iff.mpr heq] at hnone
    contradiction
  · intro habsent
    cases hprobe : probeKey table (entityKeyHash entityHash entity) with
    | none => rfl
    | some idx => exact absurd (hgood.probeKey_eq_some_iff.mp hprobe) (habsent idx)

/-- The two ways in which an insertion can find the table: the key is live, or
it is absent and the first free slot of its window, if any, is on offer. -/
theorem insertProbe_cases (hgood : WellFormed table)
    (entityHash : Entity → UInt64) (entity : Entity) :
    (∃ idx first, insertProbe table.entries (entityKeyHash entityHash entity)
        (probeWindow table.header (entityKeyHash entityHash entity)) none =
          (some idx, first) ∧
        (table.entries idx).keyHash = entityKeyHash entityHash entity) ∨
      insertProbe table.entries (entityKeyHash entityHash entity)
          (probeWindow table.header (entityKeyHash entityHash entity)) none =
            (none, probeFree (tagSlots table.entries)
              (probeWindow table.header (entityKeyHash entityHash entity))) ∧
        ∀ idx, (table.entries idx).keyHash ≠ entityKeyHash entityHash entity := by
  obtain ⟨hempty, htomb⟩ := entityKeyHash_ne_sentinel entityHash entity
  obtain ⟨hfound, hfirst⟩ := insertProbe_eq table.entries hempty htomb
    (probeWindow table.header (entityKeyHash entityHash entity)) none
  have hprobe : probeKey table (entityKeyHash entityHash entity) =
      probeFind (tagSlots table.entries) (entityKeyHash entityHash entity)
        (probeWindow table.header (entityKeyHash entityHash entity)) :=
    probeKeyIn_eq _ hempty htomb _
  cases hresult : insertProbe table.entries (entityKeyHash entityHash entity)
      (probeWindow table.header (entityKeyHash entityHash entity)) none with
  | mk found first =>
      rw [hresult] at hfound hfirst
      simp only at hfound hfirst
      cases found with
      | some idx =>
          exact Or.inl ⟨idx, first, rfl,
            hgood.probeKey_eq_some_iff.mp (hprobe.trans hfound.symm)⟩
      | none =>
          refine Or.inr ⟨?_, hgood.probeKey_eq_none_iff.mp (hprobe.trans hfound.symm)⟩
          rw [hfirst hfound.symm]
          rfl

end WellFormed

/-! ## What a deposit does -/

/-- The three outcomes of `phtInsert`: the slot of the key is updated, the
first free slot of the window is claimed, or the window is full. -/
inductive InsertStep (entityHash : Entity → UInt64) (table : Table Entity)
    (deposit : Deposit Entity) : Table Entity × UInt32 → Prop
  | updated (idx : ℕ)
      (hkey : (table.entries idx).keyHash = entityKeyHash entityHash deposit.entity) :
      InsertStep entityHash table deposit
        (table.setEntry idx (reinforcedEntry (table.entries idx) deposit
          (relativeTime table.header deposit.clock)),
          (table.entries idx).confidence + deposit.delta)
  | claimed (idx : ℕ)
      (habsent : ∀ other, (table.entries other).keyHash ≠
        entityKeyHash entityHash deposit.entity)
      (hfree : probeFree (tagSlots table.entries)
        (probeWindow table.header (entityKeyHash entityHash deposit.entity)) =
          some idx) :
      InsertStep entityHash table deposit
        (table.setEntry idx (claimedEntry (table.entries idx)
          (entityKeyHash entityHash deposit.entity) deposit
          (relativeTime table.header deposit.clock)), deposit.delta)
  | full
      (habsent : ∀ other, (table.entries other).keyHash ≠
        entityKeyHash entityHash deposit.entity)
      (hfull : probeFree (tagSlots table.entries)
        (probeWindow table.header (entityKeyHash entityHash deposit.entity)) = none) :
      InsertStep entityHash table deposit (table, 0)

theorem phtInsert_insertStep {table : Table Entity} (hgood : WellFormed table)
    (entityHash : Entity → UInt64) (deposit : Deposit Entity) :
    InsertStep entityHash table deposit (phtInsert entityHash table deposit) := by
  unfold phtInsert
  simp only
  rcases hgood.insertProbe_cases entityHash deposit.entity with
    ⟨idx, first, hprobe, hkey⟩ | ⟨hprobe, habsent⟩
  · rw [hprobe]
    exact .updated idx hkey
  · rw [hprobe]
    cases hfree : probeFree (tagSlots table.entries)
        (probeWindow table.header (entityKeyHash entityHash deposit.entity)) with
    | none => exact .full habsent hfree
    | some idx => exact .claimed idx habsent hfree

/-! ## Every call keeps the table well formed -/

theorem create_wellFormed [Inhabited Entity] {cfg : Option Config} {clock : UInt32}
    {hashKey : List UInt8} {table : Table Entity}
    (hcreate : create cfg clock hashKey = some table) : WellFormed table := by
  obtain ⟨hsound, hentries⟩ := create_eq_some hcreate
  refine ⟨hsound, WellProbed.of_no_live fun idx key hlive => ?_⟩
  rw [tagSlots_eq_live_iff, hentries] at hlive
  exact hlive.2.1 rfl

namespace WellFormed

variable {table : Table Entity}

theorem rewrite (hgood : WellFormed table) {idx : ℕ} {entry : Entry Entity}
    (hkey : entry.keyHash = (table.entries idx).keyHash) :
    WellFormed (table.setEntry idx entry) := by
  have hsame : tagSlots (table.setEntry idx entry).entries = tagSlots table.entries :=
    tagSlots_rewrite hkey
  refine ⟨hgood.sound, ?_⟩
  rw [hsame]
  exact hgood.wellProbed

theorem insert (hgood : WellFormed table) (entityHash : Entity → UInt64)
    (deposit : Deposit Entity) :
    WellFormed (phtInsert entityHash table deposit).1 := by
  have hstep := phtInsert_insertStep hgood entityHash deposit
  generalize phtInsert entityHash table deposit = outcome at hstep
  cases hstep with
  | updated idx hkey => exact hgood.rewrite rfl
  | claimed idx habsent hfree =>
      obtain ⟨hempty, htomb⟩ := entityKeyHash_ne_sentinel entityHash deposit.entity
      refine ⟨hgood.sound, ?_⟩
      rw [tagSlots_setEntry]
      have hlive : Slot.ofTag slotEmpty slotTombstone
          (claimedEntry (table.entries idx)
            (entityKeyHash entityHash deposit.entity) deposit
            (relativeTime table.header deposit.clock)).keyHash =
              .live (entityKeyHash entityHash deposit.entity) :=
        Slot.ofTag_eq_live_iff.mpr ⟨rfl, hempty, htomb⟩
      rw [hlive]
      apply hgood.wellProbed.claim _ hfree
      intro other hother
      exact habsent other (tagSlots_eq_live_iff.mp hother).1
  | full => exact hgood

theorem remove (hgood : WellFormed table) (entityHash : Entity → UInt64)
    (entity : Entity) : WellFormed (remove entityHash table entity).1 := by
  unfold Pheromone.remove
  cases probeKey table (entityKeyHash entityHash entity) with
  | none => exact hgood
  | some idx =>
      refine ⟨hgood.sound, hgood.wellProbed.bury fun other => ?_⟩
      rw [tagSlots_setEntry]
      by_cases heq : other = idx
      · subst heq
        exact Or.inr (by rw [Function.update_self]; rfl)
      · exact Or.inl (Function.update_of_ne heq _ _)

theorem noteReason (hgood : WellFormed table) (entityHash : Entity → UInt64)
    (entity : Entity) (word : UInt64) :
    WellFormed (noteReason entityHash table entity word) := by
  unfold Pheromone.noteReason
  split_ifs
  · exact hgood
  · cases probeKey table (entityKeyHash entityHash entity) with
    | none => exact hgood
    | some idx => exact hgood.rewrite rfl

end WellFormed

/-! ## Decay -/

theorem decayStep_rewrites (h : Header) :
    Rewrites (fun state : Table Entity × ℕ => state.1.header = h)
      (fun state => state.1.entries) (decayedEntry h) decayStep where
  fixed _ _ hheader := hheader
  slots_step state idx hheader := by
    simp only [decayStep, Table.setEntry, hheader]

theorem decay_header (table : Table Entity) :
    (decay table).1.header = table.header :=
  (decayStep_rewrites table.header).fixed_foldl rfl _

theorem decay_entries (table : Table Entity) (idx : ℕ) :
    (decay table).1.entries idx =
      if idx < table.header.capacity.toNat then
        decayedEntry table.header (table.entries idx)
      else table.entries idx :=
  (decayStep_rewrites table.header).slots_foldl rfl _ idx

theorem performCall_header (entityHash : Entity → UInt64) (table : Table Entity)
    (call : Call Entity) : (performCall entityHash table call).header = table.header := by
  cases call with
  | insert deposit =>
      simp only [performCall, phtInsert]
      split <;> rfl
  | remove entity =>
      simp only [performCall, Pheromone.remove]
      split <;> rfl
  | noteReason entity word =>
      simp only [performCall, Pheromone.noteReason]
      split_ifs
      · rfl
      · split <;> rfl
  | decay => exact decay_header table

theorem decayedEntry_keyHash (h : Header) (entry : Entry Entity) :
    (decayedEntry h entry).keyHash = entry.keyHash ∨
      (decayedEntry h entry).keyHash = slotTombstone := by
  unfold decayedEntry
  split_ifs
  · exact Or.inr rfl
  · exact Or.inl rfl
  · exact Or.inl rfl

theorem WellFormed.decay {table : Table Entity} (hgood : WellFormed table) :
    WellFormed (decay table).1 := by
  refine ⟨by rw [decay_header]; exact hgood.sound, ?_⟩
  rw [decay_header]
  apply hgood.wellProbed.bury
  intro idx
  simp only [tagSlots, decay_entries]
  split_ifs
  · rcases decayedEntry_keyHash table.header (table.entries idx) with hsame | htomb
    · exact Or.inl (by rw [hsame])
    · exact Or.inr (by rw [htomb]; rfl)
  · exact Or.inl rfl

theorem WellFormed.performCall {table : Table Entity} (hgood : WellFormed table)
    (entityHash : Entity → UInt64) (call : Call Entity) :
    WellFormed (performCall entityHash table call) := by
  cases call with
  | insert deposit => exact hgood.insert entityHash deposit
  | remove entity => exact hgood.remove entityHash entity
  | noteReason entity word => exact hgood.noteReason entityHash entity word
  | decay => exact hgood.decay

theorem reachable_wellFormed [Inhabited Entity] {entityHash : Entity → UInt64}
    {table : Table Entity} (hreach : (sequential entityHash).Reachable table) :
    WellFormed table := by
  apply hreach.invariant
  · rintro state ⟨cfg, clock, hashKey, hcreate⟩
    exact create_wellFormed hcreate
  · intro state call next hgood hstep
    simp only [sequential, Option.some.injEq] at hstep
    subst hstep
    exact hgood.performCall entityHash call

/-! ## The finite map -/

/-- The table is a finite map from key hashes to entries, and the calls act on
it as on one. -/
structure FiniteMap (entityHash : Entity → UInt64) (table : Table Entity) : Prop where
  unique : ∀ idx other, (table.entries idx).Live →
    (table.entries idx).keyHash = (table.entries other).keyHash → idx = other
  near_home : ∀ idx, (table.entries idx).Live →
    idx < table.header.capacity.toNat ∧
      ∃ p < probeMax, probeIdx table.header (table.entries idx).keyHash p = idx
  lookup_live : ∀ entity idx,
    (table.entries idx).keyHash = entityKeyHash entityHash entity →
    lookup entityHash table entity = (table.entries idx).confidence
  lookup_absent : ∀ entity,
    (∀ idx, (table.entries idx).keyHash ≠ entityKeyHash entityHash entity) →
    lookup entityHash table entity = 0
  remove_live : ∀ entity idx,
    (table.entries idx).keyHash = entityKeyHash entityHash entity →
    remove entityHash table entity = (table.setEntry idx
      { table.entries idx with keyHash := slotTombstone }, true)
  remove_absent : ∀ entity,
    (∀ idx, (table.entries idx).keyHash ≠ entityKeyHash entityHash entity) →
    remove entityHash table entity = (table, false)
  insert_own_slot : ∀ (deposit : Deposit Entity) idx,
    (phtInsert entityHash table deposit).1.entries idx ≠ table.entries idx →
    ((phtInsert entityHash table deposit).1.entries idx).keyHash =
        entityKeyHash entityHash deposit.entity ∧
      ((table.entries idx).keyHash = entityKeyHash entityHash deposit.entity ∨
        ¬ (table.entries idx).Live)
  insert_noop_iff : ∀ deposit : Deposit Entity,
    (phtInsert entityHash table deposit).1 = table ↔
      (∀ idx, (table.entries idx).keyHash ≠
        entityKeyHash entityHash deposit.entity) ∧
      ∀ p < probeMax, (table.entries (probeIdx table.header
        (entityKeyHash entityHash deposit.entity) p)).Live

namespace WellFormed

variable {table : Table Entity}

theorem insert_own_slot (hgood : WellFormed table) (entityHash : Entity → UInt64)
    (deposit : Deposit Entity) {idx : ℕ}
    (hchanged : (phtInsert entityHash table deposit).1.entries idx ≠
      table.entries idx) :
    ((phtInsert entityHash table deposit).1.entries idx).keyHash =
        entityKeyHash entityHash deposit.entity ∧
      ((table.entries idx).keyHash = entityKeyHash entityHash deposit.entity ∨
        ¬ (table.entries idx).Live) := by
  have hstep := phtInsert_insertStep hgood entityHash deposit
  generalize phtInsert entityHash table deposit = outcome at hstep hchanged ⊢
  cases hstep with
  | updated slot hkey =>
      have heq : idx = slot := by
        by_contra hne
        exact hchanged (Function.update_of_ne hne _ _)
      subst heq
      simp only [Table.setEntry, Function.update_self]
      exact ⟨hkey, Or.inl hkey⟩
  | claimed slot habsent hfree =>
      have heq : idx = slot := by
        by_contra hne
        exact hchanged (Function.update_of_ne hne _ _)
      subst heq
      simp only [Table.setEntry, Function.update_self]
      exact ⟨rfl, Or.inr (tagSlots_isFree_iff.mp (probeFree_some_isFree hfree))⟩
  | full => exact absurd rfl hchanged

theorem insert_noop_iff (hgood : WellFormed table) (entityHash : Entity → UInt64)
    (deposit : Deposit Entity) :
    (phtInsert entityHash table deposit).1 = table ↔
      (∀ idx, (table.entries idx).keyHash ≠
        entityKeyHash entityHash deposit.entity) ∧
      ∀ p < probeMax, (table.entries (probeIdx table.header
        (entityKeyHash entityHash deposit.entity) p)).Live := by
  have hstep := phtInsert_insertStep hgood entityHash deposit
  generalize phtInsert entityHash table deposit = outcome at hstep ⊢
  cases hstep with
  | updated slot hkey =>
      constructor
      · intro hsame
        have hhits := congrArg (fun t => (t.entries slot).hitCount) hsame
        simp only [Table.setEntry, Function.update_self, reinforcedEntry] at hhits
        exact absurd hhits (by simp)
      · rintro ⟨habsent, _⟩
        exact absurd hkey (habsent slot)
  | claimed slot habsent hfree =>
      constructor
      · intro hsame
        have hkeys := congrArg (fun t => (t.entries slot).keyHash) hsame
        simp only [Table.setEntry, Function.update_self, claimedEntry] at hkeys
        exact absurd hkeys.symm (habsent slot)
      · rintro ⟨_, hlive⟩
        obtain ⟨p, hp, heq⟩ := mem_probeWindow.mp (probeFree_some_mem hfree)
        have hdead := tagSlots_isFree_iff.mp (probeFree_some_isFree hfree)
        exact absurd (heq ▸ hlive p hp) hdead
  | full habsent hfull =>
      refine ⟨fun _ => ⟨habsent, fun p hp => ?_⟩, fun _ => rfl⟩
      obtain ⟨held, hheld⟩ := probeFree_eq_none_iff.mp hfull _
        (mem_probeWindow.mpr ⟨p, hp, rfl⟩)
      exact (tagSlots_eq_live_iff.mp hheld).2

theorem finiteMap (hgood : WellFormed table) (entityHash : Entity → UInt64) :
    FiniteMap entityHash table where
  unique idx other hlive hkeys := by
    apply hgood.wellProbed.unique idx other (table.entries idx).keyHash
    · exact tagSlots_eq_live_iff.mpr ⟨rfl, hlive⟩
    · rw [Entry.Live, hkeys] at hlive
      exact tagSlots_eq_live_iff.mpr ⟨hkeys.symm, hlive⟩
  near_home idx hlive := by
    have hmem := (hgood.wellProbed.chained idx _
      (tagSlots_eq_live_iff.mpr ⟨rfl, hlive⟩)).mem
    exact ⟨lt_of_mem_probeWindow hgood.sound hmem, mem_probeWindow.mp hmem⟩
  lookup_live entity idx hkey := by
    rw [lookup, hgood.probeKey_eq_some_iff.mpr hkey]
  lookup_absent entity habsent := by
    rw [lookup, hgood.probeKey_eq_none_iff.mpr habsent]
  remove_live entity idx hkey := by
    rw [Pheromone.remove, hgood.probeKey_eq_some_iff.mpr hkey]
  remove_absent entity habsent := by
    rw [Pheromone.remove, hgood.probeKey_eq_none_iff.mpr habsent]
  insert_own_slot deposit _ hchanged :=
    hgood.insert_own_slot entityHash deposit hchanged
  insert_noop_iff deposit := hgood.insert_noop_iff entityHash deposit

end WellFormed

/-- In every sequentially reachable state the table is a finite map. -/
theorem reachable_finiteMap [Inhabited Entity] (entityHash : Entity → UInt64)
    (table : Table Entity) (hreach : (sequential entityHash).Reachable table) :
    FiniteMap entityHash table :=
  (reachable_wellFormed hreach).finiteMap entityHash

/-- Three entities with one home slot and two others; two of them are removed, and one of the
first three is reinforced. -/
def buryingCalls : List (Call ℕ) :=
  [5, 13, 21, 6, 40].map (fun entity => Call.insert ⟨entity, 0, 0, 0, 40, false, 0, 0⟩) ++
    [.remove 13, .remove 6, .insert ⟨21, 0, 0, 0, 30, true, 0, 5⟩, .noteReason 5 0x105]

theorem reachable_finiteMap_buried :
    ∃ start table, create (some { capacity := 8 }) 0 [] = some start ∧
      (sequential fun n : ℕ => UInt64.ofNat n).run start buryingCalls = some table ∧
      FiniteMap (fun n : ℕ => UInt64.ofNat n) table ∧
      (List.range 8).map (fun idx => (table.entries idx).keyHash) =
        [slotTombstone, 40, slotEmpty, slotEmpty, slotEmpty, 5, slotTombstone, 21] := by
  have hcreate : create (some { capacity := 8 }) 0 [] = some (_ : Table ℕ) := rfl
  refine ⟨_, _, hcreate, rfl,
    reachable_finiteMap _ _ ⟨_, buryingCalls, ⟨_, _, _, hcreate⟩, rfl⟩, ?_⟩
  decide +kernel

/-- A fresh table of two slots. -/
def smallTable : Table ℕ where
  header := {
    magic := magicWord
    formatVersion := version
    capacity := 2
    mask := 1
    hashKey := []
    epoch := 0
    decayFactorFp16 := defaultDecayFp16
    noiseFloor := defaultNoiseFloor }
  entries := fun _ => Entry.zero

theorem create_smallTable :
    create (some { capacity := 2 }) 0 [] = some smallTable := rfl

end Pheromone
end LibWake
