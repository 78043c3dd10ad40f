import Mathlib.Algebra.BigOperators.Ring.Finset
import Mathlib.Order.Lattice.Nat
import LibWake.PheromoneDecay
import LibWake.PheromoneEvidence
import LibWake.PheromoneReasons
import LibWake.PheromoneTermination

/-!
# Statistics and walks over the pheromone table

What `wake_pheromone_stats` and `wake_pheromone_iterate` report of a table which no other process
writes, and how the statistics move along a sequential run.
-/

namespace LibWake
namespace Pheromone

open Checked OpenAddressing SlotPass

variable {Entity : Type}

/-! ## What there is to report -/

def liveSlots (table : Table Entity) : Finset ℕ :=
  (Finset.range table.header.capacity.toNat).filter fun idx => (table.entries idx).Live

def buriedSlots (table : Table Entity) : Finset ℕ :=
  (Finset.range table.header.capacity.toNat).filter fun idx =>
    (table.entries idx).keyHash = slotTombstone

/-- The number of probes in front of a slot in the window of the key which it holds. -/
def displacement (table : Table Entity) (idx : ℕ) : ℕ :=
  (probeWindow table.header (table.entries idx).keyHash).idxOf idx

/-- The statistics are the true ones. -/
structure Describes (out : Stats) (table : Table Entity) : Prop where
  capacity : out.capacity = table.header.capacity
  occupied : out.occupied.toNat = (liveSlots table).card
  tombstones : out.tombstones.toNat = (buriedSlots table).card
  totalConfidence : out.totalConfidence.toNat =
    ∑ idx ∈ liveSlots table, (table.entries idx).confidence.toNat
  maxProbeLen : out.maxProbeLen.toNat = (liveSlots table).sup (displacement table)

/-! ## Probe lengths -/

theorem create_capacity_pow [Inhabited Entity] {cfg : Option Config} {clock : UInt32}
    {hashKey : List UInt8} {table : Table Entity}
    (hcreate : create cfg clock hashKey = some table) :
    ∃ k, table.header.capacity.toNat = 2 ^ k := by
  unfold create at hcreate
  simp only at hcreate
  generalize (if (cfg.getD {}).capacity ≠ 0 then (cfg.getD {}).capacity
    else defaultCapacity) = capacity at hcreate
  by_cases hpower : isPowerOf2 capacity.toNat = true
  · simp only [hpower, Bool.not_true, Bool.false_eq_true, if_false,
      Option.some.injEq] at hcreate
    subst hcreate
    exact exists_pow_of_isPowerOf2 hpower
  · simp [hpower] at hcreate

theorem reachable_capacity_pow [Inhabited Entity] {entityHash : Entity → UInt64}
    {table : Table Entity} (hreach : (sequential entityHash).Reachable table) :
    ∃ k, table.header.capacity.toNat = 2 ^ k := by
  obtain ⟨start, calls, ⟨cfg, clock, hashKey, hcreate⟩, hrun⟩ := hreach
  rw [run_header hrun]
  exact create_capacity_pow hcreate

section Probes

variable {h : Header} {k : ℕ}

theorem lt_of_capacity_pow (hpow : h.capacity.toNat = 2 ^ k) : k < 32 := by
  have hwidth := h.capacity.toNat_lt
  rw [hpow] at hwidth
  exact (Nat.pow_lt_pow_iff_right (by decide)).mp hwidth

theorem homeSlot_toNat (hsound : h.Sound) (hpow : h.capacity.toNat = 2 ^ k) (key : UInt64) :
    (homeSlot h key).toNat = key.toNat % 2 ^ k := by
  have hk := lt_of_capacity_pow hpow
  rw [homeSlot, hsound.mask_eq, hpow, toNat_and_ofNat_pred_eq_mod key (by omega)]

theorem probeIdx_eq_mod (hsound : h.Sound) (hpow : h.capacity.toNat = 2 ^ k) (key : UInt64)
    {p : ℕ} (hp : p < probeMax) : probeIdx h key p = (key.toNat % 2 ^ k + p) % 2 ^ k := by
  have hk := lt_of_capacity_pow hpow
  have hhome : (key &&& h.mask).toNat = key.toNat % 2 ^ k := homeSlot_toNat hsound hpow key
  have hwidth : 2 ^ k < 2 ^ 32 := Nat.pow_lt_pow_right (by decide) hk
  have hlt : key.toNat % 2 ^ k < 2 ^ k := Nat.mod_lt _ (Nat.two_pow_pos k)
  have hsum : ((key &&& h.mask) + UInt64.ofNat p).toNat = key.toNat % 2 ^ k + p := by
    have hprobe : p < 8 := hp
    rw [UInt64.toNat_add, hhome, UInt64.toNat_ofNat', Nat.mod_eq_of_lt (by omega : p < 2 ^ 64),
      Nat.mod_eq_of_lt (by omega)]
  have hmask : h.mask = UInt64.ofNat (2 ^ k - 1) := by rw [hsound.mask_eq, hpow]
  rw [probeIdx, hmask, toNat_and_ofNat_pred_eq_mod _ (by omega), ← hmask, hsum]

/-- The subtraction of the code, in the natural numbers. -/
theorem probeLen_toNat (hsound : h.Sound) (hpow : h.capacity.toNat = 2 ^ k) (key : UInt64)
    {idx : ℕ} (hidx : idx < 2 ^ k) : (probeLen h (UInt64.ofNat idx) key).toNat =
      (idx + 2 ^ k - key.toNat % 2 ^ k) % 2 ^ k := by
  have hk := lt_of_capacity_pow hpow
  have hwidth : 2 ^ k < 2 ^ 32 := Nat.pow_lt_pow_right (by decide) hk
  have hhome := homeSlot_toNat hsound hpow key
  have hlt : key.toNat % 2 ^ k < 2 ^ k := Nat.mod_lt _ (Nat.two_pow_pos k)
  have hcapacity : h.capacity.toUInt64.toNat = 2 ^ k := by rw [UInt32.toNat_toUInt64, hpow]
  have hindex : (UInt64.ofNat idx).toNat = idx := by
    rw [UInt64.toNat_ofNat', Nat.mod_eq_of_lt (by omega)]
  generalize key.toNat % 2 ^ k = home at hhome hlt ⊢
  unfold probeLen
  by_cases hbehind : home ≤ idx
  · have hle : homeSlot h key ≤ UInt64.ofNat idx := by
      rw [UInt64.le_iff_toNat_le, hhome, hindex]
      exact hbehind
    have hlen : idx + 2 ^ k - home = idx - home + 2 ^ k := by omega
    have hsmall : (idx - home) % 2 ^ k = idx - home := Nat.mod_eq_of_lt (by omega)
    have hwhole : (idx - home) % 2 ^ 32 = idx - home := Nat.mod_eq_of_lt (by omega)
    rw [if_pos hle, UInt64.toNat_toUInt32, UInt64.toNat_sub_of_le _ _ hle, hhome, hindex, hlen,
      Nat.add_mod_right, hsmall, hwhole]
  · have hnot : ¬ UInt64.ofNat idx ≥ homeSlot h key := by
      rw [ge_iff_le, UInt64.le_iff_toNat_le, hhome, hindex]
      exact hbehind
    have hroom : homeSlot h key ≤ h.capacity.toUInt64 := by
      rw [UInt64.le_iff_toNat_le, hhome, hcapacity]
      exact hlt.le
    have hlen : idx + 2 ^ k - home = 2 ^ k - home + idx := by omega
    have hsmall : (2 ^ k - home + idx) % 2 ^ k = 2 ^ k - home + idx :=
      Nat.mod_eq_of_lt (by omega)
    have hword : (2 ^ k - home + idx) % 2 ^ 64 = 2 ^ k - home + idx :=
      Nat.mod_eq_of_lt (by omega)
    have hwhole : (2 ^ k - home + idx) % 2 ^ 32 = 2 ^ k - home + idx :=
      Nat.mod_eq_of_lt (by omega)
    rw [if_neg hnot, UInt64.toNat_toUInt32, UInt64.toNat_add, UInt64.toNat_sub_of_le _ _ hroom,
      hhome, hcapacity, hindex, hlen, hword, hsmall, hwhole]

/-- The probe length of a slot in the window of a key is its position there. -/
theorem probeLen_eq_idxOf (hsound : h.Sound) (hpow : h.capacity.toNat = 2 ^ k) {key : UInt64}
    {idx : ℕ} (hmem : idx ∈ probeWindow h key) :
    (probeLen h (UInt64.ofNat idx) key).toNat = (probeWindow h key).idxOf idx := by
  obtain ⟨p, hp, hprobe⟩ := mem_probeWindow.mp hmem
  have hhome : key.toNat % 2 ^ k < 2 ^ k := Nat.mod_lt _ (Nat.two_pow_pos k)
  have hslot := probeIdx_eq_mod hsound hpow key hp
  rw [hprobe] at hslot
  have hlt : idx < 2 ^ k := hslot ▸ Nat.mod_lt _ (Nat.two_pow_pos k)
  have hlen := gap_mod_eq hhome hslot.symm
  rw [probeLen_toNat hsound hpow key hlt, hlen]
  have hfirst : p % 2 ^ k < probeMax := (Nat.mod_le p _).trans_lt hp
  have hlength : (probeWindow h key).length = probeMax := by simp [probeWindow]
  have hget : ∀ q (hq : q < (probeWindow h key).length),
      (probeWindow h key)[q] = (key.toNat % 2 ^ k + q) % 2 ^ k := by
    intro q hq
    have hmax : q < probeMax := hlength ▸ hq
    simp only [probeWindow, List.getElem_map, List.getElem_range]
    exact probeIdx_eq_mod hsound hpow key hmax
  symm
  rw [List.idxOf, List.findIdx_eq (by omega)]
  refine ⟨?_, fun q hq => ?_⟩
  · rw [hget, Nat.add_mod_mod, ← hslot]
    exact beq_self_eq_true idx
  · rw [hget, beq_eq_false_iff_ne]
    intro heq
    have hother := gap_mod_eq hhome heq
    rw [hlen, Nat.mod_eq_of_lt (hq.trans (Nat.mod_lt _ (Nat.two_pow_pos k)))] at hother
    omega

end Probes

/-! ## The counting loop -/

def Entry.liveCount (entry : Entry Entity) : ℕ := if entry.Live then 1 else 0

def Entry.buriedCount (entry : Entry Entity) : ℕ :=
  if entry.keyHash = slotTombstone then 1 else 0

def Entry.liveConfidence (entry : Entry Entity) : ℕ :=
  if entry.Live then entry.confidence.toNat else 0

/-- The weights of all entries of the mapping. -/
def Table.total (table : Table Entity) (weight : Entry Entity → ℕ) : ℕ :=
  tally weight table.entries table.header.capacity.toNat

theorem total_liveCount (table : Table Entity) :
    table.total Entry.liveCount = (liveSlots table).card := by
  rw [liveSlots, Finset.card_filter]
  rfl

theorem total_buriedCount (table : Table Entity) :
    table.total Entry.buriedCount = (buriedSlots table).card := by
  rw [buriedSlots, Finset.card_filter]
  rfl

theorem total_liveConfidence (table : Table Entity) :
    table.total Entry.liveConfidence =
      ∑ idx ∈ liveSlots table, (table.entries idx).confidence.toNat := by
  rw [liveSlots, Finset.sum_filter]
  rfl

/-- What the loop body makes of the entry in slot `i`. -/
def countEntry (table : Table Entity) (out : Stats) (i : ℕ) : Stats :=
  if (table.entries i).keyHash = slotEmpty then out
  else if (table.entries i).keyHash = slotTombstone then
    { out with tombstones := out.tombstones + 1 }
  else
    let len := probeLen table.header (UInt64.ofNat i) (table.entries i).keyHash
    { out with
      occupied := out.occupied + 1
      totalConfidence := out.totalConfidence + (table.entries i).confidence.toUInt64
      maxProbeLen := if len > out.maxProbeLen then len else out.maxProbeLen }

theorem stats_eq_foldl {table : Table Entity} (hsound : table.header.Sound) :
    stats table = .ok ((List.range table.header.capacity.toNat).foldl (countEntry table)
      ⟨table.header.capacity, 0, 0, 0, 0⟩) := by
  refine foldlM_eq_ok (motive := fun _ => True) (fun i hmem out _ => ?_)
    (fun _ _ _ _ => trivial) trivial
  have hhome : (homeSlot table.header (table.entries i).keyHash).toNat <
      table.header.capacity.toNat := by
    rw [homeSlot, hsound.mask_eq]
    exact toNat_and_ofNat_pred_lt _ hsound.capacity_pos
      (table.header.capacity.toNat_lt.le.trans (by decide))
  rw [statsStep, slotAt_of_lt (List.mem_range.mp hmem), ok_bind, countEntry]
  split_ifs with hempty htomb
  · rfl
  · rfl
  · rw [slotAt_of_lt hhome, ok_bind, pure_eq_ok]

/-- The counters of a walk which has seen the slots below `k`. -/
structure Counted (table : Table Entity) (k : ℕ) (out : Stats) : Prop where
  capacity : out.capacity = table.header.capacity
  occupied : out.occupied.toNat = tally Entry.liveCount table.entries k
  tombstones : out.tombstones.toNat = tally Entry.buriedCount table.entries k
  totalConfidence : out.totalConfidence.toNat = tally Entry.liveConfidence table.entries k
  maxProbeLen : out.maxProbeLen.toNat =
    ((Finset.range k).filter fun idx => (table.entries idx).Live).sup (displacement table)

/-- What the counter of a bounded weight can be one slot on. -/
theorem tally_succ_le {weight : Entry Entity → ℕ} {bound : ℕ} (hbound : ∀ e, weight e ≤ bound)
    (entries : ℕ → Entry Entity) {k n : ℕ} (hk : k < n) :
    tally weight entries k + weight (entries k) ≤ n * bound := by
  rw [← tally_succ]
  exact (tally_le weight hbound entries (k + 1)).trans (Nat.mul_le_mul_right bound hk)

theorem liveCount_le (entry : Entry Entity) : entry.liveCount ≤ 1 := by
  unfold Entry.liveCount
  split_ifs <;> omega

theorem buriedCount_le (entry : Entry Entity) : entry.buriedCount ≤ 1 := by
  unfold Entry.buriedCount
  split_ifs <;> omega

theorem liveConfidence_le (entry : Entry Entity) : entry.liveConfidence ≤ 2 ^ 32 - 1 := by
  have hwidth := entry.confidence.toNat_lt
  unfold Entry.liveConfidence
  split_ifs <;> omega

/-- A slot without a key can only move the count of the tombstones. -/
theorem Counted.dead {table : Table Entity} {k : ℕ} {out : Stats} (hcounted : Counted table k out)
    (hdead : ¬ (table.entries k).Live) {tombstones : UInt32}
    (htombstones : tombstones.toNat = tally Entry.buriedCount table.entries (k + 1)) :
    Counted table (k + 1) { out with tombstones } := by
  refine ⟨hcounted.capacity, ?_, htombstones, ?_, ?_⟩
  · rw [tally_succ, hcounted.occupied, Entry.liveCount, if_neg hdead, Nat.add_zero]
  · rw [tally_succ, hcounted.totalConfidence, Entry.liveConfidence, if_neg hdead, Nat.add_zero]
  · rw [Finset.range_add_one, Finset.filter_insert, if_neg hdead, hcounted.maxProbeLen]

theorem Counted.next {table : Table Entity} (hgood : WellFormed table) {k n : ℕ}
    (hpow : table.header.capacity.toNat = 2 ^ n) {out : Stats}
    (hk : k < table.header.capacity.toNat) (hcounted : Counted table k out) :
    Counted table (k + 1) (countEntry table out k) := by
  have hwidth := table.header.capacity.toNat_lt
  have hlives := tally_succ_le liveCount_le table.entries hk
  have hburied := tally_succ_le buriedCount_le table.entries hk
  have htotal := tally_succ_le liveConfidence_le table.entries hk
  have hroom : table.header.capacity.toNat * (2 ^ 32 - 1) ≤ 2 ^ 32 * (2 ^ 32 - 1) :=
    Nat.mul_le_mul_right _ hwidth.le
  rw [← hcounted.occupied] at hlives
  rw [← hcounted.tombstones] at hburied
  rw [← hcounted.totalConfidence] at htotal
  unfold countEntry
  by_cases hempty : (table.entries k).keyHash = slotEmpty
  · have hdead : ¬ (table.entries k).Live := fun hlive => hlive.1 hempty
    have hnot : (table.entries k).keyHash ≠ slotTombstone := by
      rw [hempty]
      decide
    rw [if_pos hempty]
    apply hcounted.dead hdead
    rw [tally_succ, hcounted.tombstones, Entry.buriedCount, if_neg hnot, Nat.add_zero]
  · by_cases htomb : (table.entries k).keyHash = slotTombstone
    · have hdead : ¬ (table.entries k).Live := fun hlive => hlive.2 htomb
      rw [Entry.buriedCount, if_pos htomb] at hburied
      rw [if_neg hempty, if_pos htomb]
      apply hcounted.dead hdead
      rw [tally_succ, ← hcounted.tombstones, Entry.buriedCount, if_pos htomb, UInt32.toNat_add,
        UInt32.toNat_one, Nat.mod_eq_of_lt (by omega)]
    · have hlive : (table.entries k).Live := ⟨hempty, htomb⟩
      have hmem := (hgood.wellProbed.chained k _
        (tagSlots_eq_live_iff.mpr ⟨rfl, hlive⟩)).mem
      have hlen := probeLen_eq_idxOf hgood.sound hpow hmem
      rw [if_neg hempty, if_neg htomb]
      rw [Entry.liveCount, if_pos hlive] at hlives
      rw [Entry.liveConfidence, if_pos hlive] at htotal
      refine ⟨hcounted.capacity, ?_, ?_, ?_, ?_⟩
      · rw [tally_succ, ← hcounted.occupied, Entry.liveCount, if_pos hlive]
        rw [UInt32.toNat_add, UInt32.toNat_one, Nat.mod_eq_of_lt (by omega)]
      · rw [tally_succ, hcounted.tombstones, Entry.buriedCount, if_neg htomb, Nat.add_zero]
      · rw [tally_succ, ← hcounted.totalConfidence, Entry.liveConfidence, if_pos hlive]
        rw [UInt64.toNat_add, UInt32.toNat_toUInt64, Nat.mod_eq_of_lt (by omega)]
      · rw [Finset.range_add_one, Finset.filter_insert, if_pos hlive, Finset.sup_insert,
          ← hcounted.maxProbeLen, displacement, ← hlen]
        show (if _ > _ then _ else _ : UInt32).toNat = max _ _
        split_ifs with hgt
        · exact (max_eq_left (UInt32.lt_iff_toNat_lt.mp hgt).le).symm
        · exact (max_eq_right (UInt32.le_iff_toNat_le.mp (UInt32.not_lt.mp hgt))).symm

theorem stats_describes {table : Table Entity} (hgood : WellFormed table) {n : ℕ}
    (hpow : table.header.capacity.toNat = 2 ^ n) :
    ∃ out, stats table = .ok out ∧ Describes out table := by
  refine ⟨_, stats_eq_foldl hgood.sound, ?_⟩
  have hstart : Counted table 0 ⟨table.header.capacity, 0, 0, 0, 0⟩ :=
    ⟨rfl, rfl, rfl, rfl, by simp⟩
  have hcounted := foldl_range_induction (motive := Counted table) table.header.capacity.toNat
    hstart fun k out hk hout => Counted.next hgood hpow hk hout
  exact ⟨hcounted.capacity, hcounted.occupied.trans (total_liveCount table),
    hcounted.tombstones.trans (total_buriedCount table),
    hcounted.totalConfidence.trans (total_liveConfidence table), hcounted.maxProbeLen⟩

/-! ## Shorter searches -/

theorem displacement_lt {table : Table Entity} (hgood : WellFormed table) {idx : ℕ}
    (hlive : (table.entries idx).Live) : displacement table idx < probeMax := by
  have hmem := (hgood.wellProbed.chained idx _ (tagSlots_eq_live_iff.mpr ⟨rfl, hlive⟩)).mem
  have hlength : (probeWindow table.header (table.entries idx).keyHash).length = probeMax := by
    simp [probeWindow]
  rw [← hlength]
  exact List.idxOf_lt_length_of_mem hmem

/-- A search which gives up behind the longest displacement finds what the whole search finds. -/
theorem probeKeyIn_take {table : Table Entity} (hgood : WellFormed table)
    {entityHash : Entity → UInt64} {entity : Entity} {longest : ℕ}
    (hlongest : ∀ idx ∈ liveSlots table, displacement table idx ≤ longest) :
    probeKeyIn table.entries (entityKeyHash entityHash entity)
        ((probeWindow table.header (entityKeyHash entityHash entity)).take (longest + 1)) =
      probeKey table (entityKeyHash entityHash entity) := by
  obtain ⟨hempty, htomb⟩ := entityKeyHash_ne_sentinel entityHash entity
  have hwindow := List.take_append_drop (longest + 1)
    (probeWindow table.header (entityKeyHash entityHash entity))
  have hwhole : probeKey table (entityKeyHash entityHash entity) =
      probeFind (tagSlots table.entries) (entityKeyHash entityHash entity)
        (probeWindow table.header (entityKeyHash entityHash entity)) :=
    probeKeyIn_eq _ hempty htomb _
  rw [hwhole, probeKeyIn_eq _ hempty htomb]
  generalize hkey : entityKeyHash entityHash entity = key at *
  have hsame : ∀ idx ∈ (probeWindow table.header key).take (longest + 1),
      tagSlots table.entries idx = .live key →
      probeFind (tagSlots table.entries) key ((probeWindow table.header key).take (longest + 1)) =
        probeFind (tagSlots table.entries) key (probeWindow table.header key) := by
    intro idx hmem hlive
    conv_rhs => rw [← hwindow]
    exact (probeFind_append_of_mem hmem hlive).symm
  cases hfront : probeFind (tagSlots table.entries) key
      ((probeWindow table.header key).take (longest + 1)) with
  | some idx =>
      obtain ⟨hmem, hlive⟩ := probeFind_some_mem hfront
      rw [← hfront]
      exact hsame idx hmem hlive
  | none =>
      cases hfound : probeFind (tagSlots table.entries) key (probeWindow table.header key) with
      | none => rfl
      | some idx =>
          obtain ⟨hmem, hlive⟩ := probeFind_some_mem hfound
          obtain ⟨hheld, hlive'⟩ := tagSlots_eq_live_iff.mp hlive
          have hslot : idx ∈ liveSlots table := Finset.mem_filter.mpr
            ⟨Finset.mem_range.mpr (lt_of_mem_probeWindow hgood.sound hmem), hlive'⟩
          have hnear := hlongest idx hslot
          rw [displacement, hheld] at hnear
          have htake : idx ∈ (probeWindow table.header key).take (longest + 1) :=
            List.mem_take_iff_idxOf_lt hmem |>.mpr (by omega)
          rw [← hfront, hsame idx htake hlive, hfound]

/-! ## Walks -/

def liveEntries (table : Table Entity) : List (Entry Entity) :=
  ((List.range table.header.capacity.toNat).map table.entries).filter fun entry => entry.Live

theorem length_liveEntries (table : Table Entity) :
    (liveEntries table).length = (liveSlots table).card := by
  rw [liveEntries, List.filter_map, List.length_map]
  rfl

theorem iterateLoop_eq {Ctx : Type} {table : Table Entity} (hquiet : Quiescent table)
    (fn : Entry Entity → Ctx → Bool × Ctx) (fuel n i : ℕ)
    (hrange : i + n ≤ table.header.capacity.toNat) (state : ℕ × Ctx) :
    iterateLoop (fuel + 1) table fn n i state =
      .ok (showUntil fn (((List.range' i n).map table.entries).filter fun e => e.Live)
        state) := by
  induction n generalizing i state with
  | zero => rfl
  | succ n ih =>
      obtain ⟨visited, ctx⟩ := state
      have hlt : i < table.header.capacity.toNat := by omega
      rw [iterateLoop, readEntry_of_unlocked (hquiet i), ok_bind, List.range'_succ, List.map_cons]
      by_cases hlive : (table.entries i).Live
      · have hread : (Quorum.viewOf table).read i = some (table.entries i) := by
          simp only [Quorum.viewOf, if_pos (And.intro hlt hlive)]
        rw [hread, List.filter_cons_of_pos (by simpa using hlive), showUntil]
        simp only
        split_ifs
        · exact ih (i + 1) (by omega) _
        · rfl
      · have hread : (Quorum.viewOf table).read i = none := by
          simp only [Quorum.viewOf, if_neg fun hboth : _ ∧ _ => hlive hboth.2]
        rw [hread, List.filter_cons_of_neg (by simpa using hlive)]
        exact ih (i + 1) (by omega) _

/-! ## No writer holds an entry between two calls -/

def AllUnlocked (table : Table Entity) : Prop := ∀ idx, (table.entries idx).Unlocked

theorem unlockVersion_even (version : UInt32) : ((version + 1 ||| 1) + 1) &&& 1 = 0 := by
  have hodd : ((version + 1).toNat ||| 1) % 2 = 1 := Nat.or_mod_two_eq_one.mpr (.inr rfl)
  apply UInt32.toNat_inj.mp
  rw [UInt32.toNat_and, UInt32.toNat_add, UInt32.toNat_or, show (1 : UInt32).toNat = 1 from rfl,
    Nat.and_one_is_mod]
  show _ = 0
  omega

theorem AllUnlocked.setEntry {table : Table Entity} (hfree : AllUnlocked table) (idx : ℕ)
    {entry : Entry Entity} (hentry : entry.Unlocked) : AllUnlocked (table.setEntry idx entry) := by
  intro other
  by_cases heq : other = idx
  · subst heq
    simpa only [Table.setEntry, Function.update_self] using hentry
  · simpa only [Table.setEntry, Function.update_of_ne heq] using hfree other

theorem AllUnlocked.performCall {table : Table Entity} (hfree : AllUnlocked table)
    (entityHash : Entity → UInt64) (call : Call Entity) :
    AllUnlocked (performCall entityHash table call) := by
  cases call with
  | insert deposit =>
      simp only [Pheromone.performCall, phtInsert]
      split
      · exact hfree.setEntry _ (hfree _)
      · exact hfree
      · exact hfree.setEntry _ (unlockVersion_even _)
  | remove entity =>
      simp only [Pheromone.performCall, Pheromone.remove]
      split
      · exact hfree.setEntry _ (hfree _)
      · exact hfree
  | noteReason entity word =>
      simp only [Pheromone.performCall, Pheromone.noteReason]
      split_ifs
      · exact hfree
      · split
        · exact hfree.setEntry _ (hfree _)
        · exact hfree
  | decay =>
      intro idx
      simp only [Pheromone.performCall, decay_entries]
      have hversion : (decayedEntry table.header (table.entries idx)).version =
          (table.entries idx).version := by
        unfold decayedEntry
        split_ifs <;> rfl
      split_ifs
      · rw [Entry.Unlocked, hversion]
        exact hfree idx
      · exact hfree idx

theorem reachable_allUnlocked [Inhabited Entity] {entityHash : Entity → UInt64}
    {table : Table Entity} (hreach : (sequential entityHash).Reachable table) :
    AllUnlocked table := by
  apply hreach.invariant
  · rintro state ⟨cfg, clock, hashKey, hcreate⟩ idx
    rw [(create_eq_some hcreate).2]
    show (0 : UInt32) &&& 1 = 0
    decide
  · intro state call next hfree hstep
    simp only [sequential, Option.some.injEq] at hstep
    subst hstep
    exact hfree.performCall entityHash call

/-- In every sequentially reachable state the statistics are the true ones, a search needs no
more probes than the longest displacement, and a walk shows the live entries in slot order. -/
theorem reachable_statistics [Inhabited Entity] (entityHash : Entity → UInt64)
    (table : Table Entity) (hreach : (sequential entityHash).Reachable table) :
    ∃ out, stats table = .ok out ∧ Describes out table ∧ out.maxProbeLen.toNat < probeMax ∧
      (∀ entity, probeKeyIn table.entries (entityKeyHash entityHash entity)
          ((probeWindow table.header (entityKeyHash entityHash entity)).take
            (out.maxProbeLen.toNat + 1)) = probeKey table (entityKeyHash entityHash entity)) ∧
      (liveEntries table).length = out.occupied.toNat ∧
      ∀ (Ctx : Type) (fn : Entry Entity → Ctx → Bool × Ctx) (ctx : Ctx) (fuel : ℕ),
        iterate (fuel + 1) table fn ctx = .ok (showUntil fn (liveEntries table) (0, ctx)) := by
  have hgood := reachable_wellFormed hreach
  obtain ⟨n, hpow⟩ := reachable_capacity_pow hreach
  obtain ⟨out, hout, hdescribes⟩ := stats_describes hgood hpow
  have hlongest : ∀ idx ∈ liveSlots table, displacement table idx ≤ out.maxProbeLen.toNat := by
    intro idx hmem
    rw [hdescribes.maxProbeLen]
    exact Finset.le_sup hmem
  refine ⟨out, hout, hdescribes, ?_, fun entity => probeKeyIn_take hgood hlongest,
    (length_liveEntries table).trans hdescribes.occupied.symm, fun Ctx fn ctx fuel => ?_⟩
  · rw [hdescribes.maxProbeLen, Finset.sup_lt_iff (by decide)]
    exact fun idx hmem => displacement_lt hgood (Finset.mem_filter.mp hmem).2
  · have hfree := reachable_allUnlocked hreach
    rw [iterate, iterateLoop_eq (fun idx _ _ => hfree idx) fn fuel _ 0 (by omega), liveEntries,
      List.range_eq_range']

theorem reachable_statistics_deposited :
    ∃ out, stats (deposited 40) = .ok out ∧ Describes out (deposited 40) ∧
      ∀ entity, probeKeyIn (deposited 40).entries (entityKeyHash UInt64.ofNat entity)
        ((probeWindow (deposited 40).header (entityKeyHash UInt64.ofNat entity)).take
          (out.maxProbeLen.toNat + 1)) =
        probeKey (deposited 40) (entityKeyHash UInt64.ofNat entity) := by
  obtain ⟨out, hout, hdescribes, -, hsearch, -⟩ :=
    reachable_statistics UInt64.ofNat (deposited 40) (deposited_reachable 40)
  exact ⟨out, hout, hdescribes, hsearch⟩

/-! ## What one call moves -/

/-- The entity which the call is about. -/
def Call.entity? : Call Entity → Option Entity
  | .insert deposit => some deposit.entity
  | .remove entity => some entity
  | .noteReason entity _ => some entity
  | .decay => none

/-- The call puts a key into the table which was not there. -/
def claimedBy (entityHash : Entity → UInt64) (table : Table Entity) : Call Entity → ℕ
  | .insert deposit =>
      let key := entityKeyHash entityHash deposit.entity
      if probeKey table key = none ∧ probeKey (phtInsert entityHash table deposit).1 key ≠ none
      then 1 else 0
  | _ => 0

/-- The number of keys which the call reports as gone. -/
def freedBy (entityHash : Entity → UInt64) (table : Table Entity) : Call Entity → ℕ
  | .remove entity => if (Pheromone.remove entityHash table entity).2 then 1 else 0
  | .decay => (Pheromone.decay table).2
  | _ => 0

/-- What a lookup of the call's entity answers before the call. -/
def answerBefore (entityHash : Entity → UInt64) (table : Table Entity) (call : Call Entity) : ℕ :=
  (call.entity?.map fun entity => (lookup entityHash table entity).toNat).getD 0

/-- What a lookup of the call's entity answers behind the call. -/
def answerAfter (entityHash : Entity → UInt64) (table : Table Entity) (call : Call Entity) : ℕ :=
  answerBefore entityHash (performCall entityHash table call) call

/-- A slot which is not empty has been used, and stays so. -/
def Entry.usedCount (entry : Entry Entity) : ℕ := if entry.keyHash = slotEmpty then 0 else 1

theorem total_setEntry (table : Table Entity) (weight : Entry Entity → ℕ) {idx : ℕ}
    (hlt : idx < table.header.capacity.toNat) (entry : Entry Entity) :
    (table.setEntry idx entry).total weight + weight (table.entries idx) =
      table.total weight + weight entry :=
  tally_update weight hlt entry

/-- How one call moves the three totals. -/
structure Moves (entityHash : Entity → UInt64) (table : Table Entity) (call : Call Entity) :
    Prop where
  live : (performCall entityHash table call).total Entry.liveCount +
      freedBy entityHash table call =
    table.total Entry.liveCount + claimedBy entityHash table call
  used : table.total Entry.usedCount ≤ (performCall entityHash table call).total Entry.usedCount
  evidence : call.entity?.isSome →
    (performCall entityHash table call).total Entry.liveConfidence +
        answerBefore entityHash table call =
      table.total Entry.liveConfidence + answerAfter entityHash table call
  decayed : table.header.decayFactorFp16.toNat ≤ 2 ^ 16 → call.entity? = none →
    (performCall entityHash table call).total Entry.liveConfidence ≤
      table.total Entry.liveConfidence

section Moves

variable {entityHash : Entity → UInt64} {table : Table Entity}

/-- A call on one entity which rewrites one slot. -/
theorem Moves.rewrite {call : Call Entity} {entity : Entity} (hentity : call.entity? = some entity)
    {idx : ℕ} (hlt : idx < table.header.capacity.toNat) {entry : Entry Entity}
    (hafter : performCall entityHash table call = table.setEntry idx entry)
    (hlive : entry.liveCount + freedBy entityHash table call =
      (table.entries idx).liveCount + claimedBy entityHash table call)
    (hused : (table.entries idx).usedCount ≤ entry.usedCount)
    (hbefore : (table.entries idx).liveConfidence = (lookup entityHash table entity).toNat)
    (hanswer : entry.liveConfidence =
      (lookup entityHash (table.setEntry idx entry) entity).toNat) :
    Moves entityHash table call := by
  refine ⟨?_, ?_, fun _ => ?_, fun _ hnone => ?_⟩
  · have hmoved := total_setEntry table Entry.liveCount hlt entry
    rw [hafter]
    omega
  · have hmoved := total_setEntry table Entry.usedCount hlt entry
    rw [hafter]
    omega
  · have hmoved := total_setEntry table Entry.liveConfidence hlt entry
    rw [answerAfter, answerBefore, answerBefore, hafter, hentity]
    simp only [Option.map_some, Option.getD_some]
    omega
  · rw [hentity] at hnone
    contradiction

/-- A call on one entity which leaves the table as it is. -/
theorem Moves.nothing {call : Call Entity} (hentity : call.entity?.isSome)
    (hafter : performCall entityHash table call = table)
    (hfreed : freedBy entityHash table call = 0) (hclaimed : claimedBy entityHash table call = 0) :
    Moves entityHash table call := by
  refine ⟨?_, ?_, fun _ => ?_, fun _ hnone => ?_⟩
  · rw [hafter, hfreed, hclaimed]
  · rw [hafter]
  · rw [answerAfter, hafter]
  · rw [hnone] at hentity
    contradiction

theorem usedCount_of_ne {entry : Entry Entity} (hne : entry.keyHash ≠ slotEmpty) :
    entry.usedCount = 1 := if_neg hne

theorem usedCount_le_one (entry : Entry Entity) : entry.usedCount ≤ 1 := by
  unfold Entry.usedCount
  split_ifs <;> omega

theorem liveConfidence_of_lookup (hgood : WellFormed table) {entity : Entity} {idx : ℕ}
    (hkey : (table.entries idx).keyHash = entityKeyHash entityHash entity) :
    (table.entries idx).Live ∧
      (table.entries idx).liveConfidence = (lookup entityHash table entity).toNat := by
  have hlive : (table.entries idx).Live := by
    rw [Entry.Live, hkey]
    exact entityKeyHash_ne_sentinel entityHash entity
  refine ⟨hlive, ?_⟩
  rw [(hgood.finiteMap entityHash).lookup_live entity idx hkey, Entry.liveConfidence, if_pos hlive]

theorem slot_lt (hgood : WellFormed table) {idx : ℕ} (hlive : (table.entries idx).Live) :
    idx < table.header.capacity.toNat :=
  ((hgood.finiteMap fun _ : Entity => 0).near_home idx hlive).1

/-- A call which keeps the key of the entity's slot. -/
theorem Moves.same_key (hgood : WellFormed table) {call : Call Entity} {entity : Entity}
    (hentity : call.entity? = some entity) {idx : ℕ} {entry : Entry Entity}
    (hkey : (table.entries idx).keyHash = entityKeyHash entityHash entity)
    (hafter : performCall entityHash table call = table.setEntry idx entry)
    (hkept : entry.keyHash = (table.entries idx).keyHash)
    (hfreed : freedBy entityHash table call = 0) (hclaimed : claimedBy entityHash table call = 0) :
    Moves entityHash table call := by
  obtain ⟨hlive, hbefore⟩ := liveConfidence_of_lookup hgood hkey
  have hslot : (table.setEntry idx entry).entries idx = entry := Function.update_self ..
  have hkey' : ((table.setEntry idx entry).entries idx).keyHash =
      entityKeyHash entityHash entity := by
    rw [hslot, hkept, hkey]
  obtain ⟨hlive', hanswer⟩ := liveConfidence_of_lookup (hgood.rewrite hkept) hkey'
  rw [hslot] at hlive' hanswer
  refine .rewrite hentity (slot_lt hgood hlive) hafter ?_ ?_ hbefore hanswer
  · rw [hfreed, hclaimed, Entry.liveCount, Entry.liveCount, if_pos hlive, if_pos hlive']
  · rw [usedCount_of_ne hlive.1, usedCount_of_ne hlive'.1]

theorem moves_insert (hgood : WellFormed table) (deposit : Deposit Entity) :
    Moves entityHash table (.insert deposit) := by
  have hgood' : WellFormed (phtInsert entityHash table deposit).1 := hgood.insert _ _
  have hstep := phtInsert_insertStep hgood entityHash deposit
  have hclaimed : claimedBy entityHash table (.insert deposit) =
      if probeKey table (entityKeyHash entityHash deposit.entity) = none ∧
        probeKey (phtInsert entityHash table deposit).1
          (entityKeyHash entityHash deposit.entity) ≠ none then 1 else 0 := rfl
  have hafter : performCall entityHash table (.insert deposit) =
      (phtInsert entityHash table deposit).1 := rfl
  generalize phtInsert entityHash table deposit = outcome at hgood' hstep hclaimed hafter
  cases hstep with
  | updated idx hkey =>
      refine .same_key hgood rfl hkey hafter rfl rfl (hclaimed.trans (if_neg fun hboth => ?_))
      rw [hgood.probeKey_eq_some_iff.mpr hkey] at hboth
      exact Option.some_ne_none idx hboth.1
  | claimed idx habsent hfree =>
      have hdead : ¬ (table.entries idx).Live :=
        tagSlots_isFree_iff.mp (probeFree_some_isFree hfree)
      have hlt := lt_of_mem_probeWindow hgood.sound (probeFree_some_mem hfree)
      have hslot : ((table.setEntry idx (claimedEntry (table.entries idx)
          (entityKeyHash entityHash deposit.entity) deposit
          (relativeTime table.header deposit.clock))).entries idx).keyHash =
            entityKeyHash entityHash deposit.entity := by
        simp only [Table.setEntry, Function.update_self, claimedEntry]
      obtain ⟨hlive, hanswer⟩ := liveConfidence_of_lookup hgood' hslot
      have hone := hclaimed.trans (if_pos ⟨hgood.probeKey_eq_none_iff.mpr habsent, by
        rw [hgood'.probeKey_eq_some_iff.mpr hslot]
        exact Option.some_ne_none idx⟩)
      simp only [Table.setEntry, Function.update_self] at hlive hanswer
      refine .rewrite rfl hlt hafter ?_ ?_ ?_ hanswer
      · rw [hone, Entry.liveCount, Entry.liveCount, if_pos hlive, if_neg hdead]
        rfl
      · rw [usedCount_of_ne hlive.1]
        exact usedCount_le_one _
      · rw [(hgood.finiteMap entityHash).lookup_absent _ habsent, Entry.liveConfidence,
          if_neg hdead]
        rfl
  | full habsent hfull =>
      refine .nothing rfl hafter rfl (hclaimed.trans (if_neg fun hboth => hboth.2 ?_))
      exact hgood.probeKey_eq_none_iff.mpr habsent

theorem moves_remove (hgood : WellFormed table) (entity : Entity) :
    Moves entityHash table (.remove entity) := by
  cases hprobe : probeKey table (entityKeyHash entityHash entity) with
  | none =>
      have hremove : remove entityHash table entity = (table, false) := by
        rw [remove, hprobe]
      refine .nothing rfl (congrArg Prod.fst hremove) ?_ rfl
      rw [freedBy, hremove]
      rfl
  | some idx =>
      have hremove : remove entityHash table entity =
          (table.setEntry idx { table.entries idx with keyHash := slotTombstone }, true) := by
        rw [remove, hprobe]
      have hkey := hgood.probeKey_eq_some_iff.mp hprobe
      obtain ⟨hlive, hbefore⟩ := liveConfidence_of_lookup hgood hkey
      have hgone : ¬ ({ table.entries idx with keyHash := slotTombstone } : Entry Entity).Live :=
        fun hlive => hlive.2 rfl
      have hgood' : WellFormed (remove entityHash table entity).1 := hgood.remove entityHash entity
      rw [hremove] at hgood'
      refine .rewrite rfl (slot_lt hgood hlive) (congrArg Prod.fst hremove) ?_ ?_ hbefore ?_
      · rw [freedBy, hremove, Entry.liveCount, Entry.liveCount, if_neg hgone, if_pos hlive]
        rfl
      · rw [usedCount_of_ne hlive.1, usedCount_of_ne]
        show slotTombstone ≠ slotEmpty
        decide
      · rw [(hgood'.finiteMap entityHash).lookup_absent entity, Entry.liveConfidence,
          if_neg hgone]
        · rfl
        · intro other hother
          by_cases heq : other = idx
          · subst heq
            simp only [Table.setEntry, Function.update_self] at hother
            exact (entityKeyHash_ne_sentinel entityHash entity).2 hother.symm
          · simp only [Table.setEntry, Function.update_of_ne heq] at hother
            exact heq ((hgood.finiteMap entityHash).unique idx other hlive
              (hkey.trans hother.symm)).symm

theorem moves_noteReason (hgood : WellFormed table) (entity : Entity) (word : UInt64) :
    Moves entityHash table (.noteReason entity word) := by
  by_cases hkind : reasonKind word = 0
  · exact .nothing rfl (if_pos hkind) rfl rfl
  · have hcall : performCall entityHash table (.noteReason entity word) = _ := if_neg hkind
    cases hprobe : probeKey table (entityKeyHash entityHash entity) with
    | none =>
        rw [hprobe] at hcall
        exact .nothing rfl hcall rfl rfl
    | some idx =>
        rw [hprobe] at hcall
        exact .same_key hgood rfl (hgood.probeKey_eq_some_iff.mp hprobe) hcall rfl rfl rfl

theorem total_decay (table : Table Entity) (weight : Entry Entity → ℕ) :
    (decay table).1.total weight =
      tally (fun entry => weight (decayedEntry table.header entry)) table.entries
        table.header.capacity.toNat := by
  rw [Table.total, decay_header]
  refine Finset.sum_congr rfl fun idx hidx => ?_
  rw [decay_entries, if_pos (Finset.mem_range.mp hidx)]

theorem liveCount_decayedEntry (h : Header) (entry : Entry Entity) :
    (decayedEntry h entry).liveCount + (if decayEvicts h entry then 1 else 0) =
      entry.liveCount := by
  by_cases hevict : decayEvicts h entry = true
  · obtain ⟨hlive, htomb⟩ := decayEvicts_iff.mp hevict
    rw [if_pos hevict, Entry.liveCount, Entry.liveCount, if_pos hlive,
      if_neg (not_live_of_tombstone htomb)]
  · have hsame : (decayedEntry h entry).Live ↔ entry.Live := by
      rcases decayedEntry_keyHash h entry with hkey | htomb
      · exact Entry.live_congr hkey
      · exact ⟨fun hlive => absurd hlive (not_live_of_tombstone htomb),
          fun hlive => absurd (decayEvicts_iff.mpr ⟨hlive, htomb⟩) hevict⟩
    rw [if_neg hevict, Nat.add_zero, Entry.liveCount, Entry.liveCount]
    exact if_congr hsame rfl rfl

theorem usedCount_le_decayedEntry (h : Header) (entry : Entry Entity) :
    entry.usedCount ≤ (decayedEntry h entry).usedCount := by
  rcases decayedEntry_keyHash h entry with hsame | htomb
  · rw [Entry.usedCount, Entry.usedCount, hsame]
  · have hused : (decayedEntry h entry).usedCount = 1 := by
      apply usedCount_of_ne
      rw [htomb]
      decide
    rw [hused]
    exact usedCount_le_one entry

theorem liveConfidence_decayedEntry_le {h : Header} (hfactor : h.decayFactorFp16.toNat ≤ 2 ^ 16)
    (entry : Entry Entity) : (decayedEntry h entry).liveConfidence ≤ entry.liveConfidence := by
  unfold Entry.liveConfidence
  by_cases hafter : (decayedEntry h entry).Live
  · obtain ⟨hbefore, hconfidence, -⟩ := live_of_decayedEntry hafter
    rw [if_pos hafter, if_pos hbefore, hconfidence, decayedConfidence_toNat]
    refine (Nat.mod_le _ _).trans ?_
    rw [Nat.div_le_iff_le_mul_add_pred (by decide)]
    exact (Nat.mul_le_mul_left _ hfactor).trans (by omega)
  · rw [if_neg hafter]
    exact Nat.zero_le _

theorem moves_decay : Moves entityHash table (.decay : Call Entity) := by
  refine ⟨?_, ?_, fun hentity => ?_, fun hfactor _ => ?_⟩
  · have hcount := (decayStep_rewrites table.header).count_foldl
      (show (table, 0).1.header = table.header from rfl) Prod.snd
      (fun entry => decayEvicts table.header entry = true)
      (fun state idx hheader => by simp only [decayStep, hheader]) table.header.capacity.toNat
    show (decay table).1.total _ + (decay table).2 = _
    rw [total_decay, show (decay table).2 = _ from hcount, Nat.zero_add, Finset.card_filter,
      tally, ← Finset.sum_add_distrib]
    exact Finset.sum_congr rfl fun idx _ => liveCount_decayedEntry table.header _
  · show _ ≤ (decay table).1.total _
    rw [total_decay, Table.total, tally, tally]
    exact Finset.sum_le_sum fun idx _ => usedCount_le_decayedEntry table.header _
  · contradiction
  · show (decay table).1.total _ ≤ _
    rw [total_decay, Table.total, tally, tally]
    exact Finset.sum_le_sum fun idx _ => liveConfidence_decayedEntry_le hfactor _

theorem moves_performCall (hgood : WellFormed table) (call : Call Entity) :
    Moves entityHash table call := by
  cases call with
  | insert deposit => exact moves_insert hgood deposit
  | remove entity => exact moves_remove hgood entity
  | noteReason entity word => exact moves_noteReason hgood entity word
  | decay => exact moves_decay

end Moves

/-! ## What a run moves -/

/-- The amounts of the calls of a run, added up. -/
def summed [Inhabited Entity] (entityHash : Entity → UInt64)
    (amount : Table Entity → Call Entity → ℕ) (start : Table Entity)
    (calls : List (Call Entity)) : ℕ :=
  ((sequential entityHash).collect (fun table call => [amount table call]) start calls).sum

theorem summed_cons [Inhabited Entity] (entityHash : Entity → UInt64)
    (amount : Table Entity → Call Entity → ℕ) (start : Table Entity) (call : Call Entity)
    (rest : List (Call Entity)) :
    summed entityHash amount start (call :: rest) =
      amount start call + summed entityHash amount (performCall entityHash start call) rest := by
  rw [summed, (sequential entityHash).collect_cons_of_step _ rfl, List.sum_append,
    List.sum_singleton]
  rfl

/-- How a run moves the three totals. -/
structure RunMoves [Inhabited Entity] (entityHash : Entity → UInt64) (start final : Table Entity)
    (calls : List (Call Entity)) : Prop where
  live : final.total Entry.liveCount + summed entityHash (freedBy entityHash) start calls =
    start.total Entry.liveCount + summed entityHash (claimedBy entityHash) start calls
  used : start.total Entry.usedCount ≤ final.total Entry.usedCount
  decayed : start.header.decayFactorFp16.toNat ≤ 2 ^ 16 →
    final.total Entry.liveConfidence + summed entityHash (answerBefore entityHash) start calls ≤
      start.total Entry.liveConfidence + summed entityHash (answerAfter entityHash) start calls
  undecayed : (∀ call ∈ calls, call.entity?.isSome) →
    final.total Entry.liveConfidence + summed entityHash (answerBefore entityHash) start calls =
      start.total Entry.liveConfidence + summed entityHash (answerAfter entityHash) start calls

theorem run_moves [Inhabited Entity] {entityHash : Entity → UInt64} {start final : Table Entity}
    {calls : List (Call Entity)} (hgood : WellFormed start)
    (hrun : (sequential entityHash).run start calls = some final) :
    RunMoves entityHash start final calls := by
  induction calls generalizing start with
  | nil =>
      simp only [TransitionSystem.run_nil, Option.some.injEq] at hrun
      subst hrun
      exact ⟨rfl, le_rfl, fun _ => le_rfl, fun _ => rfl⟩
  | cons call rest ih =>
      obtain ⟨next, hstep, hrest⟩ := (sequential entityHash).run_cons_eq_some.mp hrun
      simp only [sequential, Option.some.injEq] at hstep
      subst hstep
      have hfirst : Moves entityHash start call := moves_performCall hgood call
      have hlater := ih (hgood.performCall entityHash call) hrest
      have hheader := performCall_header entityHash start call
      refine ⟨?_, hfirst.used.trans hlater.used, fun hfactor => ?_, fun hentities => ?_⟩
      · have hmoved := hfirst.live
        have hrested := hlater.live
        rw [summed_cons, summed_cons]
        omega
      · have hrested := hlater.decayed (by rw [hheader]; exact hfactor)
        rw [summed_cons, summed_cons]
        cases hentity : call.entity? with
        | some entity =>
            have hmoved := hfirst.evidence (by rw [hentity]; rfl)
            omega
        | none =>
            have hmoved := hfirst.decayed hfactor hentity
            have hsilent : ∀ table : Table Entity, answerBefore entityHash table call = 0 := by
              intro table
              rw [answerBefore, hentity]
              rfl
            rw [hsilent, answerAfter, hsilent]
            omega
      · have hmoved := hfirst.evidence (hentities call List.mem_cons_self)
        have hrested := hlater.undecayed fun other hmem =>
          hentities other (List.mem_cons_of_mem _ hmem)
        rw [summed_cons, summed_cons]
        omega

theorem total_usedCount (table : Table Entity) :
    table.total Entry.usedCount = table.total Entry.liveCount + table.total Entry.buriedCount := by
  unfold Table.total tally
  rw [← Finset.sum_add_distrib]
  refine Finset.sum_congr rfl fun idx _ => ?_
  unfold Entry.usedCount Entry.liveCount Entry.buriedCount Entry.Live
  have hne : slotTombstone ≠ slotEmpty := by decide
  by_cases hempty : (table.entries idx).keyHash = slotEmpty
  · simp [hempty, Ne.symm hne]
  · by_cases htomb : (table.entries idx).keyHash = slotTombstone
    · simp [htomb, hne]
    · simp [hempty, htomb]

/-- Between two readings of the statistics the occupied slots change by the keys which were
claimed and the ones which removals and decays report as gone, no slot becomes empty again, and
the confidence changes by what the calls changed for their own entities, less what decay took. -/
theorem statistics_along_run [Inhabited Entity] (entityHash : Entity → UInt64)
    {start final : Table Entity} (hreach : (sequential entityHash).Reachable start)
    {calls : List (Call Entity)} (hrun : (sequential entityHash).run start calls = some final)
    {out out' : Stats} (hstart : stats start = .ok out) (hfinal : stats final = .ok out') :
    out'.occupied.toNat + summed entityHash (freedBy entityHash) start calls =
        out.occupied.toNat + summed entityHash (claimedBy entityHash) start calls ∧
      out.occupied.toNat + out.tombstones.toNat ≤
        out'.occupied.toNat + out'.tombstones.toNat ∧
      (start.header.decayFactorFp16.toNat ≤ 2 ^ 16 →
        out'.totalConfidence.toNat + summed entityHash (answerBefore entityHash) start calls ≤
          out.totalConfidence.toNat + summed entityHash (answerAfter entityHash) start calls) ∧
      ((∀ call ∈ calls, call.entity?.isSome) →
        out'.totalConfidence.toNat + summed entityHash (answerBefore entityHash) start calls =
          out.totalConfidence.toNat + summed entityHash (answerAfter entityHash) start calls) := by
  have hreach' : (sequential entityHash).Reachable final := by
    obtain ⟨origin, front, hinitial, hfront⟩ := hreach
    exact ⟨origin, front ++ calls, hinitial,
      (sequential entityHash).run_append_eq_some.mpr ⟨start, hfront, hrun⟩⟩
  have hdescribes : ∀ {table : Table Entity} {out : Stats},
      (sequential entityHash).Reachable table → stats table = .ok out → Describes out table := by
    intro table out hreach hstats
    obtain ⟨n, hpow⟩ := reachable_capacity_pow hreach
    obtain ⟨other, hother, hdescribes⟩ := stats_describes (reachable_wellFormed hreach) hpow
    rw [hstats, Except.ok.injEq] at hother
    exact hother ▸ hdescribes
  have hbefore := hdescribes hreach hstart
  have hafter := hdescribes hreach' hfinal
  have hmoves := run_moves (reachable_wellFormed hreach) hrun
  have hused := hmoves.used
  rw [total_usedCount, total_usedCount] at hused
  rw [hbefore.occupied, hbefore.tombstones, hbefore.totalConfidence, hafter.occupied,
    hafter.tombstones, hafter.totalConfidence, ← total_liveCount, ← total_buriedCount,
    ← total_liveConfidence, ← total_liveCount, ← total_buriedCount, ← total_liveConfidence]
  exact ⟨hmoves.live, hused, hmoves.decayed, hmoves.undecayed⟩

theorem statistics_along_run_deposited :
    ∃ out out', stats (deposited 40) = .ok out ∧
      stats (phtInsert UInt64.ofNat (deposited 40) (depositOf 30)).1 = .ok out' ∧
      out'.occupied = out.occupied ∧
      out'.totalConfidence.toNat + 40 = out.totalConfidence.toNat + 70 := by
  have hrun : (sequential UInt64.ofNat).run (deposited 40) [.insert (depositOf 30)] =
      some (phtInsert UInt64.ofNat (deposited 40) (depositOf 30)).1 := rfl
  have hgood := reachable_wellFormed (deposited_reachable 40)
  obtain ⟨out, hout, -⟩ := stats_describes hgood (n := 1) rfl
  obtain ⟨out', hout', -⟩ := stats_describes (hgood.insert UInt64.ofNat (depositOf 30)) (n := 1) rfl
  obtain ⟨hlive, -, -, hevidence⟩ :=
    statistics_along_run UInt64.ofNat (deposited_reachable 40) hrun hout hout'
  refine ⟨out, out', hout, hout', UInt32.toNat_inj.mp hlive, ?_⟩
  have hbefore : summed UInt64.ofNat (answerBefore UInt64.ofNat) (deposited 40)
      [.insert (depositOf 30)] = 40 := by decide
  have hafter : summed UInt64.ofNat (answerAfter UInt64.ofNat) (deposited 40)
      [.insert (depositOf 30)] = 70 := by decide
  rw [← hbefore, ← hafter]
  exact hevidence fun call hmem => by
    rw [List.mem_singleton.mp hmem]
    rfl

end Pheromone
end LibWake
