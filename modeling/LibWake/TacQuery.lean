import Mathlib.Algebra.BigOperators.Group.Finset.Basic
import Mathlib.Algebra.Order.BigOperators.Group.Finset
import LibWake.TacEdges
import LibWake.TacRead

/-!
# What a query answers

The read path trusts three invariants of the writer: an entity has at most 32 edges, no pair of
techniques has two edges of one entity, and the budgets bound every weight.  With them the walk
of `wake_tac_query` is a sum and a list over the visible edges.
-/

namespace LibWake
namespace Tac

/-! ## Visible edges -/

/-- The live edges of an entity whose quarantine flag is clear. -/
def Table.visibleEdges (table : Table) (ehash : UInt64) : Finset ℕ :=
  (table.edges ehash).filter fun idx => (table.entries idx).quarantine = 0

/-- The slots which the walk of a reader counts, in the order of the walk. -/
def Table.shownSlots (table : Table) (ehash : UInt64) : List ℕ :=
  (List.range table.header.capacity).filter fun idx => visibleTo ehash (table.entries idx)

/-- What the read path relies on. -/
structure Readable (keyedHash : KeyedHash) (table : Table) : Prop where
  linked : Linked keyedHash table
  capped : Capped table
  weight_pos : ∀ idx, (table.entries idx).Live → 1 ≤ (table.entries idx).weight
  weight_le : ∀ idx, (table.entries idx).Live → (table.entries idx).weight ≤ 5 * 65535

theorem edge_reachable_readable {keyedHash : KeyedHash} {history : History}
    (hreach : (edgeWriter keyedHash).Reachable history) : Readable keyedHash history.table := by
  have hlinked := edge_reachable_linked hreach
  have hgood := audited_rule.edge_reachable hreach
  refine ⟨hlinked, edge_reachable_capped hreach, ?_, ?_⟩
  · intro idx hlive
    exact (hgood.live idx (hlinked.lt_of_live hlive) hlive).weight_pos
  · intro idx hlive
    have haudited := hgood.live idx (hlinked.lt_of_live hlive) hlive
    calc
      (history.table.entries idx).weight
          ≤ totalSpent (history.table.entries idx).budget := haudited.weight_le
      _ ≤ (history.table.entries idx).srcCount * history.table.header.budgetPerSource :=
        haudited.totalSpent_le
      _ ≤ 5 * 65535 := haudited.srcCount_mul_le hgood.sound

theorem reachable_readable {keyedHash : KeyedHash} {history : History}
    (hreach : (writer keyedHash).Reachable history) : Readable keyedHash history.table :=
  edge_reachable_readable (reachable_edges hreach)

namespace Readable

variable {keyedHash : KeyedHash} {table : Table}

theorem mem_visibleEdges (hreadable : Readable keyedHash table) {ehash : UInt64} {idx : ℕ} :
    idx ∈ table.visibleEdges ehash ↔
      idx < table.header.capacity ∧ visibleTo ehash (table.entries idx) := by
  rw [Table.visibleEdges, Finset.mem_filter, mem_edges]
  constructor
  · rintro ⟨⟨hlt, hlive, hhash⟩, hclear⟩
    have hpos := hreadable.weight_pos idx hlive
    exact ⟨hlt, hlive, by omega, hhash, hclear⟩
  · rintro ⟨hlt, hlive, _, hhash, hclear⟩
    exact ⟨⟨hlt, hlive, hhash⟩, hclear⟩

theorem mem_shownSlots (hreadable : Readable keyedHash table) {ehash : UInt64} {idx : ℕ} :
    idx ∈ table.shownSlots ehash ↔ idx ∈ table.visibleEdges ehash := by
  rw [hreadable.mem_visibleEdges, Table.shownSlots, List.mem_filter, List.mem_range,
    decide_eq_true_iff]

theorem shownSlots_toFinset (hreadable : Readable keyedHash table) (ehash : UInt64) :
    (table.shownSlots ehash).toFinset = table.visibleEdges ehash := by
  ext idx
  rw [List.mem_toFinset, hreadable.mem_shownSlots]

theorem shownSlots_nodup (table : Table) (ehash : UInt64) : (table.shownSlots ehash).Nodup :=
  List.nodup_range.filter _

theorem shownSlots_length (hreadable : Readable keyedHash table) (ehash : UInt64) :
    (table.shownSlots ehash).length = (table.visibleEdges ehash).card := by
  rw [← hreadable.shownSlots_toFinset, List.toFinset_card_of_nodup (shownSlots_nodup table ehash)]

theorem sum_shownSlots (hreadable : Readable keyedHash table) (ehash : UInt64) (f : ℕ → ℕ) :
    ((table.shownSlots ehash).map f).sum = ∑ idx ∈ table.visibleEdges ehash, f idx := by
  rw [← hreadable.shownSlots_toFinset, List.sum_toFinset f (shownSlots_nodup table ehash)]

theorem card_visibleEdges_le (hreadable : Readable keyedHash table) (ehash : UInt64) :
    (table.visibleEdges ehash).card ≤ queryTopMax :=
  (Finset.card_filter_le _ _).trans (hreadable.capped.card_le_capMax ehash)

theorem sum_weight_le (hreadable : Readable keyedHash table) (ehash : UInt64) :
    ∑ idx ∈ table.visibleEdges ehash, (table.entries idx).weight ≤
      queryTopMax * (5 * 65535) := by
  calc
    ∑ idx ∈ table.visibleEdges ehash, (table.entries idx).weight
        ≤ (table.visibleEdges ehash).card * (5 * 65535) := by
      apply Finset.sum_le_card_nsmul
      intro idx hmem
      exact hreadable.weight_le idx (hreadable.mem_visibleEdges.mp hmem).2.1
    _ ≤ queryTopMax * (5 * 65535) :=
      Nat.mul_le_mul_right _ (hreadable.card_visibleEdges_le ehash)

/-- Two edges of an entity between the same techniques are one edge. -/
theorem eq_of_pair (hreadable : Readable keyedHash table) {ehash : UInt64} {idx other : ℕ}
    (hidx : idx ∈ table.edges ehash) (hother : other ∈ table.edges ehash)
    (hlo : (table.entries idx).tLo = (table.entries other).tLo)
    (hhi : (table.entries idx).tHi = (table.entries other).tHi) : idx = other := by
  obtain ⟨_, hlive, hhash⟩ := mem_edges.mp hidx
  obtain ⟨_, hliveOther, hhashOther⟩ := mem_edges.mp hother
  have hkey : (table.entries idx).keyHash = (table.entries other).keyHash := by
    rw [(hreadable.linked.keyed idx hlive).key_eq,
      (hreadable.linked.keyed other hliveOther).key_eq, hhash, hhashOther, hlo, hhi]
  exact hreadable.linked.wellProbed.unique idx other _ (edgeSlots_eq_live_iff.mpr ⟨rfl, hlive⟩)
    (edgeSlots_eq_live_iff.mpr ⟨hkey.symm, hliveOther⟩)

end Readable

/-- A walk which passes over what is not visible is a walk over the shown slots. -/
theorem foldl_shownSlots {β : Type} (table : Table) (ehash : UInt64) (step : β → Entry → β)
    (hskip : ∀ acc entry, ¬ visibleTo ehash entry → step acc entry = acc) (start : β) :
    (List.range table.header.capacity).foldl (fun acc i => step acc (table.entries i)) start =
      (table.shownSlots ehash).foldl (fun acc i => step acc (table.entries i)) start := by
  rw [Table.shownSlots, List.foldl_filter]
  apply List.foldl_ext
  intro acc idx _
  by_cases hvisible : visibleTo ehash (table.entries idx)
  · rw [if_pos (decide_eq_true hvisible)]
  · rw [if_neg (by simpa using hvisible), hskip acc _ hvisible]

/-! ## The walk of a query -/

theorem topInsert_of_room {top : List Edge} (hroom : top.length < queryTopMax) (cand : Edge) :
    topInsert top cand = top ++ [cand] :=
  if_pos hroom

/-- While neither the counters nor the list overflow, the walk adds and appends. -/
theorem foldl_queryStep (table : Table) (ehash : UInt64) {slots : List ℕ}
    (hvisible : ∀ idx ∈ slots, visibleTo ehash (table.entries idx)) {snapshot : Snapshot}
    (hmass : snapshot.couplingMass + (slots.map fun idx => (table.entries idx).weight).sum < 2 ^ 32)
    (hcount : snapshot.edgeCount + slots.length < 2 ^ 32)
    (hroom : snapshot.top.length + slots.length ≤ queryTopMax) :
    slots.foldl (fun acc idx => queryStep ehash acc (table.entries idx)) snapshot =
      ⟨snapshot.couplingMass + (slots.map fun idx => (table.entries idx).weight).sum,
        snapshot.edgeCount + slots.length,
        snapshot.top ++ slots.map fun idx => edgeOf (table.entries idx)⟩ := by
  induction slots generalizing snapshot with
  | nil => simp
  | cons idx rest ih =>
      simp only [List.map_cons, List.sum_cons, List.length_cons] at hmass hcount hroom
      have hstep : queryStep ehash snapshot (table.entries idx) =
          ⟨snapshot.couplingMass + (table.entries idx).weight, snapshot.edgeCount + 1,
            snapshot.top ++ [edgeOf (table.entries idx)]⟩ := by
        rw [queryStep, if_pos (hvisible idx List.mem_cons_self),
          topInsert_of_room (by omega), Nat.mod_eq_of_lt (by omega), Nat.mod_eq_of_lt (by omega)]
      rw [List.foldl_cons, hstep, ih fun other hmem => hvisible other (List.mem_cons_of_mem _ hmem)]
      · simp [Nat.add_assoc, Nat.add_comm 1]
      · simp only
        omega
      · simp only
        omega
      · simp only [List.length_append, List.length_singleton]
        omega

/-- What the walk of `wake_tac_query` leaves in the snapshot. -/
theorem query_eq {keyedHash : KeyedHash} {table : Table} (hreadable : Readable keyedHash table)
    {key : List UInt8} (hkey : key ≠ []) :
    query keyedHash table key = some
      ⟨∑ idx ∈ table.visibleEdges (entityHashOf keyedHash table key), (table.entries idx).weight,
        (table.visibleEdges (entityHashOf keyedHash table key)).card,
        (table.shownSlots (entityHashOf keyedHash table key)).map
          fun idx => edgeOf (table.entries idx)⟩ := by
  rw [query, if_neg hkey]
  generalize entityHashOf keyedHash table key = ehash
  have hcard := hreadable.card_visibleEdges_le ehash
  have hsum := hreadable.sum_weight_le ehash
  simp only [queryTopMax] at hcard hsum
  rw [foldl_shownSlots table ehash (queryStep ehash) fun acc entry hhidden => if_neg hhidden,
    foldl_queryStep table ehash fun idx hmem =>
      (hreadable.mem_visibleEdges.mp (hreadable.mem_shownSlots.mp hmem)).2]
  · simp [hreadable.sum_shownSlots, hreadable.shownSlots_length]
  · rw [hreadable.sum_shownSlots]
    simp only
    omega
  · rw [hreadable.shownSlots_length]
    simp only
    omega
  · rw [hreadable.shownSlots_length]
    simp only [List.length_nil, queryTopMax]
    omega

/-- The value which `wake_tac_query` returns. -/
def queryAnswer (keyedHash : KeyedHash) (table : Table) (key : List UInt8) : Bool :=
  match query keyedHash table key with
  | none => false
  | some snapshot => snapshot.edgeCount > 0

/-- The snapshot of an entity is exact: the count, the mass without wrapping, and each visible
edge once. -/
structure Snapshot.Exact (table : Table) (ehash : UInt64) (snapshot : Snapshot) : Prop where
  edgeCount_eq : snapshot.edgeCount = (table.visibleEdges ehash).card
  couplingMass_eq : snapshot.couplingMass =
    ∑ idx ∈ table.visibleEdges ehash, (table.entries idx).weight
  topCount_eq : snapshot.top.length = snapshot.edgeCount
  top_once : (snapshot.top.map fun edge => (edge.tLo, edge.tHi)).Nodup
  mem_top_iff : ∀ edge, edge ∈ snapshot.top ↔
    ∃ idx ∈ table.visibleEdges ehash, edge = edgeOf (table.entries idx)

theorem Readable.exact {keyedHash : KeyedHash} {table : Table}
    (hreadable : Readable keyedHash table) (ehash : UInt64) :
    Snapshot.Exact table ehash
      ⟨∑ idx ∈ table.visibleEdges ehash, (table.entries idx).weight,
        (table.visibleEdges ehash).card,
        (table.shownSlots ehash).map fun idx => edgeOf (table.entries idx)⟩ where
  edgeCount_eq := rfl
  couplingMass_eq := rfl
  topCount_eq := by
    rw [List.length_map, hreadable.shownSlots_length]
  top_once := by
    rw [List.map_map]
    apply List.Nodup.map_on _ (shownSlots_nodup table ehash)
    intro idx hidx other hother hpair
    have hedge : ∀ slot ∈ table.shownSlots ehash, slot ∈ table.edges ehash := fun slot hslot =>
      (Finset.mem_filter.mp (hreadable.mem_shownSlots.mp hslot)).1
    simp only [Function.comp_apply, edgeOf, Prod.mk.injEq] at hpair
    exact hreadable.eq_of_pair (hedge idx hidx) (hedge other hother) hpair.1 hpair.2
  mem_top_iff edge := by
    rw [List.mem_map]
    constructor
    · rintro ⟨idx, hmem, rfl⟩
      exact ⟨idx, hreadable.mem_shownSlots.mp hmem, rfl⟩
    · rintro ⟨idx, hmem, rfl⟩
      exact ⟨idx, hreadable.mem_shownSlots.mpr hmem, rfl⟩

/-- In every reachable state a query of a non-empty key answers exactly what the visible edges of
the entity are. -/
theorem query_exact (keyedHash : KeyedHash) (history : History)
    (hreach : (writer keyedHash).Reachable history) (key : List UInt8) (hkey : key ≠ []) :
    ∃ snapshot, query keyedHash history.table key = some snapshot ∧
      snapshot.Exact history.table (entityHashOf keyedHash history.table key) ∧
      (queryAnswer keyedHash history.table key = true ↔ 0 < snapshot.edgeCount) := by
  have hreadable := reachable_readable hreach
  refine ⟨_, query_eq hreadable hkey, hreadable.exact _, ?_⟩
  rw [queryAnswer, query_eq hreadable hkey]
  exact decide_eq_true_iff

theorem query_exact_twoWitnesses :
    ∃ snapshot, query (fun _ _ => 7) twoWitnesses.table [1] = some snapshot ∧
      snapshot.Exact twoWitnesses.table
        (entityHashOf (fun _ _ => 7) twoWitnesses.table [1]) ∧
      (queryAnswer (fun _ _ => 7) twoWitnesses.table [1] = true ↔ 0 < snapshot.edgeCount) :=
  query_exact _ twoWitnesses (reachable_replay _ _) [1] (by decide)

end Tac
end LibWake
