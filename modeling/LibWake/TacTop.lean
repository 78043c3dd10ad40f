import LibWake.HeaviestKept
import LibWake.SlotPass
import LibWake.TacQuery

/-!
# The edges which a snapshot lists

`top_insert` offers an edge to the list of a snapshot.  A table which was opened from a file may
hold more visible edges of an entity than the list takes; the list then has the heaviest.
-/

namespace LibWake
namespace Tac

open HeaviestKept

theorem lightestIdx_lt (top : List Edge) : lightestIdx top < queryTopMax := by
  unfold lightestIdx
  refine SlotPass.foldl_range_induction (motive := fun _ minI => minI < queryTopMax)
    queryTopMax (by decide) fun k minI hk hlt => ?_
  split_ifs
  · exact hk
  · exact hlt

/-- The scan of `top_insert` finds an edge of least weight. -/
theorem lightestIdx_least (top : List Edge) {j : ℕ} (hj : j < queryTopMax) :
    (top.getD (lightestIdx top) Edge.zero).weight ≤ (top.getD j Edge.zero).weight := by
  unfold lightestIdx
  refine SlotPass.foldl_range_induction (motive := fun k minI => ∀ j < k,
    (top.getD minI Edge.zero).weight ≤ (top.getD j Edge.zero).weight) queryTopMax ?_ ?_ j hj
  · exact fun j hj => absurd hj (Nat.not_lt_zero j)
  · intro k minI _ hleast j hj
    rcases Nat.lt_succ_iff_lt_or_eq.mp hj with hbelow | rfl
    · split_ifs with hless
      · exact hless.le.trans (hleast j hbelow)
      · exact hleast j hbelow
    · split_ifs with hless
      · exact le_rfl
      · exact not_lt.mp hless

theorem lightestIdx_finds : FindsLightest Edge.weight lightestIdx queryTopMax := by
  intro top hlength
  have hlt : lightestIdx top < top.length := hlength ▸ lightestIdx_lt top
  refine ⟨top[lightestIdx top], List.getElem?_eq_getElem hlt, fun edge hmem => ?_⟩
  obtain ⟨j, hj, rfl⟩ := List.mem_iff_getElem.mp hmem
  have hleast := lightestIdx_least top (hlength ▸ hj)
  rwa [List.getD_eq_getElem _ _ hlt, List.getD_eq_getElem _ _ hj] at hleast

theorem topInsert_eq_offer (top : List Edge) (cand : Edge) :
    topInsert top cand = offer Edge.weight lightestIdx queryTopMax top cand := by
  rw [topInsert, offer]
  split_ifs with hroom hheavy
  · rfl
  · have hlt : lightestIdx top < top.length :=
      (lightestIdx_lt top).trans_le (Nat.le_of_not_lt hroom)
    rw [List.getD_eq_getElem _ _ hlt] at hheavy
    rw [List.getElem?_eq_getElem hlt]
    exact (if_pos hheavy).symm
  · have hlt : lightestIdx top < top.length :=
      (lightestIdx_lt top).trans_le (Nat.le_of_not_lt hroom)
    rw [List.getD_eq_getElem _ _ hlt] at hheavy
    rw [List.getElem?_eq_getElem hlt]
    exact (if_neg hheavy).symm

theorem foldl_topInsert_eq (cands : List Edge) :
    cands.foldl topInsert [] =
      cands.foldl (offer Edge.weight lightestIdx queryTopMax) [] :=
  List.foldl_ext _ _ _ fun top cand _ => topInsert_eq_offer top cand

/-- Folded over any sequence of edges, `top_insert` keeps as many as the list takes, each one an
occurrence of its own, and leaves out none which outweighs one that it keeps. -/
theorem topInsert_keeps_heaviest (cands : List Edge) :
    ∃ kept, Keeps Edge.weight queryTopMax cands (cands.foldl topInsert []) kept := by
  rw [foldl_topInsert_eq]
  exact exists_keeps lightestIdx_finds cands

/-! ## Queries of any table -/

/-- The visible edges of an entity, in the order of the entry array. -/
def Table.shownEdges (table : Table) (ehash : UInt64) : List Edge :=
  (table.shownSlots ehash).map fun idx => edgeOf (table.entries idx)

theorem foldl_queryStep_top (table : Table) (ehash : UInt64) (slots : List ℕ)
    (hvisible : ∀ idx ∈ slots, visibleTo ehash (table.entries idx)) (snapshot : Snapshot) :
    (slots.foldl (fun acc idx => queryStep ehash acc (table.entries idx)) snapshot).top =
      (slots.map fun idx => edgeOf (table.entries idx)).foldl topInsert snapshot.top := by
  induction slots generalizing snapshot with
  | nil => rfl
  | cons idx rest ih =>
      rw [List.foldl_cons, ih fun other hmem => hvisible other (List.mem_cons_of_mem _ hmem),
        List.map_cons, List.foldl_cons, queryStep, if_pos (hvisible idx List.mem_cons_self)]

/-- Whatever the table holds, the list of a snapshot has the heaviest visible edges. -/
theorem query_keeps_heaviest {keyedHash : KeyedHash} {table : Table} {key : List UInt8}
    {snapshot : Snapshot} (hquery : query keyedHash table key = some snapshot) :
    ∃ kept, Keeps Edge.weight queryTopMax
      (table.shownEdges (entityHashOf keyedHash table key)) snapshot.top kept := by
  rw [query] at hquery
  split_ifs at hquery with hkey
  obtain rfl := Option.some.inj hquery
  generalize entityHashOf keyedHash table key = ehash
  have hvisible : ∀ idx ∈ table.shownSlots ehash, visibleTo ehash (table.entries idx) :=
    fun idx hmem => of_decide_eq_true (List.mem_filter.mp hmem).2
  rw [foldl_shownSlots table ehash (queryStep ehash) fun acc entry hhidden => if_neg hhidden,
    foldl_queryStep_top table ehash _ hvisible, ← Table.shownEdges, foldl_topInsert_eq]
  exact exists_keeps lightestIdx_finds _

end Tac
end LibWake
