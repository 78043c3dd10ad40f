import Mathlib.Data.List.Count

/-!
# Tables of optional slots

A table is a list of slots which are empty or hold an entry, with a counter of the
entries beside it.  Filling an empty slot raises the number of entries, clearing a
slot lowers it, overwriting an entry keeps it.  A pass rewrites the slots in order.
-/

namespace LibWake
namespace SlotTable

variable {α : Type*}

/-! ## The number of entries -/

def occupied (slots : List (Option α)) : ℕ := slots.countP Option.isSome

theorem occupied_replicate (size : ℕ) : occupied (List.replicate size (none : Option α)) = 0 := by
  rw [occupied, List.countP_replicate]
  rfl

theorem getElem?_of_free {slots : List (Option α)} {i : ℕ}
    (hfree : slots.findIdx? Option.isNone = some i) : slots[i]? = some none := by
  obtain ⟨hi, hnone, _⟩ := List.findIdx?_eq_some_iff_getElem.mp hfree
  rw [List.getElem?_eq_getElem hi, Option.isNone_iff_eq_none.mp hnone]

theorem getElem?_of_full {slots : List (Option α)} {i : ℕ}
    (hfull : slots.findIdx? Option.isNone = none) (hi : i < slots.length) :
    ∃ entry, slots[i]? = some (some entry) := by
  have hsome := List.findIdx?_eq_none_iff.mp hfull _ (List.getElem_mem hi)
  obtain ⟨entry, hentry⟩ := Option.isSome_iff_exists.mp (Option.isNone_eq_false_iff.mp hsome)
  exact ⟨entry, by rw [List.getElem?_eq_getElem hi, hentry]⟩

theorem occupied_set {slots : List (Option α)} {i : ℕ} {old : Option α}
    (hget : slots[i]? = some old) (slot : Option α) :
    occupied (slots.set i slot) + (if old.isSome then 1 else 0) =
      occupied slots + (if slot.isSome then 1 else 0) := by
  obtain ⟨hi, rfl⟩ := List.getElem?_eq_some_iff.mp hget
  have hset := List.countP_set (p := Option.isSome) (a := slot) hi
  have hle : (if slots[i].isSome then 1 else 0) ≤ slots.countP Option.isSome := by
    split_ifs with hsome
    · exact List.countP_pos_iff.mpr ⟨_, List.getElem_mem hi, hsome⟩
    · exact Nat.zero_le _
  rw [occupied, occupied, hset]
  omega

theorem occupied_fill {slots : List (Option α)} {i : ℕ} (hget : slots[i]? = some none)
    (entry : α) : occupied (slots.set i (some entry)) = occupied slots + 1 := by
  simpa using occupied_set hget (some entry)

theorem occupied_overwrite {slots : List (Option α)} {i : ℕ} {old : α}
    (hget : slots[i]? = some (some old)) (entry : α) :
    occupied (slots.set i (some entry)) = occupied slots := by
  simpa using occupied_set hget (some entry)

theorem occupied_clear {slots : List (Option α)} {i : ℕ} {old : α}
    (hget : slots[i]? = some (some old)) :
    occupied (slots.set i none) = occupied slots - 1 := by
  have hset := occupied_set hget none
  simp only [Option.isSome_some, if_true, Option.isSome_none, Bool.false_eq_true, if_false] at hset
  omega

/-! ## Passes -/

/-- The table while a pass has rewritten its first `k` slots. -/
def swept (rewrite : Option α → Option α) (slots : List (Option α)) (k : ℕ) :
    List (Option α) :=
  (slots.take k).map rewrite ++ slots.drop k

theorem swept_length (rewrite : Option α → Option α) (slots : List (Option α)) :
    swept rewrite slots slots.length = slots.map rewrite := by
  rw [swept, List.take_length, List.drop_length, List.append_nil]

theorem getElem?_swept_self (rewrite : Option α → Option α) {slots : List (Option α)} {k : ℕ}
    (hk : k < slots.length) : (swept rewrite slots k)[k]? = some slots[k] := by
  have hfront : ((slots.take k).map rewrite).length = k := by
    rw [List.length_map, List.length_take]
    omega
  rw [swept, List.getElem?_append_right (Nat.le_of_eq hfront), hfront, Nat.sub_self,
    List.getElem?_drop, Nat.add_zero, List.getElem?_eq_getElem hk]

theorem set_swept (rewrite : Option α → Option α) {slots : List (Option α)} {k : ℕ}
    (hk : k < slots.length) :
    (swept rewrite slots k).set k (rewrite slots[k]) = swept rewrite slots (k + 1) := by
  have hfront : ((slots.take k).map rewrite).length = k := by
    rw [List.length_map, List.length_take]
    omega
  rw [swept, List.set_append_right _ _ (Nat.le_of_eq hfront), hfront, Nat.sub_self,
    List.drop_eq_getElem_cons hk, List.set_cons_zero, swept,
    List.take_succ_eq_append_getElem hk, List.map_append, List.append_assoc]
  rfl

/-- A slot which the pass leaves as it is. -/
theorem swept_of_eq {rewrite : Option α → Option α} {slots : List (Option α)} {k : ℕ}
    (hk : k < slots.length) (hsame : rewrite slots[k] = slots[k]) :
    swept rewrite slots (k + 1) = swept rewrite slots k := by
  rw [← set_swept rewrite hk, hsame]
  obtain ⟨hlt, hget⟩ := List.getElem?_eq_some_iff.mp (getElem?_swept_self rewrite hk)
  rw [← hget, List.set_getElem_self]

end SlotTable
end LibWake
