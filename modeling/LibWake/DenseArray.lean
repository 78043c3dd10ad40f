import Mathlib.Data.List.Perm.Basic
import Mathlib.Data.Finset.Dedup
import Mathlib.Data.Finset.Card
import Mathlib.Data.Finset.Max
import Mathlib.Logic.Function.Basic

/-!
# Dense arrays without order

The used prefix of an array as a list, and the two operations which keep it
dense: appending at the end, and removing by moving the last element into the
hole.  An array of bounded length which meets the elements of a set in
increasing order, and refuses once it is full, ends up with the lowest of them.
-/

namespace LibWake
namespace DenseArray

open scoped List

variable {α : Type*}

/-- The first `n` elements of an array. -/
def used (array : ℕ → α) (n : ℕ) : List α := (List.range n).map array

@[simp] theorem used_length (array : ℕ → α) (n : ℕ) : (used array n).length = n := by
  simp [used]

theorem mem_used {array : ℕ → α} {n : ℕ} {x : α} :
    x ∈ used array n ↔ ∃ i < n, array i = x := by
  simp [used]

theorem used_congr {array array' : ℕ → α} {n : ℕ}
    (hagree : ∀ i < n, array i = array' i) : used array n = used array' n := by
  apply List.map_congr_left
  intro i hi
  exact hagree i (List.mem_range.mp hi)

theorem used_succ (array : ℕ → α) (n : ℕ) :
    used array (n + 1) = used array n ++ [array n] := by
  simp [used, List.range_succ]

theorem used_push (array : ℕ → α) (n : ℕ) (x : α) :
    used (Function.update array n x) (n + 1) = used array n ++ [x] := by
  rw [used_succ, Function.update_self]
  congr 1
  apply used_congr
  intro i hi
  exact Function.update_of_ne (Nat.ne_of_lt hi) x array

theorem used_update_of_lt {array : ℕ → α} {n i : ℕ} (x : α) :
    used (Function.update array i x) n = (used array n).set i x := by
  apply List.ext_getElem
  · simp
  · intro j hj _
    by_cases hij : i = j
    · subst hij
      simp [used]
    · simp [used, hij, Function.update_of_ne (Ne.symm hij)]

/-- Moving the last element into hole `i` removes exactly the element there. -/
theorem set_dropLast_perm {list : List α} {last : α} {i : ℕ} (hi : i < list.length)
    (hlast : list.getLast? = some last) :
    list ~ list[i] :: (list.set i last).dropLast := by
  obtain ⟨front, rfl⟩ := List.getLast?_eq_some_iff.mp hlast
  rw [List.length_append, List.length_singleton] at hi
  by_cases hend : i = front.length
  · subst hend
    simp
  · have hfront : i < front.length := by omega
    rw [List.set_append_left _ _ hfront, List.dropLast_concat,
      List.getElem_append_left hfront]
    calc
      front ++ [last] ~ last :: front := List.perm_append_singleton _ _
      _ ~ last :: front[i] :: front.eraseIdx i :=
        List.Perm.cons _ (List.getElem_cons_eraseIdx_perm hfront).symm
      _ ~ front[i] :: last :: front.eraseIdx i := List.Perm.swap _ _ _
      _ ~ front[i] :: front.set i last :=
        List.Perm.cons _ (List.set_perm_cons_eraseIdx hfront _).symm

theorem used_swapRemove_perm (array : ℕ → α) {n i : ℕ} (hi : i < n) :
    used array n ~
      array i :: used (Function.update array i (array (n - 1))) (n - 1) := by
  obtain ⟨m, rfl⟩ : ∃ m, n = m + 1 := ⟨n - 1, by omega⟩
  have hlength : i < (used array (m + 1)).length := by simpa using hi
  have hget : (used array (m + 1))[i] = array i := by simp [used]
  have hlast : (used array (m + 1)).getLast? = some (array m) := by
    rw [used_succ, List.getLast?_concat]
  have hperm := set_dropLast_perm hlength hlast
  rwa [hget, ← used_update_of_lt, used_succ (Function.update _ _ _),
    List.dropLast_concat] at hperm

/-- Overwriting an element by one with the same key keeps the list of keys. -/
theorem map_set_of_eq {β : Type*} {list : List α} {i : ℕ} {old new : α} (key : α → β)
    (hget : list[i]? = some old) (hkey : key new = key old) :
    (list.set i new).map key = list.map key := by
  obtain ⟨hlt, rfl⟩ := List.getElem?_eq_some_iff.mp hget
  have hlt' : i < (list.map key).length := by simpa using hlt
  rw [List.map_set, hkey, ← List.getElem_map key (h := hlt'), List.set_getElem_self]

/-- Reading an array at the indices of its selected elements gives these elements. -/
theorem map_getElem?_filter_range (list : List α) (selected : α → Bool) :
    ((List.range list.length).filter fun i => list[i]?.any selected).map (list[·]?) =
      (list.filter selected).map some := by
  induction list with
  | nil => rfl
  | cons head rest ih =>
      have hshift : (((List.range rest.length).map Nat.succ).filter fun i =>
          (head :: rest)[i]?.any selected).map ((head :: rest)[·]?) =
          (rest.filter selected).map some := by
        rw [List.filter_map, List.map_map, ← ih]
        rfl
      rw [List.length_cons, List.range_succ_eq_map, List.filter_cons, List.filter_cons]
      by_cases hselected : selected head = true
      · rw [if_pos (by simpa using hselected), if_pos hselected, List.map_cons, hshift,
          List.map_cons]
        rfl
      · rw [if_neg (by simpa using hselected), if_neg hselected, hshift]

theorem length_filter_range (list : List α) (selected : α → Bool) :
    ((List.range list.length).filter fun i => list[i]?.any selected).length =
      list.countP selected := by
  have hread := congrArg List.length (map_getElem?_filter_range list selected)
  rw [List.length_map, List.length_map] at hread
  rw [hread, List.countP_eq_length_filter]

/-- The used prefix lists the finite set `elements` without repetition. -/
def Lists [DecidableEq α] (array : ℕ → α) (n : ℕ) (elements : Finset α) : Prop :=
  (used array n).Nodup ∧ (used array n).toFinset = elements

namespace Lists

variable [DecidableEq α] {array : ℕ → α} {n : ℕ} {elements : Finset α}

theorem card_eq (hlists : Lists array n elements) : elements.card = n := by
  rw [← hlists.2, List.toFinset_card_of_nodup hlists.1, used_length]

theorem mem_iff (hlists : Lists array n elements) {x : α} :
    x ∈ elements ↔ ∃ i < n, array i = x := by
  rw [← hlists.2, List.mem_toFinset, mem_used]

theorem nil (array : ℕ → α) : Lists array 0 ∅ := by
  simp [Lists, used]

theorem push (hlists : Lists array n elements) {x : α} (hfresh : x ∉ elements) :
    Lists (Function.update array n x) (n + 1) (insert x elements) := by
  have hnot : x ∉ used array n := by
    rwa [← hlists.2, List.mem_toFinset] at hfresh
  unfold Lists
  rw [used_push]
  constructor
  · rw [List.nodup_append]
    refine ⟨hlists.1, by simp, ?_⟩
    intro a ha b hb hab
    simp only [List.mem_singleton] at hb
    exact hnot (hb ▸ hab ▸ ha)
  · ext y
    simp only [List.toFinset_append, hlists.2, Finset.mem_union,
      List.mem_toFinset, List.mem_singleton, Finset.mem_insert]
    exact or_comm

theorem swapRemove (hlists : Lists array n elements) {i : ℕ} (hi : i < n) :
    Lists (Function.update array i (array (n - 1))) (n - 1)
      (elements.erase (array i)) := by
  have hperm := used_swapRemove_perm array hi
  have hnodup := hperm.nodup_iff.mp hlists.1
  rw [List.nodup_cons] at hnodup
  refine ⟨hnodup.2, ?_⟩
  ext y
  have hmem : y ∈ elements ↔ y = array i ∨
      y ∈ used (Function.update array i (array (n - 1))) (n - 1) := by
    rw [← hlists.2, List.mem_toFinset, hperm.mem_iff, List.mem_cons]
  rw [List.mem_toFinset, Finset.mem_erase, hmem]
  constructor
  · intro hy
    exact ⟨fun heq => hnodup.1 (heq ▸ hy), Or.inr hy⟩
  · rintro ⟨hne, heq | hy⟩
    · exact absurd heq hne
    · exact hy

end Lists

/-! ## The lowest elements of a set -/

section Lowest

variable [LinearOrder α]

/-- The `n` lowest elements: those with fewer than `n` elements below them. -/
def lowest (n : ℕ) (s : Finset α) : Finset α :=
  s.filter fun x => (s.filter (· < x)).card < n

theorem lowest_subset (n : ℕ) (s : Finset α) : lowest n s ⊆ s := Finset.filter_subset _ _

theorem lowest_of_card_le {n : ℕ} {s : Finset α} (hcard : s.card ≤ n) : lowest n s = s := by
  apply Finset.filter_true_of_mem
  intro x hmem
  have hbelow : s.filter (· < x) ⊂ s :=
    Finset.filter_ssubset.mpr ⟨x, hmem, lt_irrefl x⟩
  exact (Finset.card_lt_card hbelow).trans_le hcard

/-- An element above all others enters the list only while there is room. -/
theorem lowest_insert_of_lt {n : ℕ} {s : Finset α} {top : α} (habove : ∀ x ∈ s, x < top) :
    lowest n (insert top s) =
      if s.card < n then insert top (lowest n s) else lowest n s := by
  have htop : (insert top s).filter (· < top) = s := by
    rw [Finset.filter_insert, if_neg (lt_irrefl top)]
    exact Finset.filter_true_of_mem habove
  have hold : ∀ x ∈ s, (insert top s).filter (· < x) = s.filter (· < x) := by
    intro x hmem
    rw [Finset.filter_insert, if_neg (habove x hmem).not_gt]
  unfold lowest
  rw [Finset.filter_insert, htop]
  rw [Finset.filter_congr fun x hmem => by rw [hold x hmem]]

theorem card_lowest (n : ℕ) (s : Finset α) : (lowest n s).card = min s.card n := by
  induction s using Finset.induction_on_max with
  | empty => simp [lowest]
  | insert top s habove ih =>
      have hnot : top ∉ s := fun hmem => lt_irrefl top (habove top hmem)
      rw [lowest_insert_of_lt habove, Finset.card_insert_of_notMem hnot]
      split_ifs with hroom
      · rw [Finset.card_insert_of_notMem fun hmem => hnot (lowest_subset n s hmem), ih]
        omega
      · rw [ih]
        omega

theorem lt_of_mem_lowest {n : ℕ} {s : Finset α} {x y : α} (hx : x ∈ lowest n s) (hy : y ∈ s)
    (hout : y ∉ lowest n s) : x < y := by
  by_contra hle
  have hbelow : s.filter (· < y) ⊆ s.filter (· < x) :=
    Finset.monotone_filter_right s fun z _ hz => lt_of_lt_of_le hz (not_lt.mp hle)
  apply hout
  exact Finset.mem_filter.mpr
    ⟨hy, (Finset.card_le_card hbelow).trans_lt (Finset.mem_filter.mp hx).2⟩

end Lowest

end DenseArray
end LibWake
