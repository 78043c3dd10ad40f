import Mathlib.Data.Finset.Card
import Mathlib.Data.Finset.Lattice.Basic
import Mathlib.Data.List.Nodup
import Mathlib.Order.Defs.LinearOrder

/-!
# Taking the least candidates one by one

A selection loop marks what it has taken and takes, each time, one of the least of
the unmarked candidates.  What it takes comes in the order of the keys, and what it
leaves has no smaller key than anything it took.
-/

namespace LibWake
namespace RepeatedMinimum

variable {ι κ : Type*} [LinearOrder κ]

/-- The search finds a least unmarked candidate, and none only when all of them are
marked. -/
structure ChoosesLeast (choose : List ι → Option ι) (candidates : Finset ι)
    (key : ι → κ) : Prop where
  least : ∀ marked i, choose marked = some i → i ∈ candidates ∧ i ∉ marked ∧
    ∀ j ∈ candidates, j ∉ marked → key i ≤ key j
  complete : ∀ marked, choose marked = none → ∀ j ∈ candidates, j ∈ marked

/-- The candidates which the loop takes in at most `count` turns. -/
def picks (choose : List ι → Option ι) : ℕ → List ι → List ι
  | 0, _ => []
  | count + 1, marked =>
      match choose marked with
      | none => []
      | some i => i :: picks choose count (i :: marked)

variable {choose : List ι → Option ι} {candidates : Finset ι} {key : ι → κ}

theorem mem_picks (hchoose : ChoosesLeast choose candidates key) {count : ℕ}
    {marked : List ι} {i : ι} (hmem : i ∈ picks choose count marked) :
    i ∈ candidates ∧ i ∉ marked := by
  induction count generalizing marked with
  | zero => cases hmem
  | succ count ih =>
      rw [picks] at hmem
      cases hfound : choose marked with
      | none =>
          rw [hfound] at hmem
          cases hmem
      | some first =>
          rw [hfound] at hmem
          obtain ⟨hcandidate, hunmarked, -⟩ := hchoose.least marked first hfound
          rcases List.mem_cons.mp hmem with rfl | hrest
          · exact ⟨hcandidate, hunmarked⟩
          · obtain ⟨hi, hnot⟩ := ih hrest
            exact ⟨hi, fun hold => hnot (List.mem_cons_of_mem _ hold)⟩

theorem picks_nodup (hchoose : ChoosesLeast choose candidates key) (count : ℕ)
    (marked : List ι) : (picks choose count marked).Nodup := by
  induction count generalizing marked with
  | zero => exact List.nodup_nil
  | succ count ih =>
      rw [picks]
      cases choose marked with
      | none => exact List.nodup_nil
      | some first =>
          refine List.nodup_cons.mpr ⟨fun hmem => ?_, ih (first :: marked)⟩
          exact (mem_picks hchoose hmem).2 List.mem_cons_self

/-- The keys of what is taken never decrease. -/
theorem picks_sorted (hchoose : ChoosesLeast choose candidates key) (count : ℕ)
    (marked : List ι) :
    (picks choose count marked).Pairwise fun i j => key i ≤ key j := by
  induction count generalizing marked with
  | zero => exact List.Pairwise.nil
  | succ count ih =>
      rw [picks]
      cases hfound : choose marked with
      | none => exact List.Pairwise.nil
      | some first =>
          refine List.pairwise_cons.mpr ⟨fun j hj => ?_, ih (first :: marked)⟩
          obtain ⟨hcandidate, hunmarked⟩ := mem_picks hchoose hj
          exact (hchoose.least marked first hfound).2.2 j hcandidate
            fun hold => hunmarked (List.mem_cons_of_mem _ hold)

/-- A candidate which is left has no smaller key than one which is taken. -/
theorem picks_least (hchoose : ChoosesLeast choose candidates key) {count : ℕ}
    {marked : List ι} {i j : ι} (hi : i ∈ picks choose count marked)
    (hj : j ∈ candidates) (hunmarked : j ∉ marked)
    (hleft : j ∉ picks choose count marked) : key i ≤ key j := by
  induction count generalizing marked with
  | zero => cases hi
  | succ count ih =>
      rw [picks] at hi hleft
      cases hfound : choose marked with
      | none =>
          rw [hfound] at hi
          cases hi
      | some first =>
          rw [hfound] at hi hleft
          obtain ⟨hne, hrest⟩ := not_or.mp (mt List.mem_cons.mpr hleft)
          rcases List.mem_cons.mp hi with rfl | hi
          · exact (hchoose.least marked _ hfound).2.2 j hj hunmarked
          · refine ih hi ?_ hrest
            exact fun hmem => hunmarked ((List.mem_cons.mp hmem).resolve_left hne)

/-- The loop takes as many as it may, or every unmarked candidate. -/
theorem length_picks [DecidableEq ι] (hchoose : ChoosesLeast choose candidates key)
    (count : ℕ) (marked : List ι) :
    (picks choose count marked).length =
      min count (candidates.filter (· ∉ marked)).card := by
  induction count generalizing marked with
  | zero => rw [picks, List.length_nil, Nat.zero_min]
  | succ count ih =>
      rw [picks]
      cases hfound : choose marked with
      | none =>
          have hempty : candidates.filter (· ∉ marked) = ∅ := by
            rw [Finset.filter_eq_empty_iff]
            exact fun j hj hnot => hnot (hchoose.complete marked hfound j hj)
          rw [hempty, Finset.card_empty, Nat.min_zero, List.length_nil]
      | some first =>
          obtain ⟨hcandidate, hunmarked, -⟩ := hchoose.least marked first hfound
          have hmem : first ∈ candidates.filter (· ∉ marked) :=
            Finset.mem_filter.mpr ⟨hcandidate, hunmarked⟩
          have hrest : candidates.filter (· ∉ first :: marked) =
              (candidates.filter (· ∉ marked)).erase first := by
            ext j
            simp only [Finset.mem_filter, Finset.mem_erase, List.mem_cons, not_or]
            tauto
          have hpos : 0 < (candidates.filter (· ∉ marked)).card :=
            Finset.card_pos.mpr ⟨first, hmem⟩
          rw [List.length_cons, ih, hrest, Finset.card_erase_of_mem hmem]
          omega

end RepeatedMinimum
end LibWake
