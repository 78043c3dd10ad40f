import Mathlib.Data.Finset.Card
import Mathlib.Data.Finset.Range
import Mathlib.Algebra.Order.BigOperators.Group.Finset
import Mathlib.Logic.Function.Basic

/-!
# Passes over an array of slots

The loop which visits the slots below a bound in order.  When its body rewrites the slot it visits
and no other, each slot below the bound is rewritten once, from its own contents; a counter which
the body steps on some contents ends as their number.
-/

namespace LibWake
namespace SlotPass

variable {σ α : Type*}

/-- The induction rule of the loop: the slots below `k` have been visited. -/
theorem foldl_range_induction {step : σ → ℕ → σ} {start : σ} {motive : ℕ → σ → Prop} (n : ℕ)
    (hstart : motive 0 start)
    (hstep : ∀ k state, k < n → motive k state → motive (k + 1) (step state k)) :
    motive n ((List.range n).foldl step start) := by
  have hloop : ∀ k ≤ n, motive k ((List.range k).foldl step start) := by
    intro k
    induction k with
    | zero => exact fun _ => hstart
    | succ k ih =>
        intro hk
        rw [List.range_succ, List.foldl_append]
        exact hstep k _ (by omega) (ih (by omega))
  exact hloop n le_rfl

/-- The body keeps `Fixed`, and rewrites the slot which it visits by `rewrite`. -/
structure Rewrites (Fixed : σ → Prop) (slots : σ → ℕ → α) (rewrite : α → α)
    (step : σ → ℕ → σ) : Prop where
  fixed : ∀ state i, Fixed state → Fixed (step state i)
  slots_step : ∀ state i, Fixed state →
    slots (step state i) = Function.update (slots state) i (rewrite (slots state i))

namespace Rewrites

variable {Fixed : σ → Prop} {slots : σ → ℕ → α} {rewrite : α → α} {step : σ → ℕ → σ} {start : σ}

theorem fixed_foldl (hpass : Rewrites Fixed slots rewrite step) (hstart : Fixed start) (n : ℕ) :
    Fixed ((List.range n).foldl step start) :=
  foldl_range_induction (motive := fun _ => Fixed) n hstart
    fun k state _ hfixed => hpass.fixed state k hfixed

theorem slots_foldl (hpass : Rewrites Fixed slots rewrite step) (hstart : Fixed start)
    (n idx : ℕ) :
    slots ((List.range n).foldl step start) idx =
      if idx < n then rewrite (slots start idx) else slots start idx := by
  suffices hgood : Fixed ((List.range n).foldl step start) ∧
      slots ((List.range n).foldl step start) idx =
        if idx < n then rewrite (slots start idx) else slots start idx from hgood.2
  apply foldl_range_induction (motive := fun k state => Fixed state ∧
    slots state idx = if idx < k then rewrite (slots start idx) else slots start idx)
  · exact ⟨hstart, rfl⟩
  · rintro k state _ ⟨hfixed, hslots⟩
    refine ⟨hpass.fixed state k hfixed, ?_⟩
    rw [hpass.slots_step state k hfixed]
    by_cases heq : idx = k
    · subst heq
      rw [Function.update_self, hslots, if_neg (lt_irrefl _), if_pos (Nat.lt_succ_self _)]
    · rw [Function.update_of_ne heq, hslots]
      by_cases hlt : idx < k
      · rw [if_pos hlt, if_pos (by omega)]
      · rw [if_neg hlt, if_neg (by omega)]

/-- A counter which the body steps on the contents with property `p`. -/
theorem count_foldl (hpass : Rewrites Fixed slots rewrite step) (hstart : Fixed start)
    (count : σ → ℕ) (p : α → Prop) [DecidablePred p]
    (hcount : ∀ state i, Fixed state →
      count (step state i) = if p (slots state i) then count state + 1 else count state) (n : ℕ) :
    count ((List.range n).foldl step start) =
      count start + ((Finset.range n).filter fun idx => p (slots start idx)).card := by
  induction n with
  | zero => rfl
  | succ n ih =>
      have hslot := hpass.slots_foldl hstart n n
      rw [if_neg (lt_irrefl n)] at hslot
      rw [List.range_succ, List.foldl_append, List.foldl_cons, List.foldl_nil,
        hcount _ n (hpass.fixed_foldl hstart n), hslot, ih, Finset.range_add_one,
        Finset.filter_insert]
      split_ifs
      · rw [Finset.card_insert_of_notMem (by simp), Nat.add_assoc]
      · rfl

end Rewrites

/-! ## Walks with a callback -/

/-- The callback sees the items in turn until it answers false; the number of items which it saw,
and its context. -/
def showUntil {κ : Type*} (fn : α → κ → Bool × κ) : List α → ℕ × κ → ℕ × κ
  | [], state => state
  | item :: rest, (seen, context) =>
      if (fn item context).1 then showUntil fn rest (seen + 1, (fn item context).2)
      else (seen + 1, (fn item context).2)

/-! ## Tallies -/

section Tally

variable {slots : ℕ → α} {n : ℕ}

/-- The weights of the slots below a bound, added up. -/
def tally (weight : α → ℕ) (slots : ℕ → α) (n : ℕ) : ℕ :=
  ∑ idx ∈ Finset.range n, weight (slots idx)

theorem tally_succ (weight : α → ℕ) (slots : ℕ → α) (n : ℕ) :
    tally weight slots (n + 1) = tally weight slots n + weight (slots n) :=
  Finset.sum_range_succ _ n

/-- Rewriting one slot moves its weight and no other. -/
theorem tally_update (weight : α → ℕ) {idx : ℕ} (hlt : idx < n) (value : α) :
    tally weight (Function.update slots idx value) n + weight (slots idx) =
      tally weight slots n + weight value := by
  have hmem : idx ∈ Finset.range n := Finset.mem_range.mpr hlt
  have hrest : ∑ j ∈ (Finset.range n).erase idx, weight (Function.update slots idx value j) =
      ∑ j ∈ (Finset.range n).erase idx, weight (slots j) := by
    refine Finset.sum_congr rfl fun j hj => ?_
    rw [Function.update_of_ne (Finset.ne_of_mem_erase hj)]
  have hbefore := Finset.sum_erase_add _ (fun j => weight (slots j)) hmem
  have hafter := Finset.sum_erase_add _ (fun j => weight (Function.update slots idx value j)) hmem
  simp only [Function.update_self] at hafter
  unfold tally
  omega

theorem tally_le (weight : α → ℕ) {bound : ℕ} (hbound : ∀ a, weight a ≤ bound)
    (slots : ℕ → α) (n : ℕ) : tally weight slots n ≤ n * bound := by
  have hsum := Finset.sum_le_card_nsmul (Finset.range n) (fun j => weight (slots j)) bound
    fun j _ => hbound (slots j)
  simpa [tally] using hsum

end Tally

end SlotPass
end LibWake
