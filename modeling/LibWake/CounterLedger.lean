import Mathlib.Algebra.BigOperators.Group.Finset.Basic
import Mathlib.Algebra.Order.BigOperators.Group.Finset
import Mathlib.Data.Fintype.Basic

/-!
# A shared counter with an initialising owner

Several processes contribute once each to a counter.  One of them may own it
for a while, and ends its ownership by storing its own contribution.  While
nobody else contributes during the ownership, the counter always holds the sum
of the contributions made.
-/

namespace LibWake
namespace CounterLedger

variable {P Φ : Type*} [Fintype P]

/-- The contributions of the processes whose phase is done. -/
def contributed (done : Φ → Bool) (weight : P → ℕ) (phase : P → Φ) : ℕ :=
  ∑ q, if done (phase q) then weight q else 0

/-- The counter is owned and nothing is contributed yet, or it is free and
holds the contributions. -/
def Balanced (pending : Φ → Prop) (done : Φ → Bool) (weight : P → ℕ)
    (value : ℕ) (phase : P → Φ) : Prop :=
  (∃ p, pending (phase p)) ∧ (∀ q, done (phase q) = false) ∨
    (∀ p, ¬ pending (phase p)) ∧ value = contributed done weight phase

theorem contributed_le (done : Φ → Bool) (weight : P → ℕ) (phase : P → Φ) :
    contributed done weight phase ≤ ∑ q, weight q := by
  apply Finset.sum_le_sum
  intro q _
  split_ifs
  · exact le_rfl
  · exact Nat.zero_le _

theorem contributed_eq_zero {done : Φ → Bool} (weight : P → ℕ) {phase : P → Φ}
    (hnone : ∀ q, done (phase q) = false) : contributed done weight phase = 0 := by
  apply Finset.sum_eq_zero
  intro q _
  simp [hnone q]

variable {pending : Φ → Prop} {done : Φ → Bool} {weight : P → ℕ}
  {phase : P → Φ} {value : ℕ} {p : P} {next : Φ}

theorem Balanced.value_of_free (hbalanced : Balanced pending done weight value phase)
    (hfree : ∀ q, ¬ pending (phase q)) :
    value = contributed done weight phase := by
  rcases hbalanced with ⟨⟨q, hq⟩, _⟩ | ⟨_, hvalue⟩
  · exact absurd hq (hfree q)
  · exact hvalue

variable [DecidableEq P]

theorem contributed_update (hbefore : done (phase p) = false)
    (hafter : done next = true) :
    contributed done weight (Function.update phase p next) =
      contributed done weight phase + weight p := by
  unfold contributed
  rw [← Finset.sum_erase_add _ _ (Finset.mem_univ p),
    ← Finset.sum_erase_add _ (fun q => if done (phase q) then weight q else 0)
      (Finset.mem_univ p)]
  have hothers : ∀ q ∈ Finset.univ.erase p,
      (if done (Function.update phase p next q) then weight q else 0) =
        if done (phase q) then weight q else 0 := by
    intro q hmem
    rw [Function.update_of_ne (Finset.ne_of_mem_erase hmem)]
  rw [Finset.sum_congr rfl hothers]
  simp [hbefore, hafter]

/-- A process still to contribute has room below the sum of all weights. -/
theorem contributed_add_le (weight : P → ℕ) (hbefore : done (phase p) = false) :
    contributed done weight phase + weight p ≤ ∑ q, weight q := by
  have hgrown : contributed id weight
      (Function.update (fun q => done (phase q)) p true) =
        contributed done weight phase + weight p := contributed_update hbefore rfl
  rw [← hgrown]
  exact contributed_le _ _ _

namespace Balanced

theorem quiet (hbalanced : Balanced pending done weight value phase)
    (hpending : pending next ↔ pending (phase p)) (hdone : done next = done (phase p)) :
    Balanced pending done weight value (Function.update phase p next) := by
  have hsame : ∀ q, (pending (Function.update phase p next q) ↔ pending (phase q)) ∧
      done (Function.update phase p next q) = done (phase q) := by
    intro q
    by_cases heq : q = p
    · subst heq
      simpa using ⟨hpending, hdone⟩
    · simp [Function.update_of_ne heq]
  simp only [Balanced, contributed, hsame]
  exact hbalanced

/-- A process takes the counter before anything was contributed. -/
theorem claim (hidle : ∀ q, done (phase q) = false) (hpending : pending next)
    (hdone : done next = false) :
    Balanced pending done weight value (Function.update phase p next) := by
  refine Or.inl ⟨⟨p, by simpa using hpending⟩, fun q => ?_⟩
  by_cases heq : q = p
  · subst heq
    simpa using hdone
  · rw [Function.update_of_ne heq]
    exact hidle q

/-- A process adds its contribution to a free counter. -/
theorem add (hbalanced : Balanced pending done weight value phase)
    (hfree : ∀ q, ¬ pending (phase q)) (hbefore : done (phase p) = false)
    (hafter : done next = true) (hpending : ¬ pending next) :
    Balanced pending done weight (value + weight p)
      (Function.update phase p next) := by
  refine Or.inr ⟨fun q => ?_, ?_⟩
  · by_cases heq : q = p
    · subst heq
      simpa using hpending
    · rw [Function.update_of_ne heq]
      exact hfree q
  · rw [contributed_update hbefore hafter, hbalanced.value_of_free hfree]

/-- The owner stores its contribution and gives the counter up. -/
theorem store (hbalanced : Balanced pending done weight value phase)
    (howner : ∀ q, pending (phase q) → q = p) (howns : pending (phase p))
    (hafter : done next = true) (hpending : ¬ pending next) :
    Balanced pending done weight (weight p) (Function.update phase p next) := by
  rcases hbalanced with ⟨_, hidle⟩ | ⟨hfree, _⟩
  · refine Or.inr ⟨fun q => ?_, ?_⟩
    · by_cases heq : q = p
      · subst heq
        simpa using hpending
      · rw [Function.update_of_ne heq]
        exact fun hq => heq (howner q hq)
    · rw [contributed_update (hidle p) hafter, contributed_eq_zero weight hidle,
        Nat.zero_add]
  · exact absurd howns (hfree p)

end Balanced

end CounterLedger
end LibWake
