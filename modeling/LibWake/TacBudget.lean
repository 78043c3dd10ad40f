import Mathlib.Algebra.BigOperators.Fin
import Mathlib.Algebra.Order.BigOperators.Group.Finset
import Mathlib.Data.Fintype.Basic
import Mathlib.Tactic.FinCases
import Mathlib.Tactic.Positivity
import LibWake.TacHistory

/-!
# Budget slots

The accepted charges of `budgetCharge` as three cases, sequences of them, and
what they keep: the slots are filled from the left with distinct members of
the set of charged sources, the number of used slots is the number of charged
sources up to five, and the spent values grow by exactly the charged force.
-/

namespace LibWake
namespace Tac

/-! ## Accepted charges -/

/-- The three ways in which `budgetCharge` accepts a charge. -/
inductive Charge (h : Header) (budget : Fin 5 → Budget) (source : UInt16)
    (delta : ℕ) : (Fin 5 → Budget) → Bool → Prop
  | known (i : Fin 5) (hnamed : i ≠ overflowSlot)
      (hsource : (budget i).sourceId = source)
      (hroom : (budget i).spent + delta ≤ h.budgetPerSource) :
      Charge h budget source delta
        (Function.update budget i
          ⟨(budget i).sourceId, ((budget i).spent + delta) % 2 ^ 16⟩) false
  | fresh (i : Fin 5) (hnamed : i ≠ overflowSlot)
      (hunknown : ∀ j, j ≠ overflowSlot → (budget j).sourceId ≠ source)
      (hfree : (budget i).sourceId = srcNone)
      (hfirst : ∀ j < i, (budget j).sourceId ≠ srcNone)
      (hroom : delta ≤ h.budgetPerSource) :
      Charge h budget source delta
        (Function.update budget i ⟨source, delta % 2 ^ 16⟩) true
  | overflow
      (hunknown : ∀ j, j ≠ overflowSlot → (budget j).sourceId ≠ source)
      (hfull : ∀ j, j ≠ overflowSlot → (budget j).sourceId ≠ srcNone)
      (hroom : (budget overflowSlot).spent + delta ≤ h.budgetPerSource) :
      Charge h budget source delta
        (Function.update budget overflowSlot
          ⟨if (budget overflowSlot).sourceId = srcNone then srcOther
            else (budget overflowSlot).sourceId,
            ((budget overflowSlot).spent + delta) % 2 ^ 16⟩)
        ((budget overflowSlot).sourceId == srcNone)

theorem ne_overflow_of_mem_named {i : Fin 5} (hmem : i ∈ namedSlots) :
    i ≠ overflowSlot := by
  rintro rfl
  exact absurd hmem (by decide)

theorem namedSlots_find_some {p : Fin 5 → Bool} {i : Fin 5}
    (hfind : namedSlots.find? p = some i) :
    i ≠ overflowSlot ∧ p i = true ∧ ∀ j < i, p j = false := by
  simp only [namedSlots, List.find?_cons, List.find?_nil] at hfind
  cases h0 : p 0 <;> cases h1 : p 1 <;> cases h2 : p 2 <;> cases h3 : p 3 <;>
    simp only [h0, h1, h2, h3, Option.some.injEq, reduceCtorEq] at hfind <;>
    subst hfind <;> refine ⟨by decide, by assumption, fun j hj => ?_⟩ <;>
    fin_cases j <;> first | assumption | simp at hj

theorem namedSlots_find_none {p : Fin 5 → Bool}
    (hfind : namedSlots.find? p = none) {i : Fin 5} (hnamed : i ≠ overflowSlot) :
    p i = false := by
  have hall := List.find?_eq_none.mp hfind
  have hmem : i ∈ namedSlots := by
    fin_cases i <;> first | decide | exact absurd rfl hnamed
  simpa using hall i hmem

theorem charge_of_budgetCharge {h : Header} {budget charged : Fin 5 → Budget}
    {source : UInt16} {delta : ℕ} {isNew : Bool}
    (hcharge : budgetCharge h budget source delta = some (charged, isNew)) :
    Charge h budget source delta charged isNew := by
  unfold budgetCharge at hcharge
  cases hknown : namedSlots.find? fun i => decide ((budget i).sourceId = source) with
  | some i =>
      simp only [hknown] at hcharge
      split_ifs at hcharge with hroom
      simp only [Option.some.injEq, Prod.mk.injEq] at hcharge
      obtain ⟨rfl, rfl⟩ := hcharge
      obtain ⟨hnamed, hsource, _⟩ := namedSlots_find_some hknown
      exact .known i hnamed (of_decide_eq_true hsource) (Nat.le_of_not_gt hroom)
  | none =>
      simp only [hknown] at hcharge
      have hunknown : ∀ j, j ≠ overflowSlot → (budget j).sourceId ≠ source :=
        fun j hj => of_decide_eq_false (namedSlots_find_none hknown hj)
      cases hfree : namedSlots.find?
          fun i => decide ((budget i).sourceId = srcNone) with
      | some i =>
          simp only [hfree] at hcharge
          split_ifs at hcharge with hroom
          simp only [Option.some.injEq, Prod.mk.injEq] at hcharge
          obtain ⟨rfl, rfl⟩ := hcharge
          obtain ⟨hnamed, hnone, hfirst⟩ := namedSlots_find_some hfree
          exact .fresh i hnamed hunknown (of_decide_eq_true hnone)
            (fun j hj => of_decide_eq_false (hfirst j hj)) (Nat.le_of_not_gt hroom)
      | none =>
          simp only [hfree] at hcharge
          by_cases hroom :
              (budget overflowSlot).spent + delta > h.budgetPerSource
          · simp [hroom] at hcharge
          · rw [if_neg hroom, Option.some.injEq, Prod.mk.injEq] at hcharge
            obtain ⟨rfl, rfl⟩ := hcharge
            exact .overflow hunknown
              (fun j hj => of_decide_eq_false (namedSlots_find_none hfree hj))
              (Nat.le_of_not_gt hroom)

/-- Accepted charges of one force, in order: the list of their sources, the
budgets afterwards, and the number of new sources. -/
inductive Charges (h : Header) (delta : ℕ) :
    (Fin 5 → Budget) → List UInt16 → (Fin 5 → Budget) → ℕ → Prop
  | nil (budget : Fin 5 → Budget) : Charges h delta budget [] budget 0
  | cons {budget middle charged : Fin 5 → Budget} {source : UInt16}
      {rest : List UInt16} {isNew : Bool} {bump : ℕ}
      (hhead : Charge h budget source delta middle isNew)
      (htail : Charges h delta middle rest charged bump) :
      Charges h delta budget (source :: rest) charged (isNew.toNat + bump)

theorem charges_ignoringRefusal (h : Header) (budget : Fin 5 → Budget)
    (source : UInt16) (delta : ℕ) :
    let charged := chargeIgnoringRefusal h budget source delta
    Charges h delta budget charged.2.2 charged.1 charged.2.1.toNat ∧
      ∀ other ∈ charged.2.2, other = source := by
  unfold chargeIgnoringRefusal
  cases hcharge : budgetCharge h budget source delta with
  | none => exact ⟨.nil budget, by simp⟩
  | some charged =>
      exact ⟨.cons (charge_of_budgetCharge hcharge) (.nil _), by simp⟩

/-- The sources which one call may charge. -/
def Witnesses.mayCharge (w : Witnesses) (source : UInt16) : Prop :=
  source = w.w0Src ∨ source = w.w1Src ∧ w.w1Src ≠ srcNone

theorem charges_of_chargeExisting {h : Header} {budget charged : Fin 5 → Budget}
    {w : Witnesses} {delta bump : ℕ} {accepted : List UInt16}
    (hcharge : chargeExisting h budget w.w0Src w.w1Src delta =
      some (charged, bump, accepted)) :
    Charges h delta budget accepted charged bump ∧ accepted ≠ [] ∧
      ∀ source ∈ accepted, w.mayCharge source := by
  unfold chargeExisting at hcharge
  simp only at hcharge
  cases hfirst : budgetCharge h budget w.w0Src delta with
  | none =>
      simp only [hfirst] at hcharge
      split_ifs at hcharge with hsecond
      obtain ⟨second, hw1, heq⟩ := Option.map_eq_some_iff.mp hcharge
      simp only [Prod.mk.injEq] at heq
      obtain ⟨rfl, rfl, rfl⟩ := heq
      simp only [Bool.and_eq_true, decide_eq_true_eq] at hsecond
      refine ⟨.cons (charge_of_budgetCharge hw1) (.nil _), by simp, ?_⟩
      intro source hmem
      exact Or.inr ⟨List.mem_singleton.mp hmem, hsecond.1⟩
  | some first =>
      obtain ⟨middle, isNew⟩ := first
      simp only [hfirst] at hcharge
      have hhead := charge_of_budgetCharge hfirst
      split_ifs at hcharge with hsecond
      · simp only [Option.some.injEq, Prod.mk.injEq] at hcharge
        obtain ⟨rfl, rfl, rfl⟩ := hcharge
        obtain ⟨htail, hsource⟩ := charges_ignoringRefusal h middle w.w1Src delta
        simp only [Bool.and_eq_true, decide_eq_true_eq] at hsecond
        refine ⟨.cons hhead htail, by simp, ?_⟩
        intro source hmem
        rcases List.mem_cons.mp hmem with rfl | hrest
        · exact Or.inl rfl
        · exact Or.inr ⟨hsource source hrest, hsecond.1⟩
      · simp only [Option.some.injEq, Prod.mk.injEq] at hcharge
        obtain ⟨rfl, rfl, rfl⟩ := hcharge
        refine ⟨.cons hhead (.nil _), by simp, ?_⟩
        intro source hmem
        exact Or.inl (List.mem_singleton.mp hmem)

theorem Charges.append {h : Header} {delta : ℕ}
    {budget middle charged : Fin 5 → Budget} {front back : List UInt16}
    {bump bump' : ℕ} (hfront : Charges h delta budget front middle bump)
    (hback : Charges h delta middle back charged bump') :
    Charges h delta budget (front ++ back) charged (bump + bump') := by
  induction hfront with
  | nil => simpa using hback
  | cons hhead _ ih =>
      rw [List.cons_append, Nat.add_assoc]
      exact .cons hhead (ih hback)

/-- The charges of a fresh edge; the first one cannot be refused. -/
theorem charges_of_chargeFresh {h : Header} {w : Witnesses} {delta : ℕ}
    (hnone : w.w0Src ≠ srcNone) (hroom : delta ≤ h.budgetPerSource) :
    let charged := chargeFresh h w.w0Src w.w1Src delta
    Charges h delta (fun _ => Budget.zero) charged.2.2 charged.1 charged.2.1 ∧
      charged.2.2 ≠ [] ∧ ∀ source ∈ charged.2.2, w.mayCharge source := by
  have hfirst : (chargeIgnoringRefusal h (fun _ => Budget.zero) w.w0Src
      delta).2.2 = [w.w0Src] := by
    have hknown : (namedSlots.find?
        fun _ => decide (Budget.zero.sourceId = w.w0Src)) = none :=
      List.find?_eq_none.mpr fun _ _ heq => hnone (of_decide_eq_true heq).symm
    have hfree : (namedSlots.find?
        fun _ => decide (Budget.zero.sourceId = srcNone)) = some 0 := rfl
    have hfits : ¬ delta > h.budgetPerSource := Nat.not_lt.mpr hroom
    simp only [chargeIgnoringRefusal, budgetCharge, hknown, hfree, if_neg hfits]
  obtain ⟨hhead, -⟩ :=
    charges_ignoringRefusal h (fun _ => Budget.zero) w.w0Src delta
  unfold chargeFresh
  simp only
  split_ifs with hsecond
  · obtain ⟨htail, hsource⟩ := charges_ignoringRefusal h
      (chargeIgnoringRefusal h (fun _ => Budget.zero) w.w0Src delta).1 w.w1Src delta
    refine ⟨hhead.append htail, by simp [hfirst], ?_⟩
    intro source hmem
    rw [hfirst] at hmem
    rcases List.mem_append.mp hmem with hleft | hright
    · exact Or.inl (List.mem_singleton.mp hleft)
    · exact Or.inr ⟨hsource source hright, hsecond.1⟩
  · refine ⟨hhead, by simp [hfirst], ?_⟩
    intro source hmem
    rw [hfirst] at hmem
    exact Or.inl (List.mem_singleton.mp hmem)

/-! ## The ledger -/

/-- The named slots are filled from the left with distinct charged sources;
the overflow bucket is in use only once they are full and a fifth source has
been charged. -/
structure Ledger (budget : Fin 5 → Budget) (sources : Finset UInt16) : Prop where
  filled : ∀ i j, i < j → j ≠ overflowSlot →
    (budget i).sourceId = srcNone → (budget j).sourceId = srcNone
  distinct : ∀ i j, i ≠ overflowSlot → j ≠ overflowSlot →
    (budget i).sourceId = (budget j).sourceId →
    (budget i).sourceId ≠ srcNone → i = j
  member : ∀ i, i ≠ overflowSlot → (budget i).sourceId ≠ srcNone →
    (budget i).sourceId ∈ sources
  covered : (budget overflowSlot).sourceId = srcNone →
    ∀ source ∈ sources, ∃ i, i ≠ overflowSlot ∧ (budget i).sourceId = source
  overflowed : (budget overflowSlot).sourceId ≠ srcNone →
    5 ≤ sources.card ∧ ∀ i, i ≠ overflowSlot → (budget i).sourceId ≠ srcNone
  real : srcNone ∉ sources

/-- The slots which carry a source. -/
def usedSlots (budget : Fin 5 → Budget) : Finset (Fin 5) :=
  Finset.univ.filter fun i => (budget i).sourceId ≠ srcNone

theorem mem_usedSlots {budget : Fin 5 → Budget} {i : Fin 5} :
    i ∈ usedSlots budget ↔ (budget i).sourceId ≠ srcNone := by
  simp [usedSlots]

theorem usedSlots_insert {budget charged : Fin 5 → Budget} {i : Fin 5}
    (hother : ∀ j, j ≠ i → (charged j).sourceId = (budget j).sourceId)
    (hself : (charged i).sourceId ≠ srcNone) :
    usedSlots charged = insert i (usedSlots budget) := by
  ext j
  rw [Finset.mem_insert, mem_usedSlots, mem_usedSlots]
  by_cases hji : j = i
  · simp [hji, hself]
  · simp [hji, hother j hji]

theorem card_usedSlots_le (budget : Fin 5 → Budget) : (usedSlots budget).card ≤ 5 :=
  (Finset.card_le_univ _).trans (by simp)

namespace Ledger

variable {budget : Fin 5 → Budget} {sources : Finset UInt16}

theorem zero : Ledger (fun _ => Budget.zero) ∅ where
  filled _ _ _ _ _ := rfl
  distinct _ _ _ _ _ hne := absurd rfl hne
  member _ _ hne := absurd rfl hne
  covered _ source hmem := absurd hmem (Finset.notMem_empty source)
  overflowed hne := absurd rfl hne
  real := Finset.notMem_empty _

/-- While the overflow bucket is unused the used slots list the sources. -/
theorem card_of_not_overflowed (hledger : Ledger budget sources)
    (hnone : (budget overflowSlot).sourceId = srcNone) :
    (usedSlots budget).card = sources.card ∧ (usedSlots budget).card ≤ 4 := by
  have hnamed : ∀ i ∈ usedSlots budget, i ≠ overflowSlot := by
    intro i hi heq
    exact mem_usedSlots.mp hi (heq ▸ hnone)
  constructor
  · have himage : (usedSlots budget).image (fun i => (budget i).sourceId) =
        sources := by
      ext source
      rw [Finset.mem_image]
      constructor
      · rintro ⟨i, hi, rfl⟩
        exact hledger.member i (hnamed i hi) (mem_usedSlots.mp hi)
      · intro hmem
        obtain ⟨i, _, heq⟩ := hledger.covered hnone source hmem
        refine ⟨i, mem_usedSlots.mpr ?_, heq⟩
        rw [heq]
        exact fun hzero => hledger.real (hzero ▸ hmem)
    rw [← himage]
    symm
    apply Finset.card_image_of_injOn
    intro i hi j hj heq
    exact hledger.distinct i j (hnamed i hi) (hnamed j hj) heq
      (mem_usedSlots.mp hi)
  · have hsubset : usedSlots budget ⊆ Finset.univ.erase overflowSlot := by
      intro i hi
      exact Finset.mem_erase.mpr ⟨hnamed i hi, Finset.mem_univ i⟩
    calc
      (usedSlots budget).card ≤ (Finset.univ.erase overflowSlot).card :=
        Finset.card_le_card hsubset
      _ = 4 := by decide

/-- The number of used slots is the number of charged sources, up to five. -/
theorem card_usedSlots (hledger : Ledger budget sources) :
    (usedSlots budget).card = min sources.card 5 := by
  by_cases hnone : (budget overflowSlot).sourceId = srcNone
  · have := hledger.card_of_not_overflowed hnone
    omega
  · obtain ⟨hfive, hnamed⟩ := hledger.overflowed hnone
    have hall : usedSlots budget = Finset.univ := by
      apply Finset.eq_univ_of_forall
      intro i
      rw [mem_usedSlots]
      by_cases heq : i = overflowSlot
      · rwa [heq]
      · exact hnamed i heq
    rw [hall, Finset.card_univ, Fintype.card_fin]
    omega

variable {charged : Fin 5 → Budget} {source : UInt16} {i : Fin 5}

/-- The ledger reads nothing but the ids of the slots. -/
theorem of_same_ids (hledger : Ledger budget sources)
    (hids : ∀ j, (charged j).sourceId = (budget j).sourceId) :
    Ledger charged sources where
  filled := by simpa only [hids] using hledger.filled
  distinct := by simpa only [hids] using hledger.distinct
  member := by simpa only [hids] using hledger.member
  covered := by simpa only [hids] using hledger.covered
  overflowed := by simpa only [hids] using hledger.overflowed
  real := hledger.real

/-- An unknown source takes the first free named slot. -/
theorem takeSlot (hledger : Ledger budget sources) (hreal : source ≠ srcNone)
    (hnamed : i ≠ overflowSlot)
    (hunknown : ∀ j, j ≠ overflowSlot → (budget j).sourceId ≠ source)
    (hfree : (budget i).sourceId = srcNone)
    (hfirst : ∀ j < i, (budget j).sourceId ≠ srcNone)
    (hother : ∀ j, j ≠ i → (charged j).sourceId = (budget j).sourceId)
    (hself : (charged i).sourceId = source) :
    Ledger charged (insert source sources) := by
  have hover : (budget overflowSlot).sourceId = srcNone := by
    by_contra hne
    exact (hledger.overflowed hne).2 i hnamed hfree
  refine ⟨?_, ?_, ?_, ?_, ?_, ?_⟩
  · intro a b hab hb ha
    by_cases hai : a = i
    · rw [hai, hself] at ha
      exact absurd ha hreal
    · rw [hother a hai] at ha
      by_cases hbi : b = i
      · exact absurd ha (hfirst a (hbi ▸ hab))
      · rw [hother b hbi]
        exact hledger.filled a b hab hb ha
  · intro a b ha hb heq hne
    by_cases hai : a = i <;> by_cases hbi : b = i
    · rw [hai, hbi]
    · rw [hai, hself, hother b hbi] at heq
      exact absurd heq.symm (hunknown b hb)
    · rw [hbi, hself, hother a hai] at heq
      exact absurd heq (hunknown a ha)
    · rw [hother a hai, hother b hbi] at heq
      rw [hother a hai] at hne
      exact hledger.distinct a b ha hb heq hne
  · intro a ha hne
    by_cases hai : a = i
    · rw [hai, hself]
      exact Finset.mem_insert_self _ _
    · rw [hother a hai] at hne ⊢
      exact Finset.mem_insert_of_mem (hledger.member a ha hne)
  · intro _ other hmem
    rcases Finset.mem_insert.mp hmem with rfl | hold
    · exact ⟨i, hnamed, hself⟩
    · obtain ⟨j, hj, heq⟩ := hledger.covered hover other hold
      by_cases hji : j = i
      · rw [hji, hfree] at heq
        exact absurd (heq ▸ hold) hledger.real
      · exact ⟨j, hj, by rw [hother j hji, heq]⟩
  · intro hne
    rw [hother _ (Ne.symm hnamed)] at hne
    exact absurd hover hne
  · rw [Finset.mem_insert, not_or]
    exact ⟨Ne.symm hreal, hledger.real⟩

/-- A source which finds every named slot taken by another one is at least the fifth. -/
theorem five_le_card_insert (hledger : Ledger budget sources)
    (hunknown : ∀ j, j ≠ overflowSlot → (budget j).sourceId ≠ source)
    (hfull : ∀ j, j ≠ overflowSlot → (budget j).sourceId ≠ srcNone) :
    5 ≤ (insert source sources).card := by
  by_cases hnone : (budget overflowSlot).sourceId = srcNone
  · have hcard := (hledger.card_of_not_overflowed hnone).1
    have hnew : source ∉ sources := by
      intro hmem
      obtain ⟨j, hj, heq⟩ := hledger.covered hnone source hmem
      exact hunknown j hj heq
    have hfour : usedSlots budget = Finset.univ.erase overflowSlot := by
      ext j
      rw [mem_usedSlots, Finset.mem_erase]
      constructor
      · intro hne
        exact ⟨fun heq => hne (heq ▸ hnone), Finset.mem_univ j⟩
      · exact fun hj => hfull j hj.1
    rw [Finset.card_insert_of_notMem hnew, ← hcard, hfour]
    decide
  · exact (hledger.overflowed hnone).1.trans
      (Finset.card_le_card (Finset.subset_insert _ _))

/-- The overflow bucket serves an unknown source once the named slots are taken. -/
theorem spill (hledger : Ledger budget sources) (hreal : source ≠ srcNone)
    (hunknown : ∀ j, j ≠ overflowSlot → (budget j).sourceId ≠ source)
    (hfull : ∀ j, j ≠ overflowSlot → (budget j).sourceId ≠ srcNone)
    (hother : ∀ j, j ≠ overflowSlot → (charged j).sourceId = (budget j).sourceId)
    (hself : (charged overflowSlot).sourceId ≠ srcNone) :
    Ledger charged (insert source sources) := by
  refine ⟨?_, ?_, ?_, ?_, ?_, ?_⟩
  · intro a b hab hb ha
    have hane : a ≠ overflowSlot := by
      rintro rfl
      exact absurd hab (by revert b; decide)
    rw [hother a hane] at ha
    exact absurd ha (hfull a hane)
  · intro a b ha hb heq hne
    rw [hother a ha, hother b hb] at heq
    rw [hother a ha] at hne
    exact hledger.distinct a b ha hb heq hne
  · intro a ha hne
    rw [hother a ha] at hne ⊢
    exact Finset.mem_insert_of_mem (hledger.member a ha hne)
  · exact fun hnone => absurd hnone hself
  · intro _
    refine ⟨hledger.five_le_card_insert hunknown hfull, fun a ha => ?_⟩
    rw [hother a ha]
    exact hfull a ha
  · rw [Finset.mem_insert, not_or]
    exact ⟨Ne.symm hreal, hledger.real⟩

/-- One accepted charge. -/
theorem charge (hledger : Ledger budget sources) {h : Header}
    {charged : Fin 5 → Budget} {source : UInt16} {delta : ℕ} {isNew : Bool}
    (hreal : source ≠ srcNone)
    (hcharge : Charge h budget source delta charged isNew) :
    Ledger charged (insert source sources) ∧
      (usedSlots charged).card = (usedSlots budget).card + isNew.toNat := by
  cases hcharge with
  | known i hnamed hsource hroom =>
      have hids : ∀ j, (Function.update budget i
          (⟨(budget i).sourceId, ((budget i).spent + delta) % 2 ^ 16⟩ : Budget)
            j).sourceId = (budget j).sourceId := by
        intro j
        by_cases heq : j = i
        · subst heq
          simp
        · simp [heq]
      have hin : source ∈ sources := by
        rw [← hsource]
        exact hledger.member i hnamed (by rwa [hsource])
      rw [Finset.insert_eq_of_mem hin]
      refine ⟨hledger.of_same_ids hids, ?_⟩
      simp only [usedSlots, hids]
      rfl
  | fresh i hnamed hunknown hfree hfirst hroom =>
      generalize hslot : (⟨source, delta % 2 ^ 16⟩ : Budget) = slot
      have hother : ∀ j, j ≠ i →
          (Function.update budget i slot j).sourceId = (budget j).sourceId := by
        intro j hj
        rw [Function.update_of_ne hj]
      have hself : (Function.update budget i slot i).sourceId = source := by
        rw [Function.update_self, ← hslot]
      refine ⟨hledger.takeSlot hreal hnamed hunknown hfree hfirst hother hself, ?_⟩
      rw [usedSlots_insert hother (by rwa [hself]), Finset.card_insert_of_notMem]
      · rfl
      · rw [mem_usedSlots]
        exact not_not.mpr hfree
  | overflow hunknown hfull hroom =>
      generalize hslot : (⟨if (budget overflowSlot).sourceId = srcNone then srcOther
        else (budget overflowSlot).sourceId,
        ((budget overflowSlot).spent + delta) % 2 ^ 16⟩ : Budget) = slot
      have hother : ∀ j, j ≠ overflowSlot →
          (Function.update budget overflowSlot slot j).sourceId = (budget j).sourceId := by
        intro j hj
        rw [Function.update_of_ne hj]
      have hself :
          (Function.update budget overflowSlot slot overflowSlot).sourceId ≠ srcNone := by
        rw [Function.update_self, ← hslot]
        simp only
        split_ifs with hnone
        · decide
        · exact hnone
      refine ⟨hledger.spill hreal hunknown hfull hother hself, ?_⟩
      rw [usedSlots_insert hother hself]
      by_cases hnone : (budget overflowSlot).sourceId = srcNone
      · rw [Finset.card_insert_of_notMem]
        · simp [hnone]
        · rw [mem_usedSlots]
          exact not_not.mpr hnone
      · rw [Finset.insert_eq_of_mem (mem_usedSlots.mpr hnone)]
        simp [hnone]

theorem charges (hledger : Ledger budget sources) {h : Header} {delta : ℕ}
    {accepted : List UInt16} {charged : Fin 5 → Budget} {bump : ℕ}
    (hreal : ∀ source ∈ accepted, source ≠ srcNone)
    (hcharges : Charges h delta budget accepted charged bump) :
    Ledger charged (sources ∪ accepted.toFinset) ∧
      (usedSlots charged).card = (usedSlots budget).card + bump := by
  induction hcharges generalizing sources with
  | nil => simpa using hledger
  | @cons _ _ _ source rest _ _ hhead _ ih =>
      obtain ⟨hmiddle, hcount⟩ :=
        hledger.charge (hreal source List.mem_cons_self) hhead
      obtain ⟨hlast, htotal⟩ :=
        ih hmiddle fun other hmem => hreal other (List.mem_cons_of_mem _ hmem)
      have hsets : insert source sources ∪ rest.toFinset =
          sources ∪ (source :: rest).toFinset := by
        ext other
        simp only [Finset.mem_union, Finset.mem_insert, List.toFinset_cons]
        tauto
      refine ⟨hsets ▸ hlast, ?_⟩
      rw [htotal, hcount, Nat.add_assoc]

end Ledger

/-! ## Spent values -/

/-- The force charged on an edge since its claim, over its five slots. -/
def totalSpent (budget : Fin 5 → Budget) : ℕ := ∑ i, (budget i).spent

/-- No slot is over budget, and an unused slot has spent nothing. -/
structure Spending (h : Header) (budget : Fin 5 → Budget) : Prop where
  within : ∀ i, (budget i).spent ≤ h.budgetPerSource
  unused : ∀ i, (budget i).sourceId = srcNone → (budget i).spent = 0

theorem spending_zero (h : Header) : Spending h fun _ => Budget.zero where
  within _ := Nat.zero_le _
  unused _ _ := rfl

theorem totalSpent_update (budget : Fin 5 → Budget) (i : Fin 5) (slot : Budget) :
    totalSpent (Function.update budget i slot) + (budget i).spent =
      totalSpent budget + slot.spent := by
  unfold totalSpent
  fin_cases i <;> simp [Fin.sum_univ_five, Function.update] <;> omega

namespace Spending

variable {h : Header} {budget charged : Fin 5 → Budget}

theorem total_le (hspending : Spending h budget) :
    totalSpent budget ≤ (usedSlots budget).card * h.budgetPerSource := by
  have hsplit : totalSpent budget = ∑ i ∈ usedSlots budget, (budget i).spent := by
    symm
    apply Finset.sum_subset (Finset.subset_univ _)
    intro i _ hnot
    rw [mem_usedSlots, not_not] at hnot
    exact hspending.unused i hnot
  rw [hsplit]
  exact Finset.sum_le_card_nsmul _ _ _ fun i _ => hspending.within i

theorem update (hspending : Spending h budget) {i : Fin 5} {slot : Budget}
    (hwithin : slot.spent ≤ h.budgetPerSource) (hused : slot.sourceId ≠ srcNone) :
    Spending h (Function.update budget i slot) := by
  constructor
  · intro j
    by_cases heq : j = i
    · rw [heq, Function.update_self]
      exact hwithin
    · rw [Function.update_of_ne heq]
      exact hspending.within j
  · intro j hnone
    by_cases heq : j = i
    · rw [heq, Function.update_self] at hnone
      exact absurd hnone hused
    · rw [Function.update_of_ne heq] at hnone ⊢
      exact hspending.unused j hnone

/-- An accepted charge adds exactly its force: the 16-bit sum does not wrap. -/
theorem charge (hspending : Spending h budget)
    (hbudget : h.budgetPerSource ≤ uint16Max) {source : UInt16} {delta : ℕ}
    {isNew : Bool} (hreal : source ≠ srcNone)
    (hcharge : Charge h budget source delta charged isNew) :
    Spending h charged ∧ totalSpent charged = totalSpent budget + delta := by
  have hmax : uint16Max < 2 ^ 16 := by decide
  cases hcharge with
  | known i hnamed hsource hroom =>
      rw [Nat.mod_eq_of_lt (by omega)]
      refine ⟨hspending.update hroom (by rwa [hsource]), ?_⟩
      have htotal := totalSpent_update budget i
        ⟨(budget i).sourceId, (budget i).spent + delta⟩
      simp only at htotal
      omega
  | fresh i hnamed hunknown hfree hfirst hroom =>
      rw [Nat.mod_eq_of_lt (by omega)]
      refine ⟨hspending.update hroom hreal, ?_⟩
      have htotal := totalSpent_update budget i ⟨source, delta⟩
      rw [hspending.unused i hfree] at htotal
      simp only at htotal
      omega
  | overflow hunknown hfull hroom =>
      rw [Nat.mod_eq_of_lt (by omega)]
      refine ⟨hspending.update hroom ?_, ?_⟩
      · simp only
        split_ifs with hnone
        · decide
        · exact hnone
      · have htotal := totalSpent_update budget overflowSlot
          ⟨if (budget overflowSlot).sourceId = srcNone then srcOther
            else (budget overflowSlot).sourceId,
            (budget overflowSlot).spent + delta⟩
        simp only at htotal
        omega

theorem charges (hspending : Spending h budget)
    (hbudget : h.budgetPerSource ≤ uint16Max) {delta : ℕ}
    {accepted : List UInt16} {bump : ℕ}
    (hreal : ∀ source ∈ accepted, source ≠ srcNone)
    (hcharges : Charges h delta budget accepted charged bump) :
    Spending h charged ∧
      totalSpent charged = totalSpent budget + accepted.length * delta := by
  induction hcharges with
  | nil => simpa using hspending
  | @cons _ _ _ source rest _ _ hhead _ ih =>
      obtain ⟨hmiddle, hadded⟩ :=
        hspending.charge hbudget (hreal source List.mem_cons_self) hhead
      obtain ⟨hlast, htotal⟩ :=
        ih hmiddle fun other hmem => hreal other (List.mem_cons_of_mem _ hmem)
      refine ⟨hlast, ?_⟩
      rw [htotal, hadded, List.length_cons, Nat.add_one_mul]
      omega

end Spending

end Tac
end LibWake
