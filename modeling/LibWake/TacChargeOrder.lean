import Mathlib.Data.List.Find
import LibWake.TacBudget

/-!
# The order of two charges

A call charges its two witnesses one after the other.  A witness which has a slot of its own is
charged there whatever the other one does.  Two unknown witnesses compete for the next slot, and
may end in each other's place; what the slots hold is the same.
-/

namespace LibWake
namespace Tac

/-! ## Budgets up to their sources -/

/-- The slots agree in what was spent and in which of them are used. -/
structure Alike (budget budget' : Fin 5 → Budget) : Prop where
  spent : ∀ i, (budget' i).spent = (budget i).spent
  unused : ∀ i, (budget' i).sourceId = srcNone ↔ (budget i).sourceId = srcNone

namespace Alike

variable {budget budget' : Fin 5 → Budget}

protected theorem refl (budget : Fin 5 → Budget) : Alike budget budget :=
  ⟨fun _ => rfl, fun _ => Iff.rfl⟩

protected theorem symm (halike : Alike budget budget') : Alike budget' budget :=
  ⟨fun i => (halike.spent i).symm, fun i => (halike.unused i).symm⟩

theorem update (halike : Alike budget budget') {i : Fin 5} {slot slot' : Budget}
    (hspent : slot'.spent = slot.spent)
    (hunused : slot'.sourceId = srcNone ↔ slot.sourceId = srcNone) :
    Alike (Function.update budget i slot) (Function.update budget' i slot') := by
  constructor
  · intro j
    by_cases heq : j = i
    · subst heq
      simpa using hspent
    · simpa [Function.update_of_ne heq] using halike.spent j
  · intro j
    by_cases heq : j = i
    · subst heq
      simpa using hunused
    · simpa [Function.update_of_ne heq] using halike.unused j

end Alike

/-! ## The seat of a source -/

/-- Where `budget_charge` puts a charge: in the slot of the source, in the first unused one, or in
the overflow bucket. -/
inductive Seat where
  | known (i : Fin 5)
  | vacant (i : Fin 5)
  | shared

def Seat.slot : Seat → Fin 5
  | .known i => i
  | .vacant i => i
  | .shared => overflowSlot

theorem Seat.slot_known (i : Fin 5) : (Seat.known i).slot = i := rfl
theorem Seat.slot_vacant (i : Fin 5) : (Seat.vacant i).slot = i := rfl
theorem Seat.slot_shared : Seat.shared.slot = overflowSlot := rfl

/-- The seat of a source which has no slot yet. -/
def openSeat (budget : Fin 5 → Budget) : Seat :=
  match namedSlots.find? fun i => (budget i).sourceId = srcNone with
  | some i => .vacant i
  | none => .shared

def seatOf (budget : Fin 5 → Budget) (source : UInt16) : Seat :=
  match namedSlots.find? fun i => (budget i).sourceId = source with
  | some i => .known i
  | none => openSeat budget

/-- What an accepted charge leaves in its slot, and whether the source is new. -/
def chargedSlot (h : Header) (old : Budget) (source : UInt16) (delta : ℕ) :
    Seat → Option (Budget × Bool)
  | .known _ =>
      if old.spent + delta > h.budgetPerSource then none
      else some ({ old with spent := (old.spent + delta) % 2 ^ 16 }, false)
  | .vacant _ =>
      if delta > h.budgetPerSource then none else some (⟨source, delta % 2 ^ 16⟩, true)
  | .shared =>
      if old.spent + delta > h.budgetPerSource then none
      else some (⟨if old.sourceId = srcNone then srcOther else old.sourceId,
        (old.spent + delta) % 2 ^ 16⟩, old.sourceId == srcNone)

/-- A charge reads and writes one slot, once the seat is known. -/
theorem budgetCharge_eq (h : Header) (budget : Fin 5 → Budget) (source : UInt16) (delta : ℕ) :
    budgetCharge h budget source delta =
      (chargedSlot h (budget (seatOf budget source).slot) source delta (seatOf budget source)).map
        fun stored => (Function.update budget (seatOf budget source).slot stored.1, stored.2) := by
  cases hfind : namedSlots.find? fun i => decide ((budget i).sourceId = source) with
  | some i =>
      have hseat : seatOf budget source = .known i := by rw [seatOf, hfind]
      rw [hseat, Seat.slot_known]
      simp only [budgetCharge, hfind, chargedSlot]
      split_ifs <;> rfl
  | none =>
      cases hfree : namedSlots.find? fun i => decide ((budget i).sourceId = srcNone) with
      | some i =>
          have hseat : seatOf budget source = .vacant i := by rw [seatOf, hfind, openSeat, hfree]
          rw [hseat, Seat.slot_vacant]
          simp only [budgetCharge, hfind, hfree, chargedSlot]
          split_ifs <;> rfl
      | none =>
          have hseat : seatOf budget source = .shared := by rw [seatOf, hfind, openSeat, hfree]
          rw [hseat, Seat.slot_shared]
          simp only [budgetCharge, hfind, hfree, chargedSlot]
          by_cases hfull : (budget overflowSlot).spent + delta > h.budgetPerSource
          · rw [if_pos hfull, if_pos hfull]
            rfl
          · rw [if_neg hfull, if_neg hfull]
            rfl

theorem find_namedSlots_congr {p q : Fin 5 → Prop} [DecidablePred p] [DecidablePred q]
    (hiff : ∀ i, i ≠ overflowSlot → (p i ↔ q i)) :
    (namedSlots.find? fun i => p i) = namedSlots.find? fun i => q i := by
  apply List.find?_congr
  intro i hmem
  exact decide_eq_decide.mpr (hiff i (ne_overflow_of_mem_named hmem))

theorem openSeat_congr {budget budget' : Fin 5 → Budget}
    (hunused : ∀ i, i ≠ overflowSlot →
      ((budget' i).sourceId = srcNone ↔ (budget i).sourceId = srcNone)) :
    openSeat budget' = openSeat budget := by
  unfold openSeat
  rw [find_namedSlots_congr hunused]

theorem seatOf_of_unknown {budget : Fin 5 → Budget} {source : UInt16}
    (hunknown : ∀ i, i ≠ overflowSlot → (budget i).sourceId ≠ source) :
    seatOf budget source = openSeat budget := by
  have hfind : (namedSlots.find? fun i => decide ((budget i).sourceId = source)) = none := by
    rw [List.find?_eq_none]
    intro i hmem
    simpa using hunknown i (ne_overflow_of_mem_named hmem)
  rw [seatOf, hfind]

theorem seatOf_cases (budget : Fin 5 → Budget) (source : UInt16) :
    (∃ i, i ≠ overflowSlot ∧ (budget i).sourceId = source ∧ seatOf budget source = .known i) ∨
      ∀ i, i ≠ overflowSlot → (budget i).sourceId ≠ source := by
  cases hfind : namedSlots.find? fun i => decide ((budget i).sourceId = source) with
  | some i =>
      obtain ⟨hnamed, hsource, _⟩ := namedSlots_find_some hfind
      exact Or.inl ⟨i, hnamed, of_decide_eq_true hsource, by rw [seatOf, hfind]⟩
  | none =>
      exact Or.inr fun i hnamed => of_decide_eq_false (namedSlots_find_none hfind hnamed)

/-! ## What a charge does to the seat of another source -/

/-- A charge gives no slot to another source and takes none from it. -/
theorem Charge.holds_iff {h : Header} {budget charged : Fin 5 → Budget} {source other : UInt16}
    {delta : ℕ} {isNew : Bool} (hcharge : Charge h budget source delta charged isNew)
    (hne : other ≠ source) (hreal : other ≠ srcNone) {i : Fin 5} (hnamed : i ≠ overflowSlot) :
    (charged i).sourceId = other ↔ (budget i).sourceId = other := by
  cases hcharge with
  | known j _ hsource =>
      by_cases heq : i = j
      · subst heq
        rw [Function.update_self]
      · rw [Function.update_of_ne heq]
  | fresh j _ _ hfree =>
      by_cases heq : i = j
      · subst heq
        rw [Function.update_self, hfree]
        exact ⟨fun hsame => absurd hsame.symm hne, fun hsame => absurd hsame.symm hreal⟩
      · rw [Function.update_of_ne heq]
  | overflow => rw [Function.update_of_ne hnamed]

/-- The charge of a source which has a slot changes no seat. -/
theorem Charge.seatOf_other_of_known {h : Header} {budget charged : Fin 5 → Budget}
    {source other : UInt16} {delta : ℕ} {isNew : Bool}
    (hcharge : Charge h budget source delta charged isNew) {i : Fin 5}
    (hnamed : i ≠ overflowSlot) (hknown : (budget i).sourceId = source) :
    seatOf charged other = seatOf budget other := by
  have hids : ∀ j, j ≠ overflowSlot → (charged j).sourceId = (budget j).sourceId := by
    intro j hj
    cases hcharge with
    | known slot =>
        by_cases heq : j = slot
        · subst heq
          rw [Function.update_self]
        · rw [Function.update_of_ne heq]
    | fresh _ _ hunknown => exact absurd hknown (hunknown i hnamed)
    | overflow hunknown => exact absurd hknown (hunknown i hnamed)
  have hopen : openSeat charged = openSeat budget := openSeat_congr fun j hj => by rw [hids j hj]
  unfold seatOf
  rw [find_namedSlots_congr fun j hj => by rw [hids j hj], hopen]

/-- A source which has a slot keeps it. -/
theorem Charge.seatOf_known {h : Header} {budget charged : Fin 5 → Budget}
    {source other : UInt16} {delta : ℕ} {isNew : Bool}
    (hcharge : Charge h budget source delta charged isNew) (hne : other ≠ source)
    (hreal : other ≠ srcNone) {i : Fin 5} (hseat : seatOf budget other = .known i) :
    seatOf charged other = .known i := by
  unfold seatOf at hseat ⊢
  rw [find_namedSlots_congr fun j hj => hcharge.holds_iff hne hreal hj]
  cases hfind : namedSlots.find? fun j => decide ((budget j).sourceId = other) with
  | some j => rw [hfind] at hseat; exact hseat
  | none =>
      rw [hfind] at hseat
      unfold openSeat at hseat
      cases hfree : namedSlots.find? fun j => decide ((budget j).sourceId = srcNone) with
      | some j => simp [hfree] at hseat
      | none => simp [hfree] at hseat

/-! ## Two charges -/

/-- The two charges of a call with different witnesses: the budgets afterwards and the number of
new sources, or nothing when both are refused. -/
def chargeTwo (h : Header) (budget : Fin 5 → Budget) (first second : UInt16) (delta : ℕ) :
    Option ((Fin 5 → Budget) × ℕ) :=
  match budgetCharge h budget first delta with
  | none => (budgetCharge h budget second delta).map fun charged => (charged.1, charged.2.toNat)
  | some (middle, isNew) =>
      match budgetCharge h middle second delta with
      | none => some (middle, isNew.toNat)
      | some (charged, isNew') => some (charged, isNew.toNat + isNew'.toNat)

/-- Two accounts of a call agree up to who sits in which slot. -/
def SameCharges (charged charged' : (Fin 5 → Budget) × ℕ) : Prop :=
  Alike charged.1 charged'.1 ∧ charged'.2 = charged.2

/-- Charges at one seat of alike budgets are both refused, or leave alike budgets. -/
theorem budgetCharge_alike (h : Header) {budget budget' : Fin 5 → Budget}
    (halike : Alike budget budget') {source source' : UInt16} (hreal : source ≠ srcNone)
    (hreal' : source' ≠ srcNone) (hseat : seatOf budget' source' = seatOf budget source)
    (delta : ℕ) :
    Option.Rel (fun charged charged' => Alike charged.1 charged'.1 ∧ charged'.2 = charged.2)
      (budgetCharge h budget source delta) (budgetCharge h budget' source' delta) := by
  rw [budgetCharge_eq, budgetCharge_eq, hseat]
  generalize seatOf budget source = seat
  have hspent := halike.spent seat.slot
  have hunused := halike.unused seat.slot
  cases seat with
  | known i =>
      rw [Seat.slot_known] at *
      simp only [chargedSlot, hspent]
      split_ifs
      · exact .none
      · exact .some ⟨halike.update rfl hunused, rfl⟩
  | vacant i =>
      simp only [chargedSlot]
      split_ifs
      · exact .none
      · exact .some ⟨halike.update rfl (by simp [hreal, hreal']), rfl⟩
  | shared =>
      rw [Seat.slot_shared] at *
      simp only [chargedSlot, hspent]
      by_cases hfull : (budget overflowSlot).spent + delta > h.budgetPerSource
      · rw [if_pos hfull, if_pos hfull]
        exact .none
      · rw [if_neg hfull, if_neg hfull]
        by_cases hfree : (budget overflowSlot).sourceId = srcNone
        · rw [hunused.mpr hfree, hfree]
          exact .some ⟨halike.update rfl Iff.rfl, rfl⟩
        · have hfree' := fun h => hfree (hunused.mp h)
          rw [if_neg hfree, if_neg hfree']
          refine .some ⟨halike.update rfl hunused, ?_⟩
          rw [beq_eq_false_iff_ne.mpr hfree, beq_eq_false_iff_ne.mpr hfree']

/-- Two unknown sources compete for one seat; whoever loses sits down next. -/
theorem chargeTwo_comm_of_unknown {h : Header} {budget : Fin 5 → Budget} {first second : UInt16}
    (hne : first ≠ second) (hreal : first ≠ srcNone) (hreal' : second ≠ srcNone)
    (hunknown : ∀ i, i ≠ overflowSlot → (budget i).sourceId ≠ first)
    (hunknown' : ∀ i, i ≠ overflowSlot → (budget i).sourceId ≠ second) (delta : ℕ) :
    Option.Rel SameCharges (chargeTwo h budget first second delta)
      (chargeTwo h budget second first delta) := by
  have hseat : seatOf budget second = seatOf budget first := by
    rw [seatOf_of_unknown hunknown, seatOf_of_unknown hunknown']
  have hcharge := budgetCharge_alike h (.refl budget) hreal hreal' hseat delta
  unfold chargeTwo
  cases hfirst : budgetCharge h budget first delta with
  | none =>
      rw [hfirst] at hcharge
      cases hsecond : budgetCharge h budget second delta with
      | none => exact .none
      | some charged =>
          rw [hsecond] at hcharge
          cases hcharge
  | some middle =>
      obtain ⟨middle, isNew⟩ := middle
      rw [hfirst] at hcharge
      cases hsecond : budgetCharge h budget second delta with
      | none =>
          rw [hsecond] at hcharge
          cases hcharge
      | some middle' =>
          obtain ⟨middle', isNew'⟩ := middle'
          rw [hsecond] at hcharge
          cases hcharge with
          | some hsame =>
              obtain ⟨halike, rfl⟩ := hsame
              have hfirstCharge := charge_of_budgetCharge hfirst
              have hsecondCharge := charge_of_budgetCharge hsecond
              have hseats : seatOf middle' first = seatOf middle second := by
                rw [seatOf_of_unknown fun i hi hsame =>
                    hunknown i hi ((hsecondCharge.holds_iff hne hreal hi).mp hsame),
                  seatOf_of_unknown fun i hi hsame =>
                    hunknown' i hi ((hfirstCharge.holds_iff (Ne.symm hne) hreal' hi).mp hsame)]
                exact openSeat_congr fun i _ => halike.unused i
              have hnext := budgetCharge_alike h halike hreal' hreal hseats delta
              simp only
              cases hafter : budgetCharge h middle second delta with
              | none =>
                  rw [hafter] at hnext
                  cases hafter' : budgetCharge h middle' first delta with
                  | none => exact .some ⟨halike, rfl⟩
                  | some charged =>
                      rw [hafter'] at hnext
                      cases hnext
              | some charged =>
                  rw [hafter] at hnext
                  cases hafter' : budgetCharge h middle' first delta with
                  | none =>
                      rw [hafter'] at hnext
                      cases hnext
                  | some charged' =>
                      rw [hafter'] at hnext
                      cases hnext with
                      | some hsame => exact .some ⟨hsame.1, by simp only [hsame.2]⟩

/-- Charges at different seats which leave each other's seat alone. -/
theorem chargeTwo_comm_of_apart {h : Header} {budget : Fin 5 → Budget} {first second : UInt16}
    {delta : ℕ} (hapart : (seatOf budget first).slot ≠ (seatOf budget second).slot)
    (hkeeps : ∀ middle isNew, budgetCharge h budget first delta = some (middle, isNew) →
      seatOf middle second = seatOf budget second)
    (hkeeps' : ∀ middle isNew, budgetCharge h budget second delta = some (middle, isNew) →
      seatOf middle first = seatOf budget first) :
    Option.Rel SameCharges (chargeTwo h budget first second delta)
      (chargeTwo h budget second first delta) := by
  have hfirst := budgetCharge_eq h budget first delta
  have hsecond := budgetCharge_eq h budget second delta
  unfold chargeTwo
  cases hstored : chargedSlot h (budget (seatOf budget first).slot) first delta
      (seatOf budget first) with
  | none =>
      rw [hstored] at hfirst
      cases hstored' : chargedSlot h (budget (seatOf budget second).slot) second delta
          (seatOf budget second) with
      | none =>
          rw [hstored'] at hsecond
          simp only [hfirst, hsecond, Option.map_none]
          exact .none
      | some stored' =>
          rw [hstored'] at hsecond
          have hagain := budgetCharge_eq h (Function.update budget (seatOf budget second).slot
            stored'.1) first delta
          rw [hkeeps' _ _ hsecond, Function.update_of_ne hapart, hstored] at hagain
          simp only [hfirst, hsecond, hagain, Option.map_none, Option.map_some]
          exact .some ⟨.refl _, rfl⟩
  | some stored =>
      rw [hstored] at hfirst
      have hnext := budgetCharge_eq h (Function.update budget (seatOf budget first).slot
        stored.1) second delta
      rw [hkeeps _ _ hfirst, Function.update_of_ne (Ne.symm hapart)] at hnext
      cases hstored' : chargedSlot h (budget (seatOf budget second).slot) second delta
          (seatOf budget second) with
      | none =>
          rw [hstored'] at hsecond hnext
          simp only [hfirst, hsecond, hnext, Option.map_none, Option.map_some]
          exact .some ⟨.refl _, rfl⟩
      | some stored' =>
          rw [hstored'] at hsecond hnext
          have hagain := budgetCharge_eq h (Function.update budget (seatOf budget second).slot
            stored'.1) first delta
          rw [hkeeps' _ _ hsecond, Function.update_of_ne hapart, hstored] at hagain
          simp only [hfirst, hsecond, hnext, hagain, Option.map_some]
          refine .some ⟨?_, Nat.add_comm _ _⟩
          rw [Function.update_comm hapart]
          exact .refl _

/-- A source with a slot of its own and any other. -/
theorem chargeTwo_comm_of_known (h : Header) {budget : Fin 5 → Budget} {first second : UInt16}
    (hne : first ≠ second) (hreal : first ≠ srcNone) {i : Fin 5}
    (hnamed : i ≠ overflowSlot) (hknown : (budget i).sourceId = first)
    (hseat : seatOf budget first = .known i) (delta : ℕ) :
    Option.Rel SameCharges (chargeTwo h budget first second delta)
      (chargeTwo h budget second first delta) := by
  apply chargeTwo_comm_of_apart
  · rw [hseat, Seat.slot_known]
    rcases seatOf_cases budget second with ⟨j, _, hsource, hother⟩ | hunknown
    · rw [hother, Seat.slot_known]
      rintro rfl
      exact hne (hknown.symm.trans hsource)
    · rw [seatOf_of_unknown hunknown, openSeat]
      cases hfree : namedSlots.find? fun j => decide ((budget j).sourceId = srcNone) with
      | some j =>
          obtain ⟨_, hnone, _⟩ := namedSlots_find_some hfree
          rw [Seat.slot_vacant]
          rintro rfl
          exact hreal (hknown.symm.trans (of_decide_eq_true hnone))
      | none => exact hnamed
  · exact fun middle isNew hcharge =>
      (charge_of_budgetCharge hcharge).seatOf_other_of_known hnamed hknown
  · intro middle isNew hcharge
    rw [hseat]
    exact (charge_of_budgetCharge hcharge).seatOf_known hne hreal hseat

theorem chargeTwo_comm (h : Header) (budget : Fin 5 → Budget) {first second : UInt16}
    (hne : first ≠ second) (hreal : first ≠ srcNone) (hreal' : second ≠ srcNone) (delta : ℕ) :
    Option.Rel SameCharges (chargeTwo h budget first second delta)
      (chargeTwo h budget second first delta) := by
  rcases seatOf_cases budget first with ⟨i, hnamed, hknown, hseat⟩ | hunknown
  · exact chargeTwo_comm_of_known h hne hreal hnamed hknown hseat delta
  · rcases seatOf_cases budget second with ⟨i, hnamed, hknown, hseat⟩ | hunknown'
    · have hcomm := chargeTwo_comm_of_known h (Ne.symm hne) hreal' hnamed hknown hseat delta
      generalize chargeTwo h budget second first delta = back at hcomm ⊢
      generalize chargeTwo h budget first second delta = forth at hcomm ⊢
      cases hcomm with
      | none => exact .none
      | some hsame => exact .some ⟨hsame.1.symm, hsame.2.symm⟩
    · exact chargeTwo_comm_of_unknown hne hreal hreal' hunknown hunknown' delta

/-! ## The charges of a call -/

theorem chargeExisting_eq (h : Header) (budget : Fin 5 → Budget) {w0Src w1Src : UInt16}
    (hreal : w1Src ≠ srcNone) (hne : w1Src ≠ w0Src) (delta : ℕ) :
    ((chargeExisting h budget w0Src w1Src delta).map fun charged => (charged.1, charged.2.1)) =
      chargeTwo h budget w0Src w1Src delta := by
  have htwo : (w1Src ≠ srcNone && w1Src ≠ w0Src : Bool) = true := by simp [hreal, hne]
  simp only [chargeExisting, chargeTwo, htwo, if_true]
  cases budgetCharge h budget w0Src delta with
  | none =>
      simp only [Option.map_map]
      rfl
  | some first =>
      simp only [chargeIgnoringRefusal, Option.map_some]
      cases budgetCharge h first.1 w1Src delta with
      | none => rfl
      | some second => rfl

theorem chargeFresh_eq (h : Header) {w0Src w1Src : UInt16} (hreal : w1Src ≠ srcNone)
    (hne : w1Src ≠ w0Src) (delta : ℕ) :
    ((chargeFresh h w0Src w1Src delta).1, (chargeFresh h w0Src w1Src delta).2.1) =
      (chargeTwo h (fun _ => Budget.zero) w0Src w1Src delta).getD (fun _ => Budget.zero, 0) := by
  simp only [chargeFresh, chargeTwo, chargeIgnoringRefusal, if_pos (And.intro hreal hne)]
  cases budgetCharge h (fun _ => Budget.zero) w0Src delta with
  | none =>
      simp only
      cases budgetCharge h (fun _ => Budget.zero) w1Src delta with
      | none => rfl
      | some second => simp
  | some first =>
      simp only
      cases budgetCharge h first.1 w1Src delta with
      | none => rfl
      | some second => rfl

/-- The two witnesses of a call on an existing edge may be exchanged. -/
theorem chargeExisting_comm (h : Header) (budget : Fin 5 → Budget) {w0Src w1Src : UInt16}
    (hreal0 : w0Src ≠ srcNone) (hreal1 : w1Src ≠ srcNone) (delta : ℕ) :
    Option.Rel SameCharges
      ((chargeExisting h budget w0Src w1Src delta).map fun charged => (charged.1, charged.2.1))
      ((chargeExisting h budget w1Src w0Src delta).map
        fun charged => (charged.1, charged.2.1)) := by
  by_cases heq : w1Src = w0Src
  · subst heq
    cases chargeExisting h budget w1Src w1Src delta with
    | none => exact .none
    | some charged => exact .some ⟨.refl _, rfl⟩
  · rw [chargeExisting_eq h budget hreal1 heq, chargeExisting_eq h budget hreal0 (Ne.symm heq)]
    exact chargeTwo_comm h budget (Ne.symm heq) hreal0 hreal1 delta

/-- So may the two witnesses of a new edge. -/
theorem chargeFresh_comm (h : Header) {w0Src w1Src : UInt16} (hreal0 : w0Src ≠ srcNone)
    (hreal1 : w1Src ≠ srcNone) (delta : ℕ) :
    SameCharges ((chargeFresh h w0Src w1Src delta).1, (chargeFresh h w0Src w1Src delta).2.1)
      ((chargeFresh h w1Src w0Src delta).1, (chargeFresh h w1Src w0Src delta).2.1) := by
  by_cases heq : w1Src = w0Src
  · subst heq
    exact ⟨.refl _, rfl⟩
  · rw [chargeFresh_eq h hreal1 heq, chargeFresh_eq h hreal0 (Ne.symm heq)]
    have hcomm := chargeTwo_comm h (fun _ => Budget.zero) (Ne.symm heq) hreal0 hreal1 delta
    generalize chargeTwo h (fun _ => Budget.zero) w0Src w1Src delta = forth at hcomm ⊢
    generalize chargeTwo h (fun _ => Budget.zero) w1Src w0Src delta = back at hcomm ⊢
    cases hcomm with
    | none => exact ⟨.refl _, rfl⟩
    | some hsame => exact hsame

end Tac
end LibWake
