import LibWake.OpenAddressing

/-!
# Insertions which scan first and claim later

A process scans the window of its key slot by slot, remembers the first free slot
it met, and claims that slot at the end, while other processes claim slots and a
remover buries live ones.  A scan stays sound as long as no slot is buried which
it relies on: one it has passed before its first free slot, or that slot itself
once the key was stored elsewhere behind its back.
-/

namespace LibWake
namespace OpenAddressing

variable {ι κ : Type*}

/-- The slot holds another key. -/
def HoldsOther (slots : ι → Slot κ) (key : κ) (idx : ι) : Prop :=
  ∃ held, slots idx = .live held ∧ held ≠ key

/-- What the scan of the slots `passed` has found: none of them held the key; while
`first` is `none` all of them are live; otherwise the slots in front of `first` are
live, and the key was not stored in a passed slot unless `first` was taken. -/
structure Scan (slots : ι → Slot κ) (key : κ) (passed : List ι) (first : Option ι) :
    Prop where
  busy : first = none → ∀ idx ∈ passed, HoldsOther slots key idx
  found : ∀ slot, first = some slot → ∃ front back, passed = front ++ slot :: back ∧
    slot ∉ front ∧ (∀ idx ∈ front, HoldsOther slots key idx) ∧
    ((slots slot).isFree = false ∨ ∀ idx ∈ passed, slots idx ≠ .live key)

/-- Burying `idx` can lead the claim of the scan astray. -/
def ScanReliesOn [DecidableEq ι] (slots : ι → Slot κ) (key : κ) (passed : List ι)
    (first : Option ι) (idx : ι) : Prop :=
  match first with
  | none => idx ∈ passed
  | some slot => idx ∈ passed.takeWhile (· ≠ slot) ∨
      idx = slot ∧ ∃ other ∈ passed, slots other = .live key

theorem HoldsOther.ne_live {slots : ι → Slot κ} {key : κ} {idx : ι}
    (hother : HoldsOther slots key idx) : slots idx ≠ .live key := by
  obtain ⟨held, hheld, hne⟩ := hother
  rw [hheld]
  exact fun hsame => hne (Slot.live.inj hsame)

theorem HoldsOther.not_free {slots : ι → Slot κ} {key : κ} {idx : ι}
    (hother : HoldsOther slots key idx) : (slots idx).isFree = false := by
  obtain ⟨held, hheld, _⟩ := hother
  rw [hheld]
  rfl

theorem probeFree_of_front {slots : ι → Slot κ} {front back : List ι} {idx : ι}
    (hfront : ∀ other ∈ front, (slots other).isFree = false)
    (hfree : (slots idx).isFree = true) :
    probeFree slots (front ++ idx :: back) = some idx := by
  have hnone : front.find? (fun idx => (slots idx).isFree) = none := by
    refine List.find?_eq_none.mpr fun other hmem => ?_
    rw [hfront other hmem]
    exact Bool.false_ne_true
  rw [probeFree, List.find?_append, hnone, Option.none_or, List.find?_cons, hfree]

namespace Scan

variable {slots : ι → Slot κ} {key : κ} {passed rest : List ι} {first : Option ι}

theorem start : Scan slots key [] none :=
  ⟨fun _ _ hmem => absurd hmem List.not_mem_nil, fun _ hnone => nomatch hnone⟩

/-! ## One more slot -/

theorem pass_other (hscan : Scan slots key passed first) {idx : ι}
    (hother : HoldsOther slots key idx) : Scan slots key (passed ++ [idx]) first := by
  constructor
  · intro hnone other hmem
    rcases List.mem_append.mp hmem with hold | hlast
    · exact hscan.busy hnone other hold
    · exact List.mem_singleton.mp hlast ▸ hother
  · intro slot hslot
    obtain ⟨front, back, rfl, hnew, hfront, hbusy⟩ := hscan.found slot hslot
    refine ⟨front, back ++ [idx], by simp, hnew, hfront, hbusy.imp_right ?_⟩
    intro habsent other hmem
    rcases List.mem_append.mp hmem with hold | hlast
    · exact habsent other hold
    · exact List.mem_singleton.mp hlast ▸ hother.ne_live

theorem pass_free (hscan : Scan slots key passed first) {idx : ι}
    (hfree : (slots idx).isFree = true) :
    Scan slots key (passed ++ [idx]) (first.or (some idx)) := by
  have hnot : slots idx ≠ .live key := by
    intro hlive
    rw [hlive] at hfree
    cases hfree
  cases first with
  | none =>
      refine ⟨(fun hnone => nomatch hnone), fun slot hslot => ?_⟩
      obtain rfl : idx = slot := Option.some.inj hslot
      refine ⟨passed, [], rfl, ?_, hscan.busy rfl, .inr ?_⟩
      · intro hmem
        rw [(hscan.busy rfl idx hmem).not_free] at hfree
        cases hfree
      · intro other hmem
        rcases List.mem_append.mp hmem with hold | hlast
        · exact (hscan.busy rfl other hold).ne_live
        · exact List.mem_singleton.mp hlast ▸ hnot
  | some found =>
      refine ⟨(fun hnone => nomatch hnone), fun slot hslot => ?_⟩
      obtain ⟨front, back, rfl, hnew, hfront, hbusy⟩ := hscan.found slot hslot
      refine ⟨front, back ++ [idx], by simp, hnew, hfront, hbusy.imp_right ?_⟩
      intro habsent other hmem
      rcases List.mem_append.mp hmem with hold | hlast
      · exact habsent other hold
      · exact List.mem_singleton.mp hlast ▸ hnot

/-- Further slots may be counted as passed once the first free slot is known, when
they do not hold the key either. -/
theorem extend {slot : ι} (hscan : Scan slots key passed (some slot))
    (habsent : (∀ idx ∈ passed, slots idx ≠ .live key) → ∀ idx ∈ rest, slots idx ≠ .live key) :
    Scan slots key (passed ++ rest) (some slot) := by
  refine ⟨(fun hnone => nomatch hnone), fun found hfound => ?_⟩
  obtain ⟨front, back, rfl, hnew, hfront, hbusy⟩ := hscan.found found hfound
  refine ⟨front, back ++ rest, by simp, hnew, hfront, hbusy.imp_right ?_⟩
  intro hpassed idx hmem
  exact (List.mem_append.mp hmem).elim (hpassed idx) (habsent hpassed idx)

/-! ## What the others do -/

theorem probeFree_eq {slot : ι} (hscan : Scan slots key passed (some slot))
    (hfree : (slots slot).isFree = true) (rest : List ι) :
    probeFree slots (passed ++ rest) = some slot := by
  obtain ⟨front, back, rfl, _, hfront, _⟩ := hscan.found slot rfl
  rw [List.append_assoc, List.cons_append]
  exact probeFree_of_front (fun other hmem => (hfront other hmem).not_free) hfree

/-- Another process claims the first free slot of its own window. -/
theorem claim [DecidableEq ι] (hscan : Scan slots key passed first) {idx : ι} {other : κ}
    (rest : List ι) (hfree : (slots idx).isFree = true)
    (hsame : other = key → probeFree slots (passed ++ rest) = some idx) :
    Scan (Function.update slots idx (.live other)) key passed first := by
  have hkept : ∀ slot, HoldsOther slots key slot →
      HoldsOther (Function.update slots idx (.live other)) key slot := by
    intro slot hother
    have hne : slot ≠ idx := by
      rintro rfl
      rw [hother.not_free] at hfree
      cases hfree
    unfold HoldsOther
    rwa [Function.update_of_ne hne]
  refine ⟨fun hnone slot hmem => hkept slot (hscan.busy hnone slot hmem), ?_⟩
  rintro slot rfl
  obtain ⟨front, back, hpassed, hnew, hfront, hbusy⟩ := hscan.found slot rfl
  refine ⟨front, back, hpassed, hnew, fun s hmem => hkept s (hfront s hmem), ?_⟩
  by_cases hslot : slot = idx
  · -- the remembered slot itself was taken
    left
    rw [hslot, Function.update_self]
    rfl
  · rw [Function.update_of_ne hslot]
    by_cases hbusy' : (slots slot).isFree = false
    · exact .inl hbusy'
    · right
      have hslotFree : (slots slot).isFree = true := (Bool.not_eq_false _).mp hbusy'
      intro s hmem
      by_cases hs : s = idx
      · rw [hs, Function.update_self]
        intro heq
        have hfirst := hsame (Slot.live.inj heq)
        rw [hscan.probeFree_eq hslotFree] at hfirst
        exact hslot (Option.some.inj hfirst)
      · rw [Function.update_of_ne hs]
        exact hbusy.resolve_left hbusy' s hmem

theorem bury [DecidableEq ι] (hscan : Scan slots key passed first) {idx : ι}
    (hrelies : ¬ ScanReliesOn slots key passed first idx) :
    Scan (Function.update slots idx .tombstone) key passed first := by
  have hkept : ∀ slot, slot ≠ idx → HoldsOther slots key slot →
      HoldsOther (Function.update slots idx .tombstone) key slot := by
    intro slot hne hother
    unfold HoldsOther
    rwa [Function.update_of_ne hne]
  have habsent : ∀ slot, slots slot ≠ .live key →
      Function.update slots idx .tombstone slot ≠ .live key := by
    intro slot hnot
    by_cases hslot : slot = idx
    · rw [hslot, Function.update_self]
      exact fun heq => nomatch heq
    · rwa [Function.update_of_ne hslot]
  constructor
  · rintro rfl slot hmem
    exact hkept slot (fun heq => hrelies (heq ▸ hmem)) (hscan.busy rfl slot hmem)
  · rintro slot rfl
    obtain ⟨front, back, hpassed, hnew, hfront, hbusy⟩ := hscan.found slot rfl
    have htake : passed.takeWhile (· ≠ slot) = front := by
      have hall : ∀ s ∈ front, decide (s ≠ slot) = true := by
        intro s hmem
        exact decide_eq_true fun heq => hnew (heq ▸ hmem)
      rw [hpassed, List.takeWhile_append_of_pos hall]
      simp
    simp only [ScanReliesOn, htake, not_or] at hrelies
    refine ⟨front, back, hpassed, hnew, ?_, ?_⟩
    · intro s hmem
      exact hkept s (fun heq => hrelies.1 (heq ▸ hmem)) (hfront s hmem)
    · by_cases hslot : slot = idx
      · -- the remembered slot is free again, and the key was not stored meanwhile
        right
        intro s hmem
        apply habsent
        intro hlive
        exact hrelies.2 ⟨hslot.symm, s, hmem, hlive⟩
      · rw [Function.update_of_ne hslot]
        exact hbusy.imp_right fun hpassed s hmem => habsent s (hpassed s hmem)

end Scan

/-! ## The claim at the end of a scan -/

namespace WellProbed

variable {window : κ → List ι} {slots : ι → Slot κ} {key : κ}

theorem absent_behind_empty (hgood : WellProbed window slots) {front back : List ι}
    {idx : ι} (hwindow : window key = front ++ idx :: back)
    (hempty : slots idx = .empty) (habsent : ∀ other ∈ front, slots other ≠ .live key)
    (other : ι) : slots other ≠ .live key := by
  intro hlive
  obtain ⟨before, after, hsplit, hchain⟩ := hgood.chained other key hlive
  rw [hwindow] at hsplit
  rcases List.append_eq_append_iff.mp hsplit with ⟨gap, rfl, hgap⟩ | ⟨gap, rfl, hgap⟩
  · cases gap with
    | nil =>
        rw [List.nil_append] at hgap
        obtain ⟨rfl, _⟩ := List.cons.inj hgap
        rw [hempty] at hlive
        cases hlive
    | cons head tail =>
        obtain ⟨rfl, _⟩ := List.cons.inj hgap
        exact hchain idx (by simp) hempty
  · cases gap with
    | nil =>
        rw [List.nil_append] at hgap
        obtain ⟨rfl, _⟩ := List.cons.inj hgap
        rw [hempty] at hlive
        cases hlive
    | cons head tail =>
        obtain ⟨rfl, _⟩ := List.cons.inj hgap
        exact habsent other (by simp) hlive

/-- A finished scan may claim the slot it remembers when the slot is free. -/
theorem claim_scanned [DecidableEq ι] (hgood : WellProbed window slots) {slot : ι}
    (hscan : Scan slots key (window key) (some slot))
    (hfree : (slots slot).isFree = true) :
    WellProbed window (Function.update slots slot (.live key)) := by
  obtain ⟨front, back, hwindow, _, hfront, hbusy⟩ := hscan.found slot rfl
  apply hgood.claim
  · intro other hlive
    refine hbusy.resolve_left ?_ other (hgood.chained other key hlive).mem hlive
    rw [hfree]
    exact fun heq => nomatch heq
  · rw [hwindow]
    exact probeFree_of_front (fun other hmem => (hfront other hmem).not_free) hfree

end WellProbed

end OpenAddressing
end LibWake
