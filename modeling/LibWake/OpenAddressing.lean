import Mathlib.Logic.Function.Basic
import Mathlib.Data.List.Basic

/-!
# Open addressing over bounded probe windows

A table is a map from indices to slots.  A key may only be stored at the
indices of its own finite window, and a search walks the window until it meets
the key or an empty slot.  Nothing is assumed about the window function, so
the rules cover wrap-around, windows longer than the table and windows which
repeat an index.
-/

namespace LibWake
namespace OpenAddressing

/-- What the tag of one slot says. -/
inductive Slot (κ : Type*) where
  | empty
  | tombstone
  | live (key : κ)
  deriving DecidableEq

variable {ι κ : Type*}

/-- A new key may take an empty slot or a tombstone. -/
def Slot.isFree : Slot κ → Bool
  | .live _ => false
  | _ => true

/-- Decode a stored tag in which two reserved keys mark free slots. -/
def Slot.ofTag [DecidableEq κ] (emptyTag tombTag tag : κ) : Slot κ :=
  if tag = emptyTag then .empty
  else if tag = tombTag then .tombstone
  else .live tag

@[simp] theorem Slot.ofTag_eq_live_iff [DecidableEq κ]
    {emptyTag tombTag tag key : κ} :
    Slot.ofTag emptyTag tombTag tag = .live key ↔
      tag = key ∧ tag ≠ emptyTag ∧ tag ≠ tombTag := by
  unfold Slot.ofTag
  split_ifs <;> simp_all

@[simp] theorem Slot.ofTag_eq_empty_iff [DecidableEq κ]
    {emptyTag tombTag tag : κ} :
    Slot.ofTag emptyTag tombTag tag = .empty ↔ tag = emptyTag := by
  unfold Slot.ofTag
  split_ifs <;> simp_all

@[simp] theorem Slot.isFree_ofTag [DecidableEq κ]
    {emptyTag tombTag tag : κ} :
    (Slot.ofTag emptyTag tombTag tag).isFree = true ↔
      tag = emptyTag ∨ tag = tombTag := by
  unfold Slot.ofTag
  split_ifs <;> simp_all [Slot.isFree]

/-- The first slot of a window which a new key may take. -/
def probeFree (slots : ι → Slot κ) (window : List ι) : Option ι :=
  window.find? fun idx => (slots idx).isFree

/-- `idx` lies in the window and no empty slot stands in front of it. -/
def Chained (slots : ι → Slot κ) (window : List ι) (idx : ι) : Prop :=
  ∃ front back, window = front ++ idx :: back ∧
    ∀ other ∈ front, slots other ≠ .empty

/-- Every live key can be reached from its home, and occupies one slot. -/
structure WellProbed (window : κ → List ι) (slots : ι → Slot κ) : Prop where
  chained : ∀ idx key, slots idx = .live key → Chained slots (window key) idx
  unique : ∀ idx other key,
    slots idx = .live key → slots other = .live key → idx = other

theorem Chained.mem {slots : ι → Slot κ} {window : List ι} {idx : ι}
    (hchained : Chained slots window idx) : idx ∈ window := by
  obtain ⟨front, back, rfl, _⟩ := hchained
  simp

/-- Filling slots never disconnects a chain. -/
theorem Chained.mono {slots slots' : ι → Slot κ} {window : List ι} {idx : ι}
    (hchained : Chained slots window idx)
    (hempty : ∀ other, slots' other = .empty → slots other = .empty) :
    Chained slots' window idx := by
  obtain ⟨front, back, hwindow, hfront⟩ := hchained
  exact ⟨front, back, hwindow, fun other hmem h => hfront other hmem (hempty other h)⟩

/-! ## Free slots -/

/-- When a search fails, the slots in front of the first free slot of the
window are live, so a key put there is chained. -/
theorem chained_of_probeFree {slots : ι → Slot κ} {window : List ι} {idx : ι}
    (hfree : probeFree slots window = some idx) : Chained slots window idx := by
  obtain ⟨_, front, back, hwindow, hfront⟩ :=
    List.find?_eq_some_iff_append.mp hfree
  refine ⟨front, back, hwindow, fun other hmem hempty => ?_⟩
  have hbusy := hfront other hmem
  simp [hempty, Slot.isFree] at hbusy

theorem probeFree_some_isFree {slots : ι → Slot κ} {window : List ι} {idx : ι}
    (hfree : probeFree slots window = some idx) : (slots idx).isFree = true := by
  simpa using List.find?_some hfree

theorem probeFree_some_mem {slots : ι → Slot κ} {window : List ι} {idx : ι}
    (hfree : probeFree slots window = some idx) : idx ∈ window :=
  List.mem_of_find?_eq_some hfree

theorem probeFree_eq_none_iff {slots : ι → Slot κ} {window : List ι} :
    probeFree slots window = none ↔
      ∀ idx ∈ window, ∃ key, slots idx = .live key := by
  unfold probeFree
  rw [List.find?_eq_none]
  constructor
  · intro hbusy idx hmem
    have hslot := hbusy idx hmem
    cases h : slots idx with
    | empty => simp [h, Slot.isFree] at hslot
    | tombstone => simp [h, Slot.isFree] at hslot
    | live key => exact ⟨key, rfl⟩
  · intro hlive idx hmem
    obtain ⟨key, hkey⟩ := hlive idx hmem
    simp [hkey, Slot.isFree]

/-! ## The search -/

section Search

variable [DecidableEq κ]

/-- Walk a window until the key is met, an empty slot is met, or the window
is exhausted. -/
def probeFind (slots : ι → Slot κ) (key : κ) : List ι → Option ι
  | [] => none
  | idx :: rest =>
      match slots idx with
      | .empty => none
      | .tombstone => probeFind slots key rest
      | .live held => if held = key then some idx else probeFind slots key rest

theorem probeFind_some_mem {slots : ι → Slot κ} {key : κ}
    {window : List ι} {idx : ι}
    (hfind : probeFind slots key window = some idx) :
    idx ∈ window ∧ slots idx = .live key := by
  induction window with
  | nil => simp [probeFind] at hfind
  | cons head rest ih =>
      unfold probeFind at hfind
      cases hslot : slots head with
      | empty => simp [hslot] at hfind
      | tombstone =>
          simp only [hslot] at hfind
          exact ⟨List.mem_cons_of_mem _ (ih hfind).1, (ih hfind).2⟩
      | live held =>
          simp only [hslot] at hfind
          split at hfind
          next heq =>
            simp only [Option.some.injEq] at hfind
            subst hfind heq
            exact ⟨List.mem_cons_self, hslot⟩
          next =>
            exact ⟨List.mem_cons_of_mem _ (ih hfind).1, (ih hfind).2⟩

/-- A chained live key is found, at its own or at an earlier slot. -/
theorem probeFind_isSome_of_chained {slots : ι → Slot κ} {key : κ}
    {window : List ι} {idx : ι}
    (hchained : Chained slots window idx) (hlive : slots idx = .live key) :
    (probeFind slots key window).isSome := by
  obtain ⟨front, back, rfl, hfront⟩ := hchained
  induction front with
  | nil => simp [probeFind, hlive]
  | cons head rest ih =>
      have hrest := ih fun other hmem => hfront other (List.mem_cons_of_mem _ hmem)
      rw [List.cons_append, probeFind]
      cases hslot : slots head with
      | empty => exact absurd hslot (hfront head List.mem_cons_self)
      | tombstone => simpa using hrest
      | live held =>
          by_cases heq : held = key
          · simp [heq]
          · simpa [heq] using hrest

/-- A search which ends in the front part of a window never looks at the rest. -/
theorem probeFind_append_of_mem {slots : ι → Slot κ} {key : κ} {front back : List ι} {idx : ι}
    (hmem : idx ∈ front) (hlive : slots idx = .live key) :
    probeFind slots key (front ++ back) = probeFind slots key front := by
  induction front with
  | nil => contradiction
  | cons head rest ih =>
      rw [List.cons_append, probeFind, probeFind]
      cases hslot : slots head with
      | empty => rfl
      | tombstone =>
          have hne : idx ≠ head := by
            rintro rfl
            rw [hslot] at hlive
            contradiction
          exact ih ((List.mem_cons.mp hmem).resolve_left hne)
      | live held =>
          by_cases heq : held = key
          · simp [heq]
          · have hne : idx ≠ head := by
              rintro rfl
              exact heq (Slot.live.inj (hslot.symm.trans hlive))
            simpa [heq] using ih ((List.mem_cons.mp hmem).resolve_left hne)

theorem probeFind_congr {slots slots' : ι → Slot κ} {key : κ} {window : List ι}
    (hsame : ∀ idx ∈ window, slots' idx = slots idx) :
    probeFind slots' key window = probeFind slots key window := by
  induction window with
  | nil => rfl
  | cons head rest ih =>
      rw [probeFind, probeFind, hsame head List.mem_cons_self,
        ih fun idx hmem => hsame idx (List.mem_cons_of_mem _ hmem)]

/-- Another key claimed in a free slot does not hide a key which is found. -/
theorem probeFind_update_other [DecidableEq ι] {slots : ι → Slot κ} {key other : κ}
    {window : List ι} {found idx : ι} (hfind : probeFind slots key window = some found)
    (hfree : (slots idx).isFree = true) (hne : other ≠ key) :
    probeFind (Function.update slots idx (.live other)) key window = some found := by
  induction window with
  | nil => cases hfind
  | cons head rest ih =>
      by_cases hhead : head = idx
      · subst hhead
        rw [probeFind, Function.update_self]
        simp only [if_neg hne]
        apply ih
        rw [probeFind] at hfind
        cases hslot : slots head with
        | empty => simp [hslot] at hfind
        | tombstone => simpa only [hslot] using hfind
        | live held => simp [hslot, Slot.isFree] at hfree
      · rw [probeFind, Function.update_of_ne hhead]
        rw [probeFind] at hfind
        cases hslot : slots head with
        | empty => simp [hslot] at hfind
        | tombstone =>
            simp only [hslot] at hfind ⊢
            exact ih hfind
        | live held =>
            simp only [hslot] at hfind ⊢
            by_cases heq : held = key
            · rwa [if_pos heq] at hfind ⊢
            · rw [if_neg heq] at hfind ⊢
              exact ih hfind

/-- A key claimed in the first free slot of its window is found there. -/
theorem probeFind_update_probeFree [DecidableEq ι] {slots : ι → Slot κ} {key : κ}
    {window : List ι} {idx : ι} (habsent : probeFind slots key window = none)
    (hfree : probeFree slots window = some idx) :
    probeFind (Function.update slots idx (.live key)) key window = some idx := by
  induction window with
  | nil => cases hfree
  | cons head rest ih =>
      by_cases hhead : (slots head).isFree = true
      · have hidx : head = idx := by
          simpa [probeFree, hhead] using hfree
        simp [probeFind, hidx]
      · have hrest : probeFree slots rest = some idx := by
          simpa [probeFree, hhead] using hfree
        have hne : head ≠ idx := by
          rintro rfl
          exact hhead (probeFree_some_isFree hrest)
        rw [probeFind, Function.update_of_ne hne]
        cases hslot : slots head with
        | empty => exact absurd (by rw [hslot]; rfl) hhead
        | tombstone => exact absurd (by rw [hslot]; rfl) hhead
        | live held =>
            simp only [probeFind, hslot] at habsent
            by_cases heq : held = key
            · simp [heq] at habsent
            · simp only [if_neg heq] at habsent ⊢
              exact ih habsent hrest

/-- Walk the stored tags of a window until the key or the empty tag is met. -/
def probeTag (emptyTag : κ) (tags : ι → κ) (key : κ) : List ι → Option ι
  | [] => none
  | idx :: rest =>
      if tags idx = key then some idx
      else if tags idx = emptyTag then none
      else probeTag emptyTag tags key rest

/-- A search for a key which is not reserved may compare the tags as they are
stored. -/
theorem probeTag_eq_probeFind {emptyTag tombTag key : κ} (hempty : key ≠ emptyTag)
    (htomb : key ≠ tombTag) (tags : ι → κ) (window : List ι) :
    probeTag emptyTag tags key window =
      probeFind (fun idx => Slot.ofTag emptyTag tombTag (tags idx)) key window := by
  induction window with
  | nil => rfl
  | cons idx rest ih =>
      unfold probeTag probeFind
      by_cases hkey : tags idx = key
      · simp [Slot.ofTag, hkey, hempty, htomb]
      · by_cases hfree : tags idx = emptyTag
        · simp [Slot.ofTag, hfree, Ne.symm hempty]
        · by_cases hbury : tags idx = tombTag
          · have hother : tombTag ≠ emptyTag := hbury ▸ hfree
            simpa [Slot.ofTag, hbury, Ne.symm htomb, hother] using ih
          · simpa [Slot.ofTag, hkey, hfree, hbury] using ih

end Search

namespace WellProbed

variable {window : κ → List ι} {slots : ι → Slot κ}

theorem of_no_live (hdead : ∀ idx key, slots idx ≠ .live key) :
    WellProbed window slots :=
  ⟨fun idx key hlive => absurd hlive (hdead idx key),
    fun idx _ key hlive _ => absurd hlive (hdead idx key)⟩

/-- In a well probed table the search decides membership. -/
theorem probeFind_eq_some_iff [DecidableEq κ] (hgood : WellProbed window slots)
    {key : κ} {idx : ι} :
    probeFind slots key (window key) = some idx ↔ slots idx = .live key := by
  constructor
  · intro hfind
    exact (probeFind_some_mem hfind).2
  · intro hlive
    have hsome := probeFind_isSome_of_chained (hgood.chained idx key hlive) hlive
    obtain ⟨found, hfound⟩ := Option.isSome_iff_exists.mp hsome
    rw [hfound, hgood.unique found idx key (probeFind_some_mem hfound).2 hlive]

theorem probeFind_eq_none_iff [DecidableEq κ]
    (hgood : WellProbed window slots) {key : κ} :
    probeFind slots key (window key) = none ↔ ∀ idx, slots idx ≠ .live key := by
  constructor
  · intro hnone idx hlive
    rw [hgood.probeFind_eq_some_iff.mpr hlive] at hnone
    contradiction
  · intro habsent
    cases hfind : probeFind slots key (window key) with
    | none => rfl
    | some idx => exact absurd (probeFind_some_mem hfind).2 (habsent idx)

/-- Turning slots into tombstones keeps every other chain. -/
theorem bury (hgood : WellProbed window slots) {slots' : ι → Slot κ}
    (hburied : ∀ idx, slots' idx = slots idx ∨ slots' idx = .tombstone) :
    WellProbed window slots' := by
  have hold : ∀ idx key, slots' idx = .live key → slots idx = .live key := by
    intro idx key hlive
    rcases hburied idx with hsame | htomb
    · rwa [← hsame]
    · rw [htomb] at hlive
      contradiction
  constructor
  · intro idx key hlive
    apply (hgood.chained idx key (hold idx key hlive)).mono
    intro other hempty
    rcases hburied other with hsame | htomb
    · rwa [← hsame]
    · rw [htomb] at hempty
      contradiction
  · intro first second key hfirst hsecond
    exact hgood.unique first second key (hold _ _ hfirst) (hold _ _ hsecond)

/-- Storing an absent key in the first free slot of its window. -/
theorem claim [DecidableEq ι] (hgood : WellProbed window slots)
    {key : κ} {idx : ι}
    (habsent : ∀ other, slots other ≠ .live key)
    (hfree : probeFree slots (window key) = some idx) :
    WellProbed window (Function.update slots idx (.live key)) := by
  have hmono : ∀ slot, Function.update slots idx (.live key) slot = .empty →
      slots slot = .empty := by
    intro slot hempty
    by_cases heq : slot = idx
    · simp [heq] at hempty
    · simpa [heq] using hempty
  constructor
  · intro other held hlive
    by_cases heq : other = idx
    · subst other
      simp only [Function.update_self, Slot.live.injEq] at hlive
      subst held
      exact (chained_of_probeFree hfree).mono hmono
    · simp only [Function.update_of_ne heq] at hlive
      exact (hgood.chained other held hlive).mono hmono
  · intro first second held hfirst hsecond
    by_cases h1 : first = idx <;> by_cases h2 : second = idx
    · rw [h1, h2]
    · simp only [h1, Function.update_self, Slot.live.injEq] at hfirst
      simp only [Function.update_of_ne h2] at hsecond
      exact absurd (hfirst ▸ hsecond) (habsent second)
    · simp only [h2, Function.update_self, Slot.live.injEq] at hsecond
      simp only [Function.update_of_ne h1] at hfirst
      exact absurd (hsecond ▸ hfirst) (habsent first)
    · simp only [Function.update_of_ne h1] at hfirst
      simp only [Function.update_of_ne h2] at hsecond
      exact hgood.unique first second held hfirst hsecond

end WellProbed

end OpenAddressing
end LibWake
