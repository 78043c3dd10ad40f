import Mathlib.Data.List.Induction
import Mathlib.Data.List.Nodup
import Mathlib.Data.List.Perm.Subperm
import Mathlib.Order.Lattice

/-!
# Keeping the heaviest of a stream

A list of bounded length meets candidates one by one.  It takes each while it has room, and
then each which outweighs its lightest element, in the place of that element.  What it keeps
are the heaviest candidates so far, each occurrence at most once.
-/

namespace LibWake
namespace HeaviestKept

variable {α κ : Type*} [LinearOrder κ]

/-- Offer one candidate to a list of at most `cap` elements. -/
def offer (weight : α → κ) (lightest : List α → ℕ) (cap : ℕ) (top : List α) (cand : α) :
    List α :=
  if top.length < cap then top ++ [cand]
  else
    match top[lightest top]? with
    | some low => if weight low < weight cand then top.set (lightest top) cand else top
    | none => top

/-- The search finds a place of least weight in a list of `cap` elements. -/
def FindsLightest (weight : α → κ) (lightest : List α → ℕ) (cap : ℕ) : Prop :=
  ∀ top : List α, top.length = cap → ∃ low, top[lightest top]? = some low ∧
    ∀ a ∈ top, weight low ≤ weight a

/-- The elements of the list are the candidates at these places: as many as fit, no place
twice, and none left out which outweighs one of them. -/
structure Keeps (weight : α → κ) (cap : ℕ) (cands top : List α) (kept : List ℕ) : Prop where
  length_eq : top.length = min cands.length cap
  nodup : kept.Nodup
  occurrences : kept.map (fun i => cands[i]?) = top.map some
  heaviest : ∀ i ∈ kept, ∀ j ∉ kept, ∀ a b, cands[i]? = some a → cands[j]? = some b →
    weight b ≤ weight a

namespace Keeps

variable {weight : α → κ} {lightest : List α → ℕ} {cap : ℕ} {cands top : List α}
  {kept : List ℕ}

theorem kept_length (hkeeps : Keeps weight cap cands top kept) : kept.length = top.length := by
  have hlength := congrArg List.length hkeeps.occurrences
  rwa [List.length_map, List.length_map] at hlength

theorem mem_iff (hkeeps : Keeps weight cap cands top kept) {a : α} :
    a ∈ top ↔ ∃ i ∈ kept, cands[i]? = some a := by
  have hmem : some a ∈ top.map some ↔ a ∈ top := by simp
  rw [← hmem, ← hkeeps.occurrences, List.mem_map]

theorem lt_of_mem (hkeeps : Keeps weight cap cands top kept) {i : ℕ} (hi : i ∈ kept) :
    i < cands.length := by
  have hmem : cands[i]? ∈ top.map some :=
    hkeeps.occurrences ▸ List.mem_map_of_mem (f := fun i => cands[i]?) hi
  obtain ⟨a, -, ha⟩ := List.mem_map.mp hmem
  exact (List.getElem?_eq_some_iff.mp ha.symm).1

theorem fresh (hkeeps : Keeps weight cap cands top kept) : cands.length ∉ kept :=
  fun hmem => Nat.lt_irrefl _ (hkeeps.lt_of_mem hmem)

/-- While the list has room it keeps every candidate. -/
theorem all_kept (hkeeps : Keeps weight cap cands top kept) (hroom : cands.length ≤ cap)
    {j : ℕ} (hj : j < cands.length) : j ∈ kept := by
  have hsub : kept ⊆ List.range cands.length := fun i hi =>
    List.mem_range.mpr (hkeeps.lt_of_mem hi)
  have hlength : (List.range cands.length).length ≤ kept.length := by
    have hkept := hkeeps.length_eq
    rw [List.length_range, hkeeps.kept_length]
    omega
  have hperm := (List.subperm_of_subset hkeeps.nodup hsub).perm_of_length_le hlength
  exact hperm.mem_iff.mpr (List.mem_range.mpr hj)

theorem occurrences_append (hkeeps : Keeps weight cap cands top kept) (cand : α) :
    kept.map (fun i => (cands ++ [cand])[i]?) = top.map some := by
  rw [← hkeeps.occurrences]
  apply List.map_congr_left
  intro i hi
  exact List.getElem?_append_left (hkeeps.lt_of_mem hi)

theorem nil (weight : α → κ) (cap : ℕ) : Keeps weight cap [] [] [] where
  length_eq := (Nat.zero_min cap).symm
  nodup := List.nodup_nil
  occurrences := rfl
  heaviest _ hi := absurd hi List.not_mem_nil

/-- The candidate goes to the end while there is room. -/
theorem push (hkeeps : Keeps weight cap cands top kept) (hroom : top.length < cap) (cand : α) :
    Keeps weight cap (cands ++ [cand]) (top ++ [cand]) (kept ++ [cands.length]) where
  length_eq := by
    have hlength := hkeeps.length_eq
    rw [List.length_append, List.length_append, List.length_singleton]
    omega
  nodup := by
    refine List.nodup_append.mpr ⟨hkeeps.nodup, List.nodup_singleton _, ?_⟩
    rintro i hi j hj rfl
    exact hkeeps.fresh (List.mem_singleton.mp hj ▸ hi)
  occurrences := by
    rw [List.map_append, List.map_append, hkeeps.occurrences_append]
    simp
  heaviest i _ j hj _ b _ hb := by
    -- nothing is left out
    have hlength := hkeeps.length_eq
    have hj' := (List.getElem?_eq_some_iff.mp hb).1
    rw [List.length_append, List.length_singleton] at hj'
    refine absurd ?_ hj
    rcases Nat.lt_succ_iff_lt_or_eq.mp hj' with hold | rfl
    · exact List.mem_append_left _ (hkeeps.all_kept (by omega) hold)
    · exact List.mem_append_right _ (List.mem_singleton.mpr rfl)

/-- A candidate which outweighs nothing that is kept is left out. -/
theorem leave (hkeeps : Keeps weight cap cands top kept) (hfull : ¬ top.length < cap) {cand : α}
    (hlight : ∀ a ∈ top, weight cand ≤ weight a) :
    Keeps weight cap (cands ++ [cand]) top kept where
  length_eq := by
    have hlength := hkeeps.length_eq
    rw [List.length_append, List.length_singleton]
    omega
  nodup := hkeeps.nodup
  occurrences := hkeeps.occurrences_append cand
  heaviest i hi j hj a b ha hb := by
    rw [List.getElem?_append_left (hkeeps.lt_of_mem hi)] at ha
    by_cases hold : j < cands.length
    · rw [List.getElem?_append_left hold] at hb
      exact hkeeps.heaviest i hi j hj a b ha hb
    · have hj' := (List.getElem?_eq_some_iff.mp hb).1
      rw [List.length_append, List.length_singleton] at hj'
      obtain rfl : j = cands.length := by omega
      rw [List.getElem?_concat_length, Option.some.injEq] at hb
      subst hb
      exact hlight a (hkeeps.mem_iff.mpr ⟨i, hi, ha⟩)

/-- A candidate which outweighs the lightest element takes its place. -/
theorem replace (hkeeps : Keeps weight cap cands top kept) (hfull : ¬ top.length < cap)
    {place : ℕ} {low cand : α} (hlow : top[place]? = some low)
    (hlightest : ∀ a ∈ top, weight low ≤ weight a) (hheavy : weight low < weight cand) :
    Keeps weight cap (cands ++ [cand]) (top.set place cand) (kept.set place cands.length) := by
  obtain ⟨hplace, -⟩ := List.getElem?_eq_some_iff.mp hlow
  have hkept : place < kept.length := hkeeps.kept_length ▸ hplace
  have hgone : cands[kept[place]]? = some low := by
    have hget := congrArg (fun l => l[place]?) hkeeps.occurrences
    simpa [hlow, hkept] using hget
  have hnew : ∀ i a, (cands ++ [cand])[i]? = some a → i = cands.length → a = cand := by
    rintro i a ha rfl
    rwa [List.getElem?_concat_length, Option.some.injEq, eq_comm] at ha
  constructor
  · have hlength := hkeeps.length_eq
    rw [List.length_set, List.length_append, List.length_singleton]
    omega
  · exact hkeeps.nodup.set hkeeps.fresh
  · rw [List.map_set, List.map_set, hkeeps.occurrences_append, List.getElem?_concat_length]
  · intro i hi j hj a b ha hb
    -- the place which is given up, and what was left out before, weigh no more than `low`
    have hb' : weight b ≤ weight low := by
      have hne : j ≠ cands.length := by
        rintro rfl
        exact hj (List.mem_set hkept _)
      have hold : j < cands.length := by
        have hj' := (List.getElem?_eq_some_iff.mp hb).1
        rw [List.length_append, List.length_singleton] at hj'
        omega
      rw [List.getElem?_append_left hold] at hb
      by_cases hwas : j ∈ kept
      · obtain ⟨p, hp, rfl⟩ := List.mem_iff_getElem.mp hwas
        have hsame : p = place := by
          by_contra hother
          refine hj (List.mem_iff_getElem.mpr ⟨p, by rwa [List.length_set], ?_⟩)
          exact List.getElem_set_ne (Ne.symm hother) _
        subst hsame
        rw [hgone, Option.some.injEq] at hb
        rw [hb]
      · exact hkeeps.heaviest _ (List.getElem_mem hkept) j hwas low b hgone hb
    rcases List.mem_or_eq_of_mem_set hi with hi | hi
    · rw [List.getElem?_append_left (hkeeps.lt_of_mem hi)] at ha
      exact hb'.trans (hlightest a (hkeeps.mem_iff.mpr ⟨i, hi, ha⟩))
    · rw [hnew i a ha hi]
      exact hb'.trans hheavy.le

theorem offer (hkeeps : Keeps weight cap cands top kept)
    (hfinds : FindsLightest weight lightest cap) (cand : α) :
    ∃ kept', Keeps weight cap (cands ++ [cand])
      (HeaviestKept.offer weight lightest cap top cand) kept' := by
  rw [HeaviestKept.offer]
  split_ifs with hroom
  · exact ⟨_, hkeeps.push hroom cand⟩
  · have hcap : top.length = cap := by
      have hlength := hkeeps.length_eq
      omega
    obtain ⟨low, hlow, hlightest⟩ := hfinds top hcap
    rw [hlow]
    by_cases hheavy : weight low < weight cand
    · simp only [if_pos hheavy]
      exact ⟨_, hkeeps.replace hroom hlow hlightest hheavy⟩
    · simp only [if_neg hheavy]
      exact ⟨kept, hkeeps.leave hroom fun a ha => (not_lt.mp hheavy).trans (hlightest a ha)⟩

end Keeps

/-- After any sequence of candidates the list holds the heaviest of them. -/
theorem exists_keeps {weight : α → κ} {lightest : List α → ℕ} {cap : ℕ}
    (hfinds : FindsLightest weight lightest cap) (cands : List α) :
    ∃ kept, Keeps weight cap cands (cands.foldl (offer weight lightest cap) []) kept := by
  induction cands using List.reverseRecOn with
  | nil => exact ⟨[], .nil weight cap⟩
  | append_singleton front cand ih =>
      obtain ⟨kept, hkeeps⟩ := ih
      rw [List.foldl_append, List.foldl_cons, List.foldl_nil]
      exact hkeeps.offer hfinds cand

end HeaviestKept
end LibWake
