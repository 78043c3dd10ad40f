import Mathlib.Data.Fin.Tuple.Basic
import Mathlib.Data.List.SplitBy

/-!
# The newest words of a history

A row of slots takes words in turn.  A word of the kind in the first slot replaces it, another
one moves the slots along.  So the slots hold the newest of the words which are left when each
run of words of one kind is reduced to its last.
-/

namespace LibWake
namespace NewestKinds

variable {α κ : Type*} [DecidableEq κ] (kind : α → κ)

/-! ## Runs of one kind -/

/-- The last word of each maximal run of words of one kind. -/
def lastOfRuns (words : List α) : List α :=
  (words.splitBy fun a b => kind a = kind b).filterMap List.getLast?

theorem splitBy_singleton (r : α → α → Bool) (w : α) : [w].splitBy r = [[w]] := rfl

/-- The last run of a history, and the ones before. -/
theorem splitBy_concat (r : α → α → Bool) (words : List α) (v : α) :
    ∃ front run, (words ++ [v]).splitBy r = front ++ [run] ∧ run.getLast? = some v := by
  have hne : words ++ [v] ≠ [] := by simp
  rcases List.eq_nil_or_concat ((words ++ [v]).splitBy r) with hnil | ⟨front, run, hsplit⟩
  · exact absurd (List.splitBy_eq_nil.mp hnil) hne
  · rw [List.concat_eq_append] at hsplit
    refine ⟨front, run, hsplit, ?_⟩
    have hlast := List.getLast_getLast_splitBy r hne
    simp only [hsplit, List.getLast_append_singleton] at hlast
    have hrun : run ≠ [] :=
      List.ne_nil_of_mem_splitBy (hsplit ▸ List.mem_append_right _ (List.mem_singleton_self run))
    rw [List.getLast?_eq_some_getLast hrun, hlast]

/-- A word which goes on with the last run. -/
theorem splitBy_extend {r : α → α → Bool} {words : List α} {v w : α} {front : List (List α)}
    {run : List α} (hsplit : (words ++ [v]).splitBy r = front ++ [run])
    (hlast : run.getLast? = some v) (hsame : r v w = true) :
    (words ++ [v] ++ [w]).splitBy r = front ++ [run ++ [w]] := by
  obtain ⟨hflatten, hnil, hchains, hborders⟩ := List.splitBy_eq_iff.mp hsplit
  have hrun : run ≠ [] := fun hempty => by
    rw [hempty] at hlast
    cases hlast
  refine List.splitBy_eq_iff.mpr ⟨?_, ?_, fun part hmem => ?_, ?_⟩
  · rw [hflatten]
    simp
  · intro hmem
    rcases List.mem_append.mp hmem with hfront | hback
    · exact hnil (List.mem_append_left _ hfront)
    · simp at hback
  · rcases List.mem_append.mp hmem with hfront | hback
    · exact hchains part (List.mem_append_left _ hfront)
    · obtain rfl := List.mem_singleton.mp hback
      refine List.isChain_append.mpr ⟨hchains run (by simp), List.isChain_singleton w, ?_⟩
      intro x hx y hy
      obtain rfl := Option.some.inj (hlast.symm.trans hx)
      obtain rfl := Option.some.inj hy
      exact hsame
  · obtain ⟨hfront, -, hborder⟩ := List.isChain_append.mp hborders
    refine List.isChain_append.mpr ⟨hfront, List.isChain_singleton _, ?_⟩
    rintro part hpart _ ⟨rfl⟩
    obtain ⟨hpartNil, hrunNil, hdiffers⟩ := hborder part hpart run rfl
    refine ⟨hpartNil, by simp, ?_⟩
    rwa [List.head_append_of_ne_nil hrunNil]

/-- One more word replaces the last one if they are of one kind, and follows it otherwise. -/
theorem lastOfRuns_concat (words : List α) (v : α) :
    ∃ older, lastOfRuns kind (words ++ [v]) = older ++ [v] ∧
      ∀ w, lastOfRuns kind (words ++ [v] ++ [w]) =
        if kind v = kind w then older ++ [w] else older ++ [v] ++ [w] := by
  obtain ⟨front, run, hsplit, hlast⟩ := splitBy_concat (fun a b => kind a = kind b) words v
  have hlasts : lastOfRuns kind (words ++ [v]) = front.filterMap List.getLast? ++ [v] := by
    rw [lastOfRuns, hsplit, List.filterMap_append, List.filterMap_cons_some hlast,
      List.filterMap_nil]
  refine ⟨front.filterMap List.getLast?, hlasts, fun w => ?_⟩
  split_ifs with hsame
  · rw [lastOfRuns, splitBy_extend hsplit hlast (decide_eq_true hsame), List.filterMap_append]
    simp
  · have hborder : ∀ x ∈ (words ++ [v]).getLast?, decide (kind x = kind w) = false := by
      intro x hx
      rw [List.getLast?_concat] at hx
      obtain rfl := Option.some.inj hx
      exact decide_eq_false hsame
    rw [lastOfRuns, List.splitBy_append_cons [] hborder, List.filterMap_append, ← lastOfRuns,
      hlasts, splitBy_singleton]
    rfl

/-! ## A row of slots -/

/-- The slots of a history: the newest word first, blanks behind the oldest. -/
def newest (blank : α) (words : List α) {n : ℕ} : Fin n → α :=
  fun i => words.reverse.getD i blank

/-- The slots when they have taken a word. -/
def take {n : ℕ} (slots : Fin (n + 1) → α) (word : α) : Fin (n + 1) → α :=
  if kind (slots 0) = kind word then Function.update slots 0 word
  else Fin.cons word (fun i : Fin n => slots i.castSucc)

variable {kind} {blank : α} {n : ℕ}

theorem newest_concat_zero (words : List α) (word : α) :
    newest blank (words ++ [word]) (0 : Fin (n + 1)) = word := by
  simp [newest]

theorem newest_concat_succ (words : List α) (word : α) (i : Fin n) :
    newest blank (words ++ [word]) i.succ = newest blank words i.castSucc := by
  simp [newest]

theorem update_newest (older : List α) (v w : α) :
    Function.update (newest blank (older ++ [v]) : Fin (n + 1) → α) 0 w =
      newest blank (older ++ [w]) := by
  funext i
  cases i using Fin.cases with
  | zero => rw [Function.update_self, newest_concat_zero]
  | succ i =>
      rw [Function.update_of_ne (Fin.succ_ne_zero i), newest_concat_succ, newest_concat_succ]

theorem cons_newest (words : List α) (w : α) :
    (Fin.cons w (fun i : Fin n => newest blank words i.castSucc) : Fin (n + 1) → α) =
      newest blank (words ++ [w]) := by
  funext i
  cases i using Fin.cases with
  | zero => rw [Fin.cons_zero, newest_concat_zero]
  | succ i => rw [Fin.cons_succ, newest_concat_succ]

/-- Slots which were blank and have taken words, none of the kind of a blank, hold the newest of
the last words of the runs. -/
theorem foldl_take {words : List α} (hkinds : ∀ w ∈ words, kind w ≠ kind blank) :
    words.foldl (take kind) (fun _ : Fin (n + 1) => blank) =
      newest blank (lastOfRuns kind words) := by
  induction words using List.reverseRecOn with
  | nil => rfl
  | append_singleton words w ih =>
      rw [List.foldl_append, List.foldl_cons, List.foldl_nil,
        ih fun other hmem => hkinds other (List.mem_append_left _ hmem)]
      have hw := hkinds w (List.mem_append_right _ (List.mem_singleton_self w))
      rcases List.eq_nil_or_concat words with rfl | ⟨front, v, rfl⟩
      · have hblank : newest blank (lastOfRuns kind []) (0 : Fin (n + 1)) = blank := rfl
        rw [take, hblank, if_neg hw.symm, cons_newest]
        rfl
      · rw [List.concat_eq_append]
        obtain ⟨older, hlasts, hnext⟩ := lastOfRuns_concat kind front v
        rw [hnext w, hlasts, take, newest_concat_zero]
        split_ifs with hsame
        · exact update_newest older v w
        · exact cons_newest (older ++ [v]) w

end NewestKinds
end LibWake
