import LibWake.RepeatedMinimum
import LibWake.SwimQueue

/-!
# The updates which are handed out

`wake_swim_get_updates` picks, one by one, an update which was sent least often of
those not yet picked, but it only looks at the first 256 of the queue.  So the
freshest updates go out first, unless a fresher one waits behind them.
-/

namespace LibWake
namespace Swim

open RepeatedMinimum

variable {Id : Type}

/-! ## One selection -/

/-- How often the update at a place of the queue was sent. -/
def countAt (queue : List (Update Id)) (i : ℕ) : ℕ :=
  (queue[i]?.map fun u => u.piggybackCount.toNat).getD 0

theorem countAt_of_get {queue : List (Update Id)} {i : ℕ} {u : Update Id}
    (hget : queue[i]? = some u) : countAt queue i = u.piggybackCount.toNat := by
  rw [countAt, hget]
  rfl

/-- What the scan has found among the places below the bound: a least sent update of
those which are not selected. -/
def LeastBelow (queue : List (Update Id)) (selected : List ℕ) (bound : ℕ) :
    Option ℕ → Prop
  | none => ∀ j < bound, j ∈ selected
  | some i => i < bound ∧ i ∉ selected ∧
      ∀ j < bound, j ∉ selected → countAt queue i ≤ countAt queue j

theorem LeastBelow.succ_of_selected {queue : List (Update Id)} {selected : List ℕ} {k : ℕ}
    {found : Option ℕ} (hleast : LeastBelow queue selected k found) (hk : k ∈ selected) :
    LeastBelow queue selected (k + 1) found := by
  cases found with
  | none =>
      intro j hj
      rcases Nat.lt_succ_iff_lt_or_eq.mp hj with hj | rfl
      · exact hleast j hj
      · exact hk
  | some i =>
      obtain ⟨hi, hnot, hcounts⟩ := hleast
      refine ⟨Nat.lt_succ_of_lt hi, hnot, fun j hj hjnot => ?_⟩
      rcases Nat.lt_succ_iff_lt_or_eq.mp hj with hj | rfl
      · exact hcounts j hj hjnot
      · exact absurd hk hjnot

/-- A place which is not selected is taken when it was sent less often than what was
found, and left otherwise. -/
theorem LeastBelow.succ {queue : List (Update Id)} {selected : List ℕ} {k : ℕ}
    {found : Option ℕ} (hleast : LeastBelow queue selected k found) (hk : k ∉ selected) :
    ((∀ i, found = some i → countAt queue k < countAt queue i) →
        LeastBelow queue selected (k + 1) (some k)) ∧
      ∀ i, found = some i → countAt queue i ≤ countAt queue k →
        LeastBelow queue selected (k + 1) found := by
  constructor
  · intro hless
    refine ⟨Nat.lt_succ_self k, hk, fun j hj hjnot => ?_⟩
    rcases Nat.lt_succ_iff_lt_or_eq.mp hj with hj | rfl
    · cases found with
      | none => exact absurd (hleast j hj) hjnot
      | some i => exact (hless i rfl).le.trans (hleast.2.2 j hj hjnot)
    · exact le_rfl
  · rintro i rfl hle
    obtain ⟨hi, hnot, hcounts⟩ := hleast
    refine ⟨Nat.lt_succ_of_lt hi, hnot, fun j hj hjnot => ?_⟩
    rcases Nat.lt_succ_iff_lt_or_eq.mp hj with hj | rfl
    · exact hcounts j hj hjnot
    · exact hle

theorem bestUpdate_leastBelow {queue : List (Update Id)}
    (hcounts : ∀ u ∈ queue, u.piggybackCount < 0xFFFF) (selected : List ℕ) :
    LeastBelow queue selected (min queue.length 256) (bestUpdate queue selected) := by
  unfold bestUpdate
  generalize hscan : List.foldl _ _ _ = best
  have hloop : LeastBelow queue selected (min queue.length 256) best.1 ∧
      best.2.toNat = (best.1.map (countAt queue)).getD 0xFFFF := by
    rw [← hscan]
    refine SlotPass.foldl_range_induction (motive := fun k (best : Option ℕ × UInt16) =>
      LeastBelow queue selected k best.1 ∧
        best.2.toNat = (best.1.map (countAt queue)).getD 0xFFFF)
      (min queue.length 256) ⟨fun j hj => absurd hj (Nat.not_lt_zero j), rfl⟩ ?_
    rintro k ⟨found, count⟩ hk ⟨hleast, hcount⟩
    simp only at hleast hcount
    have hlt : k < queue.length := by omega
    have hget := List.getElem?_eq_getElem hlt
    have hcountK := countAt_of_get hget
    have hbelow := UInt16.lt_iff_toNat_lt.mp (hcounts _ (List.getElem_mem hlt))
    by_cases hselected : k ∈ selected
    · simp only [if_pos hselected]
      exact ⟨hleast.succ_of_selected hselected, hcount⟩
    · obtain ⟨htake, hleave⟩ := hleast.succ hselected
      simp only [if_neg hselected, hget]
      split_ifs with hless
      · rw [UInt16.lt_iff_toNat_lt, hcount, ← hcountK] at hless
        refine ⟨htake ?_, hcountK.symm⟩
        rintro i rfl
        exact hless
      · rw [UInt16.lt_iff_toNat_lt, hcount, ← hcountK] at hless
        cases found with
        | none =>
            rw [hcountK] at hless
            exact absurd hbelow hless
        | some i => exact ⟨hleave i rfl (not_lt.mp hless), hcount⟩
  exact hloop.1

/-- The scan finds a least sent update among the first 256 which are not selected. -/
theorem bestUpdate_chooses {queue : List (Update Id)}
    (hcounts : ∀ u ∈ queue, u.piggybackCount < 0xFFFF) :
    ChoosesLeast (bestUpdate queue) (Finset.range (min queue.length 256))
      (countAt queue) := by
  constructor
  · intro selected i hfound
    have hleast := bestUpdate_leastBelow hcounts selected
    rw [hfound] at hleast
    obtain ⟨hi, hnot, hcount⟩ := hleast
    exact ⟨Finset.mem_range.mpr hi, hnot, fun j hj => hcount j (Finset.mem_range.mp hj)⟩
  · intro selected hfound j hj
    have hleast := bestUpdate_leastBelow hcounts selected
    rw [hfound] at hleast
    exact hleast j (Finset.mem_range.mp hj)

/-! ## The selection loop -/

/-- The queue with the counts at the picked places raised by one. -/
def raisedAt (queue : List (Update Id)) (picked : List ℕ) : List (Update Id) :=
  queue.mapIdx fun i u =>
    if i ∈ picked then { u with piggybackCount := u.piggybackCount + 1 } else u

theorem raisedAt_nil (queue : List (Update Id)) : raisedAt queue [] = queue := by
  apply List.ext_getElem?
  intro i
  rw [raisedAt, List.getElem?_mapIdx]
  simp

theorem raisedAt_congr (queue : List (Update Id)) {picked picked' : List ℕ}
    (hsame : ∀ i, i ∈ picked ↔ i ∈ picked') : raisedAt queue picked = raisedAt queue picked' := by
  simp only [raisedAt, hsame]

theorem getElem?_raisedAt (queue : List (Update Id)) (picked : List ℕ) (i : ℕ) :
    (raisedAt queue picked)[i]? =
      if i ∈ picked then
        queue[i]?.map fun u => { u with piggybackCount := u.piggybackCount + 1 }
      else queue[i]? := by
  rw [raisedAt, List.getElem?_mapIdx]
  split_ifs
  · rfl
  · exact Option.map_id_apply

theorem bestUpdate_raisedAt (queue : List (Update Id)) (selected : List ℕ) :
    bestUpdate (raisedAt queue selected) selected = bestUpdate queue selected := by
  unfold bestUpdate
  have hlength : (raisedAt queue selected).length = queue.length := by simp [raisedAt]
  rw [hlength]
  congr 1
  apply List.foldl_ext
  intro best i _
  split_ifs with hselected
  · rfl
  · rw [getElem?_raisedAt, if_neg hselected]

theorem raisedAt_set {queue : List (Update Id)} (picked : List ℕ) {i : ℕ} {u : Update Id}
    (hget : queue[i]? = some u) :
    (raisedAt queue picked).set i { u with piggybackCount := u.piggybackCount + 1 } =
      raisedAt queue (i :: picked) := by
  apply List.ext_getElem?
  intro j
  have hlt := (List.getElem?_eq_some_iff.mp hget).1
  by_cases hij : i = j
  · subst hij
    have hlt' : i < (raisedAt queue picked).length := by simpa [raisedAt] using hlt
    rw [List.getElem?_set_self hlt', getElem?_raisedAt, if_pos List.mem_cons_self, hget]
    rfl
  · rw [List.getElem?_set_ne hij, getElem?_raisedAt, getElem?_raisedAt]
    simp [Ne.symm hij]

/-- The places which the selection loop picks. -/
def picked (max : ℕ) (queue : List (Update Id)) : List ℕ :=
  picks (bestUpdate queue) (min max queue.length) []

/-- The loop writes the updates at the picked places and raises their counts. -/
theorem selectUpdates_eq {queue : List (Update Id)}
    (hcounts : ∀ u ∈ queue, u.piggybackCount < 0xFFFF) (count : ℕ) (selected : List ℕ) :
    selectUpdates count (raisedAt queue selected) selected =
      ((picks (bestUpdate queue) count selected).filterMap (queue[·]?),
        raisedAt queue (picks (bestUpdate queue) count selected ++ selected)) := by
  induction count generalizing selected with
  | zero => rfl
  | succ count ih =>
      rw [selectUpdates, bestUpdate_raisedAt, picks]
      cases hbest : bestUpdate queue selected with
      | none => rfl
      | some best =>
          obtain ⟨hrange, hnot, -⟩ := (bestUpdate_chooses hcounts).least selected best hbest
          have hlt : best < queue.length := by
            have hbound := Finset.mem_range.mp hrange
            omega
          have hget := List.getElem?_eq_getElem hlt
          have hmoved := @raisedAt_congr _ queue
            (picks (bestUpdate queue) count (best :: selected) ++ best :: selected)
            (best :: picks (bestUpdate queue) count (best :: selected) ++ selected)
            fun i => List.perm_middle.mem_iff
          simp only [getElem?_raisedAt, if_neg hnot, hget, raisedAt_set selected hget, ih,
            List.filterMap_cons]
          rw [hmoved]

theorem handOut_eq {queue : List (Update Id)}
    (hcounts : ∀ u ∈ queue, u.piggybackCount < 0xFFFF) {max : ℕ} (hmax : 0 < max)
    (aliveCount : ℕ) :
    handOut max aliveCount queue =
      ((picked max queue).filterMap (queue[·]?),
        (raisedAt queue (picked max queue)).filter fun u =>
          !(u.piggybackCount ≥ UInt16.ofNat (pruneLimit aliveCount))) := by
  unfold handOut picked
  by_cases hempty : queue = []
  · subst hempty
    rw [if_pos (Or.inr rfl), List.length_nil, Nat.min_zero]
    rfl
  · have hselect := selectUpdates_eq hcounts (min max queue.length) []
    rw [raisedAt_nil, List.append_nil] at hselect
    rw [if_neg (not_or.mpr ⟨hmax.ne', hempty⟩), hselect]

/-! ## What is handed out -/

/-- The updates written are the ones at the places `picked`: as many as were asked
for and there are, the freshest of the queue first.  Their counts are raised by one,
and the queue behind is what has not reached the limit. -/
structure HandsOutFreshest (queue : List (Update Id)) (max aliveCount : ℕ)
    (out after : List (Update Id)) (picked : List ℕ) : Prop where
  nodup : picked.Nodup
  places : ∀ i ∈ picked, i < queue.length
  length : picked.length = min max queue.length
  written : out = picked.filterMap (queue[·]?)
  sorted : picked.Pairwise fun i j => countAt queue i ≤ countAt queue j
  freshest : ∀ i ∈ picked, ∀ j < queue.length, j ∉ picked →
    countAt queue i ≤ countAt queue j
  raised : ∀ i ∈ picked, countAt (raisedAt queue picked) i = countAt queue i + 1
  kept : after = (raisedAt queue picked).filter fun u =>
    u.piggybackCount.toNat < Max.max 3 (3 * Nat.log 2 (Max.max 2 aliveCount))

/-- Every update behind the first 256 has, among these, as many as are asked for
which were sent no more often. -/
def TailStale (queue : List (Update Id)) (max : ℕ) : Prop :=
  ∀ u ∈ queue.drop 256,
    max ≤ (queue.take 256).countP fun v => v.piggybackCount ≤ u.piggybackCount

instance (queue : List (Update Id)) (max : ℕ) : Decidable (TailStale queue max) :=
  inferInstanceAs (Decidable (∀ u ∈ queue.drop 256, _))

theorem CountsBelow.lt_max {queue : List (Update Id)} (hcounts : CountsBelow queue) :
    ∀ u ∈ queue, u.piggybackCount < 0xFFFF := by
  intro u hu
  rw [UInt16.lt_iff_toNat_lt]
  exact (hcounts u hu).trans (by decide)

theorem mem_picked {queue : List (Update Id)} (hcounts : CountsBelow queue) {max i : ℕ}
    (hmem : i ∈ picked max queue) : i < min queue.length 256 :=
  Finset.mem_range.mp (mem_picks (bestUpdate_chooses hcounts.lt_max) hmem).1

theorem length_picked {queue : List (Update Id)} (hcounts : CountsBelow queue) (max : ℕ) :
    (picked max queue).length = min (min max queue.length) (min queue.length 256) := by
  rw [picked, length_picks (bestUpdate_chooses hcounts.lt_max)]
  congr 1
  simp

theorem countAt_raisedAt {queue : List (Update Id)} (hcounts : CountsBelow queue)
    {picked : List ℕ} {i : ℕ} (hmem : i ∈ picked) (hlt : i < queue.length) :
    countAt (raisedAt queue picked) i = countAt queue i + 1 := by
  have hbelow := hcounts _ (List.getElem_mem hlt)
  rw [countAt_of_get (List.getElem?_eq_getElem hlt), countAt, getElem?_raisedAt,
    if_pos hmem, List.getElem?_eq_getElem hlt]
  simp only [Option.map_some, Option.getD_some, UInt16.toNat_add]
  rw [countBound] at hbelow
  have hone : (1 : UInt16).toNat = 1 := rfl
  omega

theorem filter_below_limit {aliveCount : ℕ} (hcount : aliveCount < 2 ^ 16)
    (queue : List (Update Id)) :
    (queue.filter fun u => !(u.piggybackCount ≥ UInt16.ofNat (pruneLimit aliveCount))) =
      queue.filter fun u =>
        u.piggybackCount.toNat < max 3 (3 * Nat.log 2 (max 2 aliveCount)) := by
  have hlimit := pruneLimit_toNat hcount
  refine List.filter_congr fun u _ => ?_
  rw [← pruneLimit_eq, ← decide_not, decide_eq_decide, ge_iff_le, UInt16.le_iff_toNat_le,
    hlimit, not_le]

/-- The places of the first 256 updates with a property, one for each of them. -/
theorem exists_places (queue : List (Update Id)) (p : Update Id → Bool) :
    ∃ places : List ℕ, places.Nodup ∧ places.length = (queue.take 256).countP p ∧
      ∀ i ∈ places, i < min queue.length 256 ∧ ∃ u, queue[i]? = some u ∧ p u = true := by
  refine ⟨(List.range (queue.take 256).length).filter fun i => (queue.take 256)[i]?.any p,
    List.nodup_range.filter _, DenseArray.length_filter_range _ p, ?_⟩
  · intro i hi
    obtain ⟨hrange, hany⟩ := List.mem_filter.mp hi
    rw [List.mem_range, List.length_take] at hrange
    have hlt : i < queue.length := by omega
    refine ⟨by omega, queue[i], List.getElem?_eq_getElem hlt, ?_⟩
    rw [List.getElem?_take_of_lt (by omega), List.getElem?_eq_getElem hlt] at hany
    exact hany

theorem mem_drop_of_le {queue : List (Update Id)} {front j : ℕ} (hle : front ≤ j)
    (hlt : j < queue.length) : queue[j] ∈ queue.drop front := by
  refine List.mem_of_getElem? (i := j - front) ?_
  rw [List.getElem?_drop, Nat.add_sub_cancel' hle, List.getElem?_eq_getElem hlt]

/-- With a stale tail the picked places are as the freshest of the whole queue. -/
theorem picked_freshest {queue : List (Update Id)} (hcounts : CountsBelow queue) {max : ℕ}
    (hstale : TailStale queue max) :
    (picked max queue).length = min max queue.length ∧
      ∀ i ∈ picked max queue, ∀ j < queue.length, j ∉ picked max queue →
        countAt queue i ≤ countAt queue j := by
  have hchoose := bestUpdate_chooses hcounts.lt_max
  have hlength := length_picked hcounts max
  constructor
  · rcases Nat.le_total queue.length 256 with hshort | hlong
    · omega
    · by_cases heq : queue.length = 256
      · omega
      · have hlt : 256 < queue.length := by omega
        have hmax := (hstale _ (mem_drop_of_le le_rfl hlt)).trans List.countP_le_length
        rw [List.length_take] at hmax
        omega
  · intro i hi j hj hleft
    by_cases hfront : j < 256
    · exact picks_least hchoose hi (Finset.mem_range.mpr (by omega)) List.not_mem_nil hleft
    · by_contra hless
      have hget := List.getElem?_eq_getElem hj
      have hmax := hstale _ (mem_drop_of_le (Nat.not_lt.mp hfront) hj)
      obtain ⟨places, hnodup, hcard, hplaces⟩ := exists_places queue
        fun v => v.piggybackCount ≤ queue[j].piggybackCount
      -- what was sent no more often than the update left out was picked before `i`
      have hpicked : ∀ k ∈ i :: places, k ∈ picked max queue := by
        intro k hk
        rcases List.mem_cons.mp hk with rfl | hk
        · exact hi
        · obtain ⟨hrange, u, hu, hle⟩ := hplaces k hk
          by_contra hnot
          have hik := picks_least hchoose hi (Finset.mem_range.mpr hrange)
            List.not_mem_nil hnot
          rw [decide_eq_true_eq, UInt16.le_iff_toNat_le] at hle
          rw [countAt_of_get hu] at hik
          rw [countAt_of_get hget] at hless
          omega
      have hfresh : i ∉ places := by
        intro hmem
        obtain ⟨_, u, hu, hle⟩ := hplaces i hmem
        rw [decide_eq_true_eq, UInt16.le_iff_toNat_le] at hle
        rw [countAt_of_get hu, countAt_of_get hget] at hless
        exact hless hle
      have hmore := (List.nodup_cons.mpr ⟨hfresh, hnodup⟩).subperm hpicked |>.length_le
      rw [List.length_cons, hcard, hlength] at hmore
      omega

theorem length_filterMap_getElem? {queue : List (Update Id)} {picked : List ℕ}
    (hplaces : ∀ i ∈ picked, i < queue.length) :
    (picked.filterMap (queue[·]?)).length = picked.length := by
  rw [List.length_filterMap_eq_countP, List.countP_eq_length]
  intro i hi
  rw [List.getElem?_eq_getElem (hplaces i hi)]
  rfl

theorem nodup_filterMap_getElem? {queue : List (Update Id)}
    (hqueue : (queue.map Update.nodeId).Nodup) {picked : List ℕ} (hpicked : picked.Nodup) :
    (picked.filterMap (queue[·]?)).Nodup := by
  refine hpicked.filterMap fun i j u hi hj => ?_
  have hnodup : queue.Nodup := hqueue.of_map Update.nodeId
  obtain ⟨hilt, hiu⟩ := List.getElem?_eq_some_iff.mp hi
  obtain ⟨hjlt, hju⟩ := List.getElem?_eq_some_iff.mp hj
  exact hnodup.getElem_inj_iff.mp (hiu.trans hju.symm)

theorem handsOutFreshest_of_tailStale {queue : List (Update Id)}
    (hcounts : CountsBelow queue) {max aliveCount : ℕ} (hmax : 0 < max)
    (hcount : aliveCount < 2 ^ 16) (hstale : TailStale queue max) :
    HandsOutFreshest queue max aliveCount (handOut max aliveCount queue).1
      (handOut max aliveCount queue).2 (picked max queue) := by
  have hchoose := bestUpdate_chooses hcounts.lt_max
  have hplaces : ∀ i ∈ picked max queue, i < queue.length := by
    intro i hi
    have hlt := mem_picked hcounts hi
    omega
  obtain ⟨hlength, hfreshest⟩ := picked_freshest hcounts hstale
  rw [handOut_eq hcounts.lt_max hmax]
  exact {
    nodup := picks_nodup hchoose _ _
    places := hplaces
    length := hlength
    written := rfl
    sorted := picks_sorted hchoose _ _
    freshest := hfreshest
    raised := fun i hi => countAt_raisedAt hcounts hi (hplaces i hi)
    kept := filter_below_limit hcount _ }

/-- What was written comes from the first 256, so an update behind them was left. -/
theorem tailStale_of_handsOutFreshest {queue : List (Update Id)}
    (hcounts : CountsBelow queue) (hqueue : (queue.map Update.nodeId).Nodup)
    {max aliveCount : ℕ} (hmax : 0 < max) {after : List (Update Id)} {places : List ℕ}
    (hout : HandsOutFreshest queue max aliveCount (handOut max aliveCount queue).1 after
      places) : TailStale queue max := by
  have hchoose := bestUpdate_chooses hcounts.lt_max
  have hwritten := hout.written
  rw [handOut_eq hcounts.lt_max hmax] at hwritten
  set out := places.filterMap (queue[·]?) with houtEq
  have hqueueNodup : queue.Nodup := hqueue.of_map Update.nodeId
  have hlengthOut : out.length = min max queue.length := by
    rw [houtEq, length_filterMap_getElem? hout.places, hout.length]
  have hfront : ∀ v ∈ out, v ∈ queue.take 256 := by
    intro v hv
    rw [← hwritten] at hv
    obtain ⟨i, hi, hget⟩ := List.mem_filterMap.mp hv
    have hlt := mem_picked hcounts hi
    refine List.mem_of_getElem? (i := i) ?_
    rw [List.getElem?_take_of_lt (by omega)]
    exact hget
  have hnodup : out.Nodup := nodup_filterMap_getElem? hqueue hout.nodup
  intro u hu
  obtain ⟨k, hk⟩ := List.mem_iff_getElem?.mp hu
  rw [List.getElem?_drop] at hk
  have hklt := (List.getElem?_eq_some_iff.mp hk).1
  have hleft : 256 + k ∉ places := by
    intro hmem
    have huOut : u ∈ out := List.mem_filterMap.mpr ⟨256 + k, hmem, hk⟩
    obtain ⟨i, hi⟩ := List.mem_iff_getElem?.mp (hfront u huOut)
    have hilt := (List.getElem?_eq_some_iff.mp hi).1
    rw [List.length_take] at hilt
    rw [List.getElem?_take_of_lt (by omega)] at hi
    have hsame := (List.getElem?_inj (by omega) hqueueNodup).mp (hi.trans hk.symm)
    omega
  have hle : ∀ v ∈ out, v ∈ (queue.take 256).filter
      fun v => v.piggybackCount ≤ u.piggybackCount := by
    intro v hv
    obtain ⟨i, hi, hget⟩ := List.mem_filterMap.mp hv
    have hless := hout.freshest i hi (256 + k) hklt hleft
    rw [countAt_of_get hget, countAt_of_get hk] at hless
    exact List.mem_filter.mpr ⟨hfront v hv,
      decide_eq_true (UInt16.le_iff_toNat_le.mpr hless)⟩
  have hmany := (hnodup.subperm hle).length_le
  rw [← List.countP_eq_length_filter] at hmany
  have hshort : (queue.take 256).countP
      (fun v => decide (v.piggybackCount ≤ u.piggybackCount)) ≤ 256 :=
    List.countP_le_length.trans (List.length_take_le _ _)
  omega

variable [DecidableEq Id]

/-- Every call of `wake_swim_get_updates` in a reachable state hands out the freshest
updates first if and only if the tail of the queue is stale. -/
theorem freshest_first_iff {node : Node Id} (hreach : runs.Reachable node) {max : ℕ}
    (hmax : 0 < max) :
    (∃ picked, HandsOutFreshest node.updates max node.aliveCount (getUpdates node max).1
      (getUpdates node max).2.updates picked) ↔ TailStale node.updates max := by
  have hwell := reachable_wellFormed hreach
  have hcounts := reachable_countsBelow hreach
  obtain ⟨hout, hafter⟩ := getUpdates_handOut node max
  rw [hout, hafter]
  constructor
  · rintro ⟨picked, hfreshest⟩
    exact tailStale_of_handsOutFreshest hcounts hwell.queue.nodup_ids hmax hfreshest
  · intro hstale
    exact ⟨_, handsOutFreshest_of_tailStale hcounts hmax hwell.aliveCount_lt hstale⟩

theorem freshest_first_iff_fiveMembers :
    fiveMembers.updates.map Update.piggybackCount = [1, 0, 0, 0, 0] ∧
      ∃ picked, HandsOutFreshest fiveMembers.updates 3 fiveMembers.aliveCount
        (getUpdates fiveMembers 3).1 (getUpdates fiveMembers 3).2.updates picked :=
  ⟨by decide +kernel,
    (freshest_first_iff reachable_fiveMembers (Nat.succ_pos 2)).mpr (by decide +kernel)⟩

/-- A node with a queue of 300 updates to which so many members were added. -/
def crowd : ℕ → Node ℕ
  | 0 => create 0 0 0 (some ⟨300, 300, 5, 8, 1000, 0, 1⟩) 0
  | count + 1 => performCall (crowd count) (.addMember (count + 1) 1 2 10)

theorem reachable_crowd (count : ℕ) : runs.Reachable (crowd count) := by
  induction count with
  | zero => exact runs.reachable_of_initial ⟨_, _, _, _, _, rfl⟩
  | succ count ih =>
      exact ih.step (show runs.step (crowd count) (.addMember (count + 1) 1 2 10) = some _
        from rfl)

theorem crowd_updates {count : ℕ} (hcount : count ≤ 300) :
    (crowd count).config = (crowd 0).config ∧ (crowd count).selfId = 0 ∧
      (crowd count).members =
        (List.range count).map (fun i => newMember (i + 1) 1 2 10) ∧
      (crowd count).updates =
        (List.range count).map (fun i => (newMember (i + 1) 1 2 10).toUpdate) := by
  induction count with
  | zero => exact ⟨rfl, rfl, rfl, rfl⟩
  | succ count ih =>
      obtain ⟨hconfig, hself, hmembers, hupdates⟩ := ih (by omega)
      have hother : count + 1 ≠ (crowd count).selfId := by
        rw [hself]
        exact Nat.succ_ne_zero count
      have habsent : ∀ m ∈ (crowd count).members, m.nodeId ≠ count + 1 := by
        rw [hmembers]
        intro m hm
        obtain ⟨i, hi, rfl⟩ := List.mem_map.mp hm
        rw [List.mem_range] at hi
        simp only [newMember]
        omega
      have hroom : (crowd count).members.length < (crowd count).config.maxMembers.toNat := by
        rw [hconfig, hmembers, List.length_map, List.length_range]
        exact hcount
      obtain ⟨hconfig', hself'⟩ :=
        performCall_config (crowd count) (.addMember (count + 1) 1 2 10)
      refine ⟨hconfig'.trans hconfig, hself'.trans hself, ?_, ?_⟩
      · rw [crowd, performCall, addMember_joins hother habsent hroom, List.range_succ,
          List.map_append, ← hmembers]
        simp [Node.invalidateProbeOrder]
      · have hfresh : findUpdate (crowd count).updates (count + 1) = none := by
          rw [findUpdate, List.findIdx?_eq_none_iff, hupdates]
          intro u hu
          obtain ⟨i, hi, rfl⟩ := List.mem_map.mp hu
          rw [List.mem_range] at hi
          refine decide_eq_false ?_
          simp only [Member.toUpdate, newMember]
          omega
        have hspace : (crowd count).updates.length <
            (crowd count).config.updateQueueSize.toNat := by
          rw [hconfig, hupdates, List.length_map, List.length_range]
          exact hcount
        rw [crowd, performCall, addMember_updates, addMember_joins hother habsent hroom,
          if_pos rfl, enqueue]
        simp only [Member.toUpdate_nodeId, newMember, hfresh, if_pos hspace]
        rw [List.range_succ, List.map_append, hupdates]
        rfl

/-- Of 257 queued updates, 257 are asked for and 256 are written. -/
theorem last_of_257_left :
    runs.Reachable (crowd 257) ∧ ¬ ∃ picked, HandsOutFreshest (crowd 257).updates 257
      (crowd 257).aliveCount (getUpdates (crowd 257) 257).1
      (getUpdates (crowd 257) 257).2.updates picked := by
  have hreach := reachable_crowd 257
  refine ⟨hreach, ?_⟩
  rintro ⟨picked, hfreshest⟩
  rw [(getUpdates_handOut (crowd 257) 257).1] at hfreshest
  have hstale := tailStale_of_handsOutFreshest (reachable_countsBelow hreach)
    (reachable_wellFormed hreach).queue.nodup_ids (Nat.succ_pos 256) hfreshest
  have hlength : (crowd 257).updates.length = 257 := by
    rw [(crowd_updates (by decide)).2.2.2, List.length_map, List.length_range]
  have hmany := (hstale _ (mem_drop_of_le le_rfl (by omega : 256 < _))).trans
    List.countP_le_length
  rw [List.length_take, hlength] at hmany
  omega

end Swim
end LibWake
