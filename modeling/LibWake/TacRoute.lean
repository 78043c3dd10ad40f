import Mathlib.Data.List.GetD
import LibWake.TacQuery

/-!
# What a route computes

`wake_tac_route` walks the visible edges and adds each weight at the two positions which hold its
techniques; its contract sums over pairs of activations.  The two agree on the positions which no
later activation of the same technique supersedes.
-/

namespace LibWake
namespace Tac

/-! ## Positions -/

def techniqueAt (used : List Activation) (k : ℕ) : UInt32 :=
  (used.map Activation.technique).getD k 0

def etaAt (used : List Activation) (k : ℕ) : UInt16 :=
  (used.map Activation.etaFp16).getD k 0

/-- The position at which the inner loop of `wake_tac_route` leaves one of its two variables. -/
def lastPosition (used : List Activation) (technique : UInt32) : Option ℕ :=
  used.zipIdx.foldl
    (fun found act => if act.1.technique = technique then some act.2 else found) none

/-- A later activation has the technique of position `k`. -/
def Superseded (used : List Activation) (k : ℕ) : Prop :=
  ∃ later < used.length, k < later ∧ techniqueAt used later = techniqueAt used k

instance (used : List Activation) (k : ℕ) : Decidable (Superseded used k) :=
  inferInstanceAs (Decidable (∃ later < used.length, _ ∧ _))

/-- The two variables of the inner loop do not disturb each other. -/
theorem endpoints_eq {used : List Activation} {el eh : UInt32} (hne : el ≠ eh) :
    endpoints used el eh = (lastPosition used el, lastPosition used eh) := by
  have hloop : ∀ (positions : List (Activation × ℕ)) (found : Option ℕ × Option ℕ),
      positions.foldl (fun found act =>
          if act.1.technique = el then (some act.2, found.2)
          else if act.1.technique = eh then (found.1, some act.2)
          else found) found =
        (positions.foldl (fun found act =>
            if act.1.technique = el then some act.2 else found) found.1,
          positions.foldl (fun found act =>
            if act.1.technique = eh then some act.2 else found) found.2) := by
    intro positions
    induction positions with
    | nil => exact fun _ => rfl
    | cons act rest ih =>
        intro found
        rw [List.foldl_cons, List.foldl_cons, List.foldl_cons, ih]
        by_cases hlow : act.1.technique = el
        · have hhigh : act.1.technique ≠ eh := hlow ▸ hne
          rw [if_pos hlow, if_pos hlow, if_neg hhigh]
        · rw [if_neg hlow, if_neg hlow]
          by_cases hhigh : act.1.technique = eh
          · rw [if_pos hhigh, if_pos hhigh]
          · rw [if_neg hhigh, if_neg hhigh]
  exact hloop used.zipIdx (none, none)

theorem lastPosition_append (used : List Activation) (act : Activation) (technique : UInt32) :
    lastPosition (used ++ [act]) technique =
      if act.technique = technique then some used.length else lastPosition used technique := by
  simp [lastPosition, List.zipIdx_append]

theorem techniqueAt_append_of_lt {used : List Activation} {k : ℕ} (hlt : k < used.length)
    (act : Activation) : techniqueAt (used ++ [act]) k = techniqueAt used k := by
  unfold techniqueAt
  rw [List.map_append, List.getD_append _ _ _ _ (by simpa using hlt)]

theorem techniqueAt_append_length (used : List Activation) (act : Activation) :
    techniqueAt (used ++ [act]) used.length = act.technique := by
  simp [techniqueAt]

theorem superseded_append {used : List Activation} {k : ℕ} (hlt : k < used.length)
    (act : Activation) :
    Superseded (used ++ [act]) k ↔ Superseded used k ∨ act.technique = techniqueAt used k := by
  unfold Superseded
  rw [techniqueAt_append_of_lt hlt, List.length_append, List.length_singleton]
  constructor
  · rintro ⟨later, hlater, hbehind, hsame⟩
    by_cases hlast : later = used.length
    · subst hlast
      rw [techniqueAt_append_length] at hsame
      exact Or.inr hsame
    · have hin : later < used.length := by omega
      rw [techniqueAt_append_of_lt hin] at hsame
      exact Or.inl ⟨later, hin, hbehind, hsame⟩
  · rintro (⟨later, hlater, hbehind, hsame⟩ | hsame)
    · rw [← techniqueAt_append_of_lt hlater act] at hsame
      exact ⟨later, by omega, hbehind, hsame⟩
    · exact ⟨used.length, by omega, hlt, by rw [techniqueAt_append_length, hsame]⟩

theorem not_superseded_last (used : List Activation) (act : Activation) :
    ¬ Superseded (used ++ [act]) used.length := by
  rintro ⟨later, hlater, hbehind, _⟩
  rw [List.length_append, List.length_singleton] at hlater
  omega

/-- The loop ends at the position of the technique which no later one supersedes. -/
theorem lastPosition_eq_some_iff {used : List Activation} {technique : UInt32} {k : ℕ} :
    lastPosition used technique = some k ↔
      k < used.length ∧ techniqueAt used k = technique ∧ ¬ Superseded used k := by
  induction used using List.reverseRecOn with
  | nil => simp [lastPosition]
  | append_singleton used act ih =>
      rw [lastPosition_append, List.length_append, List.length_singleton]
      by_cases hlast : k = used.length
      · subst hlast
        rw [techniqueAt_append_length]
        by_cases hsame : act.technique = technique
        · simp [hsame, not_superseded_last]
        · rw [if_neg hsame, ih]
          simp [hsame]
      · by_cases hlt : k < used.length
        · rw [techniqueAt_append_of_lt hlt, superseded_append hlt]
          by_cases hsame : act.technique = technique
          · rw [if_pos hsame]
            constructor
            · intro heq
              exact absurd (Option.some.inj heq).symm hlast
            · rintro ⟨_, htechnique, hlater⟩
              exact absurd (Or.inr (hsame.trans htechnique.symm)) hlater
          · rw [if_neg hsame, ih]
            constructor
            · rintro ⟨hin, htechnique, hlater⟩
              refine ⟨by omega, htechnique, not_or.mpr ⟨hlater, ?_⟩⟩
              rwa [htechnique]
            · rintro ⟨_, htechnique, hlater⟩
              exact ⟨hlt, htechnique, fun hold => hlater (Or.inl hold)⟩
        · have hout : ¬ k < used.length + 1 := by omega
          simp only [hout, false_and, iff_false]
          split_ifs with hsame
          · rw [Option.some.injEq]
            exact fun heq => hlast heq.symm
          · rw [ih]
            exact fun hfound => hlt hfound.1

/-! ## What one edge adds -/

/-- What a visible edge adds at position `k`. -/
def addedAt (used : List Activation) (entry : Entry) (k : ℕ) : ℕ :=
  match lastPosition used entry.tLo, lastPosition used entry.tHi with
  | some xi, some xj =>
      (if xi = k then routedForce entry.weight (etaAt used xj) else 0) +
        (if xj = k then routedForce entry.weight (etaAt used xi) else 0)
  | _, _ => 0

theorem routedForce_le (weight : ℕ) (eta : UInt16) : routedForce weight eta ≤ weight := by
  unfold routedForce
  rw [Nat.shiftRight_eq_div_pow]
  apply Nat.div_le_of_le_mul
  rw [Nat.mul_comm]
  exact Nat.mul_le_mul_right _ eta.toNat_lt.le

theorem addedAt_le (used : List Activation) (entry : Entry) (k : ℕ) :
    addedAt used entry k ≤ 2 * entry.weight := by
  unfold addedAt
  cases lastPosition used entry.tLo with
  | none => exact Nat.zero_le _
  | some xi =>
      cases lastPosition used entry.tHi with
      | none => exact Nat.zero_le _
      | some xj =>
          have hlow := routedForce_le entry.weight (etaAt used xj)
          have hhigh := routedForce_le entry.weight (etaAt used xi)
          simp only
          split_ifs <;> omega

theorem routeStep_eq {ehash : UInt64} {used : List Activation} {entry : Entry} {acc : ℕ → ℕ}
    (hvisible : visibleTo ehash entry) (hne : entry.tLo ≠ entry.tHi)
    (hbound : ∀ k, acc k + addedAt used entry k < 2 ^ 64) :
    routeStep ehash used acc entry = fun k => acc k + addedAt used entry k := by
  rw [routeStep, if_pos hvisible, endpoints_eq hne]
  unfold addedAt at hbound ⊢
  cases hlow : lastPosition used entry.tLo with
  | none => rfl
  | some xi =>
      cases hhigh : lastPosition used entry.tHi with
      | none => rfl
      | some xj =>
          have hdistinct : xi ≠ xj := by
            rintro rfl
            exact hne ((lastPosition_eq_some_iff.mp hlow).2.1.symm.trans
              (lastPosition_eq_some_iff.mp hhigh).2.1)
          simp only [hlow, hhigh] at hbound
          funext k
          have hk := hbound k
          simp only [accumulate]
          by_cases hxj : xj = k
          · subst hxj
            rw [Function.update_self, Function.update_of_ne (Ne.symm hdistinct)]
            rw [if_neg hdistinct, if_pos rfl, Nat.zero_add] at hk ⊢
            exact Nat.mod_eq_of_lt hk
          · rw [Function.update_of_ne (Ne.symm hxj)]
            by_cases hxi : xi = k
            · subst hxi
              rw [if_pos rfl, if_neg hxj, Nat.add_zero] at hk ⊢
              rw [Function.update_self]
              exact Nat.mod_eq_of_lt hk
            · rw [Function.update_of_ne (Ne.symm hxi), if_neg hxi, if_neg hxj]
              rfl

/-- While no accumulator wraps, the walk adds up what the edges add. -/
theorem foldl_routeStep (table : Table) (ehash : UInt64) (used : List Activation)
    {slots : List ℕ} (hvisible : ∀ idx ∈ slots, visibleTo ehash (table.entries idx))
    (hne : ∀ idx ∈ slots, (table.entries idx).tLo ≠ (table.entries idx).tHi) {acc : ℕ → ℕ}
    (hbound : ∀ k, acc k + (slots.map fun idx => addedAt used (table.entries idx) k).sum < 2 ^ 64) :
    slots.foldl (fun acc idx => routeStep ehash used acc (table.entries idx)) acc =
      fun k => acc k + (slots.map fun idx => addedAt used (table.entries idx) k).sum := by
  induction slots generalizing acc with
  | nil => rfl
  | cons idx rest ih =>
      simp only [List.map_cons, List.sum_cons] at hbound
      have hstep : routeStep ehash used acc (table.entries idx) =
          fun k => acc k + addedAt used (table.entries idx) k := by
        apply routeStep_eq (hvisible idx List.mem_cons_self) (hne idx List.mem_cons_self)
        intro k
        have := hbound k
        omega
      rw [List.foldl_cons, hstep,
        ih (fun other hmem => hvisible other (List.mem_cons_of_mem _ hmem))
          (fun other hmem => hne other (List.mem_cons_of_mem _ hmem))]
      · funext k
        rw [List.map_cons, List.sum_cons, Nat.add_assoc]
      · intro k
        have := hbound k
        omega

theorem Readable.tLo_ne_tHi {keyedHash : KeyedHash} {table : Table}
    (hreadable : Readable keyedHash table) {ehash : UInt64} {idx : ℕ}
    (hmem : idx ∈ table.visibleEdges ehash) :
    (table.entries idx).tLo ≠ (table.entries idx).tHi := by
  have hlive := (hreadable.mem_visibleEdges.mp hmem).2.1
  exact UInt32.ne_of_lt (hreadable.linked.keyed idx hlive).ordered

/-- The accumulators at the end of the walk. -/
theorem route_walk {keyedHash : KeyedHash} {table : Table} (hreadable : Readable keyedHash table)
    (ehash : UInt64) (used : List Activation) (k : ℕ) :
    (List.range table.header.capacity).foldl
        (fun acc i => routeStep ehash used acc (table.entries i)) (fun _ => 0) k =
      ∑ idx ∈ table.visibleEdges ehash, addedAt used (table.entries idx) k := by
  have hbound : ∀ k, ∑ idx ∈ table.visibleEdges ehash, addedAt used (table.entries idx) k <
      2 ^ 64 := by
    intro k
    calc
      ∑ idx ∈ table.visibleEdges ehash, addedAt used (table.entries idx) k
          ≤ ∑ idx ∈ table.visibleEdges ehash, 2 * (table.entries idx).weight :=
        Finset.sum_le_sum fun idx _ => addedAt_le used _ k
      _ = 2 * ∑ idx ∈ table.visibleEdges ehash, (table.entries idx).weight :=
        (Finset.mul_sum _ _ _).symm
      _ ≤ 2 * (queryTopMax * (5 * 65535)) :=
        Nat.mul_le_mul_left 2 (hreadable.sum_weight_le ehash)
      _ < 2 ^ 64 := by decide
  rw [foldl_shownSlots table ehash (routeStep ehash used) fun acc entry hhidden => if_neg hhidden,
    foldl_routeStep table ehash used]
  · simp only [hreadable.sum_shownSlots, Nat.zero_add]
  · exact fun idx hmem => (hreadable.mem_visibleEdges.mp (hreadable.mem_shownSlots.mp hmem)).2
  · exact fun idx hmem => hreadable.tLo_ne_tHi (hreadable.mem_shownSlots.mp hmem)
  · intro k
    rw [hreadable.sum_shownSlots, Nat.zero_add]
    exact hbound k

/-! ## The documented sum -/

/-- The edge lies between the two techniques. -/
def Entry.Joins (entry : Entry) (a b : UInt32) : Prop :=
  entry.tLo = a ∧ entry.tHi = b ∨ entry.tLo = b ∧ entry.tHi = a

instance (entry : Entry) (a b : UInt32) : Decidable (entry.Joins a b) :=
  inferInstanceAs (Decidable (_ ∨ _))

/-- `w(a, b)` of the contract: the weight of the visible edge between two techniques, 0 if there
is none. -/
def couplingWeight (table : Table) (ehash : UInt64) (a b : UInt32) : ℕ :=
  match (table.shownSlots ehash).find? fun idx => (table.entries idx).Joins a b with
  | some idx => (table.entries idx).weight
  | none => 0

/-- What activation `i` contributes to activation `j` by the contract. -/
def contractForce (table : Table) (ehash : UInt64) (used : List Activation) (i j : ℕ) : ℕ :=
  routedForce (couplingWeight table ehash (techniqueAt used i) (techniqueAt used j))
    (etaAt used i)

/-- The positions whose technique is not that of position `j`. -/
def otherPositions (used : List Activation) (j : ℕ) : Finset ℕ :=
  (Finset.range used.length).filter fun i => techniqueAt used i ≠ techniqueAt used j

/-- The activations which the call routes. -/
def routedPrefix (acts : List Activation) (outCap : ℕ) : List Activation :=
  acts.take (min (min acts.length outCap) queryTopMax)

/-- The output which the contract of `wake_tac_route` promises. -/
def contractRoute (keyedHash : KeyedHash) (table : Table) (key : List UInt8)
    (acts : List Activation) (outCap : ℕ) : List RoutedInput :=
  let used := routedPrefix acts outCap
  (List.range used.length).map fun j =>
    ⟨techniqueAt used j, min (∑ i ∈ otherPositions used j,
      contractForce table (entityHashOf keyedHash table key) used i j) uint32Max⟩

theorem Entry.Joins.eq_pair {entry other : Entry} {a b : UInt32} (hentry : entry.Joins a b)
    (hother : other.Joins a b) (hordered : entry.tLo < entry.tHi)
    (horderedOther : other.tLo < other.tHi) :
    entry.tLo = other.tLo ∧ entry.tHi = other.tHi := by
  rcases hentry with ⟨hlo, hhi⟩ | ⟨hlo, hhi⟩ <;> rcases hother with ⟨hlo', hhi'⟩ | ⟨hlo', hhi'⟩
  · exact ⟨hlo.trans hlo'.symm, hhi.trans hhi'.symm⟩
  · rw [hlo, hhi] at hordered
    rw [hlo', hhi'] at horderedOther
    exact absurd (UInt32.lt_trans hordered horderedOther) (UInt32.lt_irrefl a)
  · rw [hlo, hhi] at hordered
    rw [hlo', hhi'] at horderedOther
    exact absurd (UInt32.lt_trans hordered horderedOther) (UInt32.lt_irrefl b)
  · exact ⟨hlo.trans hlo'.symm, hhi.trans hhi'.symm⟩

namespace Readable

variable {keyedHash : KeyedHash} {table : Table}

/-- At most one visible edge lies between two techniques. -/
theorem joins_unique (hreadable : Readable keyedHash table) {ehash : UInt64} {a b : UInt32}
    {idx other : ℕ} (hidx : idx ∈ table.visibleEdges ehash)
    (hother : other ∈ table.visibleEdges ehash) (hjoins : (table.entries idx).Joins a b)
    (hjoinsOther : (table.entries other).Joins a b) : idx = other := by
  have hlive := (hreadable.mem_visibleEdges.mp hidx).2.1
  have hliveOther := (hreadable.mem_visibleEdges.mp hother).2.1
  obtain ⟨hlo, hhi⟩ := hjoins.eq_pair hjoinsOther (hreadable.linked.keyed idx hlive).ordered
    (hreadable.linked.keyed other hliveOther).ordered
  exact hreadable.eq_of_pair (Finset.mem_filter.mp hidx).1 (Finset.mem_filter.mp hother).1 hlo hhi

theorem couplingWeight_of_joins (hreadable : Readable keyedHash table) {ehash : UInt64}
    {a b : UInt32} {idx : ℕ} (hidx : idx ∈ table.visibleEdges ehash)
    (hjoins : (table.entries idx).Joins a b) :
    couplingWeight table ehash a b = (table.entries idx).weight := by
  unfold couplingWeight
  cases hfind : (table.shownSlots ehash).find? fun idx => (table.entries idx).Joins a b with
  | none =>
      have hnone := List.find?_eq_none.mp hfind idx (hreadable.mem_shownSlots.mpr hidx)
      exact absurd (decide_eq_true hjoins) hnone
  | some found =>
      have hmem := hreadable.mem_shownSlots.mp (List.mem_of_find?_eq_some hfind)
      have hfound : (table.entries found).Joins a b := by
        simpa using List.find?_some hfind
      rw [hreadable.joins_unique hidx hmem hjoins hfound]

theorem couplingWeight_of_none (hreadable : Readable keyedHash table) {ehash : UInt64}
    {a b : UInt32} (hnone : ∀ idx ∈ table.visibleEdges ehash, ¬ (table.entries idx).Joins a b) :
    couplingWeight table ehash a b = 0 := by
  have hfind : (table.shownSlots ehash).find? (fun idx => (table.entries idx).Joins a b) = none :=
    List.find?_eq_none.mpr fun idx hmem => by
      simpa using hnone idx (hreadable.mem_shownSlots.mp hmem)
  rw [couplingWeight, hfind]

theorem couplingWeight_le (hreadable : Readable keyedHash table) (ehash : UInt64)
    (a b : UInt32) : couplingWeight table ehash a b ≤ 5 * 65535 := by
  unfold couplingWeight
  cases hfind : (table.shownSlots ehash).find? fun idx => (table.entries idx).Joins a b with
  | none => exact Nat.zero_le _
  | some found =>
      have hmem := hreadable.mem_shownSlots.mp (List.mem_of_find?_eq_some hfind)
      exact hreadable.weight_le found (hreadable.mem_visibleEdges.mp hmem).2.1

/-- The forces of the visible edges between two techniques are the force of one weight. -/
theorem sum_joins (hreadable : Readable keyedHash table) (ehash : UInt64) (a b : UInt32)
    (eta : UInt16) :
    (∑ idx ∈ table.visibleEdges ehash, if (table.entries idx).Joins a b then
      routedForce (table.entries idx).weight eta else 0) =
      routedForce (couplingWeight table ehash a b) eta := by
  by_cases hexists : ∃ idx ∈ table.visibleEdges ehash, (table.entries idx).Joins a b
  · obtain ⟨idx, hidx, hjoins⟩ := hexists
    rw [hreadable.couplingWeight_of_joins hidx hjoins, Finset.sum_eq_single idx]
    · rw [if_pos hjoins]
    · intro other hother hne
      exact if_neg fun hjoinsOther => hne (hreadable.joins_unique hother hidx hjoinsOther hjoins)
    · exact fun hout => absurd hidx hout
  · push Not at hexists
    rw [hreadable.couplingWeight_of_none hexists]
    rw [Finset.sum_eq_zero fun idx hmem => if_neg (hexists idx hmem)]
    simp [routedForce]

end Readable

/-! ## The two sums -/

/-- Among the positions of other techniques one survives for each technique, if any. -/
theorem sum_surviving {used : List Activation} {k : ℕ} {technique : UInt32}
    (hne : technique ≠ techniqueAt used k) (force : ℕ → ℕ) :
    (∑ i ∈ otherPositions used k,
      if techniqueAt used i = technique ∧ ¬ Superseded used i then force i else 0) =
      match lastPosition used technique with
      | some x => force x
      | none => 0 := by
  cases hlast : lastPosition used technique with
  | some x =>
      obtain ⟨hlt, htechnique, hsurvives⟩ := lastPosition_eq_some_iff.mp hlast
      rw [Finset.sum_eq_single x]
      · rw [if_pos ⟨htechnique, hsurvives⟩]
      · intro i hmem hi
        apply if_neg
        rintro ⟨hsame, hkept⟩
        have hagain := lastPosition_eq_some_iff.mpr
          ⟨Finset.mem_range.mp (Finset.mem_filter.mp hmem).1, hsame, hkept⟩
        exact hi (Option.some.inj (hagain.symm.trans hlast))
      · intro hout
        exact absurd (Finset.mem_filter.mpr ⟨Finset.mem_range.mpr hlt, htechnique ▸ hne⟩) hout
  | none =>
      apply Finset.sum_eq_zero
      intro i hmem
      apply if_neg
      rintro ⟨hsame, hkept⟩
      have hfound := lastPosition_eq_some_iff.mpr
        ⟨Finset.mem_range.mp (Finset.mem_filter.mp hmem).1, hsame, hkept⟩
      rw [hlast] at hfound
      contradiction

theorem addedAt_eq_zero {used : List Activation} {entry : Entry} {k : ℕ}
    (hlow : lastPosition used entry.tLo ≠ some k) (hhigh : lastPosition used entry.tHi ≠ some k) :
    addedAt used entry k = 0 := by
  unfold addedAt
  cases hxi : lastPosition used entry.tLo with
  | none => rfl
  | some xi =>
      cases hxj : lastPosition used entry.tHi with
      | none => rfl
      | some xj =>
          have hi : xi ≠ k := fun heq => hlow (by rw [hxi, heq])
          have hj : xj ≠ k := fun heq => hhigh (by rw [hxj, heq])
          simp only [if_neg hi, if_neg hj]

/-- What an edge adds at the surviving position of one of its two techniques. -/
theorem addedAt_of_end {used : List Activation} {entry : Entry} {k : ℕ} {technique : UInt32}
    (hlast : lastPosition used (techniqueAt used k) = some k)
    (hne : technique ≠ techniqueAt used k)
    (hends : entry.tLo = techniqueAt used k ∧ entry.tHi = technique ∨
      entry.tHi = techniqueAt used k ∧ entry.tLo = technique) :
    addedAt used entry k =
      match lastPosition used technique with
      | some x => routedForce entry.weight (etaAt used x)
      | none => 0 := by
  have hother : ∀ x, lastPosition used technique = some x → x ≠ k := by
    rintro x hx rfl
    exact hne (lastPosition_eq_some_iff.mp hx).2.1.symm
  unfold addedAt
  rcases hends with ⟨hlow, hhigh⟩ | ⟨hhigh, hlow⟩
  · rw [hlow, hhigh, hlast]
    cases hx : lastPosition used technique with
    | none => rfl
    | some x => simp only [if_neg (hother x hx), if_true, Nat.add_zero]
  · rw [hlow, hhigh, hlast]
    cases hx : lastPosition used technique with
    | none => rfl
    | some x => simp only [if_neg (hother x hx), if_true, Nat.zero_add]

/-- What an edge adds at a position: the forces of the positions at its other end, where neither
is superseded. -/
theorem addedAt_eq {used : List Activation} {entry : Entry} (hne : entry.tLo ≠ entry.tHi) {k : ℕ}
    (hk : k < used.length) :
    addedAt used entry k = ∑ i ∈ otherPositions used k,
      if ¬ Superseded used i ∧ ¬ Superseded used k then
        if entry.Joins (techniqueAt used i) (techniqueAt used k) then
          routedForce entry.weight (etaAt used i) else 0
      else 0 := by
  by_cases hlater : Superseded used k
  · have hnever : ∀ technique, lastPosition used technique ≠ some k := fun technique hfound =>
      (lastPosition_eq_some_iff.mp hfound).2.2 hlater
    rw [addedAt_eq_zero (hnever _) (hnever _)]
    exact (Finset.sum_eq_zero fun i _ => if_neg fun hkept => hkept.2 hlater).symm
  · have hlast := lastPosition_eq_some_iff.mpr ⟨hk, rfl, hlater⟩
    -- the technique at the other end of the edge, when one end is that of position `k`
    have hend : ∀ technique, technique ≠ techniqueAt used k →
        (entry.tLo = techniqueAt used k ∧ entry.tHi = technique ∨
          entry.tHi = techniqueAt used k ∧ entry.tLo = technique) →
        addedAt used entry k = ∑ i ∈ otherPositions used k,
          if ¬ Superseded used i ∧ ¬ Superseded used k then
            if entry.Joins (techniqueAt used i) (techniqueAt used k) then
              routedForce entry.weight (etaAt used i) else 0
          else 0 := by
      intro technique hother hends
      rw [addedAt_of_end hlast hother hends,
        ← sum_surviving hother fun i => routedForce entry.weight (etaAt used i)]
      apply Finset.sum_congr rfl
      intro i hmem
      have hjoins : entry.Joins (techniqueAt used i) (techniqueAt used k) ↔
          techniqueAt used i = technique := by
        have hi : techniqueAt used i ≠ techniqueAt used k := (Finset.mem_filter.mp hmem).2
        unfold Entry.Joins
        rcases hends with ⟨hlow, hhigh⟩ | ⟨hhigh, hlow⟩
        · rw [hlow, hhigh]
          constructor
          · rintro (⟨hsame, _⟩ | ⟨_, hsame⟩)
            · exact absurd hsame.symm hi
            · exact hsame.symm
          · exact fun hsame => Or.inr ⟨rfl, hsame.symm⟩
        · rw [hlow, hhigh]
          constructor
          · rintro (⟨hsame, _⟩ | ⟨hsame, _⟩)
            · exact hsame.symm
            · exact absurd hsame hother
          · exact fun hsame => Or.inl ⟨hsame.symm, rfl⟩
      by_cases hkept : Superseded used i
      · rw [if_neg fun h => h.2 hkept, if_neg fun h => h.1 hkept]
      · by_cases hsame : techniqueAt used i = technique
        · rw [if_pos ⟨hsame, hkept⟩, if_pos ⟨hkept, hlater⟩, if_pos (hjoins.mpr hsame)]
        · rw [if_neg fun h => hsame h.1, if_pos ⟨hkept, hlater⟩,
            if_neg fun h => hsame (hjoins.mp h)]
    by_cases hlow : entry.tLo = techniqueAt used k
    · exact hend entry.tHi (fun hsame => hne (hlow.trans hsame.symm)) (Or.inl ⟨hlow, rfl⟩)
    · by_cases hhigh : entry.tHi = techniqueAt used k
      · exact hend entry.tLo hlow (Or.inr ⟨hhigh, rfl⟩)
      · have hnone : ∀ i ∈ otherPositions used k,
            (if ¬ Superseded used i ∧ ¬ Superseded used k then
              if entry.Joins (techniqueAt used i) (techniqueAt used k) then
                routedForce entry.weight (etaAt used i) else 0
            else 0) = 0 := by
          intro i _
          have hjoins : ¬ entry.Joins (techniqueAt used i) (techniqueAt used k) := by
            rintro (⟨_, hsame⟩ | ⟨hsame, _⟩)
            · exact hhigh hsame
            · exact hlow hsame
          rw [if_neg hjoins, ite_self]
        rw [Finset.sum_eq_zero hnone]
        exact addedAt_eq_zero
          (fun hfound => hlow (lastPosition_eq_some_iff.mp hfound).2.1.symm)
          (fun hfound => hhigh (lastPosition_eq_some_iff.mp hfound).2.1.symm)

/-- The accumulators at the end of the walk, as a sum over activations. -/
theorem route_walk_eq {keyedHash : KeyedHash} {table : Table}
    (hreadable : Readable keyedHash table) (ehash : UInt64) {used : List Activation} {k : ℕ}
    (hk : k < used.length) :
    ∑ idx ∈ table.visibleEdges ehash, addedAt used (table.entries idx) k =
      ∑ i ∈ otherPositions used k,
        if ¬ Superseded used i ∧ ¬ Superseded used k then contractForce table ehash used i k
        else 0 := by
  rw [Finset.sum_congr rfl fun idx hmem => addedAt_eq (hreadable.tLo_ne_tHi hmem) hk,
    Finset.sum_comm]
  apply Finset.sum_congr rfl
  intro i _
  by_cases hkept : ¬ Superseded used i ∧ ¬ Superseded used k
  · simp only [if_pos hkept]
    exact hreadable.sum_joins ehash _ _ _
  · simp only [if_neg hkept, Finset.sum_const_zero]

/-! ## Where the code keeps its contract -/

theorem routedPrefix_length_le (acts : List Activation) (outCap : ℕ) :
    (routedPrefix acts outCap).length ≤ queryTopMax :=
  (List.length_take_le _ _).trans (Nat.min_le_right _ _)

theorem map_zipIdx_eq (used : List Activation) (acc : ℕ → ℕ) :
    (used.zipIdx.map fun act => RoutedInput.mk act.1.technique (min (acc act.2) uint32Max)) =
      (List.range used.length).map fun j => ⟨techniqueAt used j, min (acc j) uint32Max⟩ := by
  apply List.ext_getElem (by simp)
  intro j hleft hright
  have hj : j < used.length := by simpa using hright
  simp [techniqueAt, hj]

theorem route_eq_map {keyedHash : KeyedHash} {table : Table}
    (hreadable : Readable keyedHash table) {key : List UInt8} (hkey : key ≠ [])
    (acts : List Activation) (outCap : ℕ) :
    route keyedHash table key acts outCap =
      (List.range (routedPrefix acts outCap).length).map fun j =>
        ⟨techniqueAt (routedPrefix acts outCap) j,
          min (∑ idx ∈ table.visibleEdges (entityHashOf keyedHash table key),
            addedAt (routedPrefix acts outCap) (table.entries idx) j) uint32Max⟩ := by
  unfold route
  by_cases hcap : outCap = 0
  · rw [if_pos (Or.inr hcap)]
    simp [routedPrefix, hcap]
  · rw [if_neg (not_or.mpr ⟨hkey, hcap⟩)]
    simp only [← route_walk hreadable]
    exact map_zipIdx_eq _ _

/-- No sum of the contract reaches the saturation. -/
theorem sum_contractForce_le {keyedHash : KeyedHash} {table : Table}
    (hreadable : Readable keyedHash table) (ehash : UInt64) {used : List Activation}
    (hlength : used.length ≤ queryTopMax) (j : ℕ) :
    ∑ i ∈ otherPositions used j, contractForce table ehash used i j ≤ uint32Max := by
  calc
    ∑ i ∈ otherPositions used j, contractForce table ehash used i j
        ≤ (otherPositions used j).card * (5 * 65535) := by
      apply Finset.sum_le_card_nsmul
      intro i _
      exact (routedForce_le _ _).trans (hreadable.couplingWeight_le ehash _ _)
    _ ≤ queryTopMax * (5 * 65535) := by
      apply Nat.mul_le_mul_right
      exact ((Finset.card_filter_le _ _).trans (Finset.card_range _).le).trans hlength
    _ ≤ uint32Max := by decide

/-- No activation which a later one of its technique supersedes exerts a force, or is exposed to
one. -/
def RepeatsIdle (table : Table) (ehash : UInt64) (used : List Activation) : Prop :=
  ∀ j < used.length, ∀ i < used.length, techniqueAt used i ≠ techniqueAt used j →
    Superseded used i ∨ Superseded used j → contractForce table ehash used i j = 0

theorem repeatsIdle_of_nodup (table : Table) (ehash : UInt64) {used : List Activation}
    (hnodup : (used.map Activation.technique).Nodup) : RepeatsIdle table ehash used := by
  have hnever : ∀ k < used.length, ¬ Superseded used k := by
    rintro k hk ⟨later, hlater, hbehind, hsame⟩
    unfold techniqueAt at hsame
    rw [List.getD_eq_getElem _ _ (by simpa using hlater),
      List.getD_eq_getElem _ _ (by simpa using hk), hnodup.getElem_inj_iff] at hsame
    omega
  intro j hj i hi _ hlater
  exact absurd hlater (not_or.mpr ⟨hnever i hi, hnever j hj⟩)

theorem surviving_sum_eq_iff (table : Table) (ehash : UInt64) (used : List Activation) (j : ℕ) :
    (∑ i ∈ otherPositions used j,
        if ¬ Superseded used i ∧ ¬ Superseded used j then contractForce table ehash used i j
        else 0) = ∑ i ∈ otherPositions used j, contractForce table ehash used i j ↔
      ∀ i < used.length, techniqueAt used i ≠ techniqueAt used j →
        Superseded used i ∨ Superseded used j → contractForce table ehash used i j = 0 := by
  rw [Finset.sum_eq_sum_iff_of_le fun i _ => by split_ifs <;> omega]
  constructor
  · intro hall i hi hother hlater
    have hterm := hall i (Finset.mem_filter.mpr ⟨Finset.mem_range.mpr hi, hother⟩)
    rw [if_neg fun h => hlater.elim h.1 h.2] at hterm
    exact hterm.symm
  · intro hidle i hmem
    obtain ⟨hi, hother⟩ := Finset.mem_filter.mp hmem
    by_cases hkept : ¬ Superseded used i ∧ ¬ Superseded used j
    · rw [if_pos hkept]
    · rw [if_neg hkept]
      have hlater : Superseded used i ∨ Superseded used j := by
        by_contra hnone
        exact hkept (not_or.mp hnone)
      exact (hidle i (Finset.mem_range.mp hi) hother hlater).symm

/-- In every reachable state a route is the sum of its contract exactly when the superseded
activations of the routed prefix are idle. -/
theorem route_eq_contract_iff (keyedHash : KeyedHash) (history : History)
    (hreach : (writer keyedHash).Reachable history) (key : List UInt8) (hkey : key ≠ [])
    (acts : List Activation) (outCap : ℕ) :
    route keyedHash history.table key acts outCap =
        contractRoute keyedHash history.table key acts outCap ↔
      RepeatsIdle history.table (entityHashOf keyedHash history.table key)
        (routedPrefix acts outCap) := by
  have hreadable := reachable_readable hreach
  have hlength := routedPrefix_length_le acts outCap
  rw [route_eq_map hreadable hkey, contractRoute]
  generalize routedPrefix acts outCap = used at hlength ⊢
  generalize entityHashOf keyedHash history.table key = ehash
  rw [List.map_inj_left]
  simp only [RoutedInput.mk.injEq, true_and, List.mem_range]
  apply forall_congr'
  intro j
  apply forall_congr'
  intro hj
  have hcontract := sum_contractForce_le hreadable ehash hlength j
  have hsurviving : (∑ i ∈ otherPositions used j,
      if ¬ Superseded used i ∧ ¬ Superseded used j then
        contractForce history.table ehash used i j else 0) ≤ uint32Max :=
    (Finset.sum_le_sum fun i _ => by split_ifs <;> omega).trans hcontract
  rw [route_walk_eq hreadable ehash hj, Nat.min_eq_left hsurviving, Nat.min_eq_left hcontract]
  exact surviving_sum_eq_iff history.table ehash used j

theorem route_eq_contract_twoWitnesses :
    route (fun _ _ => 7) twoWitnesses.table [1] [⟨10, 0xFFFF, 1⟩, ⟨20, 0xFFFF, 2⟩] 2 =
      contractRoute (fun _ _ => 7) twoWitnesses.table [1] [⟨10, 0xFFFF, 1⟩, ⟨20, 0xFFFF, 2⟩] 2 :=
  (route_eq_contract_iff _ twoWitnesses (reachable_replay _ _) [1] (by decide) _ 2).mpr
    (repeatsIdle_of_nodup _ _ (by decide))

/-- Two producers activate technique 10: the first gets nothing, and technique 20 feels only the
second. -/
theorem route_of_repeated_technique :
    route (fun _ _ => 7) twoWitnesses.table [1]
        [⟨10, 0xFFFF, 1⟩, ⟨10, 0x8000, 2⟩, ⟨20, 0xFFFF, 3⟩] 3 =
      [⟨10, 0⟩, ⟨10, 4092⟩, ⟨20, 2046⟩] ∧
    contractRoute (fun _ _ => 7) twoWitnesses.table [1]
        [⟨10, 0xFFFF, 1⟩, ⟨10, 0x8000, 2⟩, ⟨20, 0xFFFF, 3⟩] 3 =
      [⟨10, 4092⟩, ⟨10, 4092⟩, ⟨20, 6138⟩] ∧
    (writer (fun _ _ => 7)).Reachable twoWitnesses := by
  refine ⟨?_, ?_, reachable_replay _ _⟩
  · decide +kernel
  · decide +kernel

end Tac
end LibWake
