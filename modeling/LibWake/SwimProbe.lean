import LibWake.SwimRepresentation

/-!
# Probe rounds

A round hands out one shuffled order of the ALIVE and SUSPECT members, entry by
entry.  Every change of a member invalidates the order, so no entry of it is ever
stale: the code which skips stale entries, and counts the round when it has
skipped them all, is never reached.
-/

namespace LibWake
namespace Swim

open scoped List

variable {Id : Type}

/-- The results of calls of `wake_swim_next_probe` without another call in between,
and the node behind them. -/
def probes : ℕ → Node Id → List (Option (Member Id)) × Node Id
  | 0, node => ([], node)
  | calls + 1, node =>
      let (target, next) := nextProbe node
      let (targets, final) := probes calls next
      (target :: targets, final)

/-- The next probe starts a round: the order was invalidated, or it is exhausted. -/
def RoundStarts (node : Node Id) : Prop :=
  node.probeOrder = [] ∨ node.probeOrder.length ≤ node.probeIndex

/-- The next probe starts a round because the order of the last one has been
handed out. -/
def RoundFollows (node : Node Id) : Prop :=
  0 < node.aliveCount ∧ node.probeOrder ≠ [] ∧ node.probeOrder.length ≤ node.probeIndex

instance (node : Node Id) : Decidable (RoundFollows node) :=
  inferInstanceAs (Decidable (_ ∧ _))

/-! ## The order of a round -/

theorem eligibleIndices_eq (members : List (Member Id)) :
    eligibleIndices members =
      (List.range members.length).filter fun i => members[i]?.any Member.probeEligible := by
  rw [eligibleIndices]
  congr 1
  funext i
  cases members[i]? with
  | none => rfl
  | some m => rfl

theorem map_probeTarget_eligibleIndices (node : Node Id) :
    (eligibleIndices node.members).map (probeTarget node) =
      (node.members.filter Member.probeEligible).map some := by
  rw [← DenseArray.map_getElem?_filter_range, eligibleIndices_eq]
  refine List.map_congr_left fun i hi => ?_
  have heligible := (List.mem_filter.mp hi).2
  unfold probeTarget
  cases hget : node.members[i]? with
  | none => rfl
  | some m =>
      rw [hget] at heligible
      exact if_pos heligible

theorem length_eligibleIndices (members : List (Member Id)) :
    (eligibleIndices members).length = members.countP Member.probeEligible := by
  rw [eligibleIndices_eq, DenseArray.length_filter_range]

theorem ListsEligible.target {node : Node Id} {order : List ℕ}
    (hlists : ListsEligible node.members order) {i : ℕ} (hi : i ∈ order) :
    ∃ m, probeTarget node i = some m := by
  obtain ⟨m, hget, hstate⟩ := (hlists.mem_iff i).mp hi
  refine ⟨m, ?_⟩
  rw [probeTarget, hget, Option.filter_eq_some_iff]
  exact ⟨rfl, by simpa [Member.probeEligible] using hstate⟩

/-! ## One probe -/

/-- Within a round the next entry of the order is returned, and nothing but the
index changes. -/
theorem probeCurrent_inRound {node : Node Id}
    (hlists : ListsEligible node.members node.probeOrder)
    (hlt : node.probeIndex < node.probeOrder.length) :
    probeCurrent node = (probeTarget node node.probeOrder[node.probeIndex],
      { node with probeIndex := node.probeIndex + 1 }) := by
  obtain ⟨m, htarget⟩ := hlists.target (List.getElem_mem hlt)
  rw [probeCurrent, List.drop_eq_getElem_cons hlt]
  simp only [scanProbe, htarget]

theorem nextProbe_inRound {node : Node Id} (halive : 0 < node.aliveCount)
    (hlists : ListsEligible node.members node.probeOrder)
    (hlt : node.probeIndex < node.probeOrder.length) :
    nextProbe node = (probeTarget node node.probeOrder[node.probeIndex],
      { node with probeIndex := node.probeIndex + 1 }) := by
  rw [nextProbe, if_neg halive.ne', if_neg (by omega), probeCurrent_inRound hlists hlt]

theorem rebuilt_perm (node : Node Id) :
    (rebuildProbeOrder node).probeOrder ~ eligibleIndices node.members :=
  shuffle_perm _ _ _

theorem length_rebuilt {node : Node Id} (hsound : DerivedSound node) :
    (rebuildProbeOrder node).probeOrder.length = node.aliveCount := by
  rw [(rebuilt_perm node).length_eq, length_eligibleIndices, hsound.alive_count]

/-- A round starts with a probe from a new order. -/
theorem nextProbe_roundStarts {node : Node Id} (hsound : DerivedSound node)
    (halive : 0 < node.aliveCount) (hround : RoundStarts node) :
    nextProbe node = nextProbe (rebuildProbeOrder node) := by
  have hlength := length_rebuilt hsound
  have hlt : (rebuildProbeOrder node).probeIndex <
      (rebuildProbeOrder node).probeOrder.length := by
    rw [hlength]
    exact halive
  have hstarts : node.probeOrder.length = 0 ∨
      node.probeIndex ≥ node.probeOrder.length := by
    rcases hround with hinvalid | hexhausted
    · exact Or.inl (by rw [hinvalid]; rfl)
    · exact Or.inr hexhausted
  have hlists := listsEligible_of_perm (rebuilt_perm node)
  have hfirst := @nextProbe_inRound _ (rebuildProbeOrder node) halive hlists hlt
  rw [hfirst, nextProbe, if_neg halive.ne', if_pos hstarts]
  simp only
  rw [if_neg (by omega), if_neg (by omega), probeCurrent_inRound hlists hlt]

/-! ## The probes of a round -/

theorem probes_inRound {node : Node Id} (halive : 0 < node.aliveCount)
    (hlists : ListsEligible node.members node.probeOrder) {calls : ℕ}
    (hroom : node.probeIndex + calls ≤ node.probeOrder.length) :
    probes calls node =
      (((node.probeOrder.drop node.probeIndex).take calls).map (probeTarget node),
        { node with probeIndex := node.probeIndex + calls }) := by
  induction calls generalizing node with
  | zero => rfl
  | succ calls ih =>
      have hlt : node.probeIndex < node.probeOrder.length := by omega
      have hrest := @ih { node with probeIndex := node.probeIndex + 1 } halive hlists
        (by simp only; omega)
      rw [probes, nextProbe_inRound halive hlists hlt]
      simp only [hrest]
      rw [List.drop_eq_getElem_cons hlt, List.take_succ_cons, List.map_cons,
        Nat.add_right_comm]
      rfl

theorem probes_congr {node other : Node Id} (hfirst : nextProbe node = nextProbe other)
    (calls : ℕ) : probes (calls + 1) node = probes (calls + 1) other := by
  rw [probes, probes, hfirst]

/-- The probes of a whole round are the new order, entry by entry. -/
theorem probes_round {node : Node Id} (hsound : DerivedSound node)
    (halive : 0 < node.aliveCount) (hround : RoundStarts node) :
    probes node.aliveCount node =
      ((rebuildProbeOrder node).probeOrder.map (probeTarget node),
        { rebuildProbeOrder node with probeIndex := node.aliveCount }) := by
  have hlength := length_rebuilt hsound
  have hlists := listsEligible_of_perm (rebuilt_perm node)
  have hprobes := @probes_inRound _ (rebuildProbeOrder node) halive hlists node.aliveCount
    (by rw [hlength]; exact (Nat.zero_add _).le)
  obtain ⟨calls, hcalls⟩ : ∃ calls, node.aliveCount = calls + 1 :=
    ⟨node.aliveCount - 1, by omega⟩
  rw [hcalls] at hlength hprobes ⊢
  rw [probes_congr (nextProbe_roundStarts hsound halive hround), hprobes]
  have hwhole : ((rebuildProbeOrder node).probeOrder.drop
      (rebuildProbeOrder node).probeIndex).take (calls + 1) =
      (rebuildProbeOrder node).probeOrder :=
    List.take_of_length_le hlength.le
  rw [hwhole]
  exact Prod.ext rfl (by rw [show (rebuildProbeOrder node).probeIndex = 0 from rfl, Nat.zero_add])

section Runs

variable [DecidableEq Id]

/-- From a point where a round starts, whatever the PRNG state, as many probes as
there are live members return the ALIVE and SUSPECT members, each of them once;
without live members a probe returns none and changes nothing. -/
theorem round_probes_everyone {node : Node Id} (hreach : runs.Reachable node)
    (prng : UInt64) :
    (RoundStarts node → 0 < node.aliveCount →
      ∃ targets : List (Member Id),
        (probes node.aliveCount { node with prngState := prng }).1 = targets.map some ∧
          (targets.map Member.nodeId).Nodup ∧
          ∀ m, m ∈ targets ↔
            m ∈ node.members ∧ (m.state = alive ∨ m.state = suspect)) ∧
      (node.aliveCount = 0 →
        nextProbe { node with prngState := prng } =
          (none, { node with prngState := prng })) := by
  have hwell := reachable_wellFormed hreach
  refine ⟨fun hround halive => ?_, fun hnone => if_pos hnone⟩
  set start := { node with prngState := prng }
  have hsound : DerivedSound start := ⟨hwell.derived.alive_count, hwell.derived.probe_order⟩
  have hprobes := congrArg Prod.fst (probes_round hsound halive hround)
  have hperm : (rebuildProbeOrder start).probeOrder.map (probeTarget start) ~
      (node.members.filter Member.probeEligible).map some := by
    rw [← map_probeTarget_eligibleIndices start]
    exact (rebuilt_perm start).map (probeTarget start)
  obtain ⟨targets, htargets, hmembers⟩ : ∃ targets : List (Member Id),
      (rebuildProbeOrder start).probeOrder.map (probeTarget start) = targets.map some ∧
        targets ~ node.members.filter Member.probeEligible := by
    have hsplit := congrFun₂ (List.eq_map_comp_perm (some : Member Id → _))
      ((rebuildProbeOrder start).probeOrder.map (probeTarget start))
      (node.members.filter Member.probeEligible)
    exact hsplit.mpr hperm
  refine ⟨targets, hprobes.trans htargets, ?_, fun m => ?_⟩
  · have hnodup : ((node.members.filter Member.probeEligible).map Member.nodeId).Nodup :=
      hwell.members.nodup_ids.sublist (List.filter_sublist.map Member.nodeId)
    exact (hmembers.map Member.nodeId).nodup_iff.mpr hnodup
  · rw [hmembers.mem_iff, List.mem_filter]
    simp [Member.probeEligible]

/-! ## The round counter -/

omit [DecidableEq Id] in
theorem nextProbe_roundsCompleted {node : Node Id} (hsound : DerivedSound node) :
    (nextProbe node).2.roundsCompleted = node.roundsCompleted := by
  by_cases halive : node.aliveCount = 0
  · rw [nextProbe, if_pos halive]
  · have hpos : 0 < node.aliveCount := Nat.pos_of_ne_zero halive
    by_cases hround : RoundStarts node
    · have hlists := listsEligible_of_perm (rebuilt_perm node)
      have hlt : (rebuildProbeOrder node).probeIndex <
          (rebuildProbeOrder node).probeOrder.length := by
        rw [length_rebuilt hsound]
        exact hpos
      have hfirst := @nextProbe_inRound _ (rebuildProbeOrder node) hpos hlists hlt
      rw [nextProbe_roundStarts hsound hpos hround, hfirst]
      rfl
    · obtain ⟨hne, hlt⟩ := not_or.mp hround
      rw [nextProbe_inRound hpos (hsound.probe_order hne) (Nat.not_le.mp hlt)]

theorem reachable_roundsCompleted {node : Node Id} (hreach : runs.Reachable node) :
    node.roundsCompleted = 0 := by
  have hboth := hreach.invariant
    (motive := fun node => WellFormed node ∧ node.roundsCompleted = 0) ?_ ?_
  · exact hboth.2
  · rintro node ⟨selfId, addr, port, cfg, addressSeed, rfl⟩
    exact ⟨wellFormed_create selfId addr port cfg addressSeed, rfl⟩
  · rintro node call next ⟨hwell, hzero⟩ hstep
    obtain rfl : performCall node call = next := Option.some.inj hstep
    refine ⟨hwell.performCall call, ?_⟩
    rcases gauges_performCall node call with hsame | rfl | rfl | ⟨delta, rfl⟩
    · rw [hsame.roundsCompleted, hzero]
    · rfl
    · exact (nextProbe_roundsCompleted hwell.derived).trans hzero
    · exact hzero

theorem reachable_probes {node : Node Id} (hreach : runs.Reachable node) (calls : ℕ) :
    runs.Reachable (probes calls node).2 := by
  induction calls generalizing node with
  | zero => exact hreach
  | succ calls ih =>
      exact ih (hreach.step (show runs.step node .nextProbe = some (nextProbe node).2 from rfl))

/-- No call of `wake_swim_next_probe` counts a completed round: the one which starts
a round behind another one takes a new order and leaves the counter as it is, and
so do the probes of any number of whole rounds. -/
theorem rounds_never_counted {node : Node Id} (hreach : runs.Reachable node) :
    (RoundFollows node →
      nextProbe node = nextProbe (rebuildProbeOrder node) ∧
        (nextProbe node).2.roundsCompleted ≠ node.roundsCompleted + 1) ∧
      ∀ rounds, (probes (rounds * node.aliveCount) node).2.roundsCompleted =
        node.roundsCompleted := by
  have hsound := (reachable_wellFormed hreach).derived
  refine ⟨fun ⟨halive, _, hexhausted⟩ => ⟨?_, ?_⟩, fun rounds => ?_⟩
  · exact nextProbe_roundStarts hsound halive (Or.inr hexhausted)
  · rw [nextProbe_roundsCompleted hsound, reachable_roundsCompleted hreach]
    decide
  · rw [reachable_roundsCompleted (reachable_probes hreach _),
      reachable_roundsCompleted hreach]

end Runs

/-- The only member of `oneMember` has been handed out. -/
def probedOnce : Node ℕ := performCall oneMember .nextProbe

theorem round_probes_everyone_fiveMembers :
    ∃ targets : List (Member ℕ),
      (probes fiveMembers.aliveCount { fiveMembers with prngState := 3 }).1 =
          targets.map some ∧
        (targets.map Member.nodeId).Nodup ∧ fiveMembers.aliveCount = 4 ∧
        ∀ m, m ∈ targets ↔ m ∈ fiveMembers.members ∧ (m.state = alive ∨ m.state = suspect) := by
  obtain ⟨targets, hprobes, hnodup, hmem⟩ := (round_probes_everyone reachable_fiveMembers 3).1
    (.inl (by decide +kernel)) (by decide +kernel)
  exact ⟨targets, hprobes, hnodup, by decide +kernel, hmem⟩

theorem reachable_probedOnce : runs.Reachable probedOnce :=
  reachable_oneMember.step (show runs.step oneMember .nextProbe = some _ from rfl)

theorem rounds_never_counted_probedOnce :
    nextProbe probedOnce = nextProbe (rebuildProbeOrder probedOnce) ∧
      (nextProbe probedOnce).2.roundsCompleted ≠ probedOnce.roundsCompleted + 1 :=
  (rounds_never_counted reachable_probedOnce).1 (by decide)

/-- The second round of probes over one member does not count the first. -/
theorem first_round_uncounted :
    runs.Reachable probedOnce ∧ RoundFollows probedOnce ∧
      (nextProbe probedOnce).2.roundsCompleted ≠ probedOnce.roundsCompleted + 1 :=
  ⟨reachable_probedOnce, by decide, by decide⟩

end Swim
end LibWake
