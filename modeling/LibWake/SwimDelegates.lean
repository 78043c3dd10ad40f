import LibWake.SwimProbe

/-!
# The choice of delegates

The partial shuffle swaps one entry into each position in turn and emits it.  What
it has emitted is never moved again, so the result is the front of a permutation
of the members on offer, whatever the random stream.
-/

namespace LibWake
namespace Swim

open scoped List

variable {Id : Type}

/-! ## The partial shuffle -/

/-- A swap behind the first `front` entries leaves these in place. -/
theorem take_swapAt {order : List ℕ} {front i j : ℕ} (hi : front ≤ i) (hj : front ≤ j) :
    (swapAt order i j).take front = order.take front := by
  unfold swapAt
  split
  · rw [List.take_set_of_le hj, List.take_set_of_le hi]
  · rfl

/-- The delegates picked from position `i` on are the entries there of a permutation
which agrees with the list on offer in front of `i`. -/
theorem pickDelegates_eq (node : Node Id) {count i : ℕ} {eligible : List ℕ}
    (hroom : i + count ≤ eligible.length) (prng : UInt64) :
    ∃ order, order ~ eligible ∧ order.take i = eligible.take i ∧
      (pickDelegates node count i eligible prng).1 =
        ((order.drop i).take count).filterMap (node.members[·]?) := by
  induction count generalizing i eligible prng with
  | zero => exact ⟨eligible, .refl _, rfl, by simp [pickDelegates]⟩
  | succ count ih =>
      set picked := swapAt eligible i
        (i + (splitmix64 prng).2.toNat % (eligible.length - i)) with hpicked
      have hperm : picked ~ eligible := swapAt_perm _ _ _
      have hfront : picked.take i = eligible.take i :=
        take_swapAt le_rfl (Nat.le_add_right i _)
      obtain ⟨order, horder, hagree, hrest⟩ := @ih (i + 1) picked
        (by rw [hperm.length_eq]; omega) (splitmix64 prng).1
      have hlength : order.length = eligible.length := (horder.trans hperm).length_eq
      have hi : i < order.length := by omega
      have hipicked : i < picked.length := by
        rw [hperm.length_eq]
        omega
      have hsame : order[i] = picked[i] := by
        have hget := congrArg (·[i]?) hagree
        simp only [List.getElem?_take, Nat.lt_succ_self, if_true] at hget
        rwa [List.getElem?_eq_getElem hi, List.getElem?_eq_getElem hipicked,
          Option.some.injEq] at hget
      refine ⟨order, horder.trans hperm, ?_, ?_⟩
      · have htake := congrArg (List.take i) hagree
        rw [List.take_take, List.take_take, Nat.min_eq_left (Nat.le_succ i)] at htake
        rw [htake, hfront]
      · rw [pickDelegates]
        simp only [← hpicked, hrest]
        rw [List.drop_eq_getElem_cons hi, List.take_succ_cons, List.filterMap_cons, hsame,
          List.getElem?_eq_getElem hipicked, Option.bind_some]
        cases node.members[picked[i]]? with
        | none => rfl
        | some m => rfl

/-! ## The members on offer -/

variable [DecidableEq Id]

/-- The ALIVE members but the excluded one. -/
def offered (node : Node Id) (excludeId : Option Id) : List (Member Id) :=
  node.members.filter fun m => m.state = alive && some m.nodeId ≠ excludeId

/-- The stack buffer of 512 entries holds every member on offer, and none of them is
the node itself. -/
theorem map_eligibleDelegates {node : Node Id} (hmembers : MembersSound node)
    (hsize : node.members.length ≤ 512) (excludeId : Option Id) :
    (eligibleDelegates node excludeId).map (node.members[·]?) =
      (offered node excludeId).map some := by
  rw [offered, ← DenseArray.map_getElem?_filter_range, eligibleDelegates,
    Nat.min_eq_left hsize]
  congr 1
  refine List.filter_congr fun i _ => ?_
  cases hget : node.members[i]? with
  | none => rfl
  | some m =>
      have hself := hmembers.not_self m (List.mem_of_getElem? hget)
      simp [hself]

/-- The delegates are the front of a permutation of the members on offer. -/
theorem selectDelegates_eq {node : Node Id} (hmembers : MembersSound node)
    (hsize : node.members.length ≤ 512) (excludeId : Option Id) {max : ℕ} (hmax : 0 < max) :
    ∃ targets, targets ~ offered node excludeId ∧
      (selectDelegates node excludeId max).1 = targets.take max := by
  set eligible := eligibleDelegates node excludeId with heligible
  have hread := map_eligibleDelegates hmembers hsize excludeId
  obtain ⟨order, horder, -, hout⟩ := @pickDelegates_eq _ node (min max eligible.length) 0
    eligible (by omega) node.prngState
  have hperm : order.map (node.members[·]?) ~ (offered node excludeId).map some :=
    hread ▸ horder.map (node.members[·]?)
  have hsplit := congrFun₂ (List.eq_map_comp_perm (some : Member Id → _))
    (order.map (node.members[·]?)) (offered node excludeId)
  obtain ⟨targets, htargets, htargetsPerm⟩ := hsplit.mpr hperm
  have hlength : order.length = targets.length := by
    simpa using congrArg List.length htargets
  refine ⟨targets, htargetsPerm, ?_⟩
  calc (selectDelegates node excludeId max).1
      = (order.take (min max eligible.length)).filterMap (node.members[·]?) := by
        rw [selectDelegates, if_neg hmax.ne', ← heligible]
        exact hout
    _ = (order.take max).filterMap (node.members[·]?) := by
        rw [← horder.length_eq, ← List.take_eq_take_min]
    _ = ((order.map (node.members[·]?)).take max).filterMap id := by
        rw [← List.map_take, List.filterMap_map]
        rfl
    _ = targets.take max := by
        rw [htargets, ← List.map_take, List.filterMap_map]
        exact List.filterMap_some

/-- In a reachable state of at most 512 members, whatever the PRNG state: the
delegates are as many members on offer as were asked for and there are, no two of
them alike, and nothing but the PRNG state changes. -/
theorem delegates_exact {node : Node Id} (hreach : runs.Reachable node)
    (hsize : node.members.length ≤ 512) (prng : UInt64) (excludeId : Option Id) {max : ℕ}
    (hmax : 0 < max) :
    let start := { node with prngState := prng }
    let out := (selectDelegates start excludeId max).1
    out.length = min max (offered node excludeId).length ∧
      (∀ m ∈ out, m ∈ offered node excludeId) ∧
      (out.map Member.nodeId).Nodup ∧
      ((offered node excludeId).length ≤ max → out ~ offered node excludeId) ∧
      ∃ prng', (selectDelegates start excludeId max).2 = { start with prngState := prng' } := by
  intro start out
  have hmembers := (reachable_wellFormed hreach).members
  have hstart : MembersSound start := ⟨hmembers.room, hmembers.nodup_ids, hmembers.not_self⟩
  obtain ⟨targets, hperm, hout⟩ := selectDelegates_eq hstart hsize excludeId hmax
  have hoffered : offered start excludeId = offered node excludeId := rfl
  rw [hoffered] at hperm
  have hnodup : (targets.map Member.nodeId).Nodup :=
    (hperm.map Member.nodeId).nodup_iff.mpr
      (hmembers.nodup_ids.sublist (List.filter_sublist.map Member.nodeId))
  refine ⟨?_, ?_, ?_, ?_, ?_⟩
  · rw [show out = targets.take max from hout, List.length_take, hperm.length_eq]
  · intro m hm
    rw [show out = targets.take max from hout] at hm
    exact hperm.subset (List.mem_of_mem_take hm)
  · rw [show out = targets.take max from hout, List.map_take]
    exact hnodup.sublist (List.take_sublist _ _)
  · intro hall
    rw [show out = targets.take max from hout,
      List.take_of_length_le (hperm.length_eq.le.trans hall)]
    exact hperm
  · refine ⟨(selectDelegates start excludeId max).2.prngState, ?_⟩
    rw [selectDelegates, if_neg hmax.ne']

theorem delegates_exact_fiveMembers :
    ((selectDelegates { fiveMembers with prngState := 5 } (some 7) 3).1.map
        Member.nodeId).Nodup ∧
      (selectDelegates { fiveMembers with prngState := 5 } (some 7) 3).1 ~
        offered fiveMembers (some 7) ∧
      (offered fiveMembers (some 7)).map Member.nodeId = [11, 13] := by
  have hexact := delegates_exact reachable_fiveMembers (by decide +kernel) 5 (some 7)
    (Nat.succ_pos 2)
  exact ⟨hexact.2.2.1, hexact.2.2.2.1 (by decide +kernel), by decide +kernel⟩

end Swim
end LibWake
