import Mathlib.Data.List.Nodup
import LibWake.DenseArray
import LibWake.SlotPass
import LibWake.SwimModel

/-!
# What a call does to the members

One call changes the members in one of five ways, each of which is named here
together with the call which makes it.  The invariants of the member list are
derived from this one statement.
-/

namespace LibWake
namespace Swim

open SlotPass

variable {Id : Type}

/-! ## The read-mostly calls -/

theorem nextProbe_frame (node : Node Id) :
    ∃ order index prng rounds, (nextProbe node).2 =
      { node with
        probeOrder := order
        probeIndex := index
        prngState := prng
        roundsCompleted := rounds } := by
  have honce : ∀ order index prng rounds, ∃ order' index' prng' rounds',
      (probeOnceMore { node with
        probeOrder := order
        probeIndex := index
        prngState := prng
        roundsCompleted := rounds }).2 =
      { node with
        probeOrder := order'
        probeIndex := index'
        prngState := prng'
        roundsCompleted := rounds' } := by
    intro order index prng rounds
    unfold probeOnceMore
    simp only
    split
    · exact ⟨_, _, _, _, rfl⟩
    · exact ⟨_, _, _, _, rfl⟩
  have hcurrent : ∀ order index prng rounds, ∃ order' index' prng' rounds',
      (probeCurrent { node with
        probeOrder := order
        probeIndex := index
        prngState := prng
        roundsCompleted := rounds }).2 =
      { node with
        probeOrder := order'
        probeIndex := index'
        prngState := prng'
        roundsCompleted := rounds' } := by
    intro order index prng rounds
    unfold probeCurrent
    split
    · exact ⟨_, _, _, _, rfl⟩
    · exact honce _ _ _ _
  unfold nextProbe
  split_ifs
  · exact ⟨_, _, _, _, rfl⟩
  · simp only
    split_ifs
    · exact ⟨_, _, _, _, rfl⟩
    · exact hcurrent _ _ _ _
    · exact hcurrent _ _ _ _
  · exact hcurrent node.probeOrder node.probeIndex node.prngState node.roundsCompleted

/-- The configuration and what the node says of itself stay. -/
structure SameIdentity (before after : Node Id) : Prop where
  config : after.config = before.config
  selfId : after.selfId = before.selfId
  selfIncarnation : after.selfIncarnation = before.selfIncarnation

theorem SameIdentity.refl (node : Node Id) : SameIdentity node node := ⟨rfl, rfl, rfl⟩

theorem SameIdentity.trans {a b c : Node Id} (hab : SameIdentity a b)
    (hbc : SameIdentity b c) : SameIdentity a c :=
  ⟨hbc.config.trans hab.config, hbc.selfId.trans hab.selfId,
    hbc.selfIncarnation.trans hab.selfIncarnation⟩

/-! ## Changes of a member -/

/-- What one call can make of a member which was in the list before. -/
inductive Change (node : Node Id) (call : Call Id) (m : Member Id) : Member Id → Prop
  | kept : Change node call m m
  | removed (now : UInt64) (hcall : call = .removeMember m.nodeId now) :
      Change node call m { m with state := left, lastChangeMs := now, suspectMs := 0 }
  | suspected (now : UInt64) (hcall : call = .suspectMember m.nodeId now)
      (halive : m.state = alive) :
      Change node call m
        { m with state := suspect, suspectMs := now, lastChangeMs := now }
  | updated (update : Update Id) (now : UInt64) (hcall : call = .applyUpdate update now)
      (hid : update.nodeId = m.nodeId)
      (hsupersedes : stateSupersedes update.state update.incarnation m.state
        m.incarnation = true) :
      Change node call m (updatedMember m update now)
  | expired (now : UInt64) (hcall : call = .checkSuspects now)
      (hover : suspicionOver now (suspectTimeout node) m = true) :
      Change node call m (expiredMember m now)

theorem Change.nodeId_eq {node : Node Id} {call : Call Id} {m m' : Member Id}
    (hchange : Change node call m m') : m'.nodeId = m.nodeId := by
  cases hchange <;> rfl

/-- What one call can make of the member list. -/
inductive MembersStep (node : Node Id) (call : Call Id) : List (Member Id) → Prop
  | kept : MembersStep node call node.members
  | changed (idx : ℕ) (m m' : Member Id) (hget : node.members[idx]? = some m)
      (hchange : Change node call m m') :
      MembersStep node call (node.members.set idx m')
  | checked (change : Member Id → Member Id)
      (hchange : ∀ m, Change node call m (change m)) :
      MembersStep node call (node.members.map change)
  | thinned (rest : List (Member Id)) (hsub : rest.Sublist node.members) :
      MembersStep node call rest
  | joined (m : Member Id) (hself : m.nodeId ≠ node.selfId)
      (habsent : ∀ other ∈ node.members, other.nodeId ≠ m.nodeId)
      (hroom : node.members.length < node.config.maxMembers.toNat)
      (halive : m.state = alive) :
      MembersStep node call (node.members ++ [m])

/-- Every member after a call comes from one which was there before, or it is
ALIVE and its id is new and not the node's own. -/
theorem MembersStep.change_or_new {node : Node Id} {call : Call Id}
    {members : List (Member Id)} (hstep : MembersStep node call members)
    {m' : Member Id} (hmem : m' ∈ members) :
    (∃ m ∈ node.members, Change node call m m') ∨
      m'.nodeId ≠ node.selfId ∧ m'.state = alive ∧
        ∀ m ∈ node.members, m.nodeId ≠ m'.nodeId := by
  cases hstep with
  | kept => exact Or.inl ⟨m', hmem, .kept⟩
  | changed idx m changed hget hchange =>
      rcases List.mem_or_eq_of_mem_set hmem with hold | rfl
      · exact Or.inl ⟨m', hold, .kept⟩
      · exact Or.inl ⟨m, List.mem_of_getElem? hget, hchange⟩
  | checked change hchange =>
      obtain ⟨m, hold, rfl⟩ := List.mem_map.mp hmem
      exact Or.inl ⟨m, hold, hchange m⟩
  | thinned rest hsub => exact Or.inl ⟨m', hsub.subset hmem, .kept⟩
  | joined m hself habsent _ halive =>
      rw [List.mem_append, List.mem_singleton] at hmem
      rcases hmem with hold | rfl
      · exact Or.inl ⟨m', hold, .kept⟩
      · exact Or.inr ⟨hself, halive, habsent⟩

/-- The ids of the members, in order. -/
def Node.ids (node : Node Id) : List Id := node.members.map Member.nodeId

theorem MembersStep.nodup_ids {node : Node Id} {call : Call Id}
    {members : List (Member Id)} (hstep : MembersStep node call members)
    (hnodup : node.ids.Nodup) : (members.map Member.nodeId).Nodup := by
  cases hstep with
  | kept => exact hnodup
  | changed idx m changed hget hchange =>
      rw [DenseArray.map_set_of_eq Member.nodeId hget hchange.nodeId_eq]
      exact hnodup
  | checked change hchange =>
      have hsame : (node.members.map change).map Member.nodeId = node.ids := by
        rw [List.map_map, Node.ids]
        exact List.map_congr_left fun m _ => (hchange m).nodeId_eq
      rwa [hsame]
  | thinned rest hsub => exact hnodup.sublist (hsub.map Member.nodeId)
  | joined m _ habsent _ _ =>
      rw [List.map_append]
      refine hnodup.append (by simp) ?_
      intro id hold hnew
      simp only [List.map_cons, List.map_nil, List.mem_singleton] at hnew
      obtain ⟨other, hother, rfl⟩ := List.mem_map.mp hold
      exact habsent other hother hnew

theorem eq_of_nodeId_eq {node : Node Id} (hnodup : node.ids.Nodup) {m other : Member Id}
    (hm : m ∈ node.members) (hother : other ∈ node.members)
    (hid : m.nodeId = other.nodeId) : m = other :=
  List.inj_on_of_nodup_map hnodup hm hother hid

variable [DecidableEq Id]

/-! ## The lookup -/

theorem findMemberFrom_some {nodeId : Id} {start idx : ℕ} {members : List (Member Id)}
    {m : Member Id} (hfind : findMemberFrom nodeId start members = some (idx, m)) :
    start ≤ idx ∧ members[idx - start]? = some m ∧ m.nodeId = nodeId := by
  induction members generalizing start with
  | nil => simp [findMemberFrom] at hfind
  | cons head rest ih =>
      unfold findMemberFrom at hfind
      split_ifs at hfind with heq
      · simp only [Option.some.injEq, Prod.mk.injEq] at hfind
        obtain ⟨rfl, rfl⟩ := hfind
        simp [heq]
      · obtain ⟨hle, hget, hid⟩ := ih hfind
        refine ⟨by omega, ?_, hid⟩
        obtain ⟨k, rfl⟩ : ∃ k, idx = start + 1 + k := ⟨idx - (start + 1), by omega⟩
        have hindex : start + 1 + k - start = k + 1 := by omega
        rw [hindex, List.getElem?_cons_succ]
        simpa using hget

theorem findMemberFrom_none {nodeId : Id} {start : ℕ} {members : List (Member Id)} :
    findMemberFrom nodeId start members = none ↔
      ∀ m ∈ members, m.nodeId ≠ nodeId := by
  induction members generalizing start with
  | nil => simp [findMemberFrom]
  | cons head rest ih =>
      unfold findMemberFrom
      split_ifs with heq
      · simp [heq]
      · simp [ih, heq]

theorem findMember_some {node : Node Id} {nodeId : Id} {idx : ℕ} {m : Member Id}
    (hfind : findMember node nodeId = some (idx, m)) :
    node.members[idx]? = some m ∧ m.nodeId = nodeId :=
  (findMemberFrom_some hfind).2

theorem findMember_none {node : Node Id} {nodeId : Id} :
    findMember node nodeId = none ↔ ∀ m ∈ node.members, m.nodeId ≠ nodeId :=
  findMemberFrom_none

theorem findMember_of_mem {node : Node Id} (hnodup : node.ids.Nodup) {m : Member Id}
    (hmem : m ∈ node.members) : ∃ idx, findMember node m.nodeId = some (idx, m) := by
  cases hfind : findMember node m.nodeId with
  | none => exact absurd rfl (findMember_none.mp hfind m hmem)
  | some found =>
      obtain ⟨idx, other⟩ := found
      obtain ⟨hget, hid⟩ := findMember_some hfind
      obtain rfl : other = m :=
        eq_of_nodeId_eq hnodup (List.mem_of_getElem? hget) hmem hid
      exact ⟨idx, rfl⟩

/-! ## The queue and the other fields -/

/-- `queue_update` writes the queue and its counter, and nothing else. -/
theorem queueUpdate_frame (node : Node Id) (m : Member Id) :
    ∃ updates queued, queueUpdate node m =
      { node with updates := updates, updatesQueued := queued } := by
  unfold queueUpdate
  cases findUpdate node.updates m.nodeId with
  | some i => exact ⟨_, node.updatesQueued, rfl⟩
  | none =>
      simp only
      split_ifs
      · exact ⟨_, _, rfl⟩
      · exact ⟨_, _, rfl⟩

@[simp] theorem queueUpdate_members (node : Node Id) (m : Member Id) :
    (queueUpdate node m).members = node.members := by
  obtain ⟨updates, queued, hqueue⟩ := queueUpdate_frame node m
  rw [hqueue]

theorem queueUpdate_identity (node : Node Id) (m : Member Id) :
    SameIdentity node (queueUpdate node m) := by
  obtain ⟨updates, queued, hqueue⟩ := queueUpdate_frame node m
  rw [hqueue]
  exact ⟨rfl, rfl, rfl⟩

@[simp] theorem changeMember_members (node : Node Id) (idx : ℕ) (m : Member Id) :
    (changeMember node idx m).members = node.members.set idx m := by
  simp [changeMember, Node.invalidateProbeOrder, Node.recountAlive, Node.setMember]

/-! ## The suspicion loop -/

/-- What `wake_swim_check_suspects` makes of a member. -/
def checkedMember (now : UInt64) (timeout : UInt32) (m : Member Id) : Member Id :=
  if suspicionOver now timeout m then expiredMember m now else m

theorem checkStep_members (now : UInt64) (timeout : UInt32) (state : Node Id × ℕ)
    (i j : ℕ) :
    (checkStep now timeout state i).1.members[j]? =
      if j = i then state.1.members[j]?.map (checkedMember now timeout)
      else state.1.members[j]? := by
  unfold checkStep checkedMember
  cases hget : state.1.members[i]? with
  | none =>
      split_ifs with heq
      · rw [heq, hget]
        rfl
      · rfl
  | some m =>
      simp only
      split_ifs with hkeep heq heq
      · subst heq
        simp only [Bool.not_eq_true'] at hkeep
        simp [hget, hkeep]
      · rfl
      · subst heq
        simp only [Bool.not_eq_true', Bool.not_eq_false] at hkeep
        have hlt := (List.getElem?_eq_some_iff.mp hget).1
        rw [hget, Option.map_some, if_pos hkeep]
        simp [Node.setMember, hlt]
      · simp [Node.setMember, List.getElem?_set_ne (Ne.symm heq)]

theorem checkStep_identity (now : UInt64) (timeout : UInt32) (state : Node Id × ℕ)
    (i : ℕ) : SameIdentity state.1 (checkStep now timeout state i).1 := by
  unfold checkStep
  cases state.1.members[i]? with
  | none => exact .refl _
  | some m =>
      simp only
      split_ifs
      · exact .refl _
      · refine .trans ?_ (queueUpdate_identity _ (expiredMember m now))
        exact ⟨rfl, rfl, rfl⟩

theorem checkStep_rewrites (node : Node Id) (now : UInt64) (timeout : UInt32) :
    Rewrites (fun state : Node Id × ℕ => SameIdentity node state.1)
      (fun state j => state.1.members[j]?) (Option.map (checkedMember now timeout))
      (checkStep now timeout) where
  fixed state i hsame := hsame.trans (checkStep_identity now timeout state i)
  slots_step state i _ := by
    funext j
    rw [checkStep_members, Function.update_apply]
    split_ifs with heq
    · rw [heq]
    · rfl

theorem checkSuspects_members (node : Node Id) (now : UInt64) :
    (checkSuspects node now).2.members =
      node.members.map (checkedMember now (suspectTimeout node)) := by
  have hloop := (checkStep_rewrites node now (suspectTimeout node)).slots_foldl
    (show SameIdentity node (node, 0).1 from .refl node) node.members.length
  have hmap : ((List.range node.members.length).foldl
      (checkStep now (suspectTimeout node)) (node, 0)).1.members =
        node.members.map (checkedMember now (suspectTimeout node)) := by
    apply List.ext_getElem?
    intro j
    rw [List.getElem?_map]
    refine (hloop j).trans ?_
    split_ifs with hlt
    · rfl
    · rw [List.getElem?_eq_none (Nat.le_of_not_lt hlt)]
      rfl
  unfold checkSuspects
  simp only
  split_ifs
  · exact hmap
  · exact hmap

theorem checkSuspects_identity (node : Node Id) (now : UInt64) :
    SameIdentity node (checkSuspects node now).2 := by
  have hloop := (checkStep_rewrites node now (suspectTimeout node)).fixed_foldl
    (show SameIdentity node (node, 0).1 from .refl node) node.members.length
  unfold checkSuspects
  simp only
  split_ifs
  · exact hloop.trans ⟨rfl, rfl, rfl⟩
  · exact hloop

/-! ## New members -/

/-- An added member joins at the end, under an id which no member has. -/
theorem addMember_cases (node : Node Id) (nodeId : Id) (addr : UInt32) (port : UInt16)
    (now : UInt64) :
    ((addMember node nodeId addr port now).1 ≠ .ok ∧
        (addMember node nodeId addr port now).2 = node) ∨
      ((addMember node nodeId addr port now).1 = .ok ∧
        nodeId ≠ node.selfId ∧ (∀ m ∈ node.members, m.nodeId ≠ nodeId) ∧
        node.members.length < node.config.maxMembers.toNat ∧
        (addMember node nodeId addr port now).2.members =
          node.members ++ [newMember nodeId addr port now]) := by
  unfold addMember
  split_ifs with hself hfound hfull
  · exact Or.inl ⟨by simp, rfl⟩
  · exact Or.inl ⟨by simp, rfl⟩
  · exact Or.inl ⟨by simp, rfl⟩
  · refine Or.inr ⟨rfl, hself, ?_, by omega, ?_⟩
    · rw [Option.not_isSome_iff_eq_none] at hfound
      exact findMember_none.mp hfound
    · simp [Node.invalidateProbeOrder]

/-- An unknown node joins and its entry takes the incarnation of the update, or
nothing happens at all. -/
theorem applyUnknown_cases (node : Node Id) (update : Update Id) (now : UInt64) :
    ((applyUnknown node update now).1 ≠ .ok ∧ (applyUnknown node update now).2 = node) ∨
      ((applyUnknown node update now).1 = .ok ∧
        update.state = alive ∧ update.nodeId ≠ node.selfId ∧
        (∀ m ∈ node.members, m.nodeId ≠ update.nodeId) ∧
        node.members.length < node.config.maxMembers.toNat ∧
        (applyUnknown node update now).2 =
          { (addMember node update.nodeId update.addr update.port now).2 with
            members := node.members ++
              [{ newMember update.nodeId update.addr update.port now with
                incarnation := update.incarnation }] }) := by
  unfold applyUnknown
  split_ifs with halive
  · have hcases := addMember_cases node update.nodeId update.addr update.port now
    cases hadd : addMember node update.nodeId update.addr update.port now with
    | mk result added =>
        rw [hadd] at hcases
        rcases hcases with ⟨hrefused, hsame⟩ | ⟨hok, hself, habsent, hroom, hmembers⟩
        · left
          simp only at hrefused hsame
          cases result with
          | ok => exact absurd rfl hrefused
          | _ => exact ⟨hrefused, hsame⟩
        · right
          simp only at hok hmembers
          subst hok
          cases hfind : findMember added update.nodeId with
          | none =>
              have hnone := findMember_none.mp hfind
              rw [hmembers] at hnone
              exact absurd rfl (hnone _ (List.mem_append_right _ List.mem_cons_self))
          | some found =>
              obtain ⟨idx, m⟩ := found
              obtain ⟨hget, hid⟩ := findMember_some hfind
              rw [hmembers] at hget
              refine ⟨by simp only [hfind], halive, hself, habsent, hroom, ?_⟩
              simp only [hfind, Node.setMember, hmembers]
              by_cases hlt : idx < node.members.length
              · rw [List.getElem?_append_left hlt] at hget
                exact absurd hid (habsent m (List.mem_of_getElem? hget))
              · have hle := Nat.le_of_not_lt hlt
                rw [List.getElem?_append_right hle] at hget
                rw [List.getElem?_singleton] at hget
                split_ifs at hget with hidx
                rw [Option.some.injEq] at hget
                rw [List.set_append_right _ _ hle, hidx, ← hget]
                rfl
  · exact Or.inl ⟨by simp, rfl⟩

/-! ## The identity of the node -/

theorem changeMember_identity (node : Node Id) (idx : ℕ) (m : Member Id) :
    SameIdentity node (changeMember node idx m) := by
  unfold changeMember
  refine .trans (.trans ?_ (queueUpdate_identity _ m)) ⟨rfl, rfl, rfl⟩
  exact ⟨rfl, rfl, rfl⟩

theorem addMember_identity (node : Node Id) (nodeId : Id) (addr : UInt32)
    (port : UInt16) (now : UInt64) :
    SameIdentity node (addMember node nodeId addr port now).2 := by
  unfold addMember
  split_ifs
  · exact .refl _
  · exact .refl _
  · exact .refl _
  · refine .trans (.trans ?_ (queueUpdate_identity _ _)) ⟨rfl, rfl, rfl⟩
    exact ⟨rfl, rfl, rfl⟩

theorem applyUnknown_identity (node : Node Id) (update : Update Id) (now : UInt64) :
    SameIdentity node (applyUnknown node update now).2 := by
  have hadd := addMember_identity node update.nodeId update.addr update.port now
  unfold applyUnknown
  split_ifs
  · split
    next added heq =>
      rw [heq] at hadd
      split
      · exact hadd.trans ⟨rfl, rfl, rfl⟩
      · exact hadd
    next => exact hadd
  · exact .refl _

/-- Only an update about the node itself changes its identity. -/
theorem performCall_identity (node : Node Id) (call : Call Id)
    (hother : ∀ update now, call = .applyUpdate update now →
      update.nodeId ≠ node.selfId) :
    SameIdentity node (performCall node call) := by
  cases call with
  | reset => exact ⟨rfl, rfl, rfl⟩
  | addMember nodeId addr port now => exact addMember_identity node nodeId addr port now
  | removeMember nodeId now =>
      simp only [performCall, removeMember]
      split_ifs
      · exact .refl _
      · split
        · exact .refl _
        · exact changeMember_identity node _ _
  | applyUpdate update now =>
      simp only [performCall, applyUpdate, if_neg (hother update now rfl)]
      split
      · exact applyUnknown_identity node update now
      · split_ifs
        · exact .refl _
        · exact .refl _
        · exact changeMember_identity node _ _
  | suspectMember nodeId now =>
      simp only [performCall, suspectMember]
      split_ifs
      · exact .refl _
      · split
        · exact .refl _
        · split_ifs
          · exact .refl _
          · exact changeMember_identity node _ _
  | nextProbe =>
      obtain ⟨_, _, _, _, hframe⟩ := nextProbe_frame node
      rw [performCall, hframe]
      exact ⟨rfl, rfl, rfl⟩
  | selectDelegates excludeId max =>
      simp only [performCall, selectDelegates]
      split_ifs <;> exact ⟨rfl, rfl, rfl⟩
  | reportHealth delta => exact ⟨rfl, rfl, rfl⟩
  | checkSuspects now => exact checkSuspects_identity node now
  | reap now retention =>
      simp only [performCall, reap]
      split_ifs <;> exact ⟨rfl, rfl, rfl⟩
  | getUpdates max =>
      simp only [performCall, getUpdates]
      split_ifs <;> exact ⟨rfl, rfl, rfl⟩

theorem performCall_applySelf {node : Node Id} {update : Update Id} {now : UInt64}
    (hself : update.nodeId = node.selfId) :
    performCall node (.applyUpdate update now) = (applySelf node update now).2 := by
  simp only [performCall, applyUpdate, if_pos hself]

theorem performCall_config (node : Node Id) (call : Call Id) :
    (performCall node call).config = node.config ∧
      (performCall node call).selfId = node.selfId := by
  by_cases hother : ∀ update now, call = .applyUpdate update now →
      update.nodeId ≠ node.selfId
  · have hsame := performCall_identity node call hother
    exact ⟨hsame.config, hsame.selfId⟩
  · push Not at hother
    obtain ⟨update, now, rfl, hself⟩ := hother
    rw [performCall_applySelf hself]
    unfold applySelf
    split_ifs
    · have hqueue := queueUpdate_identity { node with
        selfIncarnation := update.incarnation + 1 }
        (selfMember { node with selfIncarnation := update.incarnation + 1 } now)
      exact ⟨hqueue.config, hqueue.selfId⟩
    · have hqueue := queueUpdate_identity node (selfMember node now)
      exact ⟨hqueue.config, hqueue.selfId⟩
    · exact ⟨rfl, rfl⟩
    · exact ⟨rfl, rfl⟩

theorem reachable_queueSize_pos {node : Node Id} (hreach : runs.Reachable node) :
    0 < node.config.updateQueueSize.toNat := by
  apply hreach.invariant (motive := fun node => 0 < node.config.updateQueueSize.toNat)
  · rintro node ⟨selfId, addr, port, cfg, addressSeed, rfl⟩
    simp only [create, Config.enforced]
    split_ifs with hzero
    · decide
    · exact Nat.pos_of_ne_zero fun h => hzero (UInt16.toNat_inj.mp h)
  · intro node call next hpos hstep
    simp only [runs, Option.some.injEq] at hstep
    rw [← hstep, (performCall_config node call).1]
    exact hpos

end Swim
end LibWake
