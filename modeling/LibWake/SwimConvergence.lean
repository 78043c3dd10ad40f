import LibWake.SwimRefutation
import LibWake.SwimRepresentation

/-!
# Deliveries of updates about a known member

An update about a known member raises its rank to the larger of the two, so the
order of the deliveries does not matter.  What is not LEFT is accepted at most
once while members are only added; LEFT is accepted again and again.
-/

namespace LibWake
namespace Swim

open scoped List

variable {Id : Type}

/-! ## Ranks -/

/-- The rank which an update reports. -/
def Update.rank (u : Update Id) : WithTop (ℕ ×ₗ ℕ) := Swim.rank u.state u.incarnation

/-- A rank determines the state, and the incarnation unless the state is LEFT. -/
theorem rank_injective {state state' : UInt8} {inc inc' : UInt32}
    (hrank : rank state inc = rank state' inc') :
    state = state' ∧ (state ≠ left → inc = inc') := by
  by_cases hleft : state = left
  · have htop : rank state' inc' = ⊤ := hrank ▸ rank_eq_top_iff.mpr hleft
    exact ⟨hleft.trans (rank_eq_top_iff.mp htop).symm, fun hne => absurd hleft hne⟩
  · have hleft' : state' ≠ left := by
      intro hstate'
      exact hleft (rank_eq_top_iff.mp (hrank.trans (rank_eq_top_iff.mpr hstate')))
    rw [rank, if_neg hleft, rank, if_neg hleft', WithTop.coe_inj] at hrank
    have hpair := Prod.ext_iff.mp (toLex.injective hrank)
    exact ⟨UInt8.toNat_inj.mp hpair.2, fun _ => UInt32.toNat_inj.mp hpair.1⟩

variable [DecidableEq Id]

/-! ## One delivery -/

/-- `wake_swim_find`. -/
def find (node : Node Id) (nodeId : Id) : Option (Member Id) :=
  (findMember node nodeId).map Prod.snd

/-- An update about a known member is accepted when it supersedes it, and changes
nothing otherwise. -/
theorem applyUpdate_known {node : Node Id} {update : Update Id} {idx : ℕ} {m : Member Id}
    (hself : update.nodeId ≠ node.selfId)
    (hfind : findMember node update.nodeId = some (idx, m)) (now : UInt64) :
    (stateSupersedes update.state update.incarnation m.state m.incarnation = true ∧
        (applyUpdate node update now).1 = .ok ∧
        (applyUpdate node update now).2 =
          changeMember node idx (updatedMember m update now)) ∨
      (stateSupersedes update.state update.incarnation m.state m.incarnation = false ∧
        (applyUpdate node update now).1 ≠ .ok ∧
        (applyUpdate node update now).2 = node) := by
  simp only [applyUpdate, if_neg hself, hfind]
  cases hsupersedes : stateSupersedes update.state update.incarnation m.state
      m.incarnation with
  | true => exact Or.inl ⟨rfl, rfl, rfl⟩
  | false =>
      right
      simp only [Bool.not_false, if_true]
      split_ifs
      · exact ⟨trivial, by simp, rfl⟩
      · exact ⟨trivial, by simp, rfl⟩

theorem findMember_changeMember {node : Node Id} {nodeId : Id} {idx : ℕ} {m m' : Member Id}
    (hfind : findMember node nodeId = some (idx, m)) (hid : m'.nodeId = nodeId) :
    findMember (changeMember node idx m') nodeId = some (idx, m') := by
  unfold findMember
  rw [changeMember_members]
  exact findMemberFrom_set hfind hid

theorem mem_changeMember {node : Node Id} {nodeId : Id} {idx : ℕ} {m : Member Id}
    (hfind : findMember node nodeId = some (idx, m)) (m' : Member Id) :
    m' ∈ (changeMember node idx m').members := by
  rw [changeMember_members]
  exact List.mem_set (List.getElem?_eq_some_iff.mp (findMember_some hfind).1).1 m'

/-- An accepted update about another node leaves a member which is as it tells. -/
theorem applyUpdate_accepted {node : Node Id} {update : Update Id} {now : UInt64}
    (hself : update.nodeId ≠ node.selfId) (hok : (applyUpdate node update now).1 = .ok) :
    ∃ m ∈ (applyUpdate node update now).2.members, m.nodeId = update.nodeId ∧
      m.state = update.state ∧ m.incarnation = update.incarnation ∧
      (update.state = suspect → m.suspectMs = now) := by
  cases hfind : findMember node update.nodeId with
  | none =>
      simp only [applyUpdate, if_neg hself, hfind] at hok ⊢
      rcases applyUnknown_cases node update now with
        ⟨hrefused, _⟩ | ⟨_, halive, _, _, _, hjoined⟩
      · exact absurd hok hrefused
      · rw [hjoined]
        refine ⟨_, List.mem_append_right _ List.mem_cons_self, rfl, halive.symm, rfl, ?_⟩
        intro hsuspect
        exact absurd (halive.symm.trans hsuspect) (by decide)
  | some found =>
      obtain ⟨idx, m⟩ := found
      rcases applyUpdate_known hself hfind now with ⟨_, _, hchanged⟩ | ⟨_, hrefused, _⟩
      · rw [hchanged]
        exact ⟨_, mem_changeMember hfind (updatedMember m update now),
          (findMember_some hfind).2, rfl, rfl, fun hsuspect => if_pos hsuspect⟩
      · exact absurd hok hrefused

/-- A delivery leaves the larger of the two ranks. -/
theorem applyUpdate_rank {node : Node Id} {update : Update Id} {idx : ℕ} {m : Member Id}
    (hself : update.nodeId ≠ node.selfId)
    (hfind : findMember node update.nodeId = some (idx, m)) (now : UInt64) :
    ∃ m', findMember (applyUpdate node update now).2 update.nodeId = some (idx, m') ∧
      m'.rank = max m.rank update.rank := by
  rcases applyUpdate_known hself hfind now with
    ⟨hsupersedes, _, hchanged⟩ | ⟨hkept, _, hsame⟩
  · refine ⟨updatedMember m update now, ?_, ?_⟩
    · rw [hchanged]
      exact findMember_changeMember hfind (findMember_some hfind).2
    · exact (max_eq_right (rank_le_of_stateSupersedes hsupersedes)).symm
  · refine ⟨m, by rw [hsame, hfind], ?_⟩
    have hnot : ¬ (update.state = left ∨ m.rank < update.rank) := by
      rw [Member.rank, Update.rank, ← stateSupersedes_iff, hkept]
      simp
    exact (max_eq_left (not_lt.mp fun hlt => hnot (Or.inr hlt))).symm

/-! ## Many deliveries -/

/-- Updates applied one after the other, each at its own time. -/
def deliver (node : Node Id) (news : List (Update Id × UInt64)) : Node Id :=
  news.foldl (fun node delivery => (applyUpdate node delivery.1 delivery.2).2) node

theorem deliver_rank {nodeId : Id} {idx : ℕ} {news : List (Update Id × UInt64)}
    (habout : ∀ delivery ∈ news, delivery.1.nodeId = nodeId) {node : Node Id}
    {m : Member Id} (hself : nodeId ≠ node.selfId)
    (hfind : findMember node nodeId = some (idx, m)) :
    ∃ m', findMember (deliver node news) nodeId = some (idx, m') ∧
      m'.rank = (news.map Prod.fst).foldl (fun r u => max r u.rank) m.rank := by
  induction news generalizing node m with
  | nil => exact ⟨m, hfind, rfl⟩
  | cons delivery rest ih =>
      obtain ⟨update, now⟩ := delivery
      have hid : update.nodeId = nodeId := habout _ List.mem_cons_self
      rw [← hid] at hself hfind
      obtain ⟨middle, hmiddle, hrank⟩ := applyUpdate_rank hself hfind now
      have hselfId := (performCall_config node (.applyUpdate update now)).2
      rw [performCall] at hselfId
      rw [hid] at hself hmiddle
      obtain ⟨m', hfinal, hfold⟩ := ih
        (fun other hmem => habout other (List.mem_cons_of_mem _ hmem))
        (hselfId ▸ hself) hmiddle
      exact ⟨m', hfinal, by rw [hfold, hrank]; rfl⟩

/-- The order in which the updates about a member arrive, and the times at which
they do, do not matter for its state, nor for its incarnation unless it has
left. -/
theorem views_converge {node : Node Id} {nodeId : Id} (hself : nodeId ≠ node.selfId)
    (hlisted : nodeId ∈ node.ids) {news news' : List (Update Id × UInt64)}
    (habout : ∀ delivery ∈ news, delivery.1.nodeId = nodeId)
    (hperm : news.map Prod.fst ~ news'.map Prod.fst) :
    ∃ m m', find (deliver node news) nodeId = some m ∧
      find (deliver node news') nodeId = some m' ∧ m.state = m'.state ∧
      (m.state ≠ left → m.incarnation = m'.incarnation) := by
  cases hfind : findMember node nodeId with
  | none =>
      obtain ⟨m, hm, hid⟩ := List.mem_map.mp hlisted
      exact absurd hid (findMember_none.mp hfind m hm)
  | some found =>
      obtain ⟨idx, start⟩ := found
      have habout' : ∀ delivery ∈ news', delivery.1.nodeId = nodeId := by
        intro delivery hmem
        have hfirst := hperm.mem_iff.mpr (List.mem_map_of_mem (f := Prod.fst) hmem)
        obtain ⟨other, hother, heq⟩ := List.mem_map.mp hfirst
        rw [← heq]
        exact habout other hother
      obtain ⟨m, hm, hrank⟩ := deliver_rank habout hself hfind
      obtain ⟨m', hm', hrank'⟩ := deliver_rank habout' hself hfind
      have hsame : m.rank = m'.rank := by
        rw [hrank, hrank']
        exact hperm.foldl_eq' (fun u _ u' _ r => max_right_comm r u.rank u'.rank) _
      refine ⟨m, m', ?_, ?_, rank_injective hsame⟩
      · rw [find, hm, Option.map_some]
      · rw [find, hm', Option.map_some]

/-- Node 7 suspected at 1 and alive at 2, told in either order. -/
theorem views_converge_suspicion :
    ∃ m m', find (deliver oneMember
        [(⟨7, 1, 2, suspect, 1, 0⟩, 20), (⟨7, 1, 2, alive, 2, 0⟩, 30)]) 7 = some m ∧
      find (deliver oneMember
        [(⟨7, 1, 2, alive, 2, 0⟩, 40), (⟨7, 1, 2, suspect, 1, 0⟩, 50)]) 7 = some m' ∧
      m.state = m'.state ∧ (m.state ≠ left → m.incarnation = m'.incarnation) :=
  views_converge (by decide) (by decide) (by decide) (by decide)

/-! ## Repeated deliveries -/

/-- The call neither reaps nor resets, so that members are only added. -/
def Call.KeepsMembers : Call Id → Prop
  | .reset => False
  | .reap _ _ => False
  | _ => True

instance (call : Call Id) : Decidable call.KeepsMembers :=
  match call with
  | .reset | .reap _ _ => .isFalse id
  | .addMember _ _ _ _ | .removeMember _ _ | .applyUpdate _ _ | .suspectMember _ _
  | .nextProbe | .selectDelegates _ _ | .reportHealth _ | .checkSuspects _
  | .getUpdates _ => .isTrue trivial

/-- The update tells of the node at the state and incarnation. -/
def Update.Tells (u : Update Id) (nodeId : Id) (state : UInt8) (incarnation : UInt32) :
    Prop :=
  u.nodeId = nodeId ∧ u.state = state ∧ u.incarnation = incarnation

instance (u : Update Id) (nodeId : Id) (state : UInt8) (incarnation : UInt32) :
    Decidable (u.Tells nodeId state incarnation) :=
  inferInstanceAs (Decidable (_ ∧ _))

/-- The call delivers such an update and it is accepted. -/
def accepts (nodeId : Id) (state : UInt8) (incarnation : UInt32) (node : Node Id) :
    Call Id → Bool
  | .applyUpdate update now =>
      update.Tells nodeId state incarnation && (applyUpdate node update now).1 = .ok
  | _ => false

/-- How often such an update is accepted along the calls. -/
def acceptances (nodeId : Id) (state : UInt8) (incarnation : UInt32) :
    Node Id → List (Call Id) → ℕ
  | _, [] => 0
  | node, call :: rest =>
      (if accepts nodeId state incarnation node call then 1 else 0) +
        acceptances nodeId state incarnation (performCall node call) rest

/-- The delivery is refused and leaves the whole node as it was. -/
def Refused (node : Node Id) (update : Update Id) (now : UInt64) : Prop :=
  (applyUpdate node update now).1 ≠ .ok ∧ (applyUpdate node update now).2 = node

/-- The node is listed at the rank or above. -/
def ListedAt (nodeId : Id) (rank : WithTop (ℕ ×ₗ ℕ)) (node : Node Id) : Prop :=
  ∃ m ∈ node.members, m.nodeId = nodeId ∧ rank ≤ m.rank

/-- Without reap and reset a member stays, changed or not. -/
theorem Effect.member_stays {node node' : Node Id} {call : Call Id}
    (heffect : Effect node call node') (hkeeps : call.KeepsMembers) {m : Member Id}
    (hmem : m ∈ node.members) : ∃ m' ∈ node'.members, Change node call m m' := by
  cases heffect with
  | quiet _ hmembers hcount horder hupdates => exact ⟨m, hmembers ▸ hmem, .kept⟩
  | emptied hcall _ hmembers hcount horder hupdates =>
      rw [hcall] at hkeeps
      exact absurd hkeeps id
  | reaped now retention hcall _ hmembers hcount horder hupdates =>
      rw [hcall] at hkeeps
      exact absurd hkeeps id
  | sent raised _ hmembers hcount horder hraised hupdates =>
      exact ⟨m, hmembers ▸ hmem, .kept⟩
  | refuted _ _ hself hmembers hcount horder hupdates => exact ⟨m, hmembers ▸ hmem, .kept⟩
  | joined _ incarnation _ hself habsent hroom halive hfresh hwritten hmembers hcount
      horder hupdates => exact ⟨m, hmembers ▸ List.mem_append_left _ hmem, .kept⟩
  | changed idx old new hget hchange =>
      rw [changeMember_members]
      obtain ⟨j, hj, rfl⟩ := List.getElem_of_mem hmem
      by_cases hij : idx = j
      · subst hij
        have hold : node.members[idx] = old := by
          rw [List.getElem?_eq_getElem hj, Option.some.injEq] at hget
          exact hget
        rw [hold]
        exact ⟨new, List.mem_set hj new, hchange⟩
      · refine ⟨node.members[j], ?_, .kept⟩
        exact List.mem_iff_getElem?.mpr ⟨j, by
          rw [List.getElem?_set_ne hij, List.getElem?_eq_getElem hj]⟩
  | checked now hcall =>
      subst hcall
      rw [checkSuspects_members]
      refine ⟨_, List.mem_map_of_mem hmem, ?_⟩
      unfold checkedMember
      split_ifs with hover
      · exact .expired now rfl hover
      · exact .kept

theorem ListedAt.performCall {nodeId : Id} {rank : WithTop (ℕ ×ₗ ℕ)} {node : Node Id}
    (hlisted : ListedAt nodeId rank node) {call : Call Id} (hkeeps : call.KeepsMembers) :
    ListedAt nodeId rank (Swim.performCall node call) := by
  obtain ⟨m, hmem, hid, hle⟩ := hlisted
  obtain ⟨m', hmem', hchange⟩ := (effect_performCall node call).member_stays hkeeps hmem
  exact ⟨m', hmem', hchange.nodeId_eq.trans hid, hle.trans hchange.rank_le⟩

theorem listedAt_of_accepts {nodeId : Id} {state : UInt8} {incarnation : UInt32}
    {node : Node Id} (hself : nodeId ≠ node.selfId) {call : Call Id}
    (haccepts : accepts nodeId state incarnation node call = true) :
    ListedAt nodeId (Swim.rank state incarnation) (performCall node call) := by
  cases call with
  | applyUpdate update now =>
      simp only [accepts, Bool.and_eq_true, decide_eq_true_eq] at haccepts
      obtain ⟨⟨rfl, rfl, rfl⟩, hok⟩ := haccepts
      obtain ⟨m, hmem, hid, hstate, hincarnation, -⟩ := applyUpdate_accepted hself hok
      refine ⟨m, hmem, hid, ?_⟩
      rw [Member.rank, hstate, hincarnation]
  | _ => exact absurd haccepts (by simp [accepts])

/-- Once an update is listed, a further delivery is refused unless it is LEFT. -/
theorem refused_iff_of_listedAt {nodeId : Id} {state : UInt8} {incarnation : UInt32}
    {node : Node Id} (hself : nodeId ≠ node.selfId) (hnodup : node.ids.Nodup)
    (hlisted : ListedAt nodeId (Swim.rank state incarnation) node) {update : Update Id}
    (htells : update.Tells nodeId state incarnation) (now : UInt64) :
    Refused node update now ↔ state ≠ left := by
  obtain ⟨rfl, rfl, rfl⟩ := htells
  obtain ⟨m, hmem, hid, hle⟩ := hlisted
  cases hfind : findMember node update.nodeId with
  | none => exact absurd hid (findMember_none.mp hfind m hmem)
  | some found =>
      obtain ⟨idx, other⟩ := found
      obtain ⟨hget, hotherId⟩ := findMember_some hfind
      obtain rfl : other = m :=
        eq_of_nodeId_eq hnodup (List.mem_of_getElem? hget) hmem (hotherId.trans hid.symm)
      rcases applyUpdate_known hself hfind now with
        ⟨hsupersedes, hok, _⟩ | ⟨hkept, hrefused, hsame⟩
      · rcases stateSupersedes_iff.mp hsupersedes with hleft | hlt
        · exact ⟨fun hrefused => absurd hok hrefused.1, fun hne => absurd hleft hne⟩
        · exact absurd hlt (not_lt.mpr hle)
      · refine ⟨fun _ hleft => ?_, fun _ => ⟨hrefused, hsame⟩⟩
        rw [stateSupersedes_iff.mpr (Or.inl hleft)] at hkept
        exact absurd hkept (by simp)

section Runs

variable {nodeId : Id} {state : UInt8} {incarnation : UInt32}

theorem acceptances_eq_zero (hstate : state ≠ left) {calls : List (Call Id)}
    (hkeeps : ∀ call ∈ calls, call.KeepsMembers) {node : Node Id}
    (hself : nodeId ≠ node.selfId) (hnodup : node.ids.Nodup)
    (hlisted : ListedAt nodeId (Swim.rank state incarnation) node) :
    acceptances nodeId state incarnation node calls = 0 := by
  induction calls generalizing node with
  | nil => rfl
  | cons call rest ih =>
      have hrefused : accepts nodeId state incarnation node call = false := by
        cases call with
        | applyUpdate update now =>
            rw [accepts, Bool.and_eq_false_imp]
            intro htells
            have hagain := (refused_iff_of_listedAt hself hnodup hlisted
              (decide_eq_true_eq.mp htells) now).mpr hstate
            exact decide_eq_false hagain.1
        | _ => rfl
      have hselfNext : nodeId ≠ (performCall node call).selfId :=
        (performCall_config node call).2 ▸ hself
      have hnext := ih (fun other hmem => hkeeps other (List.mem_cons_of_mem _ hmem))
        hselfNext ((membersStep_performCall node call).nodup_ids hnodup)
        (hlisted.performCall (hkeeps call List.mem_cons_self))
      rw [acceptances, hrefused, hnext]
      rfl

theorem acceptances_le_one (hstate : state ≠ left) {calls : List (Call Id)}
    (hkeeps : ∀ call ∈ calls, call.KeepsMembers) {node : Node Id}
    (hself : nodeId ≠ node.selfId) (hnodup : node.ids.Nodup) :
    acceptances nodeId state incarnation node calls ≤ 1 := by
  induction calls generalizing node with
  | nil => exact Nat.zero_le 1
  | cons call rest ih =>
      have hkeepsRest : ∀ other ∈ rest, other.KeepsMembers :=
        fun other hmem => hkeeps other (List.mem_cons_of_mem _ hmem)
      have hselfNext : nodeId ≠ (performCall node call).selfId :=
        (performCall_config node call).2 ▸ hself
      have hnodupNext : (performCall node call).ids.Nodup :=
        (membersStep_performCall node call).nodup_ids hnodup
      rw [acceptances]
      split_ifs with haccepts
      · rw [acceptances_eq_zero hstate hkeepsRest hselfNext hnodupNext
          (listedAt_of_accepts hself haccepts)]
      · rw [Nat.zero_add]
        exact ih hkeepsRest hselfNext hnodupNext

/-- What was accepted along the calls is listed behind them. -/
theorem listedAt_of_acceptances {calls : List (Call Id)}
    (hkeeps : ∀ call ∈ calls, call.KeepsMembers) {node final : Node Id}
    (hself : nodeId ≠ node.selfId) (hrun : runs.run node calls = some final)
    (haccepted : 0 < acceptances nodeId state incarnation node calls ∨
      ListedAt nodeId (Swim.rank state incarnation) node) :
    ListedAt nodeId (Swim.rank state incarnation) final := by
  induction calls generalizing node with
  | nil =>
      simp only [TransitionSystem.run_nil, Option.some.injEq] at hrun
      subst hrun
      exact haccepted.resolve_left (Nat.lt_irrefl 0)
  | cons call rest ih =>
      obtain ⟨next, hstep, hrest⟩ := runs.run_cons_eq_some.mp hrun
      simp only [runs, Option.some.injEq] at hstep
      subst hstep
      refine ih (fun other hmem => hkeeps other (List.mem_cons_of_mem _ hmem))
        ((performCall_config node call).2 ▸ hself) hrest ?_
      rcases haccepted with hpos | hlisted
      · rw [acceptances] at hpos
        split_ifs at hpos with haccepts
        · exact Or.inr (listedAt_of_accepts hself haccepts)
        · rw [Nat.zero_add] at hpos
          exact Or.inl hpos
      · exact Or.inr (hlisted.performCall (hkeeps call List.mem_cons_self))

/-- Without reap and reset an update about another node which does not say LEFT
is accepted at most once, and a delivery of what was accepted before is refused
and changes nothing exactly when it does not say LEFT. -/
theorem accepted_once_iff_not_left {start final : Node Id} {calls : List (Call Id)}
    (hinitial : runs.Initial start) (hkeeps : ∀ call ∈ calls, call.KeepsMembers)
    (hrun : runs.run start calls = some final) (hself : nodeId ≠ start.selfId) :
    (state ≠ left → acceptances nodeId state incarnation start calls ≤ 1) ∧
      (0 < acceptances nodeId state incarnation start calls →
        ∀ (update : Update Id) (now : UInt64),
          update.Tells nodeId state incarnation →
            (Refused final update now ↔ state ≠ left)) := by
  have hnodup := reachable_nodup_ids (runs.reachable_of_initial hinitial)
  refine ⟨fun hstate => acceptances_le_one hstate hkeeps hself hnodup,
    fun haccepted update now htells => ?_⟩
  have hselfFinal : nodeId ≠ final.selfId := by
    have hsame := runs.run_invariant (motive := fun node => node.selfId = start.selfId)
      (fun node call next hgood hstep => by
        simp only [runs, Option.some.injEq] at hstep
        rw [← hstep, (performCall_config node call).2, hgood]) rfl hrun
    rwa [hsame]
  exact refused_iff_of_listedAt hselfFinal
    (reachable_nodup_ids ⟨start, calls, hinitial, hrun⟩)
    (listedAt_of_acceptances hkeeps hself hrun (Or.inl haccepted)) htells now

end Runs

/-- Node 7 joins, is suspected at incarnation 3 and told to leave. -/
def farewell : List (Call ℕ) :=
  [.addMember 7 1 2 10, .applyUpdate ⟨7, 1, 2, suspect, 3, 0⟩ 20,
    .applyUpdate ⟨7, 1, 2, left, 3, 0⟩ 30]

theorem accepted_once_iff_not_left_farewell :
    ∃ final, runs.run fresh farewell = some final ∧
      acceptances 7 suspect 3 fresh farewell ≤ 1 ∧
      Refused final ⟨7, 1, 2, suspect, 3, 0⟩ 40 := by
  have hinitial : runs.Initial fresh := ⟨_, _, _, _, _, rfl⟩
  have hboth := @accepted_once_iff_not_left ℕ _ 7 suspect 3 fresh _ farewell hinitial
    (by decide) rfl (by decide)
  exact ⟨_, rfl, hboth.1 (by decide), (hboth.2 (by decide) _ 40 ⟨rfl, rfl, rfl⟩).mpr
    (by decide)⟩

/-- The same LEFT update is accepted twice. -/
theorem left_accepted_twice :
    runs.Initial fresh ∧
      acceptances 7 left 3 fresh (farewell ++ [.applyUpdate ⟨7, 1, 2, left, 3, 0⟩ 40]) =
        2 :=
  ⟨⟨_, _, _, _, _, rfl⟩, by decide⟩

end Swim
end LibWake
