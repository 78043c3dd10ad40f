import LibWake.SwimConvergence

/-!
# When a suspicion runs out

A SUSPECT member carries the time of its suspicion, and the first check a timeout
later makes it DEAD.  The time 0 also says that there is no suspicion, so a member
which was suspected at time 0 stays SUSPECT.
-/

namespace LibWake
namespace Swim

variable {Id : Type}

/-! ## Suspicions along a run -/

def Call.now : Call Id → Option UInt64
  | .addMember _ _ _ now | .removeMember _ now | .applyUpdate _ now | .suspectMember _ now
  | .checkSuspects now | .reap now _ => some now
  | .reset | .nextProbe | .selectDelegates _ _ | .reportHealth _ | .getUpdates _ => none

def ListsAs (state : UInt8) (nodeId : Id) (node : Node Id) : Prop :=
  ∃ m ∈ node.members, m.nodeId = nodeId ∧ m.state = state

/-- The member is SUSPECT since the time. -/
def SuspectSince (nodeId : Id) (s : UInt64) (node : Node Id) : Prop :=
  ∃ m ∈ node.members, m.nodeId = nodeId ∧ m.state = suspect ∧ m.suspectMs = s

/-- The call checks the suspects when a suspicion since `s` is a timeout old. -/
def dueCheck (s : UInt64) (node : Node Id) : Call Id → Bool
  | .checkSuspects now => s.toNat + (suspectTimeout node).toNat ≤ now.toNat
  | _ => false

variable [DecidableEq Id]

/-- The call makes a member SUSPECT. -/
def Suspects (nodeId : Id) (node : Node Id) : Call Id → Prop
  | .suspectMember other now =>
      other = nodeId ∧ (Swim.suspectMember node other now).1 = .ok
  | .applyUpdate update now =>
      update.nodeId = nodeId ∧ nodeId ≠ node.selfId ∧ update.state = suspect ∧
        (Swim.applyUpdate node update now).1 = .ok
  | _ => False

/-- The call is accepted and changes the member, or forgets all members. -/
def Disturbs (nodeId : Id) (node : Node Id) : Call Id → Prop
  | .reset => True
  | .addMember other addr port now =>
      other = nodeId ∧ (Swim.addMember node other addr port now).1 = .ok
  | .removeMember other now =>
      other = nodeId ∧ (Swim.removeMember node other now).1 = .ok
  | .applyUpdate update now =>
      update.nodeId = nodeId ∧ (Swim.applyUpdate node update now).1 = .ok
  | .suspectMember other now =>
      other = nodeId ∧ (Swim.suspectMember node other now).1 = .ok
  | _ => False

/-- The first due check along the calls makes the member DEAD, and no earlier call
does. -/
def ExpiresOnTime (nodeId : Id) (s : UInt64) : Node Id → List (Call Id) → Prop
  | node, [] => ListsAs suspect nodeId node
  | node, call :: rest =>
      ListsAs suspect nodeId node ∧
        if dueCheck s node call = true then ListsAs dead nodeId (performCall node call)
        else ExpiresOnTime nodeId s (performCall node call) rest

/-- Along the calls the member became SUSPECT at the time, and no later call disturbed
it. -/
def SuspectedDuring (nodeId : Id) (s : UInt64) (start : Node Id) (calls : List (Call Id)) :
    Prop :=
  ∃ front call back node, calls = front ++ call :: back ∧
    runs.run start front = some node ∧ Suspects nodeId node call ∧ call.now = some s ∧
    runs.RunMeets (fun node call => ¬ Disturbs nodeId node call) (performCall node call) back

/-! ## Undisturbed calls -/

/-- A call which does not disturb a member leaves it, or its suspicion runs out. -/
theorem Change.of_undisturbed {node : Node Id} (hmembers : MembersSound node)
    {call : Call Id} {m m' : Member Id} (hmem : m ∈ node.members)
    (hchange : Change node call m m') (hquiet : ¬ Disturbs m.nodeId node call) :
    m' = m ∨ ∃ now, call = .checkSuspects now ∧
      suspicionOver now (suspectTimeout node) m = true ∧ m' = expiredMember m now := by
  obtain ⟨idx, hfind⟩ := findMember_of_mem hmembers.nodup_ids hmem
  have hself := hmembers.not_self m hmem
  cases hchange with
  | kept => exact .inl rfl
  | removed now hcall =>
      subst hcall
      exact absurd ⟨rfl, by simp only [removeMember, if_neg hself, hfind]⟩ hquiet
  | suspected now hcall halive =>
      subst hcall
      refine absurd ⟨rfl, ?_⟩ hquiet
      simp only [suspectMember, if_neg hself, hfind, halive, ne_eq, not_true_eq_false, if_false]
  | updated update now hcall hid hsupersedes =>
      subst hcall
      have hother : update.nodeId ≠ node.selfId := hid ▸ hself
      refine absurd ⟨hid, ?_⟩ hquiet
      rw [← hid] at hfind
      rcases applyUpdate_known hother hfind now with ⟨-, hok, -⟩ | ⟨hstale, -, -⟩
      · exact hok
      · exact absurd (hsupersedes.symm.trans hstale) Bool.noConfusion
  | expired now hcall hover => exact .inr ⟨now, hcall, hover, rfl⟩

/-- A SUSPECT member is only forgotten in a reset. -/
theorem suspect_stays {node : Node Id} {call : Call Id} (hcall : call ≠ .reset)
    {m : Member Id} (hmem : m ∈ node.members) (hstate : m.state = suspect) :
    ∃ m' ∈ (performCall node call).members, Change node call m m' := by
  by_cases hkeeps : call.KeepsMembers
  · exact (effect_performCall node call).member_stays hkeeps hmem
  · cases call with
    | reset => exact absurd rfl hcall
    | reap now retention =>
        refine ⟨m, ?_, .kept⟩
        have hkept : m ∈ node.members.filter fun m => !reapable now retention m :=
          List.mem_filter.mpr ⟨hmem, by simp [reapable, hstate, suspect, dead, left]⟩
        simp only [performCall, reap]
        split_ifs
        · exact hkept
        · exact hkept
    | _ => exact absurd trivial hkeeps

/-! ## The timer -/

omit [DecidableEq Id] in
theorem suspicionOver_iff {m : Member Id} (hstate : m.state = suspect) {now : UInt64}
    (hle : m.suspectMs ≤ now) (timeout : UInt32) :
    suspicionOver now timeout m = true ↔
      m.suspectMs ≠ 0 ∧ m.suspectMs.toNat + timeout.toNat ≤ now.toNat := by
  have hsub := UInt64.toNat_sub_of_le now m.suspectMs hle
  rw [UInt64.le_iff_toNat_le] at hle
  simp only [suspicionOver, hstate, decide_true, Bool.true_and, Bool.and_eq_true,
    decide_eq_true_eq, ge_iff_le, UInt64.le_iff_toNat_le, hsub, UInt32.toNat_toUInt64]
  refine and_congr_right fun _ => ?_
  omega

/-- An undisturbed suspicion goes on until a due check, unless it began at time 0. -/
theorem SuspectSince.performCall {nodeId : Id} {s : UInt64} {node : Node Id}
    (hsince : SuspectSince nodeId s node) (hwell : WellFormed node) {call : Call Id}
    (hquiet : ¬ Disturbs nodeId node call) (hle : ∀ now, call.now = some now → s ≤ now) :
    if s ≠ 0 ∧ dueCheck s node call = true then
      ListsAs dead nodeId (Swim.performCall node call)
    else SuspectSince nodeId s (Swim.performCall node call) := by
  obtain ⟨m, hmem, rfl, hstate, rfl⟩ := hsince
  split_ifs with hdue
  · obtain ⟨hzero, hdue⟩ := hdue
    cases call with
    | checkSuspects now =>
        have hover := (suspicionOver_iff hstate (hle now rfl) (suspectTimeout node)).mpr
          ⟨hzero, of_decide_eq_true hdue⟩
        refine ⟨expiredMember m now, ?_, rfl, rfl⟩
        rw [Swim.performCall, checkSuspects_members]
        exact List.mem_map.mpr ⟨m, hmem, by rw [checkedMember, if_pos hover]⟩
    | _ => exact absurd hdue Bool.false_ne_true
  · have hreset : call ≠ .reset := by
      rintro rfl
      exact hquiet trivial
    obtain ⟨m', hmem', hchange⟩ := suspect_stays hreset hmem hstate
    rcases hchange.of_undisturbed hwell.members hmem hquiet with
      rfl | ⟨now, rfl, hover, -⟩
    · exact ⟨m', hmem', rfl, hstate, rfl⟩
    · obtain ⟨hzero, hold⟩ := (suspicionOver_iff hstate (hle now rfl) _).mp hover
      exact absurd ⟨hzero, decide_eq_true hold⟩ hdue

omit [DecidableEq Id] in
theorem SuspectSince.not_dead {nodeId : Id} {s : UInt64} {node : Node Id}
    (hsince : SuspectSince nodeId s node) (hnodup : node.ids.Nodup) :
    ¬ ListsAs dead nodeId node := by
  obtain ⟨m, hmem, hid, hstate, -⟩ := hsince
  rintro ⟨other, hother, hid', hdead⟩
  obtain rfl : m = other := eq_of_nodeId_eq hnodup hmem hother (hid.trans hid'.symm)
  exact absurd (hstate.symm.trans hdead) (by decide)

/-- An undisturbed suspicion expires on time if and only if it began at another time
than 0 or no check is due. -/
theorem SuspectSince.expiresOnTime_iff {nodeId : Id} {s : UInt64} {node : Node Id}
    (hsince : SuspectSince nodeId s node) (hwell : WellFormed node) {rest : List (Call Id)}
    (hquiet : runs.RunMeets (fun node call => ¬ Disturbs nodeId node call) node rest)
    (hle : ∀ call ∈ rest, ∀ now, call.now = some now → s ≤ now) :
    ExpiresOnTime nodeId s node rest ↔
      s ≠ 0 ∨ runs.RunMeets (fun node call => dueCheck s node call = false) node rest := by
  have hlisted : ∀ node, SuspectSince nodeId s node → ListsAs suspect nodeId node := by
    rintro node ⟨m, hmem, hid, hstate, -⟩
    exact ⟨m, hmem, hid, hstate⟩
  induction rest generalizing node with
  | nil => exact iff_of_true (hlisted node hsince) (.inr trivial)
  | cons call rest ih =>
      obtain ⟨hquietHead, hquietRest⟩ := hquiet
      have hnext := hsince.performCall hwell hquietHead (hle call List.mem_cons_self)
      have hwellNext := hwell.performCall call
      rw [ExpiresOnTime, and_iff_right (hlisted node hsince)]
      cases hdue : dueCheck s node call with
      | true =>
          rw [if_pos rfl]
          rw [hdue] at hnext
          by_cases hzero : s = 0
          · rw [if_neg fun hboth => hboth.1 hzero] at hnext
            refine iff_of_false (hnext.not_dead hwellNext.members.nodup_ids) ?_
            rintro (hne | hmeets)
            · exact hne hzero
            · exact absurd (hdue.symm.trans hmeets.1) Bool.noConfusion
          · rw [if_pos ⟨hzero, rfl⟩] at hnext
            exact iff_of_true hnext (.inl hzero)
      | false =>
          rw [if_neg Bool.false_ne_true]
          rw [if_neg fun hboth => Bool.false_ne_true (hdue.symm.trans hboth.2)] at hnext
          have hrest := ih hnext hwellNext (hquietRest _ rfl)
            fun other hmem => hle other (List.mem_cons_of_mem _ hmem)
          refine hrest.trans ?_
          refine or_congr_right ⟨fun hmeets => ⟨hdue, fun next hstep => ?_⟩, fun hmeets => ?_⟩
          · obtain rfl : Swim.performCall node call = next := Option.some.inj hstep
            exact hmeets
          · exact hmeets.2 _ rfl

/-! ## How a suspicion begins -/

theorem Suspects.since {nodeId : Id} {node : Node Id} {call : Call Id}
    (hsuspects : Suspects nodeId node call) :
    ∃ s, call.now = some s ∧ SuspectSince nodeId s (performCall node call) := by
  cases call with
  | suspectMember other now =>
      obtain ⟨rfl, hok⟩ := hsuspects
      refine ⟨now, rfl, ?_⟩
      rw [performCall]
      unfold suspectMember at hok ⊢
      split_ifs at hok ⊢
      cases hfind : findMember node other with
      | none =>
          rw [hfind] at hok
          cases hok
      | some found =>
          obtain ⟨idx, m⟩ := found
          simp only [hfind] at hok ⊢
          split_ifs at hok ⊢
          exact ⟨_, mem_changeMember hfind _, (findMember_some hfind).2, rfl, rfl⟩
  | applyUpdate update now =>
      obtain ⟨rfl, hself, hstate, hok⟩ := hsuspects
      obtain ⟨m, hmem, hid, hsame, -, hsince⟩ := applyUpdate_accepted hself hok
      exact ⟨now, rfl, m, hmem, hid, hsame.trans hstate, hsince hstate⟩
  | _ => exact hsuspects.elim

/-- A disturbance which is not a suspicion leaves no SUSPECT member of the id. -/
theorem not_suspect_of_disturbs {nodeId : Id} {node : Node Id} {call : Call Id}
    (hself : nodeId ≠ node.selfId) (hdisturbs : Disturbs nodeId node call)
    (hsuspects : ¬ Suspects nodeId node call) :
    (performCall node call).members = [] ∨
      ∃ m ∈ (performCall node call).members, m.nodeId = nodeId ∧ m.state ≠ suspect := by
  have halive : alive ≠ suspect := by decide
  have hleft : left ≠ suspect := by decide
  cases call with
  | reset => exact .inl rfl
  | addMember other addr port now =>
      obtain ⟨rfl, hok⟩ := hdisturbs
      rcases addMember_cases node other addr port now with
        ⟨hrefused, -⟩ | ⟨-, -, -, -, hmembers⟩
      · exact absurd hok hrefused
      · refine .inr ⟨newMember other addr port now, ?_, rfl, halive⟩
        rw [performCall, hmembers]
        exact List.mem_append_right _ List.mem_cons_self
  | removeMember other now =>
      obtain ⟨rfl, hok⟩ := hdisturbs
      rw [performCall]
      unfold removeMember at hok ⊢
      rw [if_neg hself] at hok ⊢
      cases hfind : findMember node other with
      | none =>
          rw [hfind] at hok
          cases hok
      | some found =>
          obtain ⟨idx, m⟩ := found
          exact .inr ⟨_, mem_changeMember hfind _, (findMember_some hfind).2, hleft⟩
  | applyUpdate update now =>
      obtain ⟨rfl, hok⟩ := hdisturbs
      have hstate : update.state ≠ suspect := fun hstate => hsuspects ⟨rfl, hself, hstate, hok⟩
      obtain ⟨m, hmem, hid, hsame, -, -⟩ := applyUpdate_accepted hself hok
      exact .inr ⟨m, hmem, hid, hsame ▸ hstate⟩
  | suspectMember other now => exact absurd hdisturbs hsuspects
  | _ => exact hdisturbs.elim

/-- Every SUSPECT member became so along the run, at the time which it carries, and was
not disturbed since. -/
theorem suspectedDuring_of_mem {start final : Node Id} (hinitial : runs.Initial start)
    {calls : List (Call Id)} (hrun : runs.run start calls = some final) {m : Member Id}
    (hmem : m ∈ final.members) (hstate : m.state = suspect) :
    SuspectedDuring m.nodeId m.suspectMs start calls := by
  induction calls using List.reverseRecOn generalizing final m with
  | nil =>
      obtain ⟨selfId, addr, port, cfg, addressSeed, rfl⟩ := hinitial
      obtain rfl := Option.some.inj hrun
      exact absurd hmem List.not_mem_nil
  | append_singleton calls call ih =>
      obtain ⟨node, hfront, hlast⟩ := runs.run_append_eq_some.mp hrun
      obtain ⟨_, hstep, hend⟩ := runs.run_cons_eq_some.mp hlast
      obtain rfl := Option.some.inj hend
      obtain rfl : performCall node call = _ := Option.some.inj hstep
      have hwell : WellFormed node := reachable_wellFormed ⟨start, calls, hinitial, hfront⟩
      have hwellNext := hwell.performCall call
      have hself : m.nodeId ≠ node.selfId := by
        rw [← (performCall_config node call).2]
        exact hwellNext.members.not_self m hmem
      by_cases hsuspects : Suspects m.nodeId node call
      · obtain ⟨s, hnow, other, hother, hid, -, hsince⟩ := hsuspects.since
        obtain rfl : other = m :=
          eq_of_nodeId_eq hwellNext.members.nodup_ids hother hmem hid
        exact ⟨calls, call, [], node, rfl, hfront, hsuspects, hsince ▸ hnow, trivial⟩
      · by_cases hdisturbs : Disturbs m.nodeId node call
        · rcases not_suspect_of_disturbs hself hdisturbs hsuspects with
            hempty | ⟨other, hother, hid, hnot⟩
          · exact absurd (hempty ▸ hmem) List.not_mem_nil
          · obtain rfl : other = m :=
              eq_of_nodeId_eq hwellNext.members.nodup_ids hother hmem hid
            exact absurd hstate hnot
        · rcases (membersStep_performCall node call).change_or_new hmem with
            ⟨old, hold, hchange⟩ | ⟨-, halive, -⟩
          · have hid := hchange.nodeId_eq
            rcases hchange.of_undisturbed hwell.members hold (hid ▸ hdisturbs) with
              rfl | ⟨now, -, -, rfl⟩
            · obtain ⟨front, first, back, holder, rfl, hholder, hfirst, hnow, hquiet⟩ :=
                ih hfront hold hstate
              obtain ⟨middle, hmiddle, hback⟩ := runs.run_append_eq_some.mp hfront
              obtain rfl : holder = middle := Option.some.inj (hholder.symm.trans hmiddle)
              obtain ⟨_, hnext, hback⟩ := runs.run_cons_eq_some.mp hback
              obtain rfl : performCall holder first = _ := Option.some.inj hnext
              exact ⟨front, first, back ++ [call], holder, by simp, hholder, hfirst, hnow,
                hquiet.append_singleton hback hdisturbs⟩
            · exact absurd hstate (show dead ≠ suspect by decide)
          · exact absurd (hstate.symm.trans halive) (by decide)

theorem SuspectedDuring.exists_call {nodeId : Id} {s : UInt64} {start : Node Id}
    {calls : List (Call Id)} (hduring : SuspectedDuring nodeId s start calls) :
    ∃ call ∈ calls, call.now = some s := by
  obtain ⟨front, call, back, node, rfl, -, -, hnow, -⟩ := hduring
  exact ⟨call, List.mem_append_right _ List.mem_cons_self, hnow⟩

/-! ## Runs with times which do not decrease -/

omit [DecidableEq Id] in
theorem now_le_of_split {calls front rest : List (Call Id)} {call : Call Id}
    (htimes : (calls.filterMap Call.now).Pairwise (· ≤ ·))
    (hsplit : calls = front ++ call :: rest) {now : UInt64} (hnow : call.now = some now) :
    (∀ other ∈ front, ∀ s, other.now = some s → s ≤ now) ∧
      ∀ other ∈ rest, ∀ s, other.now = some s → now ≤ s := by
  rw [hsplit, List.filterMap_append, List.pairwise_append,
    List.filterMap_cons_some hnow, List.pairwise_cons] at htimes
  obtain ⟨-, ⟨hrest, -⟩, hfront⟩ := htimes
  refine ⟨fun other hmem s hs => ?_, fun other hmem s hs => ?_⟩
  · exact hfront s (List.mem_filterMap.mpr ⟨other, hmem, hs⟩) now List.mem_cons_self
  · exact hrest s (List.mem_filterMap.mpr ⟨other, hmem, hs⟩)

/-- Along every run from the creation at times which do not decrease: an undisturbed
suspicion expires on time if and only if it began at another time than 0 or no check
is due; and a check changes no member but the SUSPECT ones which became so along the
run, a timeout ago, and were not disturbed since. -/
theorem expires_on_time_iff {start : Node Id} (hinitial : runs.Initial start)
    {calls : List (Call Id)}
    (htimes : (calls.filterMap Call.now).Pairwise (· ≤ ·)) :
    (∀ (front : List (Call Id)) (call : Call Id) (rest : List (Call Id)) (node : Node Id)
        (nodeId : Id) (s : UInt64), calls = front ++ call :: rest →
      runs.run start front = some node → Suspects nodeId node call → call.now = some s →
      runs.RunMeets (fun node call => ¬ Disturbs nodeId node call)
        (performCall node call) rest →
      (ExpiresOnTime nodeId s (performCall node call) rest ↔
        s ≠ 0 ∨ runs.RunMeets (fun node call => dueCheck s node call = false)
          (performCall node call) rest)) ∧
    (∀ (front : List (Call Id)) (now : UInt64) (rest : List (Call Id)) (node : Node Id)
        (idx : ℕ) (m : Member Id), calls = front ++ .checkSuspects now :: rest →
      runs.run start front = some node → node.members[idx]? = some m →
      (checkSuspects node now).2.members[idx]? = some m ∨
        m.state = suspect ∧ SuspectedDuring m.nodeId m.suspectMs start front ∧
          m.suspectMs.toNat + (suspectTimeout node).toNat ≤ now.toNat) := by
  constructor
  · intro front call rest node nodeId s hsplit hfront hsuspects hnow hquiet
    have hwell : WellFormed node := reachable_wellFormed ⟨start, front, hinitial, hfront⟩
    obtain ⟨s', hnow', hsince⟩ := hsuspects.since
    obtain rfl : s' = s := Option.some.inj (hnow'.symm.trans hnow)
    exact hsince.expiresOnTime_iff (hwell.performCall call) hquiet
      (now_le_of_split htimes hsplit hnow).2
  · intro front now rest node idx m hsplit hfront hget
    rw [checkSuspects_members, List.getElem?_map, hget, Option.map_some, checkedMember]
    split_ifs with hover
    · have hstate : m.state = suspect := by
        simp only [suspicionOver, Bool.and_eq_true, decide_eq_true_eq] at hover
        exact hover.1.1
      have hduring := suspectedDuring_of_mem hinitial hfront (List.mem_of_getElem? hget) hstate
      obtain ⟨first, hmem, hnow⟩ := hduring.exists_call
      have hle := (now_le_of_split htimes hsplit rfl).1 first hmem _ hnow
      exact .inr ⟨hstate, hduring, ((suspicionOver_iff hstate hle _).mp hover).2⟩
    · exact .inl rfl

/-- A node with a suspicion timeout of 10 ms to which node 7 was added at time 0. -/
def addedAtZero : Node ℕ :=
  performCall (create 0 0 0 (some ⟨4, 4, 5, 8, 1000, 10, 1⟩) 0) (.addMember 7 1 2 0)

theorem suspects_addedAtZero (s : UInt64) : Suspects 7 addedAtZero (.suspectMember 7 s) :=
  ⟨rfl, rfl⟩

theorem expires_on_time_iff_atOne :
    ExpiresOnTime 7 1 (performCall addedAtZero (.suspectMember 7 1))
      [.checkSuspects 2, .checkSuspects 20] :=
  ((expires_on_time_iff ⟨0, 0, 0, some ⟨4, 4, 5, 8, 1000, 10, 1⟩, 0, rfl⟩
    (show ([.addMember 7 1 2 0, .suspectMember 7 1, .checkSuspects 2, .checkSuspects 20].filterMap
      Call.now).Pairwise (· ≤ ·) by decide)).1
    [.addMember 7 1 2 0] (.suspectMember 7 1) [.checkSuspects 2, .checkSuspects 20]
    addedAtZero 7 1 rfl rfl (suspects_addedAtZero 1) rfl
    ⟨id, fun _ _ => ⟨id, fun _ _ => trivial⟩⟩).mpr (.inl (by decide))

def suspectedAtZero : Node ℕ := performCall addedAtZero (.suspectMember 7 0)

/-- A suspicion at time 0 outlives a due check. -/
theorem suspicion_at_zero_stays :
    runs.Reachable addedAtZero ∧ Suspects 7 addedAtZero (.suspectMember 7 0) ∧
      (([.addMember 7 1 2 0, .suspectMember 7 0, .checkSuspects 20] : List (Call ℕ)).filterMap
        Call.now).Pairwise (· ≤ ·) ∧
      runs.RunMeets (fun node call => ¬ Disturbs 7 node call) suspectedAtZero
        [.checkSuspects 20] ∧
      ¬ ExpiresOnTime 7 0 suspectedAtZero [.checkSuspects 20] := by
  have hreach : runs.Reachable addedAtZero :=
    (runs.reachable_of_initial ⟨_, _, _, _, _, rfl⟩).step
      (show runs.step (create 0 0 0 (some ⟨4, 4, 5, 8, 1000, 10, 1⟩) 0)
        (.addMember 7 1 2 0) = some _ from rfl)
  have hdue : dueCheck 0 suspectedAtZero (.checkSuspects 20) = true := by decide +kernel
  have hnone : ∀ m ∈ (performCall suspectedAtZero (.checkSuspects 20)).members,
      m.state ≠ dead := by decide +kernel
  refine ⟨hreach, suspects_addedAtZero 0, by decide, ⟨id, fun _ _ => trivial⟩, ?_⟩
  rintro ⟨-, hexpired⟩
  rw [if_pos hdue] at hexpired
  obtain ⟨m, hmem, -, hdead⟩ := hexpired
  exact hnone m hmem hdead

end Swim
end LibWake
