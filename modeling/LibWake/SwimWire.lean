import LibWake.DgramModel
import LibWake.SwimConvergence

/-!
# Member states from the wire

A node whose updates are the decoded ones.  The decoder passes every state byte
on, and so does the precedence: a byte above LEFT which supersedes a member is
stored, and from then on the member is counted nowhere, never probed and never
reaped.  As long as no such update arrives, every member is in one of the four
states.
-/

namespace LibWake
namespace Swim

/-! ## Tracked states -/

section Tracked

variable {Id : Type}

/-- The state is one of `wake_swim_state_t`. -/
def IsState (state : UInt8) : Prop :=
  state = alive ∨ state = suspect ∨ state = dead ∨ state = left

instance (state : UInt8) : Decidable (IsState state) :=
  inferInstanceAs (Decidable (_ ∨ _))

/-- Every member is counted under its state, and probed or reaped in time. -/
structure Tracked (node : Node Id) : Prop where
  states : ∀ m ∈ node.members, IsState m.state
  total : (stats node).total =
    (stats node).alive + (stats node).suspect + (stats node).dead + (stats node).left
  usable : ∀ m ∈ node.members, m.probeEligible = true ∨
    ∀ now retention, now - m.lastChangeMs ≥ retention →
      m ∉ (reap node now retention).2.members

theorem countState_total {members : List (Member Id)}
    (hstates : ∀ m ∈ members, IsState m.state) {out : Stats}
    (hout : out.total = out.alive + out.suspect + out.dead + out.left) :
    (members.foldl countState out).total =
      (members.foldl countState out).alive + (members.foldl countState out).suspect +
        (members.foldl countState out).dead + (members.foldl countState out).left := by
  induction members generalizing out with
  | nil => exact hout
  | cons m rest ih =>
      refine ih (fun other hmem => hstates other (List.mem_cons_of_mem _ hmem)) ?_
      have hstate := hstates m List.mem_cons_self
      unfold countState
      simp only
      split_ifs with halive hsuspect hdead hleft
      · simp only [hout]
        omega
      · simp only [hout]
        omega
      · simp only [hout]
        omega
      · simp only [hout]
        omega
      · rcases hstate with h | h | h | h
        · exact absurd h halive
        · exact absurd h hsuspect
        · exact absurd h hdead
        · exact absurd h hleft

theorem mem_reap {node : Node Id} {now retention : UInt64} {m : Member Id} :
    m ∈ (reap node now retention).2.members ↔
      m ∈ node.members ∧ reapable now retention m = false := by
  have hmembers : (reap node now retention).2.members =
      node.members.filter fun m => !reapable now retention m := by
    unfold reap
    simp only
    split_ifs <;> rfl
  rw [hmembers, List.mem_filter, Bool.not_eq_true']

/-- The four states are all that counting, probing and reaping need. -/
theorem tracked_of_states {node : Node Id}
    (hstates : ∀ m ∈ node.members, IsState m.state) : Tracked node where
  states := hstates
  total := countState_total hstates rfl
  usable m hmem := by
    rcases hstates m hmem with h | h | h | h
    · exact Or.inl (by simp [Member.probeEligible, h])
    · exact Or.inl (by simp [Member.probeEligible, h])
    · refine Or.inr fun now retention hpassed hstays => ?_
      have hkept := (mem_reap.mp hstays).2
      simp [reapable, h, hpassed] at hkept
    · refine Or.inr fun now retention hpassed hstays => ?_
      have hkept := (mem_reap.mp hstays).2
      simp [reapable, h, hpassed] at hkept

/-! ## One call -/

theorem Change.isState {node : Node Id} {call : Call Id} {m m' : Member Id}
    (hchange : Change node call m m') (hstate : IsState m.state)
    (hupdate : ∀ update now, call = .applyUpdate update now → update.nodeId = m.nodeId →
      stateSupersedes update.state update.incarnation m.state m.incarnation = true →
      IsState update.state) : IsState m'.state := by
  cases hchange with
  | kept => exact hstate
  | removed now hcall => exact Or.inr (Or.inr (Or.inr rfl))
  | suspected now hcall halive => exact Or.inr (Or.inl rfl)
  | updated update now hcall hid hsupersedes => exact hupdate update now hcall hid hsupersedes
  | expired now hcall hover => exact Or.inr (Or.inr (Or.inl rfl))

variable [DecidableEq Id]

/-- The call brings a state outside the four and supersedes a member with it. -/
def StoresUntracked (node : Node Id) : Call Id → Prop
  | .applyUpdate update _ =>
      ¬ IsState update.state ∧ update.nodeId ≠ node.selfId ∧
        ∃ m, find node update.nodeId = some m ∧
          stateSupersedes update.state update.incarnation m.state m.incarnation = true
  | _ => False

theorem find_of_mem {node : Node Id} (hnodup : node.ids.Nodup) {m : Member Id}
    (hmem : m ∈ node.members) : find node m.nodeId = some m := by
  obtain ⟨idx, hfind⟩ := findMember_of_mem hnodup hmem
  rw [find, hfind, Option.map_some]

instance (node : Node Id) (call : Call Id) : Decidable (StoresUntracked node call) :=
  match call with
  | .applyUpdate update _ =>
      decidable_of_iff
        (¬ IsState update.state ∧ update.nodeId ≠ node.selfId ∧
          (find node update.nodeId).any fun m =>
            stateSupersedes update.state update.incarnation m.state m.incarnation)
        (by simp [StoresUntracked, Option.any_eq_true])
  | .reset | .reap _ _ | .addMember _ _ _ _ | .removeMember _ _ | .suspectMember _ _
  | .nextProbe | .selectDelegates _ _ | .reportHealth _ | .checkSuspects _
  | .getUpdates _ => .isFalse id

theorem isState_performCall {node : Node Id} (hgood : WellFormed node)
    (hstates : ∀ m ∈ node.members, IsState m.state) {call : Call Id}
    (hguard : ¬ StoresUntracked node call) :
    ∀ m ∈ (performCall node call).members, IsState m.state := by
  have hchange : ∀ m ∈ node.members, ∀ m', Change node call m m' → IsState m'.state := by
    intro m hmem m' hchange
    refine hchange.isState (hstates m hmem) ?_
    rintro update now rfl hid hsupersedes
    by_contra hstate
    refine hguard ⟨hstate, ?_, m, ?_, hsupersedes⟩
    · rw [hid]
      exact hgood.members.not_self m hmem
    · rw [hid]
      exact find_of_mem hgood.members.nodup_ids hmem
  intro m' hmem'
  rcases (membersStep_performCall node call).change_or_new hmem' with
    ⟨m, hmem, hchanged⟩ | ⟨_, halive, _⟩
  · exact hchange m hmem m' hchanged
  · exact Or.inl halive

/-- A call which stores another state leaves a member with it. -/
theorem untracked_of_storesUntracked {node : Node Id} {call : Call Id}
    (hstores : StoresUntracked node call) :
    ∃ m ∈ (performCall node call).members, ¬ IsState m.state := by
  cases call with
  | applyUpdate update now =>
      obtain ⟨hstate, hself, m, hfind, hsupersedes⟩ := hstores
      simp only [find, Option.map_eq_some_iff] at hfind
      obtain ⟨⟨idx, other⟩, hfound, rfl⟩ := hfind
      rcases applyUpdate_known hself hfound now with
        ⟨_, _, hchanged⟩ | ⟨hkept, _, _⟩
      · rw [performCall, hchanged]
        exact ⟨_, mem_changeMember hfound (updatedMember other update now), hstate⟩
      · rw [hsupersedes] at hkept
        exact absurd hkept (by simp)
  | _ => exact absurd hstores id

end Tracked

/-! ## Runs with decoded updates -/

/-- One step of a node on the network. -/
inductive WireCall where
  | receive (buf : List UInt8) (i : ℕ) (now : UInt64)
  | own (call : Call Dgram.NodeId)

/-- The call of a step: update `i` of an accepted datagram, or a call which is
not an update. -/
def WireCall.call : WireCall → Option (Call Dgram.NodeId)
  | .receive buf i now =>
      match Dgram.decode buf with
      | .ok message => message.updates[i]?.map fun update => .applyUpdate update now
      | .error _ => none
  | .own (.applyUpdate _ _) => none
  | .own call => some call

/-- The runs of a node on the network. -/
def wireRuns : TransitionSystem (Node Dgram.NodeId) WireCall where
  Initial := runs.Initial
  step node label := label.call.map (performCall node)

/-- No step of the run stores a state outside the four. -/
def KeepsStates (node : Node Dgram.NodeId) (label : WireCall) : Prop :=
  ∀ call, label.call = some call → ¬ StoresUntracked node call

instance (node : Node Dgram.NodeId) (label : WireCall) : Decidable (KeepsStates node label) :=
  match hcall : label.call with
  | none => .isTrue fun call h => by rw [hcall] at h; cases h
  | some call =>
      decidable_of_iff (¬ StoresUntracked node call)
        ⟨fun hnot other h => by rw [hcall, Option.some.injEq] at h; exact h ▸ hnot,
          fun hall => hall call hcall⟩

/-- Every member is tracked in every state of a run if and only if no decoded
update of the run supersedes a member with a state outside the four. -/
theorem tracked_iff_keepsStates (start final : Node Dgram.NodeId)
    (labels : List WireCall) (hinitial : wireRuns.Initial start)
    (hrun : wireRuns.run start labels = some final) :
    wireRuns.Always Tracked start labels ↔ wireRuns.RunMeets KeepsStates start labels := by
  have hstart : WellFormed start ∧ ∀ m ∈ start.members, IsState m.state := by
    obtain ⟨selfId, addr, port, cfg, addressSeed, rfl⟩ := hinitial
    exact ⟨wellFormed_create selfId addr port cfg addressSeed,
      fun m hm => absurd hm List.not_mem_nil⟩
  refine wireRuns.always_iff_runMeets
    (motive := fun node => WellFormed node ∧ ∀ m ∈ node.members, IsState m.state)
    (fun _ hgood => tracked_of_states hgood.2) ?_ ?_ hstart hrun
  · intro node label next hgood hkeeps hstep
    simp only [wireRuns, Option.map_eq_some_iff] at hstep
    obtain ⟨call, hcall, rfl⟩ := hstep
    exact ⟨hgood.1.performCall call, isState_performCall hgood.1 hgood.2 (hkeeps call hcall)⟩
  · intro node label next _ hnot hstep htracked
    simp only [KeepsStates, not_forall, not_not] at hnot
    obtain ⟨call, hcall, hstores⟩ := hnot
    simp only [wireRuns, hcall, Option.map_some, Option.some.injEq] at hstep
    subst hstep
    obtain ⟨m, hmem, hstate⟩ := untracked_of_storesUntracked hstores
    exact hstate (htracked.states m hmem)

/-- A node which knows node 7 hears one update about it, at incarnation 1. -/
def sevenId : Dgram.NodeId := List.Vector.replicate Dgram.nodeIdLen 7

def zeroNode : Node Dgram.NodeId := create Dgram.NodeId.zero 0 0 none 0

/-- A PING with one update, whose state byte is the argument. -/
def pingBytes (state : UInt8) : List UInt8 :=
  [0x57, 0x44, 1, 0] ++ List.replicate 32 9 ++ [1] ++ List.replicate 32 7 ++
    [1, 0, 0, 0, 2, 0, state, 0, 1, 0, 0, 0, 0, 0, 0, 0]

def hearing (state : UInt8) : List WireCall :=
  [.own (.addMember sevenId 1 2 10), .receive (pingBytes state) 0 20]

theorem tracked_iff_keepsStates_suspected :
    ∃ final, wireRuns.run zeroNode (hearing suspect) = some final ∧ Tracked final := by
  have hrun : (wireRuns.run zeroNode (hearing suspect)).isSome = true := by
    decide +kernel
  obtain ⟨final, hfinal⟩ := Option.isSome_iff_exists.mp hrun
  have halways := (tracked_iff_keepsStates zeroNode final (hearing suspect)
    ⟨_, _, _, _, _, rfl⟩ hfinal).mpr (by decide +kernel)
  exact ⟨final, hfinal, halways (hearing suspect) [] final (List.append_nil _) hfinal⟩

/-- The state byte 7 is stored: the member is in the total and in no class. -/
theorem state_seven_enters :
    ∃ final, wireRuns.run zeroNode (hearing 7) = some final ∧ wireRuns.Reachable final ∧
      (stats final).total = 1 ∧
      (stats final).alive + (stats final).suspect + (stats final).dead +
        (stats final).left = 0 ∧
      ¬ Tracked final := by
  have hrun : (wireRuns.run zeroNode (hearing 7)).any (fun final =>
      (stats final).total = 1 && (stats final).alive + (stats final).suspect +
        (stats final).dead + (stats final).left = 0) = true := by
    decide +kernel
  obtain ⟨final, hfinal, hcounts⟩ := (Option.any_eq_true _ _).mp hrun
  simp only [Bool.and_eq_true, decide_eq_true_eq] at hcounts
  refine ⟨final, hfinal, ⟨zeroNode, _, ⟨_, _, _, _, _, rfl⟩, hfinal⟩, hcounts.1, hcounts.2,
    fun htracked => ?_⟩
  have htotal := htracked.total
  rw [hcounts.1, hcounts.2] at htotal
  exact absurd htotal (by decide)

end Swim
end LibWake
