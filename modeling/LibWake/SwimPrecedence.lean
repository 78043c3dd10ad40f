import Mathlib.Data.Prod.Lex
import Mathlib.Order.WithBot
import LibWake.SwimEffect

/-!
# The precedence order of member states

The pairs of a state and an incarnation are ranked in a linear order with LEFT
on top.  An update supersedes a member exactly when it is LEFT or ranks above
it, and no call ever lowers the rank of a member which stays in the list.
-/

namespace LibWake
namespace Swim

/-- The rank of a state at an incarnation: LEFT at the top, below it the
incarnation first and the state value second. -/
def rank (state : UInt8) (incarnation : UInt32) : WithTop (ℕ ×ₗ ℕ) :=
  if state = left then ⊤ else ((toLex (incarnation.toNat, state.toNat) : ℕ ×ₗ ℕ) :)

theorem rank_left (incarnation : UInt32) : rank left incarnation = ⊤ := rfl

theorem rank_eq_top_iff {state : UInt8} {incarnation : UInt32} :
    rank state incarnation = ⊤ ↔ state = left := by
  unfold rank
  split_ifs with hleft
  · simp [hleft]
  · simpa using hleft

theorem rank_lt_rank_iff {state state' : UInt8} {inc inc' : UInt32}
    (hstate : state ≠ left) (hstate' : state' ≠ left) :
    rank state inc < rank state' inc' ↔
      inc < inc' ∨ inc = inc' ∧ state < state' := by
  rw [rank, if_neg hstate, rank, if_neg hstate', WithTop.coe_lt_coe,
    Prod.Lex.toLex_lt_toLex, ← UInt32.lt_iff_toNat_lt, UInt32.toNat_inj,
    ← UInt8.lt_iff_toNat_lt]

theorem rank_lt_of_state_lt {state state' : UInt8} (incarnation : UInt32)
    (hstate : state ≠ left) (hstate' : state' ≠ left) (hlt : state < state') :
    rank state incarnation < rank state' incarnation :=
  (rank_lt_rank_iff hstate hstate').mpr (Or.inr ⟨rfl, hlt⟩)

/-- `state_supersedes` is the strict order, except that LEFT also replaces
LEFT. -/
theorem stateSupersedes_iff {newState oldState : UInt8} {newInc oldInc : UInt32} :
    stateSupersedes newState newInc oldState oldInc = true ↔
      newState = left ∨ rank oldState oldInc < rank newState newInc := by
  unfold stateSupersedes
  split_ifs with hnew hold hgt hlt
  · simp [hnew]
  · simp [hnew, hold, rank_left]
  · simp [hnew, rank_lt_rank_iff hold hnew, hgt]
  · simp only [hnew, rank_lt_rank_iff hold hnew, false_or, false_iff, not_or, not_and]
    refine ⟨hgt, fun heq => ?_⟩
    rw [heq] at hlt
    exact absurd hlt (UInt32.lt_irrefl _)
  · have heq : oldInc = newInc :=
      UInt32.le_antisymm (UInt32.not_lt.mp hlt) (UInt32.not_lt.mp hgt)
    simp [hnew, rank_lt_rank_iff hold hnew, heq]

theorem rank_le_of_stateSupersedes {newState oldState : UInt8} {newInc oldInc : UInt32}
    (hsupersedes : stateSupersedes newState newInc oldState oldInc = true) :
    rank oldState oldInc ≤ rank newState newInc := by
  rcases stateSupersedes_iff.mp hsupersedes with rfl | hlt
  · exact le_top
  · exact hlt.le

variable {Id : Type}

/-- The rank of a member. -/
def Member.rank (m : Member Id) : WithTop (ℕ ×ₗ ℕ) := Swim.rank m.state m.incarnation

theorem Change.rank_le {node : Node Id} {call : Call Id} {m m' : Member Id}
    (hchange : Change node call m m') : m.rank ≤ m'.rank := by
  cases hchange with
  | kept => exact le_rfl
  | removed now hcall => exact le_top
  | suspected now hcall halive =>
      have hlt : Swim.rank m.state m.incarnation < Swim.rank suspect m.incarnation := by
        rw [halive]
        exact rank_lt_of_state_lt _ (by decide) (by decide) (by decide)
      exact hlt.le
  | updated update now hcall hid hsupersedes =>
      exact rank_le_of_stateSupersedes hsupersedes
  | expired now hcall hover =>
      have hstate : m.state = suspect := by
        simp only [suspicionOver, Bool.and_eq_true, decide_eq_true_eq] at hover
        exact hover.1.1
      have hlt : Swim.rank m.state m.incarnation < Swim.rank dead m.incarnation := by
        rw [hstate]
        exact rank_lt_of_state_lt _ (by decide) (by decide) (by decide)
      exact hlt.le

/-- A change to ALIVE from SUSPECT or DEAD is an update with a strictly higher
incarnation. -/
theorem Change.refuted {node : Node Id} {call : Call Id} {m m' : Member Id}
    (hchange : Change node call m m') (hstate : m.state = suspect ∨ m.state = dead)
    (halive : m'.state = alive) :
    ∃ update now, call = .applyUpdate update now ∧ update.nodeId = m.nodeId ∧
      update.state = alive ∧ m.incarnation < update.incarnation := by
  have hne : m.state ≠ alive := by
    rcases hstate with hstate | hstate <;> rw [hstate] <;> decide
  cases hchange with
  | kept => exact absurd halive hne
  | removed now hcall => exact absurd halive (by simp [left, alive])
  | suspected now hcall hbefore => exact absurd hbefore hne
  | updated update now hcall hid hsupersedes =>
      refine ⟨update, now, hcall, hid, halive, ?_⟩
      have hnew : update.state ≠ left := by
        rw [show update.state = alive from halive]
        decide
      have hold : m.state ≠ left := by
        rcases hstate with hstate | hstate <;> rw [hstate] <;> decide
      have hlt := (stateSupersedes_iff.mp hsupersedes).resolve_left hnew
      rcases (rank_lt_rank_iff hold hnew).mp hlt with hinc | ⟨_, hbelow⟩
      · exact hinc
      · rw [show update.state = alive from halive] at hbelow
        exact absurd hbelow (by simp [alive, UInt8.lt_iff_toNat_lt])
  | expired now hcall hover => exact absurd halive (by simp [expiredMember, dead, alive])

theorem left_of_rank_le {m m' : Member Id} (hle : m.rank ≤ m'.rank)
    (hleft : m.state = left) : m'.state = left := by
  have htop : m.rank = ⊤ := rank_eq_top_iff.mpr hleft
  exact rank_eq_top_iff.mp (top_le_iff.mp (htop ▸ hle))

/-- What holds of a member before and after a call. -/
structure NeverBackward (call : Call Id) (m m' : Member Id) : Prop where
  rank_le : m.rank ≤ m'.rank
  left_stays : m.state = left → m'.state = left
  refuted : m.state = suspect ∨ m.state = dead → m'.state = alive →
    ∃ update now, call = .applyUpdate update now ∧ update.nodeId = m.nodeId ∧
      update.state = alive ∧ m.incarnation < update.incarnation

theorem Change.neverBackward {node : Node Id} {call : Call Id} {m m' : Member Id}
    (hchange : Change node call m m') : NeverBackward call m m' where
  rank_le := hchange.rank_le
  left_stays := left_of_rank_le hchange.rank_le
  refuted := hchange.refuted

variable [DecidableEq Id]

theorem neverBackward_performCall {node : Node Id} (hreach : runs.Reachable node)
    (call : Call Id) {m m' : Member Id} (hbefore : m ∈ node.members)
    (hafter : m' ∈ (performCall node call).members) (hid : m.nodeId = m'.nodeId) :
    NeverBackward call m m' := by
  rcases (membersStep_performCall node call).change_or_new hafter with
    ⟨other, hother, hchange⟩ | ⟨_, _, hnew⟩
  · have hsame : m = other := eq_of_nodeId_eq (reachable_nodup_ids hreach) hbefore hother
      (hid.trans hchange.nodeId_eq)
    rw [hsame]
    exact hchange.neverBackward
  · exact absurd hid (hnew m hbefore)

theorem run_rank_le {node final : Node Id} (hreach : runs.Reachable node)
    {m m' : Member Id} (hbefore : m ∈ node.members) {calls : List (Call Id)}
    (hstays : runs.RunMeets (fun node _ => m.nodeId ∈ node.ids) node calls)
    (hrun : runs.run node calls = some final) (hafter : m' ∈ final.members)
    (hid : m.nodeId = m'.nodeId) : m.rank ≤ m'.rank := by
  have hstart : ∀ other ∈ node.members, m.nodeId = other.nodeId →
      m.rank ≤ other.rank := by
    intro other hother hsame
    rw [eq_of_nodeId_eq (reachable_nodup_ids hreach) hbefore hother hsame]
  refine (runs.run_invariant_of_runMeets
    (motive := fun node => runs.Reachable node ∧
      ∀ other ∈ node.members, m.nodeId = other.nodeId → m.rank ≤ other.rank)
    ?_ ⟨hreach, hstart⟩ hstays hrun).2 m' hafter hid
  intro node call next hgood hlisted hstep
  refine ⟨hgood.1.step hstep, fun other hother hsame => ?_⟩
  simp only [runs, Option.some.injEq] at hstep
  subst hstep
  obtain ⟨middle, hmiddle, hmiddleId⟩ := List.mem_map.mp hlisted
  exact (hgood.2 middle hmiddle hmiddleId.symm).trans
    (neverBackward_performCall hgood.1 call hmiddle hother
      (hmiddleId.trans hsame)).rank_le

/-- In every reachable state no call moves a member backward which is in the
list before and after it, and no run does while the member stays in the list. -/
theorem member_never_backward {node : Node Id} (hreach : runs.Reachable node)
    {m : Member Id} (hbefore : m ∈ node.members) :
    (∀ call, ∀ m' ∈ (performCall node call).members, m.nodeId = m'.nodeId →
      NeverBackward call m m') ∧
    ∀ calls final, runs.RunMeets (fun node _ => m.nodeId ∈ node.ids) node calls →
      runs.run node calls = some final → ∀ m' ∈ final.members,
        m.nodeId = m'.nodeId →
          m.rank ≤ m'.rank ∧ (m.state = left → m'.state = left) := by
  refine ⟨fun call m' hafter hid => neverBackward_performCall hreach call hbefore hafter
    hid, fun calls final hstays hrun m' hafter hid => ?_⟩
  have hle := run_rank_le hreach hbefore hstays hrun hafter hid
  exact ⟨hle, left_of_rank_le hle⟩

/-- A fresh node with member 7. -/
def oneMember : Node ℕ := performCall (create 0 0 0 none 0) (.addMember 7 1 2 10)

theorem reachable_oneMember : runs.Reachable oneMember :=
  (runs.reachable_of_initial ⟨_, _, _, _, _, rfl⟩).step
    (show runs.step (create 0 0 0 none 0) (.addMember 7 1 2 10) = some oneMember from rfl)

/-- Five members joined and one of them was reported; then one was suspected and one removed. -/
def fiveJoined : List (Call ℕ) :=
  [7, 8, 9, 11, 13].map (Call.addMember · 1 2 10) ++
    [.getUpdates 2, .suspectMember 8 20, .removeMember 9 30]

def fiveMembers : Node ℕ := fiveJoined.foldl performCall (create 0 0 0 none 0)

theorem reachable_fiveMembers : runs.Reachable fiveMembers :=
  ⟨_, fiveJoined, ⟨_, _, _, _, _, rfl⟩, rfl⟩

/-- The member 7 once it is suspected. -/
def suspectedSeven : Member ℕ :=
  { newMember 7 1 2 10 with state := suspect, suspectMs := 20, lastChangeMs := 20 }

theorem member_never_backward_suspected :
    NeverBackward (.suspectMember 7 20) (newMember 7 1 2 10) suspectedSeven :=
  (member_never_backward reachable_oneMember (by decide)).1 (.suspectMember 7 20)
    suspectedSeven (by decide) rfl

end Swim
end LibWake
