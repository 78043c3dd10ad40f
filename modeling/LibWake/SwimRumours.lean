import LibWake.SwimConvergence
import LibWake.SwimQueue
import LibWake.SwimRefutation

/-!
# What a node says about the others

A rumour is the part of a member entry or of an update which the state machine compares: whom
it is about, the state and the incarnation.  Every rumour at a node behind a call was there
before, or has one of seven sources.
-/

namespace LibWake
namespace Swim

structure Rumour (Id : Type) where
  nodeId : Id
  state : UInt8
  incarnation : UInt32
  deriving DecidableEq, Repr

variable {Id : Type}

def Member.rumour (m : Member Id) : Rumour Id := ⟨m.nodeId, m.state, m.incarnation⟩

def Update.rumour (u : Update Id) : Rumour Id := ⟨u.nodeId, u.state, u.incarnation⟩

/-- The rumours in the member table and in the update queue. -/
def rumours (node : Node Id) : List (Rumour Id) :=
  node.members.map Member.rumour ++ node.updates.map Update.rumour

@[simp] theorem news_rumour (u : Update Id) : u.news.rumour = u.rumour := rfl

theorem mem_rumours {node : Node Id} {r : Rumour Id} :
    r ∈ rumours node ↔
      (∃ m ∈ node.members, m.rumour = r) ∨ ∃ u ∈ node.updates, u.rumour = r := by
  simp only [rumours, List.mem_append, List.mem_map]

theorem rumour_of_member {node : Node Id} {m : Member Id} (hmem : m ∈ node.members) :
    m.rumour ∈ rumours node :=
  mem_rumours.mpr (.inl ⟨m, hmem, rfl⟩)

/-- Handing updates out does not change what they say. -/
theorem rumours_of_news {updates others : List (Update Id)}
    (hnews : updates.map Update.news = others.map Update.news) :
    updates.map Update.rumour = others.map Update.rumour := by
  have hrumours := congrArg (List.map Update.rumour) hnews
  simpa only [List.map_map, Function.comp_def, news_rumour] using hrumours

variable [DecidableEq Id]

/-- Where a rumour at the node behind a call comes from. -/
inductive Stems (node : Node Id) (call : Call Id) : Rumour Id → Prop
  | known {r : Rumour Id} (hknown : r ∈ rumours node) : Stems node call r
  | fresh (nodeId : Id) : Stems node call ⟨nodeId, alive, 0⟩
  | removed {m : Member Id} (hmem : m ∈ node.members) (now : UInt64)
      (hcall : call = .removeMember m.nodeId now) :
      Stems node call ⟨m.nodeId, left, m.incarnation⟩
  | suspected {m : Member Id} (hmem : m ∈ node.members) (halive : m.state = alive)
      (now : UInt64) (hcall : call = .suspectMember m.nodeId now) :
      Stems node call ⟨m.nodeId, suspect, m.incarnation⟩
  | expired {m : Member Id} (hmem : m ∈ node.members) (now : UInt64)
      (hcall : call = .checkSuspects now)
      (hover : suspicionOver now (suspectTimeout node) m = true) :
      Stems node call ⟨m.nodeId, dead, m.incarnation⟩
  | told (update : Update Id) (now : UInt64) (hcall : call = .applyUpdate update now)
      (hother : update.nodeId ≠ node.selfId) : Stems node call update.rumour
  | refuted (update : Update Id) (now : UInt64) (hcall : call = .applyUpdate update now)
      (haccuses : update.Accuses node.selfId) :
      Stems node call ⟨node.selfId, alive, (performCall node call).selfIncarnation⟩

theorem Change.stems {node : Node Id} {call : Call Id} {m m' : Member Id}
    (hmem : m ∈ node.members) (hself : m.nodeId ≠ node.selfId)
    (hchange : Change node call m m') : Stems node call m'.rumour := by
  cases hchange with
  | kept => exact .known (rumour_of_member hmem)
  | removed now hcall => exact .removed (m := m) hmem now hcall
  | suspected now hcall halive => exact .suspected (m := m) hmem halive now hcall
  | updated update now hcall hid _ =>
      have hrumour : (updatedMember m update now).rumour = update.rumour := by
        rw [Update.rumour, hid]
        rfl
      rw [hrumour]
      exact .told update now hcall (hid ▸ hself)
  | expired now hcall hover => exact .expired (m := m) hmem now hcall hover

theorem Effect.member_stems {node node' : Node Id} {call : Call Id}
    (heffect : Effect node call node') (hself : node.selfId ∉ node.ids) {m : Member Id}
    (hmem : m ∈ node'.members) : Stems node call m.rumour := by
  have hother : ∀ m ∈ node.members, m.nodeId ≠ node.selfId :=
    fun m hm heq => hself (List.mem_map.mpr ⟨m, hm, heq⟩)
  cases heffect with
  | quiet _ hmembers => exact .known (rumour_of_member (hmembers ▸ hmem))
  | emptied _ _ hmembers =>
      rw [hmembers] at hmem
      cases hmem
  | reaped _ _ _ _ hmembers => exact .known (rumour_of_member (hmembers.subset hmem))
  | sent _ _ hmembers => exact .known (rumour_of_member (hmembers ▸ hmem))
  | refuted _ _ _ hmembers => exact .known (rumour_of_member (hmembers ▸ hmem))
  | joined joiner incarnation _ hjoins _ _ halive hfresh hwritten hmembers =>
      rw [hmembers] at hmem
      rcases List.mem_append.mp hmem with hold | hnew
      · exact .known (rumour_of_member hold)
      · rw [List.mem_singleton.mp hnew]
        rcases hwritten with rfl | ⟨update, now, hcall, hid, hstate, rfl⟩
        · have hrumour : ({ joiner with incarnation := joiner.incarnation } : Member Id).rumour =
              ⟨joiner.nodeId, alive, 0⟩ := by
            rw [Member.rumour, halive, hfresh]
          rw [hrumour]
          exact .fresh joiner.nodeId
        · have hrumour : ({ joiner with incarnation := update.incarnation } : Member Id).rumour =
              update.rumour := by
            rw [Member.rumour, Update.rumour, halive, hid, hstate]
          rw [hrumour]
          exact .told update now hcall (hid ▸ hjoins)
  | changed idx old new hget hchange =>
      rw [changeMember_members] at hmem
      have hold := List.mem_of_getElem? hget
      rcases List.mem_or_eq_of_mem_set hmem with hkept | rfl
      · exact .known (rumour_of_member hkept)
      · exact hchange.stems hold (hother old hold)
  | checked now hcall =>
      rw [checkSuspects_members] at hmem
      obtain ⟨old, hold, rfl⟩ := List.mem_map.mp hmem
      unfold checkedMember
      split_ifs with hover
      · exact .expired (m := old) hold now hcall hover
      · exact .known (rumour_of_member hold)

/-- The members whose change a call queues. -/
theorem reported_stems {node : Node Id} {call : Call Id} {m : Member Id}
    (hmem : m ∈ reportedMembers node call) : Stems node call m.rumour := by
  cases call with
  | addMember nodeId addr port now =>
      rw [reportedMembers] at hmem
      split_ifs at hmem
      · rw [List.mem_singleton.mp hmem]
        exact .fresh nodeId
      · cases hmem
  | removeMember nodeId now =>
      rw [reportedMembers] at hmem
      split_ifs at hmem
      · cases hmem
      · cases hfind : findMember node nodeId with
        | none =>
            rw [hfind] at hmem
            cases hmem
        | some found =>
            obtain ⟨idx, old⟩ := found
            obtain ⟨hget, hid⟩ := findMember_some hfind
            rw [hfind] at hmem
            rw [List.mem_singleton.mp hmem]
            exact .removed (m := old) (List.mem_of_getElem? hget) now (by rw [hid])
  | applyUpdate update now =>
      rw [reportedMembers] at hmem
      by_cases hown : update.nodeId = node.selfId
      · rw [if_pos hown] at hmem
        split_ifs at hmem with haccused
        · have hrumour : (selfMember (applySelf node update now).2 now).rumour =
              ⟨node.selfId, alive,
                (performCall node (.applyUpdate update now)).selfIncarnation⟩ := by
            rw [performCall_applySelf hown, Member.rumour, selfMember,
              ← (performCall_config node (.applyUpdate update now)).2,
              performCall_applySelf hown]
          rw [List.mem_singleton.mp hmem, hrumour]
          exact .refuted update now rfl ⟨hown, haccused⟩
        · cases hmem
      · rw [if_neg hown] at hmem
        cases hfind : findMember node update.nodeId with
        | none =>
            rw [hfind] at hmem
            simp only at hmem
            split_ifs at hmem
            · rw [List.mem_singleton.mp hmem]
              exact .fresh update.nodeId
            · cases hmem
        | some found =>
            obtain ⟨idx, old⟩ := found
            obtain ⟨-, hid⟩ := findMember_some hfind
            rw [hfind] at hmem
            simp only at hmem
            split_ifs at hmem
            · have hrumour : (updatedMember old update now).rumour = update.rumour := by
                rw [Update.rumour, ← hid]
                rfl
              rw [List.mem_singleton.mp hmem, hrumour]
              exact .told update now rfl hown
            · cases hmem
  | suspectMember nodeId now =>
      rw [reportedMembers] at hmem
      split_ifs at hmem
      · cases hmem
      · cases hfind : findMember node nodeId with
        | none =>
            rw [hfind] at hmem
            cases hmem
        | some found =>
            obtain ⟨idx, old⟩ := found
            obtain ⟨hget, hid⟩ := findMember_some hfind
            rw [hfind] at hmem
            simp only at hmem
            split_ifs at hmem with hstate
            · cases hmem
            · rw [List.mem_singleton.mp hmem]
              exact .suspected (m := old) (List.mem_of_getElem? hget) (not_not.mp hstate) now
                (by rw [hid])
  | checkSuspects now =>
      obtain ⟨old, hold, rfl⟩ := List.mem_map.mp hmem
      obtain ⟨hold, hover⟩ := List.mem_filter.mp hold
      exact .expired (m := old) hold now rfl hover
  | _ => cases hmem

/-- A queue into which the changes of some members were put. -/
theorem mem_queued {size : ℕ} {queue : List (Update Id)} {members : List (Member Id)}
    {u : Update Id}
    (hmem : u ∈ (members.map fun m => QueueUse.queued m.toUpdate).foldl (useQueue size) queue) :
    u ∈ queue ∨ ∃ m ∈ members, u = m.toUpdate := by
  induction members generalizing queue with
  | nil => exact .inl hmem
  | cons m rest ih =>
      rcases ih hmem with hqueue | ⟨other, hother, hu⟩
      · rcases mem_enqueue hqueue with hnew | hold
        · exact .inr ⟨m, List.mem_cons_self, hnew⟩
        · exact .inl hold
      · exact .inr ⟨other, List.mem_cons_of_mem m hother, hu⟩

omit [DecidableEq Id] in
theorem rumour_of_news {updates others : List (Update Id)}
    (hnews : updates.map Update.news = others.map Update.news) {u : Update Id}
    (hmem : u ∈ updates) : ∃ v ∈ others, v.rumour = u.rumour := by
  have hrumour : u.rumour ∈ updates.map Update.rumour := List.mem_map.mpr ⟨u, hmem, rfl⟩
  rw [rumours_of_news hnews] at hrumour
  exact List.mem_map.mp hrumour

omit [DecidableEq Id] in
/-- What is handed out was in the queue. -/
theorem selectUpdates_rumour {count : ℕ} {updates : List (Update Id)} {selected : List ℕ}
    {u : Update Id} (hmem : u ∈ (selectUpdates count updates selected).1) :
    ∃ v ∈ updates, v.rumour = u.rumour := by
  induction count generalizing updates selected with
  | zero => cases hmem
  | succ count ih =>
      unfold selectUpdates at hmem
      cases hbest : bestUpdate updates selected with
      | none =>
          rw [hbest] at hmem
          cases hmem
      | some best =>
          rw [hbest] at hmem
          simp only at hmem
          cases hget : updates[best]? with
          | none =>
              rw [hget] at hmem
              cases hmem
          | some old =>
              rw [hget] at hmem
              have hold := List.mem_of_getElem? hget
              rcases List.mem_cons.mp hmem with rfl | hrest
              · exact ⟨u, hold, rfl⟩
              · obtain ⟨v, hv, hrumour⟩ := ih hrest
                rcases List.mem_or_eq_of_mem_set hv with hkept | rfl
                · exact ⟨v, hkept, hrumour⟩
                · exact ⟨old, hold, hrumour⟩

omit [DecidableEq Id] in
theorem getUpdates_rumour {node : Node Id} {max : ℕ} {u : Update Id}
    (hmem : u ∈ (getUpdates node max).1) : u.rumour ∈ rumours node := by
  rw [(getUpdates_handOut node max).1, handOut] at hmem
  split_ifs at hmem
  · cases hmem
  · obtain ⟨v, hv, hrumour⟩ := selectUpdates_rumour hmem
    exact mem_rumours.mpr (.inr ⟨v, hv, hrumour⟩)

/-- The queue of a node behind a call. -/
theorem update_stems {node : Node Id} (call : Call Id) {u : Update Id}
    (hmem : u ∈ (performCall node call).updates) : Stems node call u.rumour := by
  have hqueued : u ∈ ((reportedMembers node call).map fun m => QueueUse.queued m.toUpdate).foldl
      (useQueue node.config.updateQueueSize.toNat) node.updates →
      Stems node call u.rumour := by
    intro hfold
    rcases mem_queued hfold with hold | ⟨m, hm, rfl⟩
    · exact .known (mem_rumours.mpr (.inr ⟨u, hold, rfl⟩))
    · exact reported_stems hm
  rw [performCall_updates] at hmem
  cases call with
  | reset => cases hmem
  | getUpdates max =>
      have hraised : u ∈ (handOut max node.aliveCount node.updates).2 := hmem
      rw [handOut] at hraised
      split_ifs at hraised
      · exact .known (mem_rumours.mpr (.inr ⟨u, hraised, rfl⟩))
      · have hnews := selectUpdates_news (min max node.updates.length) node.updates []
        obtain ⟨v, hv, hrumour⟩ := rumour_of_news hnews (List.mem_filter.mp hraised).1
        exact .known (mem_rumours.mpr (.inr ⟨v, hv, hrumour⟩))
  | _ => exact hqueued hmem

/-- Every rumour at a node behind a call has one of the seven sources. -/
theorem stems_performCall {node : Node Id} (hself : node.selfId ∉ node.ids) (call : Call Id)
    {r : Rumour Id} (hmem : r ∈ rumours (performCall node call)) : Stems node call r := by
  rcases mem_rumours.mp hmem with ⟨m, hm, rfl⟩ | ⟨u, hu, rfl⟩
  · exact (effect_performCall node call).member_stems hself hm
  · exact update_stems call hu

end Swim
end LibWake
