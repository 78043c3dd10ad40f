import LibWake.SwimRumours

/-!
# A group of SWIM nodes

The nodes hand out updates, and any update which was ever handed out may reach any node at any
time, any number of times or never; the wire does not carry the piggyback count.  The transport
and the probes of the code are not part of this system: what they decide enters as calls of
`suspect_member` and the other operations at times of the environment's choice.

Nobody but a node itself raises its incarnation, every accusation stems from a node which
suspected the accused, and what a refuted accusation said can no longer prevail.
-/

namespace LibWake
namespace Swim

structure Group (Id : Type) where
  node : Id → Node Id
  air : List (Update Id)

inductive GroupEvent (Id : Type) where
  | perform (i : Id) (call : Call Id)
  | hear (i : Id) (k : ℕ) (now : UInt64)
  deriving DecidableEq, Repr

variable {Id : Type}

/-- An update is applied when it is heard, and only then. -/
def Call.isOwn : Call Id → Bool
  | .applyUpdate _ _ => false
  | _ => true

/-- The updates which a call hands out. -/
def handed (node : Node Id) : Call Id → List (Update Id)
  | .getUpdates max => (getUpdates node max).1
  | _ => []

/-- Somebody says so, or somebody said so. -/
def Group.Says (g : Group Id) (r : Rumour Id) : Prop :=
  (∃ i, r ∈ rumours (g.node i)) ∨ ∃ u ∈ g.air, u.rumour = r

variable [DecidableEq Id]

def Group.act (g : Group Id) (i : Id) (call : Call Id) : Group Id where
  node := Function.update g.node i (performCall (g.node i) call)
  air := g.air ++ handed (g.node i) call

def Group.step (g : Group Id) : GroupEvent Id → Option (Group Id)
  | .perform i call => if call.isOwn then some (g.act i call) else none
  | .hear i k now => g.air[k]?.map fun u => g.act i (.applyUpdate u.news now)

def group : TransitionSystem (Group Id) (GroupEvent Id) where
  Initial g := g.air = [] ∧
    ∀ i, ∃ addr port cfg addressSeed, create i addr port cfg addressSeed = g.node i
  step := Group.step

/-- Each node has its own id, and its calls made it what it is. -/
structure Standing (g : Group Id) : Prop where
  selfId : ∀ i, (g.node i).selfId = i
  reachable : ∀ i, runs.Reachable (g.node i)

section Steps

variable {g next : Group Id} {event : GroupEvent Id}

theorem act_node_self (g : Group Id) (i : Id) (call : Call Id) :
    (g.act i call).node i = performCall (g.node i) call := by
  simp only [Group.act, Function.update_self]

theorem act_node_of_ne (g : Group Id) {i j : Id} (hne : j ≠ i) (call : Call Id) :
    (g.act i call).node j = g.node j := by
  simp only [Group.act, Function.update_of_ne hne]

/-- One event is one call at one node; the only calls of `apply_update` are for updates in
the air. -/
theorem exists_call_of_step (hstep : group.step g event = some next) :
    ∃ i call, next = g.act i call ∧
      ((event = .perform i call ∧ call.isOwn = true) ∨
        ∃ k now u, event = .hear i k now ∧ g.air[k]? = some u ∧
          call = .applyUpdate u.news now) := by
  cases event with
  | perform i call =>
      simp only [group, Group.step] at hstep
      split_ifs at hstep with hown
      exact ⟨i, call, (Option.some.inj hstep).symm, .inl ⟨rfl, hown⟩⟩
  | hear i k now =>
      obtain ⟨u, hu, hnext⟩ := Option.map_eq_some_iff.mp hstep
      exact ⟨i, _, hnext.symm, .inr ⟨k, now, u, rfl, hu, rfl⟩⟩

theorem step_hear {i : Id} {k : ℕ} {u : Update Id} (hu : g.air[k]? = some u) (now : UInt64) :
    group.step g (.hear i k now) = some (g.act i (.applyUpdate u.news now)) :=
  congrArg (Option.map fun u : Update Id => g.act i (.applyUpdate u.news now)) hu

theorem standing_of_initial (hinitial : group.Initial g) : Standing g := by
  obtain ⟨-, hcreated⟩ := hinitial
  refine ⟨fun i => ?_, fun i => ?_⟩
  · obtain ⟨addr, port, cfg, addressSeed, hcreate⟩ := hcreated i
    rw [← hcreate]
    rfl
  · obtain ⟨addr, port, cfg, addressSeed, hcreate⟩ := hcreated i
    exact runs.reachable_of_initial ⟨i, addr, port, cfg, addressSeed, hcreate⟩

theorem Standing.step (hstanding : Standing g) (hstep : group.step g event = some next) :
    Standing next := by
  obtain ⟨i, call, rfl, -⟩ := exists_call_of_step hstep
  refine ⟨fun j => ?_, fun j => ?_⟩
  · by_cases hji : j = i
    · subst hji
      rw [act_node_self, (performCall_config _ call).2]
      exact hstanding.selfId j
    · rw [act_node_of_ne g hji]
      exact hstanding.selfId j
  · by_cases hji : j = i
    · subst hji
      rw [act_node_self]
      exact (hstanding.reachable j).step
        (show runs.step (g.node j) call = some (performCall (g.node j) call) from rfl)
    · rw [act_node_of_ne g hji]
      exact hstanding.reachable j

theorem Standing.not_self (hstanding : Standing g) (i : Id) :
    (g.node i).selfId ∉ (g.node i).ids := by
  intro hmem
  obtain ⟨m, hm, hid⟩ := List.mem_map.mp hmem
  exact (reachable_wellFormed (hstanding.reachable i)).members.not_self m hm hid

/-- Where a rumour in the group behind an event comes from. -/
inductive Arises (g : Group Id) (event : GroupEvent Id) (next : Group Id) : Rumour Id → Prop
  | known {r : Rumour Id} (hsaid : g.Says r) : Arises g event next r
  | fresh (nodeId : Id) : Arises g event next ⟨nodeId, alive, 0⟩
  | removed {i : Id} {m : Member Id} (hmem : m ∈ (g.node i).members) (now : UInt64)
      (hevent : event = .perform i (.removeMember m.nodeId now)) :
      Arises g event next ⟨m.nodeId, left, m.incarnation⟩
  | suspected {i : Id} {m : Member Id} (hmem : m ∈ (g.node i).members)
      (halive : m.state = alive) (now : UInt64)
      (hevent : event = .perform i (.suspectMember m.nodeId now)) :
      Arises g event next ⟨m.nodeId, suspect, m.incarnation⟩
  | expired {i : Id} {m : Member Id} (hmem : m ∈ (g.node i).members) (now : UInt64)
      (hevent : event = .perform i (.checkSuspects now))
      (hover : suspicionOver now (suspectTimeout (g.node i)) m = true) :
      Arises g event next ⟨m.nodeId, dead, m.incarnation⟩
  | refuted {i : Id} {k : ℕ} {now : UInt64} {u : Update Id}
      (hevent : event = .hear i k now) (hu : g.air[k]? = some u) (haccuses : u.Accuses i) :
      Arises g event next ⟨i, alive, (next.node i).selfIncarnation⟩

theorem Standing.arises (hstanding : Standing g) (hstep : group.step g event = some next)
    {r : Rumour Id} (hsaid : next.Says r) : Arises g event next r := by
  obtain ⟨i, call, rfl, hcall⟩ := exists_call_of_step hstep
  rcases hsaid with ⟨j, hr⟩ | ⟨u, hu, rfl⟩
  · by_cases hji : j = i
    · subst hji
      rw [act_node_self] at hr
      have hown : ∀ {other : Call Id}, call = other → other.isOwn = true →
          event = .perform j other := by
        rintro other rfl hother
        rcases hcall with ⟨hevent, -⟩ | ⟨k, now, u, -, -, rfl⟩
        · exact hevent
        · cases hother
      cases stems_performCall (hstanding.not_self j) call hr with
      | known hknown => exact .known (.inl ⟨j, hknown⟩)
      | fresh nodeId => exact .fresh nodeId
      | removed hmem now heq => exact .removed hmem now (hown heq rfl)
      | suspected hmem halive now heq => exact .suspected hmem halive now (hown heq rfl)
      | expired hmem now heq hover => exact .expired hmem now (hown heq rfl) hover
      | told update now heq hother =>
          rcases hcall with ⟨-, hfalse⟩ | ⟨k, time, u, -, hu, hhear⟩
          · rw [heq] at hfalse
            cases hfalse
          · obtain ⟨rfl, rfl⟩ := Call.applyUpdate.inj (heq.symm.trans hhear)
            exact .known (.inr ⟨u, List.mem_of_getElem? hu, rfl⟩)
      | refuted update now heq haccuses =>
          rcases hcall with ⟨-, hfalse⟩ | ⟨k, time, u, hevent, hu, hhear⟩
          · rw [heq] at hfalse
            cases hfalse
          · obtain ⟨rfl, rfl⟩ := Call.applyUpdate.inj (heq.symm.trans hhear)
            rw [hstanding.selfId j] at haccuses ⊢
            rw [← act_node_self]
            exact .refuted hevent hu haccuses
    · rw [act_node_of_ne g hji] at hr
      exact .known (.inl ⟨j, hr⟩)
  · rcases List.mem_append.mp hu with hold | hnew
    · exact .known (.inr ⟨u, hold, rfl⟩)
    · cases call with
      | getUpdates max => exact .known (.inl ⟨i, getUpdates_rumour hnew⟩)
      | _ => cases hnew

/-! ## Incarnations -/

/-- An accused node refutes. -/
theorem Standing.refutes (hstanding : Standing g) {i : Id} {k : ℕ} {now : UInt64}
    {u : Update Id} (hu : g.air[k]? = some u) (haccuses : u.Accuses i)
    (hstep : group.step g (.hear i k now) = some next) :
    (next.node i).selfIncarnation =
        raisedIncarnation (g.node i).selfIncarnation u.incarnation ∧
      refutation (g.node i) (next.node i).selfIncarnation ∈ (next.node i).updates := by
  obtain ⟨other, hother, rfl⟩ := Option.map_eq_some_iff.mp hstep
  obtain rfl : u = other := Option.some.inj (hu.symm.trans hother)
  have haccused : u.news.Accuses (g.node i).selfId := by
    rw [hstanding.selfId i]
    exact haccuses
  obtain ⟨hraised, hqueued⟩ :=
    applyUpdate_accused haccused (reachable_queueSize_pos (hstanding.reachable i)) now
  rw [act_node_self]
  change (applyUpdate (g.node i) u.news now).2.selfIncarnation = _ ∧
    refutation (g.node i) (applyUpdate (g.node i) u.news now).2.selfIncarnation ∈
      (applyUpdate (g.node i) u.news now).2.updates
  rw [hraised]
  exact ⟨rfl, hqueued⟩

/-- A node changes its incarnation only when it hears of itself. -/
theorem Standing.selfIncarnation (hstanding : Standing g)
    (hstep : group.step g event = some next) (i : Id) :
    (next.node i).selfIncarnation = (g.node i).selfIncarnation ∨
      ∃ k now u, event = .hear i k now ∧ g.air[k]? = some u ∧ u.nodeId = i ∧
        ((u.Accuses i ∧ (next.node i).selfIncarnation =
            raisedIncarnation (g.node i).selfIncarnation u.incarnation) ∨
          ((g.node i).selfIncarnation < u.incarnation ∧
            (next.node i).selfIncarnation = u.incarnation)) := by
  cases event with
  | perform j call =>
      obtain ⟨j, call, rfl, ⟨-, hown⟩ | ⟨k, now, u, hfalse, -⟩⟩ := exists_call_of_step hstep
      · left
        by_cases hij : i = j
        · subst hij
          rw [act_node_self]
          refine (performCall_identity _ call fun update now heq => ?_).selfIncarnation
          rw [heq] at hown
          cases hown
        · rw [act_node_of_ne g hij]
      · cases hfalse
  | hear j k now =>
      obtain ⟨u, hu, hnext⟩ := Option.map_eq_some_iff.mp hstep
      by_cases hij : i = j
      · subst hij
        by_cases habout : u.nodeId = i
        · by_cases haccused : u.state = suspect ∨ u.state = dead
          · have hraised := (hstanding.refutes hu ⟨habout, haccused⟩ hstep).1
            exact .inr ⟨k, now, u, rfl, hu, habout, .inl ⟨⟨habout, haccused⟩, hraised⟩⟩
          · have hself : u.news.nodeId = (g.node i).selfId := by
              rw [hstanding.selfId i]
              exact habout
            have happly : applySelf (g.node i) u.news now =
                if u.incarnation > (g.node i).selfIncarnation then
                  (.noop, { g.node i with selfIncarnation := u.incarnation })
                else (.noop, g.node i) := if_neg haccused
            rw [← hnext, act_node_self, performCall_applySelf hself, happly]
            split_ifs with hgreater
            · exact .inr ⟨k, now, u, rfl, hu, habout, .inr ⟨hgreater, rfl⟩⟩
            · exact .inl rfl
        · left
          rw [← hnext, act_node_self]
          refine (performCall_identity _ _ fun update time heq => ?_).selfIncarnation
          obtain ⟨rfl, -⟩ := Call.applyUpdate.inj heq
          rw [hstanding.selfId i]
          exact habout
      · rw [← hnext, act_node_of_ne g hij]
        exact .inl rfl

/-- After at most `n` events no incarnation is above `n`, and nobody says more of a node than
it said itself. -/
structure Authority (n : ℕ) (g : Group Id) : Prop where
  standing : Standing g
  young : ∀ i, (g.node i).selfIncarnation.toNat ≤ n
  owned : ∀ r, g.Says r → r.incarnation ≤ (g.node r.nodeId).selfIncarnation

omit [DecidableEq Id] in
theorem Group.says_air {k : ℕ} {u : Update Id} (hu : g.air[k]? = some u) : g.Says u.rumour :=
  .inr ⟨u, List.mem_of_getElem? hu, rfl⟩

omit [DecidableEq Id] in
theorem Group.says_member {i : Id} {m : Member Id} (hmem : m ∈ (g.node i).members) :
    g.Says m.rumour :=
  .inl ⟨i, rumour_of_member hmem⟩

variable {n : ℕ}

/-- While the counters do not wrap, a node's incarnation grows by one at most. -/
theorem Authority.selfIncarnation (hauthority : Authority n g) (hn : n + 1 < 2 ^ 32)
    (hstep : group.step g event = some next) (i : Id) :
    (g.node i).selfIncarnation ≤ (next.node i).selfIncarnation ∧
      (next.node i).selfIncarnation.toNat ≤ n + 1 := by
  have hyoung := hauthority.young i
  rcases hauthority.standing.selfIncarnation hstep i with
    hsame | ⟨k, now, u, -, hu, rfl, ⟨-, hraised⟩ | ⟨hgreater, -⟩⟩
  · rw [hsame]
    exact ⟨UInt32.le_refl _, by omega⟩
  · have howned : u.incarnation ≤ (g.node u.nodeId).selfIncarnation :=
      hauthority.owned u.rumour (Group.says_air hu)
    have hle := UInt32.le_iff_toNat_le.mp howned
    have hne : u.incarnation ≠ maxIncarnation := by
      intro heq
      have hmax : maxIncarnation.toNat = 2 ^ 32 - 1 := rfl
      rw [heq, hmax] at hle
      omega
    rw [hraised]
    refine ⟨le_raisedIncarnation _ hne, ?_⟩
    unfold raisedIncarnation
    split_ifs
    · rw [toNat_succ_of_ne_max hne]
      omega
    · omega
  · have howned : u.incarnation ≤ (g.node u.nodeId).selfIncarnation :=
      hauthority.owned u.rumour (Group.says_air hu)
    exact absurd hgreater (UInt32.not_lt.mpr howned)

theorem Authority.step (hauthority : Authority n g) (hn : n + 1 < 2 ^ 32)
    (hstep : group.step g event = some next) : Authority (n + 1) next := by
  have hgrows := hauthority.selfIncarnation hn hstep
  have hkept : ∀ r, g.Says r → r.incarnation ≤ (next.node r.nodeId).selfIncarnation :=
    fun r hsaid => UInt32.le_trans (hauthority.owned r hsaid) (hgrows r.nodeId).1
  refine ⟨hauthority.standing.step hstep, fun i => (hgrows i).2, fun r hsaid => ?_⟩
  cases hauthority.standing.arises hstep hsaid with
  | known hknown => exact hkept r hknown
  | fresh nodeId => exact UInt32.zero_le
  | @removed i m hmem => exact hkept m.rumour (Group.says_member hmem)
  | @suspected i m hmem => exact hkept m.rumour (Group.says_member hmem)
  | @expired i m hmem => exact hkept m.rumour (Group.says_member hmem)
  | refuted => exact UInt32.le_refl _

theorem Authority.run (hauthority : Authority n g) {events : List (GroupEvent Id)}
    (hn : n + events.length < 2 ^ 32) (hrun : group.run g events = some next) :
    Authority (n + events.length) next := by
  induction events generalizing g n with
  | nil =>
      obtain rfl := Option.some.inj hrun
      exact hauthority
  | cons event rest ih =>
      obtain ⟨middle, hstep, hrest⟩ := group.run_cons_eq_some.mp hrun
      have hlength : n + (event :: rest).length = n + 1 + rest.length := by
        rw [List.length_cons]
        omega
      rw [hlength] at hn ⊢
      exact ih (hauthority.step (by omega) hstep) hn hrest

theorem not_says_of_initial (hinitial : group.Initial g) (r : Rumour Id) : ¬ g.Says r := by
  obtain ⟨hair, hcreated⟩ := hinitial
  rintro (⟨i, hr⟩ | ⟨u, hu, -⟩)
  · obtain ⟨addr, port, cfg, addressSeed, hcreate⟩ := hcreated i
    rw [← hcreate] at hr
    cases hr
  · rw [hair] at hu
    cases hu

theorem authority_of_initial (hinitial : group.Initial g) : Authority 0 g := by
  refine ⟨standing_of_initial hinitial, fun i => ?_, fun r hsaid => ?_⟩
  · obtain ⟨addr, port, cfg, addressSeed, hcreate⟩ := hinitial.2 i
    rw [← hcreate]
    exact Nat.le_refl 0
  · exact absurd hsaid (not_says_of_initial hinitial r)

/-- Two nodes which do not know each other. -/
def duo : Group ℕ := ⟨fun i => create i 0 0 none 0, []⟩

theorem initial_duo : group.Initial duo := ⟨rfl, fun _ => ⟨0, 0, none, 0, rfl⟩⟩

/-- Node 0 learns of node 1, suspects it and tells so. -/
def accusing : List (GroupEvent ℕ) :=
  [.perform 0 (.addMember 1 1 2 10), .perform 0 (.suspectMember 1 20), .perform 0 (.getUpdates 5)]

/-- Node 1 refutes. -/
def answering : List (GroupEvent ℕ) := [.hear 1 0 30, .perform 1 (.getUpdates 5)]

/-- In a run of fewer than 2^32 events no entry, no queued update and no update in the air has
a higher incarnation than the node which it is about. -/
theorem incarnation_authority {events : List (GroupEvent Id)} (hinitial : group.Initial g)
    (hrun : group.run g events = some next) (hlength : events.length < 2 ^ 32) :
    (∀ i, ∀ m ∈ (next.node i).members,
        m.incarnation ≤ (next.node m.nodeId).selfIncarnation) ∧
      (∀ i, ∀ u ∈ (next.node i).updates,
        u.incarnation ≤ (next.node u.nodeId).selfIncarnation) ∧
      ∀ u ∈ next.air, u.incarnation ≤ (next.node u.nodeId).selfIncarnation := by
  have hzero : 0 + events.length < 2 ^ 32 := by omega
  have howned := ((authority_of_initial hinitial).run hzero hrun).owned
  refine ⟨fun i m hm => ?_, fun i u hu => ?_, fun u hu => ?_⟩
  · exact howned m.rumour (Group.says_member hm)
  · exact howned u.rumour (.inl ⟨i, mem_rumours.mpr (.inr ⟨u, hu, rfl⟩)⟩)
  · exact howned u.rumour (.inr ⟨u, hu, rfl⟩)

theorem incarnation_authority_duo :
    ∃ final, group.run duo (accusing ++ answering) = some final ∧
      (⟨1, 0, 0, alive, 1, 0⟩ : Update ℕ) ∈ final.air ∧ 1 ≤ (final.node 1).selfIncarnation := by
  have htold : ((group.run duo (accusing ++ answering)).any fun final =>
      (⟨1, 0, 0, alive, 1, 0⟩ : Update ℕ) ∈ final.air) = true := by decide +kernel
  obtain ⟨final, hrun, hmem⟩ := (Option.any_eq_true _ _).mp htold
  have hmem := of_decide_eq_true hmem
  exact ⟨final, hrun, hmem,
    (incarnation_authority initial_duo hrun (by decide)).2.2 _ hmem⟩

end Steps

/-! ## Accusations -/

section Accusations

variable {g next : Group Id} {event : GroupEvent Id}

/-- Whom an event makes its node suspect, and at which incarnation. -/
def accusations (g : Group Id) : GroupEvent Id → List (Id × UInt32)
  | .perform i (.suspectMember nodeId _) =>
      ((g.node i).members.filter fun m => m.nodeId = nodeId ∧ m.state = alive).map
        fun m => (m.nodeId, m.incarnation)
  | _ => []

/-- Whom an event makes its node take for dead. -/
def condemnations (g : Group Id) : GroupEvent Id → List (Id × UInt32)
  | .perform i (.checkSuspects now) =>
      ((g.node i).members.filter (suspicionOver now (suspectTimeout (g.node i)))).map
        fun m => (m.nodeId, m.incarnation)
  | _ => []

/-- Whom an event makes its node report as gone. -/
def departures (g : Group Id) : GroupEvent Id → List (Id × UInt32)
  | .perform i (.removeMember nodeId _) =>
      ((g.node i).members.filter fun m => m.nodeId = nodeId).map
        fun m => (m.nodeId, m.incarnation)
  | _ => []

/-- What a rumour says was found out by some node. -/
inductive Founded (accused condemned departed : List (Id × UInt32)) : Rumour Id → Prop
  | alive (nodeId : Id) (incarnation : UInt32) :
      Founded accused condemned departed ⟨nodeId, Swim.alive, incarnation⟩
  | suspect {nodeId : Id} {incarnation : UInt32}
      (haccused : (nodeId, incarnation) ∈ accused) :
      Founded accused condemned departed ⟨nodeId, Swim.suspect, incarnation⟩
  | dead {nodeId : Id} {incarnation : UInt32}
      (haccused : (nodeId, incarnation) ∈ accused)
      (hcondemned : (nodeId, incarnation) ∈ condemned) :
      Founded accused condemned departed ⟨nodeId, Swim.dead, incarnation⟩
  | left {nodeId : Id} {incarnation : UInt32}
      (hdeparted : (nodeId, incarnation) ∈ departed) :
      Founded accused condemned departed ⟨nodeId, Swim.left, incarnation⟩

variable {accused condemned departed accused' condemned' departed' : List (Id × UInt32)}

omit [DecidableEq Id] in
theorem Founded.mono {r : Rumour Id} (hfounded : Founded accused condemned departed r)
    (haccused : accused ⊆ accused') (hcondemned : condemned ⊆ condemned')
    (hdeparted : departed ⊆ departed') : Founded accused' condemned' departed' r := by
  cases hfounded with
  | alive nodeId incarnation => exact .alive nodeId incarnation
  | suspect hmem => exact .suspect (haccused hmem)
  | dead hmem hdead => exact .dead (haccused hmem) (hcondemned hdead)
  | left hmem => exact .left (hdeparted hmem)

omit [DecidableEq Id] in
/-- Only a suspicion leads to a death. -/
theorem accused_of_founded {nodeId : Id} {incarnation : UInt32}
    (hfounded : Founded accused condemned departed ⟨nodeId, suspect, incarnation⟩) :
    (nodeId, incarnation) ∈ accused := by
  generalize hr : (⟨nodeId, suspect, incarnation⟩ : Rumour Id) = r at hfounded
  cases hfounded with
  | suspect hmem =>
      obtain ⟨rfl, -, rfl⟩ := Rumour.mk.inj hr
      exact hmem
  | alive =>
      obtain ⟨-, hstate, -⟩ := Rumour.mk.inj hr
      exact absurd hstate (by decide)
  | dead =>
      obtain ⟨-, hstate, -⟩ := Rumour.mk.inj hr
      exact absurd hstate (by decide)
  | left =>
      obtain ⟨-, hstate, -⟩ := Rumour.mk.inj hr
      exact absurd hstate (by decide)

theorem founded_step (hstanding : Standing g)
    (hfounded : ∀ r, g.Says r → Founded accused condemned departed r)
    (hstep : group.step g event = some next) {r : Rumour Id} (hsaid : next.Says r) :
    Founded (accused ++ accusations g event) (condemned ++ condemnations g event)
      (departed ++ departures g event) r := by
  have hkept : ∀ r, g.Says r → Founded (accused ++ accusations g event)
      (condemned ++ condemnations g event) (departed ++ departures g event) r :=
    fun r hr => (hfounded r hr).mono (List.subset_append_left _ _)
      (List.subset_append_left _ _) (List.subset_append_left _ _)
  cases hstanding.arises hstep hsaid with
  | known hknown => exact hkept r hknown
  | fresh nodeId => exact .alive nodeId 0
  | @removed i m hmem now hevent =>
      refine .left (List.mem_append_right _ ?_)
      rw [hevent]
      exact List.mem_map.mpr ⟨m, List.mem_filter.mpr ⟨hmem, decide_eq_true rfl⟩, rfl⟩
  | @suspected i m hmem halive now hevent =>
      refine .suspect (List.mem_append_right _ ?_)
      rw [hevent]
      exact List.mem_map.mpr
        ⟨m, List.mem_filter.mpr ⟨hmem, decide_eq_true ⟨rfl, halive⟩⟩, rfl⟩
  | @expired i m hmem now hevent hover =>
      have hstate : m.state = suspect := by
        unfold suspicionOver at hover
        simp only [Bool.and_eq_true, decide_eq_true_eq] at hover
        exact hover.1.1
      have hsuspected : Founded accused condemned departed ⟨m.nodeId, suspect, m.incarnation⟩ :=
        hstate ▸ hfounded m.rumour (Group.says_member hmem)
      refine .dead (List.mem_append_left _ (accused_of_founded hsuspected))
        (List.mem_append_right _ ?_)
      rw [hevent]
      exact List.mem_map.mpr ⟨m, List.mem_filter.mpr ⟨hmem, hover⟩, rfl⟩
  | @refuted i => exact .alive i _

theorem founded_run (hstanding : Standing g)
    (hfounded : ∀ r, g.Says r → Founded accused condemned departed r)
    {events : List (GroupEvent Id)} (hrun : group.run g events = some next) {r : Rumour Id}
    (hsaid : next.Says r) :
    Founded (accused ++ group.collect accusations g events)
      (condemned ++ group.collect condemnations g events)
      (departed ++ group.collect departures g events) r := by
  induction events generalizing g accused condemned departed with
  | nil =>
      obtain rfl := Option.some.inj hrun
      simp only [TransitionSystem.collect, List.append_nil]
      exact hfounded r hsaid
  | cons event rest ih =>
      obtain ⟨middle, hstep, hrest⟩ := group.run_cons_eq_some.mp hrun
      rw [group.collect_cons_of_step _ hstep, group.collect_cons_of_step _ hstep,
        group.collect_cons_of_step _ hstep, ← List.append_assoc, ← List.append_assoc,
        ← List.append_assoc]
      exact ih (hstanding.step hstep) (fun r hr => founded_step hstanding hfounded hstep hr)
        hrest

/-- Whatever any node says of any other at any time was found out by some node: a SUSPECT
stems from a node which suspected that incarnation while it held it ALIVE, a DEAD from one
where such a suspicion ran out, and a LEFT from one which removed the member. -/
theorem rumours_founded {events : List (GroupEvent Id)} (hinitial : group.Initial g)
    (hrun : group.run g events = some next) {r : Rumour Id} (hsaid : next.Says r) :
    Founded (group.collect accusations g events) (group.collect condemnations g events)
      (group.collect departures g events) r := by
  have hnothing : ∀ r, g.Says r → Founded [] [] [] r :=
    fun r hr => absurd hr (not_says_of_initial hinitial r)
  exact founded_run (standing_of_initial hinitial) hnothing hrun hsaid

/-- Behind the suspicion node 0 waits until it takes node 1 for dead. -/
theorem rumours_founded_duo :
    ∃ final, group.run duo (accusing ++ [.perform 0 (.checkSuspects 100000)]) = some final ∧
      final.Says ⟨1, dead, 0⟩ ∧
      Founded [(1, 0)] [(1, 0)] [] (⟨1, dead, 0⟩ : Rumour ℕ) := by
  have htold : ((group.run duo (accusing ++ [.perform 0 (.checkSuspects 100000)])).any
      fun final => ⟨1, dead, 0⟩ ∈ rumours (final.node 0)) = true := by decide +kernel
  obtain ⟨final, hrun, hmem⟩ := (Option.any_eq_true _ _).mp htold
  have hsaid : final.Says ⟨1, dead, 0⟩ := .inl ⟨0, of_decide_eq_true hmem⟩
  have haccused : group.collect accusations duo
      (accusing ++ [.perform 0 (.checkSuspects 100000)]) = [(1, 0)] := by decide +kernel
  have hcondemned : group.collect condemnations duo
      (accusing ++ [.perform 0 (.checkSuspects 100000)]) = [(1, 0)] := by decide +kernel
  have hdeparted : group.collect departures duo
      (accusing ++ [.perform 0 (.checkSuspects 100000)]) = [] := by decide +kernel
  have hfounded := rumours_founded initial_duo hrun hsaid
  rw [haccused, hcondemned, hdeparted] at hfounded
  exact ⟨final, hrun, hsaid, hfounded⟩

end Accusations

/-! ## Refutation -/

section Refutation

variable {g next : Group Id} {event : GroupEvent Id} {p : Id}

def GroupEvent.suspects (p : Id) : GroupEvent Id → Bool
  | .perform _ (.suspectMember nodeId _) => nodeId = p
  | _ => false

def GroupEvent.removes (p : Id) : GroupEvent Id → Bool
  | .perform _ (.removeMember nodeId _) => nodeId = p
  | _ => false

/-- From this incarnation on the node is only ever called ALIVE. -/
def AliveFrom (p : Id) (incarnation : UInt32) (g : Group Id) : Prop :=
  ∀ r, g.Says r → r.nodeId = p → incarnation ≤ r.incarnation → r.state = alive

def NeverLeft (p : Id) (g : Group Id) : Prop :=
  ∀ r, g.Says r → r.nodeId = p → r.state ≠ left

theorem Standing.neverLeft_step (hstanding : Standing g) (hnever : NeverLeft p g)
    (hstays : event.removes p = false) (hstep : group.step g event = some next) :
    NeverLeft p next := by
  intro r hsaid hid
  cases hstanding.arises hstep hsaid with
  | known hknown => exact hnever r hknown hid
  | fresh => exact (by decide : alive ≠ left)
  | removed hmem now hevent =>
      rw [hevent] at hstays
      exact absurd hid (of_decide_eq_false hstays)
  | suspected => exact (by decide : suspect ≠ left)
  | expired => exact (by decide : dead ≠ left)
  | refuted => exact (by decide : alive ≠ left)

theorem Standing.aliveFrom_step {incarnation : UInt32} (hstanding : Standing g)
    (halive : AliveFrom p incarnation g) (hspared : event.suspects p = false)
    (hstays : event.removes p = false) (hstep : group.step g event = some next) :
    AliveFrom p incarnation next := by
  intro r hsaid hid hle
  cases hstanding.arises hstep hsaid with
  | known hknown => exact halive r hknown hid hle
  | fresh => rfl
  | removed hmem now hevent =>
      rw [hevent] at hstays
      exact absurd hid (of_decide_eq_false hstays)
  | suspected hmem hstate now hevent =>
      rw [hevent] at hspared
      exact absurd hid (of_decide_eq_false hspared)
  | @expired i m hmem now hevent hover =>
      have hstate : m.state = alive := halive m.rumour (Group.says_member hmem) hid hle
      unfold suspicionOver at hover
      rw [hstate] at hover
      cases hover
  | refuted => rfl

/-- Behind a refutation nobody says anything else of the node at its new incarnation. -/
theorem Authority.aliveFrom_refutation {n : ℕ} (hauthority : Authority n g)
    (hn : n + 1 < 2 ^ 32) {k : ℕ} {now : UInt64} {u : Update Id} (hu : g.air[k]? = some u)
    (haccuses : u.Accuses p) (hraises : (g.node p).selfIncarnation ≤ u.incarnation)
    (hstep : group.step g (.hear p k now) = some next) :
    AliveFrom p (next.node p).selfIncarnation next := by
  have hraised := (hauthority.standing.refutes hu haccuses hstep).1
  rw [raisedIncarnation, if_pos hraises] at hraised
  have hown : u.incarnation ≤ (g.node u.nodeId).selfIncarnation :=
    hauthority.owned u.rumour (Group.says_air hu)
  have hle := UInt32.le_iff_toNat_le.mp hown
  have hyoung := hauthority.young u.nodeId
  have hne : u.incarnation ≠ maxIncarnation := by
    intro heq
    have hmax : maxIncarnation.toNat = 2 ^ 32 - 1 := rfl
    rw [heq, hmax] at hle
    omega
  intro r hsaid hid hfrom
  cases hauthority.standing.arises hstep hsaid with
  | known hknown =>
      have howned := UInt32.le_iff_toNat_le.mp (hauthority.owned r hknown)
      have hfrom := UInt32.le_iff_toNat_le.mp hfrom
      have hraises := UInt32.le_iff_toNat_le.mp hraises
      rw [hraised, toNat_succ_of_ne_max hne] at hfrom
      rw [hid] at howned
      omega
  | fresh => rfl
  | removed _ _ hevent => cases hevent
  | suspected _ _ _ hevent => cases hevent
  | expired _ _ hevent => cases hevent
  | refuted => rfl

/-- What holds of a refuted accusation from then on. -/
structure Cleared (p : Id) (incarnation : UInt32) (g : Group Id) : Prop where
  standing : Standing g
  neverLeft : NeverLeft p g
  aliveFrom : AliveFrom p incarnation g

variable {incarnation : UInt32} {events : List (GroupEvent Id)}

theorem Standing.neverLeft_run (hstanding : Standing g) (hnever : NeverLeft p g)
    (hstays : ∀ event ∈ events, event.removes p = false)
    (hrun : group.run g events = some next) : Standing next ∧ NeverLeft p next := by
  refine group.run_invariant_of_runMeets (motive := fun g => Standing g ∧ NeverLeft p g)
    (fun g event next hgood hstay hstep => ?_) ⟨hstanding, hnever⟩
    (group.runMeets_of_forall_mem g hstays) hrun
  exact ⟨hgood.1.step hstep, hgood.1.neverLeft_step hgood.2 hstay hstep⟩

theorem Cleared.step (hcleared : Cleared p incarnation g) (hspared : event.suspects p = false)
    (hstays : event.removes p = false) (hstep : group.step g event = some next) :
    Cleared p incarnation next where
  standing := hcleared.standing.step hstep
  neverLeft := hcleared.standing.neverLeft_step hcleared.neverLeft hstays hstep
  aliveFrom := hcleared.standing.aliveFrom_step hcleared.aliveFrom hspared hstays hstep

theorem Cleared.run (hcleared : Cleared p incarnation g)
    (hquiet : ∀ event ∈ events, event.suspects p = false ∧ event.removes p = false)
    (hrun : group.run g events = some next) : Cleared p incarnation next :=
  group.run_invariant_of_runMeets
    (fun _ _ _ hgood hquiet hstep => hgood.step hquiet.1 hquiet.2 hstep) hcleared
    (group.runMeets_of_forall_mem g hquiet) hrun

theorem rank_alive_le_iff {state : UInt8} {inc inc' : UInt32} (hstate : state ≠ left) :
    rank alive inc ≤ rank state inc' ↔ inc ≤ inc' := by
  rw [← not_lt, rank_lt_rank_iff hstate (by decide), ← UInt32.not_lt]
  refine not_congr ⟨fun hlt => hlt.resolve_right ?_, .inl⟩
  rintro ⟨-, hbelow⟩
  have hzero := UInt8.lt_iff_toNat_lt.mp hbelow
  have halive : alive.toNat = 0 := rfl
  omega

/-- Whoever is told of the refutation lists the node at its new incarnation or above. -/
theorem Cleared.listedAt_hear (hcleared : Cleared p incarnation g) {j : Id} {k : ℕ}
    {now : UInt64} {u : Update Id} (hlisted : p ∈ (g.node j).ids) (hu : g.air[k]? = some u)
    (habout : u.nodeId = p) (hnew : incarnation ≤ u.incarnation)
    (hstep : group.step g (.hear j k now) = some next) :
    ListedAt p (rank alive incarnation) (next.node j) := by
  obtain ⟨other, hother, rfl⟩ := Option.map_eq_some_iff.mp hstep
  obtain rfl : u = other := Option.some.inj (hu.symm.trans hother)
  have hself : u.news.nodeId ≠ (g.node j).selfId := by
    intro heq
    refine hcleared.standing.not_self j ?_
    rw [← heq]
    exact habout.symm ▸ hlisted
  have halive : u.state = alive :=
    hcleared.aliveFrom u.rumour (Group.says_air hu) habout hnew
  have hrank : rank alive incarnation ≤ u.news.rank := by
    change rank alive incarnation ≤ rank u.state u.incarnation
    rw [halive]
    exact (rank_alive_le_iff (by decide)).mpr hnew
  cases hfind : findMember (g.node j) u.news.nodeId with
  | none =>
      obtain ⟨m, hm, hid⟩ := List.mem_map.mp hlisted
      exact absurd (hid.trans habout.symm) (findMember_none.mp hfind m hm)
  | some found =>
      obtain ⟨idx, old⟩ := found
      obtain ⟨m, hm, hmax⟩ := applyUpdate_rank hself hfind now
      obtain ⟨hget, hid⟩ := findMember_some hm
      rw [act_node_self]
      refine ⟨m, List.mem_of_getElem? hget, hid.trans habout, ?_⟩
      rw [hmax]
      exact le_max_of_le_right hrank

theorem listedAt_step {j : Id} {bound : WithTop (ℕ ×ₗ ℕ)}
    (hlisted : ListedAt p bound (g.node j))
    (hkeeps : ∀ call, event = .perform j call → call.KeepsMembers)
    (hstep : group.step g event = some next) : ListedAt p bound (next.node j) := by
  obtain ⟨i, call, rfl, hcall⟩ := exists_call_of_step hstep
  by_cases hji : j = i
  · subst hji
    rw [act_node_self]
    refine hlisted.performCall ?_
    rcases hcall with ⟨hevent, -⟩ | ⟨k, now, u, -, -, rfl⟩
    · exact hkeeps call hevent
    · trivial
  · rw [act_node_of_ne g hji]
    exact hlisted

/-- In the group a refuted suspicion or death stays refuted.  Once the node has answered the
accusation, everybody who hears of the answer takes it for ALIVE, and nothing that was said
before and nothing that is still on its way makes it SUSPECT or DEAD there again. -/
theorem refutation_prevails {start before after telling heard : Group Id}
    {front middle rest : List (GroupEvent Id)} {j : Id} {k k' : ℕ} {now now' : UInt64}
    {u v : Update Id} (hinitial : group.Initial start)
    (hfront : group.run start front = some before) (hshort : front.length + 1 < 2 ^ 32)
    (hu : before.air[k]? = some u) (haccuses : u.Accuses p)
    (hraises : (before.node p).selfIncarnation ≤ u.incarnation)
    (hrefutes : group.step before (.hear p k now) = some after)
    (hmiddle : group.run after middle = some telling) (hknown : p ∈ (telling.node j).ids)
    (hv : telling.air[k']? = some v) (habout : v.nodeId = p)
    (hanswer : (after.node p).selfIncarnation ≤ v.incarnation)
    (hhears : group.step telling (.hear j k' now') = some heard)
    (hrest : group.run heard rest = some next)
    (hspared : ∀ event ∈ middle ++ rest, event.suspects p = false)
    (hstays : ∀ event ∈ front ++ (middle ++ rest), event.removes p = false)
    (hkeeps : ∀ call, GroupEvent.perform j call ∈ rest → call.KeepsMembers) :
    ∃ m, find (next.node j) p = some m ∧ m.state = alive ∧
      (after.node p).selfIncarnation ≤ m.incarnation := by
  have hfrontStays : ∀ event ∈ front, event.removes p = false :=
    fun event hmem => hstays event (List.mem_append_left _ hmem)
  have hquiet : ∀ event ∈ middle ++ rest, event.suspects p = false ∧ event.removes p = false :=
    fun event hmem => ⟨hspared event hmem, hstays event (List.mem_append_right _ hmem)⟩
  have hzero : 0 + front.length < 2 ^ 32 := by omega
  have hauthority := (authority_of_initial hinitial).run hzero hfront
  have hnothing : NeverLeft p start := fun r hr => absurd hr (not_says_of_initial hinitial r)
  have hnever := ((standing_of_initial hinitial).neverLeft_run hnothing hfrontStays hfront).2
  have hafter : Cleared p (after.node p).selfIncarnation after :=
    { standing := hauthority.standing.step hrefutes
      neverLeft := hauthority.standing.neverLeft_step hnever rfl hrefutes
      aliveFrom := hauthority.aliveFrom_refutation (by omega) hu haccuses hraises hrefutes }
  have htelling := hafter.run
    (fun event hmem => hquiet event (List.mem_append_left _ hmem)) hmiddle
  have hheard := htelling.step rfl rfl hhears
  have hfinal := hheard.run
    (fun event hmem => hquiet event (List.mem_append_right _ hmem)) hrest
  have hlisted : ListedAt p (rank alive (after.node p).selfIncarnation) (next.node j) := by
    refine group.run_invariant_of_runMeets
      (fun g event next hgood hkeep hstep => listedAt_step hgood hkeep hstep)
      (htelling.listedAt_hear hknown hv habout hanswer hhears)
      (group.runMeets_of_forall_mem heard fun event hmem call hevent => ?_) hrest
    exact hkeeps call (hevent ▸ hmem)
  obtain ⟨m, hmem, hid, hrank⟩ := hlisted
  have hsaid := Group.says_member hmem
  have hfrom := (rank_alive_le_iff (hfinal.neverLeft m.rumour hsaid hid)).mp hrank
  refine ⟨m, ?_, hfinal.aliveFrom m.rumour hsaid hid hfrom, hfrom⟩
  cases hfind : findMember (next.node j) p with
  | none => exact absurd hid (findMember_none.mp hfind m hmem)
  | some found =>
      obtain ⟨idx, other⟩ := found
      obtain ⟨hget, hotherId⟩ := findMember_some hfind
      have hnodup := reachable_nodup_ids (hfinal.standing.reachable j)
      rw [find, hfind, Option.map_some]
      exact congrArg some
        (eq_of_nodeId_eq hnodup (List.mem_of_getElem? hget) hmem (hotherId.trans hid.symm))

def accused : Group ℕ :=
  ((duo.act 0 (.addMember 1 1 2 10)).act 0 (.suspectMember 1 20)).act 0 (.getUpdates 5)

def answered : Group ℕ := accused.act 1 (.applyUpdate ⟨1, 1, 2, suspect, 0, 0⟩ 30)

def informed : Group ℕ :=
  (answered.act 1 (.getUpdates 5)).act 0 (.applyUpdate ⟨1, 0, 0, alive, 1, 0⟩ 40)

/-- Node 0 hears its own accusation once more. -/
theorem refutation_prevails_duo :
    ∃ m, find ((informed.act 0 (.applyUpdate ⟨1, 1, 2, suspect, 0, 0⟩ 50)).node 0) 1 = some m ∧
      m.state = alive ∧ (answered.node 1).selfIncarnation ≤ m.incarnation := by
  have haccusation : accused.air[0]? = some ⟨1, 1, 2, suspect, 0, 0⟩ := by decide +kernel
  have hanswer : (answered.act 1 (.getUpdates 5)).air[1]? = some ⟨1, 0, 0, alive, 1, 0⟩ := by
    decide +kernel
  have hagain : informed.air[0]? = some ⟨1, 1, 2, suspect, 0, 0⟩ := by decide +kernel
  have hrefutes : group.step accused (.hear 1 0 30) = some answered :=
    step_hear haccusation 30
  have hhears : group.step (answered.act 1 (.getUpdates 5)) (.hear 0 1 40) = some informed :=
    step_hear hanswer 40
  have hrepeated : group.step informed (.hear 0 0 50) =
      some (informed.act 0 (.applyUpdate ⟨1, 1, 2, suspect, 0, 0⟩ 50)) :=
    step_hear hagain 50
  have hrest : group.run informed [.hear 0 0 50] =
      some (informed.act 0 (.applyUpdate ⟨1, 1, 2, suspect, 0, 0⟩ 50)) :=
    group.run_cons_eq_some.mpr ⟨_, hrepeated, rfl⟩
  have hfront : group.run duo accusing = some accused := rfl
  have hmiddle : group.run answered [.perform 1 (.getUpdates 5)] =
      some (answered.act 1 (.getUpdates 5)) := rfl
  exact refutation_prevails initial_duo hfront (by decide) haccusation ⟨rfl, .inl rfl⟩
    (by decide +kernel) hrefutes hmiddle (by decide +kernel) hanswer rfl (by decide +kernel)
    hhears hrest (by decide) (by decide)
    (fun call hmem => absurd hmem (by simp))

end Refutation

end Swim
end LibWake
