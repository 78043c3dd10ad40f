import LibWake.PlumTreeRepair

/-!
# When a missing message is asked for

Every announcement of a missing message overwrites the time of its pending entry.  So
the message is asked for by the first tick which comes a timeout after the latest
announcement in front of it, and announcements which follow each other faster
postpone the repair.
-/

namespace LibWake
namespace PlumTree

variable {Id Msg : Type}

/-! ## Calls and the entry of one message -/

def Call.now : Call Id Msg → Option UInt64
  | .reset | .removePeer _ => none
  | .addPeer _ now | .broadcast _ _ now | .recvGossip _ _ _ now | .recvIhave _ _ now
  | .recvGraft _ _ now | .recvPrune _ now | .tick now => some now

variable [DecidableEq Msg]

/-- The call brings the message, from a peer or from the node itself. -/
def Call.brings (msgId : Msg) : Call Id Msg → Bool
  | .recvGossip _ other _ _ => other = msgId
  | .broadcast other payload _ => other = msgId ∧ payload.length ≠ 0
  | _ => false

/-- An announcement finds the message known or pending, or a free slot. -/
def HasRoom (node : Node Id Msg) : Call Id Msg → Prop
  | .recvIhave _ msgId _ =>
      hasMsg node msgId = true ∨ (pendingFind node.pending msgId).isSome = true ∨
        (node.pending.findIdx? Option.isNone).isSome = true
  | _ => True

instance (node : Node Id Msg) (call : Call Id Msg) : Decidable (HasRoom node call) :=
  match call with
  | .recvIhave _ _ _ => inferInstanceAs (Decidable (_ ∨ _ ∨ _))
  | .reset | .addPeer _ _ | .removePeer _ | .broadcast _ _ _ | .recvGossip _ _ _ _
  | .recvGraft _ _ _ | .recvPrune _ _ | .tick _ => .isTrue trivial

/-- The latest announcement of the message behind the call. -/
def announced (msgId : Msg) (entry : Option (Pending Id Msg)) :
    Call Id Msg → Option (Pending Id Msg)
  | .recvIhave fromId other now =>
      if other = msgId then some ⟨msgId, fromId, now⟩ else entry
  | .reset => none
  | _ => entry

/-- The latest announcement of the message in the calls, since the latest reset. -/
def latest (msgId : Msg) (calls : List (Call Id Msg)) : Option (Pending Id Msg) :=
  calls.foldl (announced msgId) none

/-- The message is missing, and `entry` is what is pending for it. -/
structure Tracks (msgId : Msg) (node : Node Id Msg) (entry : Option (Pending Id Msg)) :
    Prop where
  unknown : hasMsg node msgId = false
  entries : ∀ p, some p ∈ node.pending ∧ p.msgId = msgId ↔ entry = some p

/-! ## One call -/

theorem Tracks.of_same {msgId : Msg} {node after : Node Id Msg}
    {entry : Option (Pending Id Msg)} (htracks : Tracks msgId node entry)
    (hpending : after.pending = node.pending) (hcache : after.cache = node.cache) :
    Tracks msgId after entry := by
  refine ⟨?_, hpending ▸ htracks.entries⟩
  rw [hasMsg, hcache]
  exact htracks.unknown

/-- The slot of the entry which `pending_add` or `pending_remove_msg` writes is the only
one of its message. -/
theorem mem_set_of_single {pending : List (Option (Pending Id Msg))} {msgId : Msg} {i : ℕ}
    (hsingle : pendingFor pending msgId ≤ 1) (hfind : pendingFind pending msgId = some i)
    (slot : Option (Pending Id Msg)) (p : Pending Id Msg) :
    some p ∈ pending.set i slot ↔ slot = some p ∨ some p ∈ pending ∧ p.msgId ≠ msgId := by
  obtain ⟨hi, hany, -⟩ := List.findIdx?_eq_some_iff_getElem.mp hfind
  have hcleared := pendingFor_set msgId hi none
  rw [if_pos hany] at hcleared
  simp only [Option.any_none, Bool.false_eq_true, if_false, Nat.add_zero] at hcleared
  have hgone : ∀ q, some q ∈ pending.set i none → q.msgId ≠ msgId := by
    intro q hq hid
    have hzero : pendingFor (pending.set i none) msgId = 0 := by omega
    rw [pendingFor, List.countP_eq_zero] at hzero
    exact hzero _ hq (decide_eq_true hid)
  constructor
  · intro hmem
    obtain ⟨j, hj⟩ := List.mem_iff_getElem?.mp hmem
    by_cases hij : i = j
    · subst hij
      rw [List.getElem?_set_self hi] at hj
      exact .inl (Option.some.inj hj)
    · rw [List.getElem?_set_ne hij] at hj
      refine .inr ⟨List.mem_of_getElem? hj, hgone p (List.mem_of_getElem? (i := j) ?_)⟩
      rw [List.getElem?_set_ne hij, hj]
  · rintro (rfl | ⟨hmem, hid⟩)
    · exact List.mem_set hi _
    · obtain ⟨j, hj⟩ := List.mem_iff_getElem?.mp hmem
      have hij : i ≠ j := by
        rintro rfl
        rw [List.getElem?_eq_getElem hi, Option.some.injEq] at hj
        rw [hj] at hany
        exact hid (of_decide_eq_true hany)
      exact List.mem_of_getElem? ((List.getElem?_set_ne hij).trans hj)

omit [DecidableEq Msg] in
theorem mem_set_of_free {pending : List (Option (Pending Id Msg))} {i : ℕ}
    (hfree : pending.findIdx? Option.isNone = some i) (entry p : Pending Id Msg) :
    some p ∈ pending.set i (some entry) ↔ entry = p ∨ some p ∈ pending := by
  have hget := SlotTable.getElem?_of_free hfree
  have hi := (List.getElem?_eq_some_iff.mp hget).1
  constructor
  · intro hmem
    rcases List.mem_or_eq_of_mem_set hmem with hold | hnew
    · exact .inr hold
    · exact .inl (Option.some.inj hnew).symm
  · rintro (rfl | hmem)
    · exact List.mem_set hi _
    · obtain ⟨j, hj⟩ := List.mem_iff_getElem?.mp hmem
      have hij : i ≠ j := by
        rintro rfl
        cases hget.symm.trans hj
      exact List.mem_of_getElem? ((List.getElem?_set_ne hij).trans hj)

theorem ne_of_pendingFind_eq_none {pending : List (Option (Pending Id Msg))} {msgId : Msg}
    (hfind : pendingFind pending msgId = none) {p : Pending Id Msg} (hmem : some p ∈ pending) :
    p.msgId ≠ msgId := by
  intro hid
  have hsome := pendingFind_isSome_iff.mpr ⟨p, hmem, hid⟩
  rw [hfind] at hsome
  exact Bool.false_ne_true hsome

/-- With room for it, an announcement replaces the entry of its message and no other. -/
theorem mem_pendingAdd {node : Node Id Msg} {msgId : Msg}
    (hsingle : pendingFor node.pending msgId ≤ 1)
    (hroom : (pendingFind node.pending msgId).isSome = true ∨
      (node.pending.findIdx? Option.isNone).isSome = true)
    (fromId : Id) (now : UInt64) (p : Pending Id Msg) :
    some p ∈ (pendingAdd node msgId fromId now).pending ↔
      ⟨msgId, fromId, now⟩ = p ∨ some p ∈ node.pending ∧ p.msgId ≠ msgId := by
  unfold pendingAdd
  simp only
  cases hfind : pendingFind node.pending msgId with
  | some i =>
      simp only
      rw [mem_set_of_single hsingle hfind, Option.some.injEq]
  | none =>
      rw [hfind] at hroom
      obtain ⟨i, hfree⟩ := Option.isSome_iff_exists.mp (hroom.resolve_left Bool.false_ne_true)
      simp only [hfree]
      rw [mem_set_of_free hfree]
      refine or_congr_right ⟨fun hmem => ?_, And.left⟩
      exact ⟨hmem, ne_of_pendingFind_eq_none hfind hmem⟩

theorem mem_pendingRemoveMsg {node : Node Id Msg} {msgId : Msg}
    (hsingle : pendingFor node.pending msgId ≤ 1) (p : Pending Id Msg) :
    some p ∈ (pendingRemoveMsg node msgId).pending ↔
      some p ∈ node.pending ∧ p.msgId ≠ msgId := by
  unfold pendingRemoveMsg
  cases hfind : pendingFind node.pending msgId with
  | some i =>
      simp only
      rw [mem_set_of_single hsingle hfind]
      simp
  | none => exact ⟨fun hmem => ⟨hmem, ne_of_pendingFind_eq_none hfind hmem⟩, And.left⟩

section Calls

variable [DecidableEq Id] {msgId : Msg} {node : Node Id Msg} {entry : Option (Pending Id Msg)}

omit [DecidableEq Id] in
theorem Tracks.recvIhave (htracks : Tracks msgId node entry) (hsound : TablesSound node)
    {fromId : Id} {other : Msg} {now : UInt64}
    (hroom : HasRoom node (.recvIhave fromId other now)) :
    Tracks msgId (PlumTree.recvIhave node fromId other now).node
      (announced msgId entry (.recvIhave fromId other now)) := by
  unfold PlumTree.recvIhave
  simp only [announced]
  by_cases hknown : hasMsg node other = true
  · have hne : other ≠ msgId := by
      rintro rfl
      exact Bool.false_ne_true (htracks.unknown.symm.trans hknown)
    rw [if_pos hknown, if_neg hne]
    exact htracks
  · have hmem := mem_pendingAdd (hsound.pending_single other) (hroom.resolve_left hknown)
      fromId now
    rw [if_neg hknown]
    constructor
    · rw [hasMsg, (pendingAdd_frame node other fromId now).2]
      exact htracks.unknown
    · intro p
      rw [hmem]
      split_ifs with heq
      · subst heq
        rw [Option.some.injEq]
        constructor
        · rintro ⟨hnew | ⟨-, hne⟩, hid⟩
          · exact hnew
          · exact absurd hid hne
        · rintro rfl
          exact ⟨.inl rfl, rfl⟩
      · rw [← htracks.entries p]
        constructor
        · rintro ⟨rfl | ⟨hold, -⟩, hid⟩
          · exact absurd hid heq
          · exact ⟨hold, hid⟩
        · rintro ⟨hold, hid⟩
          exact ⟨.inr ⟨hold, fun hother => heq (hother.symm.trans hid)⟩, hid⟩

omit [DecidableEq Id] in
theorem Tracks.cacheInsert (htracks : Tracks msgId node entry) {other : Msg}
    (hne : other ≠ msgId) (payload : List UInt8) (now : UInt64) :
    Tracks msgId (PlumTree.cacheInsert node other payload now) entry := by
  refine ⟨?_, cacheInsert_pending node other payload now ▸ htracks.entries⟩
  refine Bool.eq_false_iff.mpr fun hmsg => ?_
  have hold := hasMsg_of_hasMsg_cacheInsert hne hmsg
  exact Bool.false_ne_true (htracks.unknown.symm.trans hold)

omit [DecidableEq Id] in
theorem Tracks.pendingRemoveMsg (htracks : Tracks msgId node entry)
    {other : Msg} (hne : other ≠ msgId) (hsingle : pendingFor node.pending other ≤ 1) :
    Tracks msgId (PlumTree.pendingRemoveMsg node other) entry := by
  constructor
  · rw [hasMsg, (pendingRemoveMsg_frame node other).2]
    exact htracks.unknown
  · intro p
    rw [mem_pendingRemoveMsg hsingle, ← htracks.entries p]
    constructor
    · rintro ⟨⟨hmem, -⟩, hid⟩
      exact ⟨hmem, hid⟩
    · rintro ⟨hmem, hid⟩
      exact ⟨⟨hmem, fun hother => hne (hother.symm.trans hid)⟩, hid⟩

theorem Tracks.recvGossip (htracks : Tracks msgId node entry) (hsound : TablesSound node)
    (fromId : Id) {other : Msg} (hne : other ≠ msgId) (payload : List UInt8) (now : UInt64) :
    Tracks msgId (PlumTree.recvGossip node fromId other payload now).2.node entry := by
  have hreceived : Tracks msgId
      { node with messagesReceived := node.messagesReceived + 1 } entry :=
    htracks.of_same rfl rfl
  unfold PlumTree.recvGossip
  simp only
  split_ifs
  · exact hreceived.of_same (setLink_pending _ _ _ _) (setLink_cache _ _ _ _)
  · refine ((hreceived.cacheInsert hne payload now).pendingRemoveMsg hne ?_).of_same
      (setLink_pending _ _ _ _) (setLink_cache _ _ _ _)
    rw [cacheInsert_pending]
    exact hsound.pending_single other

theorem Tracks.tick (htracks : Tracks msgId node entry) (hwell : WellFormed node)
    (hsound : TablesSound node) {now : UInt64}
    (hyoung : ∀ p, entry = some p → overdue node now p = false) :
    Tracks msgId (PlumTree.tick node now).2.node entry := by
  obtain ⟨-, hpending, -, -, -⟩ := tick_spec hwell hsound.pending_length
    hsound.pending_count hsound.cache_count now
  constructor
  · refine Bool.eq_false_iff.mpr fun hmsg => ?_
    have hold := hasMsg_of_hasMsg_tick hwell hsound hmsg
    exact Bool.false_ne_true (htracks.unknown.symm.trans hold)
  · intro p
    rw [hpending, ← htracks.entries p]
    constructor
    · rintro ⟨hmem, hid⟩
      obtain ⟨slot, hslot, hfilter⟩ := List.mem_map.mp hmem
      obtain ⟨rfl, -⟩ := Option.filter_eq_some_iff.mp hfilter
      exact ⟨hslot, hid⟩
    · rintro ⟨hmem, hid⟩
      have hnot := hyoung p ((htracks.entries p).mp ⟨hmem, hid⟩)
      exact ⟨List.mem_map.mpr ⟨some p, hmem, Option.filter_some_pos (by simp [hnot])⟩, hid⟩

theorem Tracks.performCall (htracks : Tracks msgId node entry) (hwell : WellFormed node)
    (hsound : TablesSound node) {call : Call Id Msg} (hroom : HasRoom node call)
    (hmissing : call.brings msgId = false)
    (hyoung : ∀ now, call = .tick now → ∀ p, entry = some p → overdue node now p = false) :
    Tracks msgId (PlumTree.performCall node call).node (announced msgId entry call) := by
  cases call with
  | reset =>
      refine ⟨hasMsg_emptyNode _ _ msgId, fun p => ⟨?_, fun hnone => by cases hnone⟩⟩
      rintro ⟨hmem, -⟩
      cases List.eq_of_mem_replicate hmem
  | addPeer nodeId now =>
      obtain ⟨peers, hframe⟩ := addPeer_frame node nodeId now
      rw [PlumTree.performCall, hframe]
      exact htracks.of_same rfl rfl
  | removePeer nodeId =>
      obtain ⟨peers, hframe⟩ := removePeer_frame node nodeId
      rw [PlumTree.performCall, hframe]
      exact htracks.of_same rfl rfl
  | broadcast other payload now =>
      simp only [PlumTree.performCall, broadcast]
      split_ifs with hempty
      · exact htracks
      · have hne : other ≠ msgId := fun heq => of_decide_eq_false hmissing ⟨heq, hempty⟩
        exact (htracks.cacheInsert hne payload now).of_same rfl rfl
  | recvGossip fromId other payload now =>
      exact htracks.recvGossip hsound fromId (of_decide_eq_false hmissing) payload now
  | recvIhave fromId other now => exact htracks.recvIhave hsound hroom
  | recvGraft fromId other now =>
      exact htracks.of_same (setLink_pending _ _ _ _) (setLink_cache _ _ _ _)
  | recvPrune fromId now =>
      exact htracks.of_same (setLink_pending _ _ _ _) (setLink_cache _ _ _ _)
  | tick now => exact htracks.tick hwell hsound (hyoung now rfl)

end Calls

/-! ## The calls behind an announcement -/

theorem latest_append_singleton (msgId : Msg) (calls : List (Call Id Msg))
    (call : Call Id Msg) :
    latest msgId (calls ++ [call]) = announced msgId (latest msgId calls) call := by
  rw [latest, List.foldl_append]
  rfl

theorem latest_mem {msgId : Msg} {calls : List (Call Id Msg)} {p : Pending Id Msg}
    (hlatest : latest msgId calls = some p) :
    p.msgId = msgId ∧ .recvIhave p.fromId msgId p.receivedMs ∈ calls := by
  induction calls using List.reverseRecOn with
  | nil => cases hlatest
  | append_singleton calls call ih =>
      rw [latest_append_singleton] at hlatest
      have hold : latest msgId calls = some p →
          p.msgId = msgId ∧ .recvIhave p.fromId msgId p.receivedMs ∈ calls ++ [call] :=
        fun hprior => ⟨(ih hprior).1, List.mem_append_left _ (ih hprior).2⟩
      cases call with
      | reset => cases hlatest
      | recvIhave fromId other now =>
          rw [announced] at hlatest
          split_ifs at hlatest with heq
          · subst heq
            obtain rfl := Option.some.inj hlatest
            exact ⟨rfl, List.mem_append_right _ (List.mem_singleton_self _)⟩
          · exact hold hlatest
      | _ => exact hold hlatest

/-- The latest announcement of the message in front of a tick is a timeout old. -/
def Lapses (timeout : UInt32) (msgId : Msg) (calls : List (Call Id Msg)) : Prop :=
  ∃ front now back p, calls = front ++ .tick now :: back ∧ latest msgId front = some p ∧
    p.receivedMs.toNat + timeout.toNat ≤ now.toNat

theorem elapsed_iff {now receivedMs : UInt64} (hle : receivedMs ≤ now) (timeout : UInt32) :
    elapsed now receivedMs timeout = true ↔
      receivedMs.toNat + timeout.toNat ≤ now.toNat := by
  have hsub := UInt64.toNat_sub_of_le now receivedMs hle
  rw [UInt64.le_iff_toNat_le] at hle
  rw [elapsed, decide_eq_true_eq, ge_iff_le, UInt64.le_iff_toNat_le, hsub,
    UInt32.toNat_toUInt64]
  omega

section Runs

variable [DecidableEq Id]

theorem runs_config {node next : Node Id Msg} {call : Call Id Msg}
    (hstep : runs.step node call = some next) : next.config = node.config := by
  obtain rfl : (performCall node call).node = next := Option.some.inj hstep
  cases call with
  | reset => rfl
  | addPeer nodeId now =>
      obtain ⟨peers, hframe⟩ := addPeer_frame node nodeId now
      rw [performCall, hframe]
  | removePeer nodeId =>
      obtain ⟨peers, hframe⟩ := removePeer_frame node nodeId
      rw [performCall, hframe]
  | broadcast msgId payload now => exact (kept_broadcast _ _ _ _).config
  | recvGossip fromId msgId payload now => exact (kept_recvGossip _ _ _ _ _).config
  | recvIhave fromId msgId now => exact (kept_recvIhave _ _ _ _).config
  | recvGraft fromId msgId now => exact (kept_recvGraft _ _ _ _).config
  | recvPrune fromId now => exact (kept_setLink _ _ _ _).config
  | tick now => exact (kept_tick _ _).config

/-- Some tick of the calls sends GRAFT for the message to a node which announced it. -/
def Repaired (msgId : Msg) (node : Node Id Msg) (calls : List (Call Id Msg)) : Prop :=
  ∃ front now back state fromId sentMs, calls = front ++ .tick now :: back ∧
    runs.run node front = some state ∧ .recvIhave fromId msgId sentMs ∈ front ∧
    (⟨.graft, fromId, msgId, []⟩ : Send Id Msg) ∈ (tick state now).2.sends

/-- While no tick finds the latest announcement a timeout old, it is what is pending. -/
theorem Tracks.run {msgId : Msg} {node final : Node Id Msg}
    {entry : Option (Pending Id Msg)} (htracks : Tracks msgId node entry)
    (hwell : WellFormed node) (hsound : TablesSound node) {calls : List (Call Id Msg)}
    (hroom : runs.RunMeets HasRoom node calls)
    (hbrings : ∀ call ∈ calls, call.brings msgId = false)
    (hyoung : ∀ front now back, calls = front ++ .tick now :: back →
      ∀ p, front.foldl (announced msgId) entry = some p → overdue node now p = false)
    (hrun : runs.run node calls = some final) :
    Tracks msgId final (calls.foldl (announced msgId) entry) ∧ WellFormed final ∧
      TablesSound final ∧ final.config = node.config := by
  induction calls generalizing node entry with
  | nil =>
      obtain rfl : node = final := Option.some.inj hrun
      exact ⟨htracks, hwell, hsound, rfl⟩
  | cons call rest ih =>
      obtain ⟨next, hstep, hrest⟩ := runs.run_cons_eq_some.mp hrun
      have hconfig := runs_config hstep
      obtain ⟨hroomHead, hroomRest⟩ := hroom
      have hnext : (PlumTree.performCall node call).node = next := Option.some.inj hstep
      have htracksNext := htracks.performCall hwell hsound hroomHead
        (hbrings call List.mem_cons_self) (fun now hcall p hp => by
          subst hcall
          exact hyoung [] now rest rfl p hp)
      rw [hnext] at htracksNext
      have hfinal := ih htracksNext (hnext ▸ wellFormed_performCall hwell call)
        (hnext ▸ hsound.performCall hwell call) (hroomRest next hstep)
        (fun other hmem => hbrings other (List.mem_cons_of_mem _ hmem))
        (fun front now back hsplit p hp => by
          have hhead := hyoung (call :: front) now back (by rw [hsplit]; rfl) p hp
          rwa [overdue, ← hconfig] at hhead) hrest
      rwa [hconfig] at hfinal

omit [DecidableEq Id] in
theorem exists_tracks {msgId : Msg} {node : Node Id Msg} (hsound : TablesSound node)
    (hmissing : hasMsg node msgId = false) : ∃ entry, Tracks msgId node entry := by
  cases hfind : pendingFind node.pending msgId with
  | none =>
      refine ⟨none, hmissing, fun p => ⟨?_, fun hnone => by cases hnone⟩⟩
      rintro ⟨hmem, hid⟩
      exact absurd hid (ne_of_pendingFind_eq_none hfind hmem)
  | some i =>
      obtain ⟨first, hget, hid⟩ := getElem?_of_pendingFind hfind
      obtain ⟨hi, hfirst⟩ := List.getElem?_eq_some_iff.mp hget
      refine ⟨some first, hmissing, fun p => ?_⟩
      have hmem := mem_set_of_single (hsound.pending_single msgId) hfind node.pending[i] p
      rw [List.set_getElem_self, hfirst] at hmem
      rw [hmem]
      constructor
      · rintro ⟨hsame | ⟨-, hne⟩, hp⟩
        · exact hsame
        · exact absurd hp hne
      · rintro hsame
        obtain rfl := Option.some.inj hsame
        exact ⟨.inl rfl, hid⟩

/-- The state in front of a tick of which no earlier tick found the latest announcement
a timeout old: the tick sends GRAFT for the message if and only if it does. -/
theorem Tracks.graft_iff {msgId : Msg} {node : Node Id Msg}
    {entry : Option (Pending Id Msg)} (htracks : Tracks msgId node entry)
    (hwell : WellFormed node) (hsound : TablesSound node) (now : UInt64) (fromId : Id) :
    (⟨.graft, fromId, msgId, []⟩ : Send Id Msg) ∈ (PlumTree.tick node now).2.sends ↔
      ∃ p, entry = some p ∧ p.fromId = fromId ∧ overdue node now p = true := by
  rw [(tick_spec hwell hsound.pending_length hsound.pending_count hsound.cache_count now).1,
    mem_grafts]
  constructor
  · rintro ⟨p, hmem, hover, hsent⟩
    rw [graftFor, Send.mk.injEq] at hsent
    obtain ⟨-, hfrom, hid, -⟩ := hsent
    exact ⟨p, (htracks.entries p).mp ⟨hmem, hid⟩, hfrom, hover⟩
  · rintro ⟨p, hentry, rfl, hover⟩
    obtain ⟨hmem, hid⟩ := (htracks.entries p).mpr hentry
    exact ⟨p, hmem, hover, by rw [graftFor, hid]⟩

omit [DecidableEq Msg] [DecidableEq Id] in
/-- A split of the calls at a tick with a property of what is in front of it has a
first one. -/
theorem exists_first_tick {motive : List (Call Id Msg) → UInt64 → Prop}
    {calls front back : List (Call Id Msg)} {now : UInt64}
    (hsplit : calls = front ++ .tick now :: back) (hholds : motive front now) :
    ∃ front now back, calls = front ++ .tick now :: back ∧ motive front now ∧
      ∀ front' now' back', front = front' ++ .tick now' :: back' → ¬ motive front' now' := by
  induction hlength : front.length using Nat.strong_induction_on generalizing front now back with
  | _ length ih =>
      subst hlength
      by_cases hearlier : ∃ front' now' back', front = front' ++ .tick now' :: back' ∧
          motive front' now'
      · obtain ⟨front', now', back', rfl, hholds'⟩ := hearlier
        rw [List.append_assoc, List.cons_append] at hsplit
        exact ih front'.length (by simp) hsplit hholds' rfl
      · refine ⟨front, now, back, hsplit, hholds, fun front' now' back' hfront hholds' => ?_⟩
        exact hearlier ⟨front', now', back', hfront, hholds'⟩

theorem exists_run (node : Node Id Msg) (calls : List (Call Id Msg)) :
    ∃ final, runs.run node calls = some final := by
  induction calls generalizing node with
  | nil => exact ⟨node, rfl⟩
  | cons call rest ih =>
      obtain ⟨final, hrun⟩ := ih (performCall node call).node
      exact ⟨final, runs.run_cons_eq_some.mpr ⟨_, rfl, hrun⟩⟩

omit [DecidableEq Id] in
theorem overdue_latest_iff {msgId : Msg} (node : Node Id Msg)
    {front back : List (Call Id Msg)} {now : UInt64}
    (htimes : ((front ++ .tick now :: back).filterMap Call.now).Pairwise (· ≤ ·))
    {p : Pending Id Msg} (hlatest : latest msgId front = some p) :
    overdue node now p = true ↔
      p.receivedMs.toNat + node.config.lazyTimeoutMs.toNat ≤ now.toNat := by
  have hannounced : p.receivedMs ∈ front.filterMap Call.now :=
    List.mem_filterMap.mpr ⟨_, (latest_mem hlatest).2, rfl⟩
  rw [List.filterMap_append, List.pairwise_append] at htimes
  have hle := htimes.2.2 _ hannounced now List.mem_cons_self
  exact elapsed_iff hle _

/-- In front of a tick, while no earlier tick found the latest announcement a timeout
old, this announcement is what is pending. -/
theorem tracks_latest {node : Node Id Msg} (hreach : runs.Reachable node) {msgId : Msg}
    (hmissing : hasMsg node msgId = false) {fromId : Id} {t : UInt64}
    {rest : List (Call Id Msg)}
    (hroom : runs.RunMeets HasRoom node (.recvIhave fromId msgId t :: rest))
    (hbrings : ∀ call ∈ rest, call.brings msgId = false)
    {front back : List (Call Id Msg)} {now : UInt64}
    (hsplit : .recvIhave fromId msgId t :: rest = front ++ .tick now :: back)
    (hyoung : ∀ front' now' back', front = front' ++ .tick now' :: back' →
      ∀ p, latest msgId front' = some p → overdue node now' p = false) :
    ∃ state, runs.run node front = some state ∧ Tracks msgId state (latest msgId front) ∧
      WellFormed state ∧ TablesSound state ∧ state.config = node.config := by
  have hwell := reachable_wellFormed hreach
  have hsound := reachable_tablesSound hreach
  obtain ⟨entry, htracks⟩ := exists_tracks hsound hmissing
  obtain ⟨state, hrun⟩ := exists_run node front
  -- the announcement overwrites whatever was pending
  have hfold : ∀ front back call, .recvIhave fromId msgId t :: rest = front ++ call :: back →
      front ≠ [] → front.foldl (announced msgId) entry = latest msgId front := by
    intro front back call hsplit hne
    obtain ⟨head, front, rfl⟩ := List.exists_cons_of_ne_nil hne
    obtain ⟨rfl, -⟩ := List.cons.inj hsplit
    rw [latest, List.foldl_cons, List.foldl_cons]
    simp only [announced, if_true]
  have hcons : ∀ front back now, .recvIhave fromId msgId t :: rest =
      front ++ (.tick now : Call Id Msg) :: back → front ≠ [] := by
    rintro _ back now hsplit rfl
    cases (List.cons.inj hsplit).1
  have hmem : ∀ call ∈ front, call.brings msgId = false := by
    intro call hmem
    have hall : call ∈ .recvIhave fromId msgId t :: rest :=
      hsplit ▸ List.mem_append_left _ hmem
    rcases List.mem_cons.mp hall with rfl | hrest
    · rfl
    · exact hbrings call hrest
  have hfinal := htracks.run hwell hsound (hsplit ▸ hroom).of_append hmem
    (fun front' now' back' hfront p hp => by
      have hwhole : .recvIhave fromId msgId t :: rest =
          front' ++ .tick now' :: (back' ++ .tick now :: back) := by
        rw [hsplit, hfront, List.append_assoc]
        rfl
      rw [hfold front' _ _ hwhole (hcons front' _ now' hwhole)] at hp
      exact hyoung front' now' back' hfront p hp) hrun
  rw [hfold front back _ hsplit (hcons front back now hsplit)] at hfinal
  exact ⟨state, hrun, hfinal⟩

/-- A missing message is announced in a reachable state, at times which do not decrease
and with room for every announcement, and it does not come.  Then a tick sends GRAFT
for it to a node which announced it if and only if some tick comes a timeout after
the latest announcement of it in front of that tick. -/
theorem repaired_iff_lapses {node : Node Id Msg} (hreach : runs.Reachable node)
    {msgId : Msg} (hmissing : hasMsg node msgId = false) {fromId : Id} {t : UInt64}
    {rest : List (Call Id Msg)}
    (htimes : ((.recvIhave fromId msgId t :: rest).filterMap Call.now).Pairwise (· ≤ ·))
    (hroom : runs.RunMeets HasRoom node (.recvIhave fromId msgId t :: rest))
    (hbrings : ∀ call ∈ rest, call.brings msgId = false) :
    Repaired msgId node (.recvIhave fromId msgId t :: rest) ↔
      Lapses node.config.lazyTimeoutMs msgId (.recvIhave fromId msgId t :: rest) := by
  set due := fun (front : List (Call Id Msg)) (now : UInt64) =>
    ∃ p, latest msgId front = some p ∧ overdue node now p = true with hdue
  have hlapses : ∀ front now back, .recvIhave fromId msgId t :: rest =
      front ++ .tick now :: back → (due front now ↔ ∃ p, latest msgId front = some p ∧
        p.receivedMs.toNat + node.config.lazyTimeoutMs.toNat ≤ now.toNat) := by
    intro front now back hsplit
    refine exists_congr fun p => and_congr_right fun hlatest => ?_
    exact overdue_latest_iff node (hsplit ▸ htimes) hlatest
  have hstate : ∀ front now back, .recvIhave fromId msgId t :: rest =
      front ++ .tick now :: back →
      (∀ front' now' back', front = front' ++ .tick now' :: back' → ¬ due front' now') →
      ∃ state, runs.run node front = some state ∧ ∀ sender,
        (⟨.graft, sender, msgId, []⟩ : Send Id Msg) ∈ (tick state now).2.sends ↔
          ∃ p, latest msgId front = some p ∧ p.fromId = sender ∧ overdue node now p = true := by
    intro front now back hsplit hearlier
    obtain ⟨state, hrun, htracks, hwell, hsound, hconfig⟩ :=
      tracks_latest hreach hmissing hroom hbrings hsplit fun front' now' back' hfront p hp =>
        Bool.eq_false_iff.mpr fun hover => hearlier front' now' back' hfront ⟨p, hp, hover⟩
    refine ⟨state, hrun, fun sender => ?_⟩
    rw [htracks.graft_iff hwell hsound now sender]
    simp only [overdue, hconfig]
  constructor
  · rintro ⟨front, now, back, state, sender, sentMs, hsplit, hrun, -, hgraft⟩
    by_cases hearlier : ∃ front' now' back', front = front' ++ .tick now' :: back' ∧
        due front' now'
    · obtain ⟨front', now', back', rfl, hdue'⟩ := hearlier
      have hwhole : .recvIhave fromId msgId t :: rest =
          front' ++ .tick now' :: (back' ++ .tick now :: back) := by
        rw [hsplit, List.append_assoc]
        rfl
      obtain ⟨p, hlatest, hold⟩ := (hlapses front' now' _ hwhole).mp hdue'
      exact ⟨front', now', _, p, hwhole, hlatest, hold⟩
    · obtain ⟨state', hrun', hgrafts⟩ := hstate front now back hsplit
        fun front' now' back' hfront hdue' => hearlier ⟨front', now', back', hfront, hdue'⟩
      obtain rfl : state = state' := Option.some.inj (hrun.symm.trans hrun')
      obtain ⟨p, hlatest, -, hover⟩ := (hgrafts sender).mp hgraft
      obtain ⟨p, hlatest, hold⟩ := (hlapses front now back hsplit).mp ⟨p, hlatest, hover⟩
      exact ⟨front, now, back, p, hsplit, hlatest, hold⟩
  · rintro ⟨front, now, back, p, hsplit, hlatest, hold⟩
    obtain ⟨front, now, back, hsplit, ⟨p, hlatest, hover⟩, hfirst⟩ :=
      exists_first_tick (motive := due) hsplit
        ((hlapses front now back hsplit).mpr ⟨p, hlatest, hold⟩)
    obtain ⟨state, hrun, hgrafts⟩ := hstate front now back hsplit hfirst
    exact ⟨front, now, back, state, p.fromId, p.receivedMs, hsplit, hrun,
      (latest_mem hlatest).2, (hgrafts p.fromId).mpr ⟨p, hlatest, rfl, hover⟩⟩

end Runs

theorem repaired_iff_lapses_once :
    Repaired 7 untoldNode [.recvIhave 1 7 10, .tick 5010] :=
  (repaired_iff_lapses (runs.reachable_of_initial ⟨_, _, rfl⟩)
    (show hasMsg untoldNode 7 = false from rfl) (by decide) (by decide) (by decide)).mpr
    ⟨[.recvIhave 1 7 10], 5010, [], ⟨7, 1, 10⟩, rfl, rfl, by decide⟩

/-- Message 7 is announced, and announced again shortly before its timeout. -/
def announcedTwice : List (Call ℕ ℕ) := [.recvIhave 1 7 10, .recvIhave 2 7 4010, .tick 5010]

/-- The tick comes a timeout after the first announcement and sends nothing. -/
theorem second_announcement_postpones :
    runs.Reachable untoldNode ∧ hasMsg untoldNode 7 = false ∧
      (announcedTwice.filterMap Call.now).Pairwise (· ≤ ·) ∧
      runs.RunMeets HasRoom untoldNode announcedTwice ∧
      (∀ call ∈ announcedTwice, call.brings 7 = false) ∧
      10 + untoldNode.config.lazyTimeoutMs.toNat ≤ 5010 ∧
      ¬ Repaired 7 untoldNode announcedTwice := by
  refine ⟨runs.reachable_of_initial ⟨_, _, rfl⟩, rfl, by decide, by decide, by decide,
    by decide, ?_⟩
  rintro ⟨front, now, back, state, sender, sentMs, hsplit, hrun, hmem, hgraft⟩
  rcases front with _ | ⟨first, _ | ⟨second, _ | ⟨third, front⟩⟩⟩
  · cases (List.cons.inj hsplit).1
  · cases (List.cons.inj (List.cons.inj hsplit).2).1
  · simp only [announcedTwice, List.cons_append, List.nil_append, List.cons.injEq] at hsplit
    obtain ⟨rfl, rfl, htick, -⟩ := hsplit
    obtain rfl := Call.tick.inj htick
    obtain rfl := Option.some.inj hrun
    have hnone : (tick (performCall toldOfSeven (.recvIhave 2 7 4010)).node 5010).2.sends =
        [] := by decide
    exact List.not_mem_nil (hnone ▸ hgraft)
  · have hlength := congrArg List.length hsplit
    simp [announcedTwice] at hlength

end PlumTree
end LibWake
