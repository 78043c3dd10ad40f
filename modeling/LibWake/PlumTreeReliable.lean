import LibWake.PlumTreeReactions
import LibWake.PlumTreeSpanningTree

/-!
# Every member gets the message

The network seen for one message is lazy repair on the peer graph, whatever else goes on in it:
other broadcasts, ticks at any time, link types of any origin, packets in any order.  So when
the members neither forget the message nor lose its packets, and nothing more is in flight or
waited for, every member of a connected overlay has it.
-/

namespace LibWake
namespace PlumTree

open LazyRepair (Mark Packet Reaction State offers originate)

variable {Id Msg : Type} [DecidableEq Id] [DecidableEq Msg]

/-! ## The network for one message -/

def view (msgId : Msg) (net : Network Id Msg) : State Id where
  mark i := markOf msgId (net.node i)
  inFlight := packets msgId net.inFlight

/-- Nothing of the message is forgotten or lost, only members broadcast it, and they keep
their peers. -/
def Undisturbed (members : Finset Id) (msgId : Msg) (net : Network Id Msg) :
    Event Id Msg → Prop
  | .perform i call =>
      Remembers msgId (net.node i) call ∧ (call.brings msgId = true → i ∈ members) ∧
        (i ∈ members → peerIds (performCall (net.node i) call).node = peerIds (net.node i))
  | .deliver k now => ∀ envelope, net.inFlight[k]? = some envelope →
      Remembers msgId (net.node envelope.message.target) (envelope.call now)
  | .lose k => ∀ envelope, net.inFlight[k]? = some envelope →
      envelope.message.msgId ≠ msgId
  | .double _ => True

instance (members : Finset Id) (msgId : Msg) (net : Network Id Msg) :
    ∀ event, Decidable (Undisturbed members msgId net event)
  | .perform _ _ => inferInstanceAs (Decidable (_ ∧ _ ∧ _))
  | .deliver k now => inferInstanceAs (Decidable (∀ envelope, net.inFlight[k]? = some envelope →
      Remembers msgId (net.node envelope.message.target) (envelope.call now)))
  | .lose k => inferInstanceAs (Decidable (∀ envelope, net.inFlight[k]? = some envelope →
      envelope.message.msgId ≠ msgId))
  | .double _ => inferInstanceAs (Decidable True)

/-- The network while it spreads the message over an overlay. -/
structure Spreading (members : Finset Id) (adj : Id → List Id) (msgId : Msg)
    (net : Network Id Msg) : Prop where
  nodes : ∀ i, runs.Reachable (net.node i)
  peers : ∀ i ∈ members, peerIds (net.node i) = adj i
  sound : (view msgId net).Sound adj
  inside : (view msgId net).Inside members

/-- What an event is for the message. -/
inductive Moves (members : Finset Id) (adj : Id → List Id) (msgId : Msg)
    (net : Network Id Msg) : Event Id Msg → Network Id Msg → Prop where
  | unmoved {event : Event Id Msg} {next : Network Id Msg}
      (hview : view msgId next = view msgId net)
      (hsent : packets msgId next.sent = packets msgId net.sent) :
      Moves members adj msgId net event next
  | react {event : Event Id Msg} {next : Network Id Msg} {i : Id} {mark : Mark Id}
      {taken rest sent : Multiset (Packet Id)} (hi : i ∈ members)
      (hflight : (view msgId net).inFlight = taken + rest)
      (hreact : Reaction adj i ((view msgId net).mark i) taken mark sent)
      (hview : view msgId next = (view msgId net).become i mark (rest + sent))
      (hsent : packets msgId next.sent = packets msgId net.sent + sent) :
      Moves members adj msgId net event next
  | originate {i : Id} {payload : List UInt8} {now : UInt64} {next : Network Id Msg}
      (hi : i ∈ members) (hpayload : payload.length ≠ 0) (lazy : Id → Bool)
      (hview : view msgId next = originate adj (view msgId net) i lazy)
      (hsent : packets msgId next.sent = packets msgId net.sent + offers lazy i (adj i)) :
      Moves members adj msgId net (.perform i (.broadcast msgId payload now)) next
  | double {k : ℕ} {envelope : Envelope Id Msg} {next : Network Id Msg}
      (hpacket : net.inFlight[k]? = some envelope) (hid : envelope.message.msgId = msgId)
      (hmem : envelope.packet ∈ (view msgId net).inFlight)
      (hview : view msgId next =
        { view msgId net with inFlight := envelope.packet ::ₘ (view msgId net).inFlight })
      (hsent : packets msgId next.sent = packets msgId net.sent) :
      Moves members adj msgId net (.double k) next

/-! ## One event -/

section Moves

variable {members : Finset Id} {adj : Id → List Id} {msgId : Msg} {net next : Network Id Msg}

theorem view_perform (net : Network Id Msg) (i : Id) (call : Call Id Msg) :
    view msgId (net.perform i call) = (view msgId net).become i
      (markOf msgId (performCall (net.node i) call).node)
      ((view msgId net).inFlight +
        packets msgId ((performCall (net.node i) call).sends.map (Envelope.mk i))) := by
  rw [view, Network.perform, Network.absorb, State.become, packets_append]
  congr 1
  funext j
  by_cases hji : j = i
  · subst hji
    simp only [Function.update_self]
  · simp only [Function.update_of_ne hji]
    rfl

theorem sent_perform (net : Network Id Msg) (i : Id) (call : Call Id Msg) :
    packets msgId (net.perform i call).sent = packets msgId net.sent +
      packets msgId ((performCall (net.node i) call).sends.map (Envelope.mk i)) :=
  packets_append _ _

theorem become_same (s : State Id) (i : Id) : s.become i (s.mark i) s.inFlight = s := by
  rw [State.become, Function.update_eq_self]

/-- A call which changes no mark and sends nothing for the message. -/
theorem view_perform_same (net : Network Id Msg) (i : Id) (call : Call Id Msg)
    (hmark : markOf msgId (performCall (net.node i) call).node = markOf msgId (net.node i))
    (hsends : packets msgId ((performCall (net.node i) call).sends.map (Envelope.mk i)) = 0) :
    view msgId (net.perform i call) = view msgId net ∧
      packets msgId (net.perform i call).sent = packets msgId net.sent := by
  rw [view_perform, sent_perform, hmark, hsends, add_zero, add_zero]
  exact ⟨become_same (view msgId net) i, rfl⟩

omit [DecidableEq Id] in
theorem call_concerns {envelope : Envelope Id Msg} (hid : envelope.message.msgId ≠ msgId)
    (now : UInt64) : (envelope.call now).concerns msgId = false := by
  unfold Envelope.call
  split
  · exact decide_eq_false hid
  · exact decide_eq_false hid
  · exact decide_eq_false hid
  · rfl

omit [DecidableEq Id] [DecidableEq Msg] in
theorem call_isTick (envelope : Envelope Id Msg) (now : UInt64) :
    (envelope.call now).isTick = false := by
  unfold Envelope.call
  split <;> rfl

omit [DecidableEq Id] [DecidableEq Msg] in
theorem tick_of_isTick {call : Call Id Msg} (htick : call.isTick = true) :
    ∃ now, call = .tick now := by
  cases call with
  | tick now => exact ⟨now, rfl⟩
  | _ => cases htick

omit [DecidableEq Id] in
/-- An application's call which concerns the message broadcasts it. -/
theorem broadcast_of_concerns {call : Call Id Msg} (hlocal : call.isLocal = true)
    (hconcerns : call.concerns msgId = true) :
    ∃ payload now, call = .broadcast msgId payload now ∧ payload.length ≠ 0 := by
  cases call with
  | broadcast other payload now =>
      have hand : other = msgId ∧ payload.length ≠ 0 := of_decide_eq_true hconcerns
      exact ⟨payload, now, by rw [hand.1], hand.2⟩
  | recvGossip => cases hlocal
  | recvIhave => cases hlocal
  | recvGraft => cases hlocal
  | _ => cases hconcerns

theorem pending_pos {node : Node Id Msg} (hreach : runs.Reachable node) :
    0 < node.pending.length := by
  have hsize : 0 < node.config.pendingSize.toNat := by
    refine hreach.invariant (motive := fun node => 0 < node.config.pendingSize.toNat) ?_ ?_
    · rintro node ⟨selfId, cfg, rfl⟩
      change 0 < (cfg.getD defaultConfig).enforced.pendingSize.toNat
      simp only [Config.enforced]
      split_ifs with hzero
      · decide
      · exact Nat.pos_of_ne_zero fun heq => hzero (UInt16.toNat_inj.mp heq)
    · intro node call next hpos hstep
      rw [runs_config hstep]
      exact hpos
  rw [(reachable_tablesSound hreach).pending_length]
  exact hsize

omit [DecidableEq Id] in
/-- A packet in flight is one of the packets in flight and the others. -/
theorem packets_erase (msgId : Msg) {k : ℕ} {envelope : Envelope Id Msg}
    (hpacket : net.inFlight[k]? = some envelope) :
    packets msgId net.inFlight = packets msgId (envelope :: net.inFlight.eraseIdx k) := by
  obtain ⟨hk, rfl⟩ := List.getElem?_eq_some_iff.mp hpacket
  exact packets_perm (List.getElem_cons_eraseIdx_perm hk).symm

theorem Spreading.moves_perform (hgood : Spreading members adj msgId net) {i : Id}
    {call : Call Id Msg} (hlocal : call.isLocal = true)
    (hguard : Undisturbed members msgId net (.perform i call)) :
    Moves members adj msgId net (.perform i call) (net.perform i call) := by
  obtain ⟨hremembers, hbrings, -⟩ := hguard
  have hwell := reachable_wellFormed (hgood.nodes i)
  have htables := reachable_tablesSound (hgood.nodes i)
  cases hconcerns : call.concerns msgId with
  | true =>
      obtain ⟨payload, now, rfl, hpayload⟩ := broadcast_of_concerns hlocal hconcerns
      obtain ⟨hmark, hsends⟩ := broadcast_originates msgId hwell hpayload now i
      have hi : i ∈ members := hbrings hconcerns
      rw [hgood.peers i hi] at hsends
      refine .originate hi hpayload (fun w => peerLink (net.node i) w = some .lazy) ?_ ?_
      · rw [view_perform, performCall, hmark, hsends]
        rfl
      · rw [sent_perform, performCall, hsends]
  | false =>
      cases htick : call.isTick with
      | true =>
          obtain ⟨now, rfl⟩ := tick_of_isTick htick
          rcases tick_reacts hwell htables hremembers adj i with
            ⟨hmark, hsends⟩ | ⟨hwants, hreact⟩
          · obtain ⟨hview, hsent⟩ := view_perform_same net i (.tick now) hmark hsends
            exact .unmoved hview hsent
          · obtain ⟨u, hu⟩ := Option.ne_none_iff_exists'.mp hwants
            exact .react (hgood.inside.wants i u hu).1 (zero_add _).symm hreact
              (view_perform net i _) (sent_perform net i _)
      | false =>
          obtain ⟨hview, hsent⟩ := view_perform_same net i call
            (hremembers.markOf_eq hwell htables hconcerns htick)
            (packets_sends_eq_zero i fun s => sends_not_concerns hconcerns htick)
          exact .unmoved hview hsent

theorem Spreading.moves_deliver (hgood : Spreading members adj msgId net) {k : ℕ}
    {now : UInt64} {envelope : Envelope Id Msg} (hpacket : net.inFlight[k]? = some envelope)
    (hremembers : Remembers msgId (net.node envelope.message.target) (envelope.call now)) :
    Moves members adj msgId net (.deliver k now)
      ({ net with inFlight := net.inFlight.eraseIdx k }.perform envelope.message.target
        (envelope.call now)) := by
  have hwell := reachable_wellFormed (hgood.nodes envelope.message.target)
  have htables := reachable_tablesSound (hgood.nodes envelope.message.target)
  have hflight := packets_erase msgId hpacket
  by_cases hid : envelope.message.msgId = msgId
  · rw [packets_cons_of_eq hid, ← Multiset.singleton_add] at hflight
    have htarget : envelope.message.target ∈ members := by
      have hmem : envelope.packet ∈ (view msgId net).inFlight := by
        rw [view, hflight]
        exact Multiset.mem_add.mpr (.inl (Multiset.mem_singleton_self _))
      have hends := (hgood.inside.packets _ hmem).2
      unfold Envelope.packet at hends
      split at hends
      · exact hends
      · exact hends
      · exact hends
      · exact hends
    have hreact := packet_reacts hwell htables (pending_pos (hgood.nodes _))
      (hgood.peers _ htarget) hid now
    exact .react htarget hflight hreact (view_perform _ _ _) (sent_perform _ _ _)
  · rw [packets_cons_of_ne hid] at hflight
    obtain ⟨hview, hsent⟩ := view_perform_same { net with inFlight := net.inFlight.eraseIdx k } _ _
      (hremembers.markOf_eq hwell htables (call_concerns hid now) (call_isTick envelope now))
      (packets_sends_eq_zero _ fun s =>
        sends_not_concerns (call_concerns hid now) (call_isTick envelope now))
    refine .unmoved (hview.trans ?_) hsent
    rw [view, view, hflight]

/-- Every undisturbed event is one step of lazy repair, or none. -/
theorem Spreading.moves (hgood : Spreading members adj msgId net) {event : Event Id Msg}
    (hguard : Undisturbed members msgId net event)
    (hstep : mesh.step net event = some next) : Moves members adj msgId net event next := by
  cases effect_of_step hstep with
  | perform hlocal => exact hgood.moves_perform hlocal hguard
  | deliver hpacket => exact hgood.moves_deliver hpacket (hguard _ hpacket)
  | lose hpacket =>
      refine .unmoved ?_ rfl
      rw [view, view, packets_erase msgId hpacket, packets_cons_of_ne (hguard _ hpacket)]
  | @double k envelope hpacket =>
      by_cases hid : envelope.message.msgId = msgId
      · refine .double hpacket hid ?_ ?_ rfl
        · change envelope.packet ∈ packets msgId net.inFlight
          rw [packets_erase msgId hpacket, packets_cons_of_eq hid]
          exact Multiset.mem_cons_self _ _
        · rw [view, view, packets_cons_of_eq hid]
      · refine .unmoved ?_ rfl
        rw [view, view, packets_cons_of_ne hid]

theorem Moves.step {event : Event Id Msg} (hmoves : Moves members adj msgId net event next) :
    view msgId next = view msgId net ∨
      LazyRepair.Step adj members (view msgId net) (view msgId next) := by
  cases hmoves with
  | unmoved hview _ => exact .inl hview
  | react hi hflight hreact hview _ =>
      rw [hview]
      exact .inr (.react hi hflight hreact)
  | originate hi _ lazy hview _ =>
      rw [hview]
      exact .inr (.originate hi lazy)
  | double _ _ hmem hview _ =>
      rw [hview]
      exact .inr (.double hmem)

theorem kept_call (node : Node Id Msg) (envelope : Envelope Id Msg) (now : UInt64) :
    Kept node (performCall node (envelope.call now)).node := by
  unfold Envelope.call
  split
  · exact kept_recvGossip node _ _ _ now
  · exact kept_recvIhave node _ _ now
  · exact kept_recvGraft node _ _ now
  · exact kept_setLink .lazy node _ now

theorem Undisturbed.peerIds_eq {event : Event Id Msg}
    (hguard : Undisturbed members msgId net event) (hstep : mesh.step net event = some next)
    {i : Id} (hi : i ∈ members) : peerIds (next.node i) = peerIds (net.node i) := by
  cases effect_of_step hstep with
  | @perform j call =>
      by_cases hij : i = j
      · subst hij
        rw [perform_node_self]
        exact hguard.2.2 hi
      · rw [perform_node_of_ne net hij]
  | @deliver k now envelope =>
      by_cases hij : i = envelope.message.target
      · subst hij
        rw [perform_node_self]
        exact (kept_call _ envelope now).peerIds
      · rw [perform_node_of_ne _ hij]
  | lose => rfl
  | double => rfl

theorem Spreading.step (hadj : PushLazyPush.Neighbours members adj)
    (hgood : Spreading members adj msgId net) {event : Event Id Msg}
    (hguard : Undisturbed members msgId net event)
    (hstep : mesh.step net event = some next) : Spreading members adj msgId next := by
  have hnodes := nodes_step hgood.nodes hstep
  have hpeers : ∀ i ∈ members, peerIds (next.node i) = adj i := fun i hi =>
    (hguard.peerIds_eq hstep hi).trans (hgood.peers i hi)
  rcases (hgood.moves hguard hstep).step with hview | hmove
  · exact ⟨hnodes, hpeers, hview ▸ hgood.sound, hview ▸ hgood.inside⟩
  · exact ⟨hnodes, hpeers, hgood.sound.step hmove, hgood.inside.step hadj hmove⟩

end Moves

/-! ## Deliveries -/

section Deliveries

variable {members : Finset Id} {adj : Id → List Id} {msgId : Msg} {net next : Network Id Msg}

theorem delivers_count (node : Node Id Msg) (call : Call Id Msg) (msgId : Msg) :
    ((performCall node call).delivers.countP fun d => d.msgId = msgId) = 0 ∧
        ¬ Delivers node call msgId ∨
      ((performCall node call).delivers.countP fun d => d.msgId = msgId) = 1 ∧
        Delivers node call msgId := by
  by_cases hdelivers : Delivers node call msgId
  · obtain ⟨fromId, payload, now, rfl, hmsg⟩ := hdelivers.recvGossip_new
    refine .inr ⟨?_, hdelivers⟩
    rw [performCall, recvGossip_of_new hmsg, recvNew, List.countP_singleton,
      if_pos (decide_eq_true rfl)]
  · refine .inl ⟨List.countP_eq_zero.mpr fun d hd hid => ?_, hdelivers⟩
    exact hdelivers ⟨d, hd, of_decide_eq_true hid⟩

theorem deliverCount_perform_self (net : Network Id Msg) (i : Id) (call : Call Id Msg) :
    (net.perform i call).deliverCount i msgId = net.deliverCount i msgId +
      (performCall (net.node i) call).delivers.countP fun d => d.msgId = msgId := by
  rw [Network.deliverCount, Network.perform, Network.absorb, List.countP_append,
    List.countP_map]
  simp [Network.deliverCount, Function.comp_def]

theorem deliverCount_perform_of_ne (net : Network Id Msg) {i j : Id} (hne : i ≠ j)
    (call : Call Id Msg) :
    (net.perform j call).deliverCount i msgId = net.deliverCount i msgId := by
  rw [Network.deliverCount, Network.perform, Network.absorb, List.countP_append,
    List.countP_map]
  simp [Network.deliverCount, Function.comp_def, hne.symm]

/-- A node which has the message keeps it, and one which comes to have it has broadcast it or
delivered it once. -/
structure Hears (own : Prop) (before after : Bool) (count next : ℕ) : Prop where
  kept : before = true → after = true
  same : before = after → next = count
  news : before = false → after = true → own ∧ next = count ∨ next = count + 1

theorem call_hears {node : Node Id Msg} {call : Call Id Msg} (hwell : WellFormed node)
    (htables : TablesSound node) (hremembers : Remembers msgId node call) (count : ℕ) :
    Hears (∃ payload now, call = .broadcast msgId payload now) (hasMsg node msgId)
      (hasMsg (performCall node call).node msgId) count
      (count + (performCall node call).delivers.countP fun d => d.msgId = msgId) := by
  refine ⟨hremembers.message, fun hsame => ?_, fun hnew hafter => ?_⟩
  · rcases delivers_count node call msgId with ⟨hzero, -⟩ | ⟨-, hdelivers⟩
    · rw [hzero, Nat.add_zero]
    · have hafter := hasMsg_of_learns hwell.cache_ne_nil (.inl hdelivers)
      obtain ⟨fromId, payload, now, rfl, hmsg⟩ := hdelivers.recvGossip_new
      rw [hmsg, hafter] at hsame
      cases hsame
  · rcases delivers_count node call msgId with ⟨hzero, hnot⟩ | ⟨hone, -⟩
    · refine .inl ⟨?_, by rw [hzero, Nat.add_zero]⟩
      cases hbrings : call.brings msgId with
      | false =>
          rw [hasMsg_of_not_brings hwell htables hbrings hafter] at hnew
          cases hnew
      | true =>
          cases call with
          | broadcast other payload now =>
              have hand : other = msgId ∧ payload.length ≠ 0 := of_decide_eq_true hbrings
              exact ⟨payload, now, by rw [hand.1]⟩
          | recvGossip fromId other payload now =>
              obtain rfl : other = msgId := of_decide_eq_true hbrings
              refine absurd ⟨⟨other, payload, fromId⟩, ?_, rfl⟩ hnot
              rw [performCall, recvGossip_of_new hnew, recvNew]
              exact List.mem_singleton_self _
          | _ => cases hbrings
    · exact .inr (by rw [hone])

theorem Hears.of_same {own : Prop} {before : Bool} {count : ℕ} :
    Hears own before before count count where
  kept := id
  same _ := rfl
  news hfalse htrue := by rw [hfalse] at htrue; cases htrue

theorem Spreading.hears (hgood : Spreading members adj msgId net) {event : Event Id Msg}
    (hguard : Undisturbed members msgId net event)
    (hstep : mesh.step net event = some next) (i : Id) :
    Hears (∃ payload now, event = .perform i (.broadcast msgId payload now))
      (hasMsg (net.node i) msgId) (hasMsg (next.node i) msgId)
      (net.deliverCount i msgId) (next.deliverCount i msgId) := by
  have hwell := reachable_wellFormed (hgood.nodes i)
  have htables := reachable_tablesSound (hgood.nodes i)
  cases effect_of_step hstep with
  | @perform j call =>
      by_cases hij : i = j
      · subst hij
        rw [perform_node_self, deliverCount_perform_self]
        obtain ⟨hkept, hsame, hnews⟩ := call_hears hwell htables hguard.1
          (net.deliverCount i msgId)
        refine ⟨hkept, hsame, fun hnew hafter => ?_⟩
        rcases hnews hnew hafter with ⟨⟨payload, now, hcall⟩, hcount⟩ | hcount
        · exact .inl ⟨⟨payload, now, by rw [hcall]⟩, hcount⟩
        · exact .inr hcount
      · rw [perform_node_of_ne net hij, deliverCount_perform_of_ne net hij]
        exact .of_same
  | @deliver k now envelope hpacket =>
      have hcount : ({ net with inFlight := net.inFlight.eraseIdx k } :
          Network Id Msg).deliverCount i msgId = net.deliverCount i msgId := rfl
      by_cases hij : i = envelope.message.target
      · subst hij
        rw [perform_node_self, deliverCount_perform_self, hcount]
        obtain ⟨hkept, hsame, hnews⟩ := call_hears hwell htables (hguard envelope hpacket)
          (net.deliverCount envelope.message.target msgId)
        refine ⟨hkept, hsame, fun hnew hafter => ?_⟩
        rcases hnews hnew hafter with ⟨⟨payload, other, hcall⟩, -⟩ | hnext
        · unfold Envelope.call at hcall
          split at hcall <;> cases hcall
        · exact .inr hnext
      · rw [perform_node_of_ne _ hij, deliverCount_perform_of_ne _ hij, hcount]
        exact .of_same
  | lose => exact .of_same
  | double => exact .of_same

end Deliveries

/-! ## Runs -/

section Runs

variable {members : Finset Id} {adj : Id → List Id} {msgId : Msg}
  {net final : Network Id Msg} {events : List (Event Id Msg)}

theorem Spreading.run (hadj : PushLazyPush.Neighbours members adj)
    (hgood : Spreading members adj msgId net)
    (hmeets : mesh.RunMeets (Undisturbed members msgId) net events)
    (hrun : mesh.run net events = some final) : Spreading members adj msgId final :=
  mesh.run_invariant_of_runMeets
    (fun _ _ _ hstate hguard hstep => hstate.step hadj hguard hstep) hgood hmeets hrun

/-- A node which has the message and never broadcast it has delivered it. -/
theorem Spreading.deliverCount_eq (hadj : PushLazyPush.Neighbours members adj)
    (hgood : Spreading members adj msgId net)
    (hmeets : mesh.RunMeets (Undisturbed members msgId) net events)
    (hrun : mesh.run net events = some final) {i : Id}
    (hnew : hasMsg (net.node i) msgId = false)
    (hnever : ∀ payload now, .perform i (.broadcast msgId payload now) ∉ events)
    (hmsg : hasMsg (final.node i) msgId = true) :
    final.deliverCount i msgId = net.deliverCount i msgId + 1 := by
  have hother : mesh.RunMeets (fun state event => Undisturbed members msgId state event ∧
      ∀ payload now, event ≠ .perform i (.broadcast msgId payload now)) net events := by
    clear hrun hgood hnew
    induction events generalizing net with
    | nil => trivial
    | cons event rest ih =>
        refine ⟨⟨hmeets.1, fun payload now heq => ?_⟩, fun next hstep => ?_⟩
        · exact hnever payload now (heq ▸ List.mem_cons_self)
        · exact ih (hmeets.2 next hstep) fun payload now hmem =>
            hnever payload now (List.mem_cons_of_mem event hmem)
  refine (mesh.run_invariant_of_runMeets (motive := fun state =>
    Spreading members adj msgId state ∧
      (hasMsg (state.node i) msgId = false →
        state.deliverCount i msgId = net.deliverCount i msgId) ∧
      (hasMsg (state.node i) msgId = true →
        state.deliverCount i msgId = net.deliverCount i msgId + 1)) ?_
    ⟨hgood, fun _ => rfl, fun htrue => ?_⟩ hother hrun).2.2 hmsg
  · rintro state event next ⟨hstate, hmissing, hhas⟩ ⟨hguard, hnot⟩ hstep
    obtain ⟨hkept, hsame, hnews⟩ := hstate.hears hguard hstep i
    refine ⟨hstate.step hadj hguard hstep, fun hafter => ?_, fun hafter => ?_⟩
    · cases hbefore : hasMsg (state.node i) msgId with
      | true =>
          rw [hkept hbefore] at hafter
          cases hafter
      | false => rw [hsame (hbefore.trans hafter.symm), hmissing hbefore]
    · cases hbefore : hasMsg (state.node i) msgId with
      | true => rw [hsame (hbefore.trans hafter.symm), hhas hbefore]
      | false =>
          rcases hnews hbefore hafter with ⟨⟨payload, now, hown⟩, -⟩ | hnext
          · exact absurd hown (hnot payload now)
          · rw [hnext, hmissing hbefore]
  · rw [hnew] at htrue
    cases htrue

/-- No packet for the message is in flight, and no node waits for it. -/
structure Quiet (msgId : Msg) (net : Network Id Msg) : Prop where
  inFlight : ∀ envelope ∈ net.inFlight, envelope.message.msgId ≠ msgId
  pending : ∀ i, pendingFind (net.node i).pending msgId = none

omit [DecidableEq Id] in
theorem Quiet.settled (hquiet : Quiet msgId net) : (view msgId net).Settled := by
  refine ⟨packets_eq_zero hquiet.inFlight, fun i => ?_⟩
  have hnone : entriesFor msgId (net.node i).pending = [] := by
    refine List.eq_nil_iff_forall_not_mem.mpr fun p hp => ?_
    obtain ⟨hmem, hid⟩ := mem_entriesFor.mp hp
    exact ne_of_pendingFind_eq_none (hquiet.pending i) hmem hid
  change (markOf msgId (net.node i)).wants = none
  rw [markOf, hnone]
  rfl

theorem spreading_of_quiet (hnodes : ∀ i, runs.Reachable (net.node i))
    (hpeers : ∀ i ∈ members, peerIds (net.node i) = adj i) (hquiet : Quiet msgId net)
    (hunseen : ∀ i, hasMsg (net.node i) msgId = false) : Spreading members adj msgId net := by
  obtain ⟨hflight, hwants⟩ := hquiet.settled
  refine ⟨hnodes, hpeers, ⟨?_, ?_, ?_⟩, ?_, ?_⟩
  · rw [hflight]
    exact fun packet hmem => absurd hmem (Multiset.notMem_zero packet)
  · intro u v hwant
    rw [hwants v] at hwant
    cases hwant
  · intro u v hinformed
    have hfalse := hunseen u
    rw [show hasMsg (net.node u) msgId = true from hinformed] at hfalse
    cases hfalse
  · rw [hflight]
    exact fun packet hmem => absurd hmem (Multiset.notMem_zero packet)
  · intro v u hwant
    rw [hwants v] at hwant
    cases hwant

omit [DecidableEq Msg] in
theorem peerIds_neighbours {i : Id} (hi : i ∈ members) :
    peerIds (net.node i) = neighbours members net i := (if_pos hi).symm

/-- The packets sent for the message so far. -/
def Network.sentFor (net : Network Id Msg) (msgId : Msg) : ℕ :=
  net.sent.countP fun envelope => envelope.message.msgId = msgId

/-- A message id is broadcast where it is new, and its packets are not doubled. -/
def Single (msgId : Msg) (net : Network Id Msg) : Event Id Msg → Prop
  | .perform i call => call.brings msgId = true → hasMsg (net.node i) msgId = false
  | .double k => ∀ envelope, net.inFlight[k]? = some envelope →
      envelope.message.msgId ≠ msgId
  | _ => True

instance (msgId : Msg) (net : Network Id Msg) : ∀ event, Decidable (Single msgId net event)
  | .perform _ _ => inferInstanceAs (Decidable (_ → _))
  | .double k => inferInstanceAs (Decidable (∀ envelope, net.inFlight[k]? = some envelope →
      envelope.message.msgId ≠ msgId))
  | .deliver _ _ => inferInstanceAs (Decidable True)
  | .lose _ => inferInstanceAs (Decidable True)

omit [DecidableEq Id] in
theorem card_packets_sent (net : Network Id Msg) (msgId : Msg) :
    (packets msgId net.sent).card = net.sentFor msgId := by
  rw [packets, Multiset.coe_card, List.length_map, Network.sentFor, List.countP_eq_length_filter]

/-- What was sent and what can still be sent for the message, without what is in flight, does
not grow. -/
theorem Spreading.sent_step (hgood : Spreading members adj msgId net) {event : Event Id Msg}
    (hguard : Undisturbed members msgId net event) (hsingle : Single msgId net event)
    (hstep : mesh.step net event = some final) :
    (packets msgId final.sent).card + (view msgId final).work adj members +
        (view msgId net).inFlight.card ≤
      (packets msgId net.sent).card + (view msgId net).work adj members +
        (view msgId final).inFlight.card := by
  cases hgood.moves hguard hstep with
  | unmoved hview hsent => rw [hview, hsent]
  | @react event next i mark taken rest sent hi hflight hreact hview hsent =>
      have hwork := State.work_react hi hflight hreact
      have hcard : (view msgId net).inFlight.card = taken.card + rest.card := by
        rw [hflight, Multiset.card_add]
      have hnext : (view msgId final).inFlight.card = rest.card + sent.card := by
        rw [hview]
        exact Multiset.card_add rest sent
      rw [hsent, Multiset.card_add, hnext, hview]
      omega
  | @originate i payload now next hi hpayload lazy hview hsent =>
      have hnew : ((view msgId net).mark i).informed = false :=
        hsingle (decide_eq_true ⟨rfl, hpayload⟩)
      have hwork := State.work_originate adj hi hnew lazy
      have hnext : (view msgId final).inFlight.card =
          (view msgId net).inFlight.card + (offers lazy i (adj i)).card := by
        rw [hview]
        exact Multiset.card_add _ _
      rw [hsent, Multiset.card_add, hnext, hview]
      omega
  | double hpacket hid => exact absurd hid (hsingle _ hpacket)

/-- At most five packets for each end of a link are ever sent for one message, notices,
requests and refusals included. -/
theorem mesh_bounded {start : Network Id Msg} (hreach : mesh.Reachable start)
    (hoverlay : Overlay members start) (hquiet : Quiet msgId start)
    (hunseen : ∀ i, hasMsg (start.node i) msgId = false)
    (hmeets : mesh.RunMeets (fun net event => Undisturbed members msgId net event ∧
      Single msgId net event) start events)
    (hrun : mesh.run start events = some final) :
    final.sentFor msgId ≤
      start.sentFor msgId + 5 * ∑ i ∈ members, (start.node i).peers.length := by
  have hadj := hoverlay.neighbours
  have hstart : Spreading members (neighbours members start) msgId start :=
    spreading_of_quiet (mesh_node hreach) (fun i hi => peerIds_neighbours hi) hquiet hunseen
  have hwork : (view msgId start).work (neighbours members start) members =
      5 * ∑ i ∈ members, (start.node i).peers.length := by
    have hload : LazyRepair.load (view msgId start).inFlight = 0 := by
      rw [hquiet.settled.inFlight]
      rfl
    rw [State.work, hload, Nat.add_zero, Finset.mul_sum]
    refine Finset.sum_congr rfl fun i hi => ?_
    have hinformed : ((view msgId start).mark i).informed = false := hunseen i
    rw [Mark.work, hinformed, hquiet.settled.wants i, ← peerIds_neighbours hi, peerIds,
      List.length_map, if_neg Bool.false_ne_true, if_pos rfl, Nat.add_zero]
  have hspent := (mesh.run_invariant_of_runMeets (motive := fun net =>
    Spreading members (neighbours members start) msgId net ∧
      (packets msgId net.sent).card +
          (view msgId net).work (neighbours members start) members ≤
        start.sentFor msgId + 5 * ∑ i ∈ members, (start.node i).peers.length +
          (view msgId net).inFlight.card) ?_ ⟨hstart, ?_⟩ hmeets hrun).2
  · have hflight : (view msgId final).inFlight.card ≤
        (view msgId final).work (neighbours members start) members :=
      (LazyRepair.card_le_load _).trans (Nat.le_add_left _ _)
    rw [card_packets_sent] at hspent
    omega
  · rintro net event next ⟨hgood, hle⟩ ⟨hguard, hsingle⟩ hstep
    have hspend := hgood.sent_step hguard hsingle hstep
    exact ⟨hgood.step hadj hguard hstep, by omega⟩
  · rw [card_packets_sent, hwork]
    exact Nat.le_add_right _ _

end Runs

/-! ## A repair on three nodes -/

def strangers : Network (Option Bool) ℕ where
  node i := create i (some ⟨2, 2, 1, 5000, 60000⟩)
  inFlight := []
  sent := []
  delivered := []

/-- All three become peers, and a first message makes the link between two of them LAZY. -/
def acquaintances : List (Event (Option Bool) ℕ) :=
  [.perform none (.addPeer (some false) 0), .perform none (.addPeer (some true) 0),
    .perform (some false) (.addPeer none 0), .perform (some false) (.addPeer (some true) 0),
    .perform (some true) (.addPeer none 0), .perform (some true) (.addPeer (some false) 0),
    .perform none (.broadcast 9 [4] 1)] ++ List.replicate 6 (.deliver 0 2)

def acquainted : Network (Option Bool) ℕ := (mesh.run strangers acquaintances).getD strangers

/-- The third node hears of the second message before the copy for it arrives, and asks. -/
def repairEvents : List (Event (Option Bool) ℕ) :=
  [.perform none (.broadcast 7 [5] 10), .deliver 0 11, .deliver 1 12,
    .perform (some true) (.tick 5012)] ++ List.replicate 6 (.deliver 0 5013)

theorem acquainted_reachable : mesh.Reachable acquainted := by
  refine ⟨strangers, acquaintances, ⟨⟨rfl, rfl, rfl⟩, fun i => ⟨_, rfl⟩⟩, ?_⟩
  have hends : (mesh.run strangers acquaintances).isSome = true := by decide +kernel
  obtain ⟨net, hnet⟩ := Option.isSome_iff_exists.mp hends
  rw [acquainted, hnet, Option.getD_some]

theorem acquainted_overlay : Overlay Finset.univ acquainted where
  reachable i _ := mesh_node acquainted_reachable i
  selfId := by decide +kernel
  symmetric := by decide +kernel

theorem acquainted_quiet : Quiet 7 acquainted ∧ ∀ i, hasMsg (acquainted.node i) 7 = false :=
  ⟨⟨by decide +kernel, by decide +kernel⟩, by decide +kernel⟩

theorem repairEvents_quiet :
    ∃ final, mesh.run acquainted repairEvents = some final ∧ Quiet 7 final := by
  have hends : ((mesh.run acquainted repairEvents).any fun final =>
      decide (final.inFlight = []) &&
        decide (∀ i, pendingFind (final.node i).pending 7 = none)) = true := by
    decide +kernel
  obtain ⟨final, hrun, hends⟩ := (Option.any_eq_true _ _).mp hends
  rw [Bool.and_eq_true, decide_eq_true_eq, decide_eq_true_eq] at hends
  refine ⟨final, hrun, ⟨fun envelope hmem => ?_, hends.2⟩⟩
  rw [hends.1] at hmem
  cases hmem

theorem repairEvents_undisturbed :
    mesh.RunMeets (fun net event => Undisturbed Finset.univ 7 net event ∧ Single 7 net event)
      acquainted repairEvents := by
  decide +kernel

theorem mesh_bounded_repair :
    ∃ final, mesh.run acquainted repairEvents = some final ∧
      final.sentFor 7 ≤ acquainted.sentFor 7 + 30 := by
  obtain ⟨final, hrun, -⟩ := repairEvents_quiet
  refine ⟨final, hrun, ?_⟩
  have hbounded := mesh_bounded acquainted_reachable acquainted_overlay acquainted_quiet.1
    acquainted_quiet.2 repairEvents_undisturbed hrun
  have hlinks : 5 * ∑ i, (acquainted.node i).peers.length = 30 := by decide +kernel
  rwa [hlinks] at hbounded

end PlumTree
end LibWake
