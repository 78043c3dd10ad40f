import LibWake.PlumTreeNetwork
import LibWake.PlumTreePayload

/-!
# Nodes over a network which loses, doubles and delays

Any node may be called by its application at any time, and the network may deliver, lose or
double any packet in flight.  Whatever happens, what `deliver_fn` is called with was broadcast
under that message id: it is a broadcast payload, or what a cache slot holds of one.
-/

namespace LibWake
namespace PlumTree

variable {Id Msg : Type}

/-! ## The system -/

inductive Event (Id Msg : Type) where
  | perform (i : Id) (call : Call Id Msg)
  | deliver (k : ℕ) (now : UInt64)
  | lose (k : ℕ)
  | double (k : ℕ)
  deriving DecidableEq, Repr

/-- The calls which an application makes; the others belong to packets. -/
def Call.isLocal : Call Id Msg → Bool
  | .recvGossip _ _ _ _ | .recvIhave _ _ _ | .recvGraft _ _ _ | .recvPrune _ _ => false
  | _ => true

/-- The call which the transport makes for a packet. -/
def Envelope.call (envelope : Envelope Id Msg) (now : UInt64) : Call Id Msg :=
  match envelope.message.msgType with
  | .gossip =>
      .recvGossip envelope.source envelope.message.msgId envelope.message.payload now
  | .ihave => .recvIhave envelope.source envelope.message.msgId now
  | .graft => .recvGraft envelope.source envelope.message.msgId now
  | .prune => .recvPrune envelope.source now

variable [DecidableEq Id] [DecidableEq Msg]

def Network.perform (net : Network Id Msg) (i : Id) (call : Call Id Msg) :
    Network Id Msg :=
  net.absorb i (performCall (net.node i) call)

def Network.step (net : Network Id Msg) : Event Id Msg → Option (Network Id Msg)
  | .perform i call => if call.isLocal then some (net.perform i call) else none
  | .deliver k now => net.deliver (k, now)
  | .lose k => net.inFlight[k]?.map fun _ =>
      { net with inFlight := net.inFlight.eraseIdx k }
  | .double k => net.inFlight[k]?.map fun envelope =>
      { net with inFlight := envelope :: net.inFlight }

def mesh : TransitionSystem (Network Id Msg) (Event Id Msg) where
  Initial net := net.Idle ∧ ∀ i, ∃ cfg, create i cfg = net.node i
  step := Network.step

omit [DecidableEq Id] [DecidableEq Msg] in
/-- What one event does: a call at one node, for which a packet may be taken from the
network, or a change of the packets alone. -/
inductive Effect [DecidableEq Id] [DecidableEq Msg] (net : Network Id Msg) :
    Event Id Msg → Network Id Msg → Prop where
  | perform {i : Id} {call : Call Id Msg} (hlocal : call.isLocal = true) :
      Effect net (.perform i call) (net.perform i call)
  | deliver {k : ℕ} {now : UInt64} {envelope : Envelope Id Msg}
      (hpacket : net.inFlight[k]? = some envelope) :
      Effect net (.deliver k now)
        ({ net with inFlight := net.inFlight.eraseIdx k }.perform envelope.message.target
          (envelope.call now))
  | lose {k : ℕ} {envelope : Envelope Id Msg} (hpacket : net.inFlight[k]? = some envelope) :
      Effect net (.lose k) { net with inFlight := net.inFlight.eraseIdx k }
  | double {k : ℕ} {envelope : Envelope Id Msg}
      (hpacket : net.inFlight[k]? = some envelope) :
      Effect net (.double k) { net with inFlight := envelope :: net.inFlight }

theorem performCall_call (node : Node Id Msg) (envelope : Envelope Id Msg) (now : UInt64) :
    performCall node (envelope.call now) =
      handle node envelope.source envelope.message now := by
  unfold Envelope.call handle
  cases envelope.message.msgType with
  | gossip => rfl
  | ihave => rfl
  | graft => rfl
  | prune => rfl

theorem effect_of_step {net next : Network Id Msg} {event : Event Id Msg}
    (hstep : mesh.step net event = some next) : Effect net event next := by
  cases event with
  | perform i call =>
      simp only [mesh, Network.step] at hstep
      split_ifs at hstep with hlocal
      obtain rfl := Option.some.inj hstep
      exact .perform hlocal
  | deliver k now =>
      obtain ⟨envelope, hpacket, rfl⟩ := Option.map_eq_some_iff.mp hstep
      have heffect : Effect net (.deliver k now) _ := .deliver hpacket
      rw [Network.perform, performCall_call] at heffect
      exact heffect
  | lose k =>
      obtain ⟨envelope, hpacket, rfl⟩ := Option.map_eq_some_iff.mp hstep
      exact .lose hpacket
  | double k =>
      obtain ⟨envelope, hpacket, rfl⟩ := Option.map_eq_some_iff.mp hstep
      exact .double hpacket

theorem perform_node_self (net : Network Id Msg) (i : Id) (call : Call Id Msg) :
    (net.perform i call).node i = (performCall (net.node i) call).node := by
  simp only [Network.perform, Network.absorb, Function.update_self]

theorem perform_node_of_ne (net : Network Id Msg) {i j : Id} (hne : j ≠ i)
    (call : Call Id Msg) : (net.perform i call).node j = net.node j := by
  simp only [Network.perform, Network.absorb, Function.update_of_ne hne]

theorem nodes_perform {net : Network Id Msg} (hnodes : ∀ i, runs.Reachable (net.node i))
    (i : Id) (call : Call Id Msg) (j : Id) : runs.Reachable ((net.perform i call).node j) := by
  by_cases hji : j = i
  · subst hji
    rw [perform_node_self]
    exact (hnodes j).step (performCall_step (net.node j) call)
  · rw [perform_node_of_ne net hji]
    exact hnodes j

theorem nodes_step {net next : Network Id Msg} (hnodes : ∀ i, runs.Reachable (net.node i))
    {event : Event Id Msg} (hstep : mesh.step net event = some next) (i : Id) :
    runs.Reachable (next.node i) := by
  cases effect_of_step hstep with
  | perform => exact nodes_perform hnodes _ _ i
  | @deliver k =>
      have hrest : ∀ j, runs.Reachable
          (({ net with inFlight := net.inFlight.eraseIdx k } : Network Id Msg).node j) :=
        hnodes
      exact nodes_perform hrest _ _ i
  | lose => exact hnodes i
  | double => exact hnodes i

/-- The state of a node is what its own calls made it. -/
theorem mesh_node {net : Network Id Msg} (hreach : mesh.Reachable net) (i : Id) :
    runs.Reachable (net.node i) := by
  refine hreach.invariant (motive := fun net => ∀ i, runs.Reachable (net.node i)) ?_ ?_ i
  · rintro net ⟨-, hcreated⟩ i
    obtain ⟨cfg, hcreate⟩ := hcreated i
    exact runs.reachable_of_initial ⟨i, cfg, hcreate⟩
  · exact fun net event next hnodes hstep => nodes_step hnodes hstep

/-! ## Integrity -/

/-- The payload which an event brings into the network under the message id. -/
def originated (msgId : Msg) (_ : Network Id Msg) : Event Id Msg → List (List UInt8)
  | .perform _ (.broadcast other payload _) =>
      if other = msgId ∧ payload.length ≠ 0 then [payload] else []
  | _ => []

/-- The bytes are one of the payloads, or what a slot holds of one. -/
def FromOne (payloads : List (List UInt8)) (bytes : List UInt8) : Prop :=
  ∃ payload ∈ payloads, bytes = payload ∨ bytes = payload.take maxPayload

omit [DecidableEq Id] [DecidableEq Msg] in
/-- Everything in the network under the message id stems from the payloads, and what was
delivered was sent. -/
structure Genuine (msgId : Msg) (payloads : List (List UInt8)) (net : Network Id Msg) :
    Prop where
  cached : ∀ i e, some e ∈ (net.node i).cache → e.msgId = msgId →
    ∃ payload ∈ payloads, e.payload = payload.take maxPayload
  sent : ∀ envelope ∈ net.sent, envelope.message.msgType = .gossip →
    envelope.message.msgId = msgId → FromOne payloads envelope.message.payload
  inFlight : net.inFlight ⊆ net.sent
  delivered : ∀ i d, (i, d) ∈ net.delivered →
    (⟨d.fromId, ⟨.gossip, i, d.msgId, d.payload⟩⟩ : Envelope Id Msg) ∈ net.sent

omit [DecidableEq Id] [DecidableEq Msg] in
theorem FromOne.take {payloads : List (List UInt8)} {bytes : List UInt8}
    (hfrom : FromOne payloads bytes) :
    ∃ payload ∈ payloads, bytes.take maxPayload = payload.take maxPayload := by
  obtain ⟨payload, hmem, rfl | rfl⟩ := hfrom
  · exact ⟨bytes, hmem, rfl⟩
  · exact ⟨payload, hmem, by rw [List.take_take, Nat.min_self]⟩

omit [DecidableEq Id] [DecidableEq Msg] in
theorem FromOne.mono {few many : List (List UInt8)} (hsub : few ⊆ many)
    {bytes : List UInt8} (hfrom : FromOne few bytes) : FromOne many bytes := by
  obtain ⟨payload, hmem, hbytes⟩ := hfrom
  exact ⟨payload, hsub hmem, hbytes⟩

variable {msgId : Msg} {few many payloads : List (List UInt8)} {net next : Network Id Msg}

omit [DecidableEq Id] [DecidableEq Msg] in
theorem Genuine.mono (hgenuine : Genuine msgId few net) (hsub : few ⊆ many) :
    Genuine msgId many net where
  cached i e hmem hid := by
    obtain ⟨payload, hpayload, he⟩ := hgenuine.cached i e hmem hid
    exact ⟨payload, hsub hpayload, he⟩
  sent envelope hmem htype hid := (hgenuine.sent envelope hmem htype hid).mono hsub
  inFlight := hgenuine.inFlight
  delivered := hgenuine.delivered

omit [DecidableEq Id] [DecidableEq Msg] in
theorem Genuine.of_inFlight (hgenuine : Genuine msgId payloads net)
    {inFlight : List (Envelope Id Msg)} (hsub : inFlight ⊆ net.inFlight) :
    Genuine msgId payloads { net with inFlight := inFlight } :=
  ⟨hgenuine.cached, hgenuine.sent, fun _ hmem => hgenuine.inFlight (hsub hmem),
    hgenuine.delivered⟩

/-- A call keeps what it is told genuine. -/
theorem Genuine.perform (hgenuine : Genuine msgId payloads net) {i : Id}
    (hreach : runs.Reachable (net.node i)) {call : Call Id Msg}
    (hlearned : ∀ bytes ∈ learnedBy msgId (net.node i) call, FromOne payloads bytes)
    (hfrom : ∀ fromId other payload now, call = .recvGossip fromId other payload now →
      (⟨fromId, ⟨.gossip, i, other, payload⟩⟩ : Envelope Id Msg) ∈ net.sent) :
    Genuine msgId payloads (net.perform i call) := by
  have hwell := reachable_wellFormed hreach
  have htables := reachable_tablesSound hreach
  refine ⟨?_, ?_, ?_, ?_⟩
  · intro j e hmem hid
    rw [Network.perform, Network.absorb] at hmem
    by_cases hji : j = i
    · subst hji
      simp only [Function.update_self] at hmem
      subst hid
      rcases mem_cache_performCall hwell htables hmem with hold | ⟨bytes, hbytes, he⟩
      · exact hgenuine.cached j e hold rfl
      · obtain ⟨payload, hpayload, htake⟩ := (hlearned bytes hbytes).take
        exact ⟨payload, hpayload, he.trans htake⟩
    · simp only [Function.update_of_ne hji] at hmem
      exact hgenuine.cached j e hmem hid
  · intro envelope hmem htype hid
    rcases List.mem_append.mp hmem with hold | hnew
    · exact hgenuine.sent envelope hold htype hid
    · obtain ⟨s, hs, rfl⟩ := List.mem_map.mp hnew
      have hcarried : s.payload ∈ carriedBy msgId (net.node i) call :=
        mem_carriedBy.mpr (.inl ⟨s, hs, htype, hid, rfl⟩)
      rcases mem_carriedBy_cases hwell htables hcarried with hbytes | ⟨-, e, he, heid, hbytes⟩
      · exact hlearned _ hbytes
      · obtain ⟨payload, hpayload, htake⟩ := hgenuine.cached i e he heid
        exact ⟨payload, hpayload, .inr (hbytes.symm.trans htake)⟩
  · intro envelope hmem
    rcases List.mem_append.mp hmem with hold | hnew
    · exact List.mem_append_left _ (hgenuine.inFlight hold)
    · exact List.mem_append_right _ hnew
  · intro j d hmem
    rcases List.mem_append.mp hmem with hold | hnew
    · exact List.mem_append_left _ (hgenuine.delivered j d hold)
    · obtain ⟨other, hother, heq⟩ := List.mem_map.mp hnew
      obtain ⟨rfl, rfl⟩ := Prod.mk.inj heq
      obtain ⟨fromId, payload, now, rfl, hmsg⟩ := Delivers.recvGossip_new ⟨other, hother, rfl⟩
      rw [performCall, recvGossip_of_new hmsg] at hother
      have hd : other = ⟨other.msgId, payload, fromId⟩ := List.mem_singleton.mp hother
      rw [congrArg Delivery.fromId hd, congrArg Delivery.payload hd]
      exact List.mem_append_left _ (hfrom _ _ _ _ rfl)

theorem Genuine.step (hgenuine : Genuine msgId payloads net)
    (hnodes : ∀ i, runs.Reachable (net.node i)) {event : Event Id Msg}
    (hstep : mesh.step net event = some next) :
    Genuine msgId (payloads ++ originated msgId net event) next := by
  have hmore := hgenuine.mono (List.subset_append_left payloads (originated msgId net event))
  cases effect_of_step hstep with
  | @perform i call hlocal =>
      refine hmore.perform (hnodes i) ?_ ?_
      · intro bytes hbytes
        cases call with
        | broadcast other payload now =>
            exact ⟨bytes, List.mem_append_right _ hbytes, .inl rfl⟩
        | recvGossip fromId other payload now => cases hlocal
        | _ => cases hbytes
      · rintro fromId other payload now rfl
        cases hlocal
  | @deliver k now envelope hpacket =>
      have hmem := List.mem_of_getElem? hpacket
      have hsent := hgenuine.inFlight hmem
      have hrest := hmore.of_inFlight (List.eraseIdx_subset (l := net.inFlight) (k := k))
      refine hrest.perform (hnodes _) ?_ ?_
      · intro bytes hbytes
        cases htype : envelope.message.msgType with
        | gossip =>
            rw [Envelope.call, htype] at hbytes
            simp only [learnedBy] at hbytes
            split_ifs at hbytes with hnew
            · obtain rfl := List.mem_singleton.mp hbytes
              exact hmore.sent envelope hsent htype hnew.1
            · cases hbytes
        | ihave => rw [Envelope.call, htype] at hbytes; cases hbytes
        | graft => rw [Envelope.call, htype] at hbytes; cases hbytes
        | prune => rw [Envelope.call, htype] at hbytes; cases hbytes
      · intro fromId other payload now' hcall
        obtain ⟨source, msgType, target, id, bytes⟩ := envelope
        cases msgType with
        | gossip =>
            obtain ⟨rfl, rfl, rfl, -⟩ := Call.recvGossip.inj hcall
            exact hsent
        | ihave => cases hcall
        | graft => cases hcall
        | prune => cases hcall
  | lose => exact hmore.of_inFlight List.eraseIdx_subset
  | double hpacket =>
      exact hmore.of_inFlight (List.cons_subset.mpr
        ⟨List.mem_of_getElem? hpacket, List.Subset.refl _⟩)

theorem genuine_of_initial (hinitial : mesh.Initial net) : Genuine msgId [] net := by
  obtain ⟨hidle, hcreated⟩ := hinitial
  refine ⟨?_, ?_, ?_, ?_⟩
  · intro i e hmem
    obtain ⟨cfg, hcreate⟩ := hcreated i
    rw [← hcreate] at hmem
    cases List.eq_of_mem_replicate hmem
  · rw [hidle.sent]
    intro envelope hmem
    cases hmem
  · rw [hidle.inFlight]
    exact List.nil_subset _
  · rw [hidle.delivered]
    intro i d hmem
    cases hmem

theorem Genuine.run (hgenuine : Genuine msgId payloads net) (hreach : mesh.Reachable net)
    {events : List (Event Id Msg)} (hrun : mesh.run net events = some next) :
    Genuine msgId (payloads ++ mesh.collect (originated msgId) net events) next := by
  induction events generalizing net payloads with
  | nil =>
      obtain rfl := Option.some.inj hrun
      rw [TransitionSystem.collect, List.append_nil]
      exact hgenuine
  | cons event rest ih =>
      obtain ⟨middle, hstep, hrest⟩ := mesh.run_cons_eq_some.mp hrun
      rw [mesh.collect_cons_of_step _ hstep, ← List.append_assoc]
      exact ih (hgenuine.step (mesh_node hreach) hstep) (hreach.step hstep) hrest

/-- What is delivered was sent to the node in a GOSSIP by the peer which is named as its
source, and its bytes are those of a broadcast under the same message id, cut to a cache slot
at most. -/
theorem mesh_integrity {start final : Network Id Msg} (hinitial : mesh.Initial start)
    {events : List (Event Id Msg)} (hrun : mesh.run start events = some final) {i : Id}
    {d : Delivery Id Msg} (hmem : (i, d) ∈ final.delivered) :
    (⟨d.fromId, ⟨.gossip, i, d.msgId, d.payload⟩⟩ : Envelope Id Msg) ∈ final.sent ∧
      FromOne (mesh.collect (originated d.msgId) start events) d.payload := by
  have hstart : Genuine d.msgId [] start := genuine_of_initial hinitial
  have hfinal := hstart.run (mesh.reachable_of_initial hinitial) hrun
  have hsent := hfinal.delivered i d hmem
  exact ⟨hsent, hfinal.sent _ hsent rfl rfl⟩

/-- Two nodes which do not know each other yet. -/
def pair : Network Bool ℕ where
  node i := create i (some ⟨2, 2, 2, 5000, 60000⟩)
  inFlight := []
  sent := []
  delivered := []

/-- The first copy of a doubled packet is lost, and the other one arrives. -/
def pairEvents : List (Event Bool ℕ) :=
  [.perform false (.addPeer true 0), .perform true (.addPeer false 0),
    .perform false (.broadcast 7 [1, 2] 5), .double 0, .lose 0, .deliver 0 6]

theorem mesh_integrity_pair :
    ∃ final, mesh.run pair pairEvents = some final ∧
      (true, (⟨7, [1, 2], false⟩ : Delivery Bool ℕ)) ∈ final.delivered ∧
      FromOne (mesh.collect (originated 7) pair pairEvents) [1, 2] := by
  have harrives : ((mesh.run pair pairEvents).any fun final =>
      (true, (⟨7, [1, 2], false⟩ : Delivery Bool ℕ)) ∈ final.delivered) = true := by decide
  obtain ⟨final, hrun, hmem⟩ := (Option.any_eq_true _ _).mp harrives
  have hmem := of_decide_eq_true hmem
  have hinitial : mesh.Initial pair := ⟨⟨rfl, rfl, rfl⟩, fun i => ⟨_, rfl⟩⟩
  exact ⟨final, hrun, hmem, (mesh_integrity hinitial hrun hmem).2⟩

end PlumTree
end LibWake
