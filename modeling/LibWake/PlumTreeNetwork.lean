import Mathlib.Combinatorics.SimpleGraph.Basic
import Mathlib.Data.Finset.Defs
import LibWake.PlumTreeInvariant

/-!
# Several PlumTree nodes and the messages between them

The nodes are found by their ids.  A message which a node hands to `send_fn` is
in flight until it is handed to the handler of its type at the target; which
message comes next, and at what time, is the choice of the environment.
-/

namespace LibWake
namespace PlumTree

/-! ## The network -/

/-- A message on its way, and the node which sent it. -/
structure Envelope (Id Msg : Type) where
  source : Id
  message : Send Id Msg
  deriving DecidableEq, Repr

/-- The nodes, the messages in flight, and the calls of `send_fn` and of
`deliver_fn` since the start. -/
structure Network (Id Msg : Type) where
  node : Id → Node Id Msg
  inFlight : List (Envelope Id Msg)
  sent : List (Envelope Id Msg)
  delivered : List (Id × Delivery Id Msg)

variable {Id Msg : Type} [DecidableEq Id] [DecidableEq Msg]

/-- The outcome of a handler at node `i` takes effect. -/
def Network.absorb (net : Network Id Msg) (i : Id) (outcome : Outcome Id Msg) :
    Network Id Msg where
  node := Function.update net.node i outcome.node
  inFlight := net.inFlight ++ outcome.sends.map (Envelope.mk i)
  sent := net.sent ++ outcome.sends.map (Envelope.mk i)
  delivered := net.delivered ++ outcome.delivers.map (Prod.mk i)

/-- Node `i` originates a message. -/
def Network.broadcast (net : Network Id Msg) (i : Id) (msgId : Msg)
    (payload : List UInt8) (now : UInt64) : Network Id Msg :=
  net.absorb i (PlumTree.broadcast (net.node i) msgId payload now)

/-- The handler for the type of a message. -/
def handle (node : Node Id Msg) (fromId : Id) (message : Send Id Msg) (now : UInt64) :
    Outcome Id Msg :=
  match message.msgType with
  | .gossip => (recvGossip node fromId message.msgId message.payload now).2
  | .ihave => recvIhave node fromId message.msgId now
  | .graft => recvGraft node fromId message.msgId now
  | .prune => recvPrune node fromId now

/-- Message `label.1` of those in flight reaches its target at time `label.2`. -/
def Network.deliver (net : Network Id Msg) (label : ℕ × UInt64) :
    Option (Network Id Msg) :=
  net.inFlight[label.1]?.map fun envelope =>
    { net with inFlight := net.inFlight.eraseIdx label.1 }.absorb envelope.message.target
      (handle (net.node envelope.message.target) envelope.source envelope.message label.2)

/-- No message was sent or delivered yet. -/
structure Network.Idle (net : Network Id Msg) : Prop where
  inFlight : net.inFlight = []
  sent : net.sent = []
  delivered : net.delivered = []

/-- The deliveries after one broadcast. -/
def deliveries : TransitionSystem (Network Id Msg) (ℕ × UInt64) where
  Initial net := ∃ start i msgId payload now,
    Network.Idle start ∧ start.broadcast i msgId payload now = net
  step := Network.deliver

/-! ## The overlay -/

/-- Nodes in any state they can be in, with their own ids, which are peers of
each other in both directions. -/
structure Overlay (members : Finset Id) (net : Network Id Msg) : Prop where
  reachable : ∀ i ∈ members, runs.Reachable (net.node i)
  selfId : ∀ i ∈ members, (net.node i).selfId = i
  symmetric : ∀ i ∈ members, ∀ j ∈ peerIds (net.node i),
    j ∈ members ∧ i ∈ peerIds (net.node j)

/-- The graph of the peer lists. -/
def peerGraph (members : Finset Id) (net : Network Id Msg) :
    SimpleGraph {i // i ∈ members} :=
  SimpleGraph.fromRel fun i j => j.1 ∈ peerIds (net.node i.1)

/-- The graph of the EAGER links. -/
def eagerGraph (members : Finset Id) (net : Network Id Msg) :
    SimpleGraph {i // i ∈ members} :=
  SimpleGraph.fromRel fun i j => peerLink (net.node i.1) j.1 = some .eager

/-- The number of calls of `deliver_fn` for a message at node `i`. -/
def Network.deliverCount (net : Network Id Msg) (i : Id) (msgId : Msg) : ℕ :=
  net.delivered.countP fun call => call.1 = i ∧ call.2.msgId = msgId

end PlumTree
end LibWake
