import Mathlib.Data.List.Basic
import LibWake.TransitionSystem

/-!
# The PlumTree node

The functions of `wake_plumtree` as pure functions of one node's state.  Node
ids and message ids are only ever compared for equality, so their types are
parameters.  The peer array is the list of its used prefix; a cache or pending
slot is `none` while its flag is clear, since its other bytes are not read then.

The calls of the two callbacks are results of the handlers, in their order.  A
handler without a callback drops these calls and changes the state in the same
way.
-/

namespace LibWake
namespace PlumTree

/-! ## Constants and data -/

def maxPayload : ℕ := 256

/-- `wake_plumtree_link_t`. -/
inductive Link where
  | eager
  | lazy
  deriving DecidableEq, Repr

/-- `wake_plumtree_msg_type_t`. -/
inductive MsgType where
  | gossip
  | ihave
  | graft
  | prune
  deriving DecidableEq, Repr

/-- `wake_plumtree_result_t`. -/
inductive Result where
  | ok
  | exists
  | notFound
  | full
  | self
  | dup
  deriving DecidableEq, Repr

structure Peer (Id : Type) where
  nodeId : Id
  lastActiveMs : UInt64
  linkType : Link
  deriving DecidableEq, Repr

/-- An occupied cache slot; `payload_len` is the length of the payload. -/
structure CacheEntry (Msg : Type) where
  msgId : Msg
  receivedMs : UInt64
  payload : List UInt8
  deriving DecidableEq, Repr

/-- An active pending slot. -/
structure Pending (Id Msg : Type) where
  msgId : Msg
  fromId : Id
  receivedMs : UInt64
  deriving DecidableEq, Repr

structure Config where
  maxPeers : UInt16
  cacheSize : UInt16
  pendingSize : UInt16
  lazyTimeoutMs : UInt32
  cacheTtlMs : UInt32
  deriving DecidableEq, Repr

/-- `wake_plumtree_t`. -/
structure Node (Id Msg : Type) where
  config : Config
  selfId : Id
  peers : List (Peer Id)
  cache : List (Option (CacheEntry Msg))
  cacheCount : ℕ
  pending : List (Option (Pending Id Msg))
  pendingCount : ℕ
  messagesReceived : UInt64
  messagesBroadcast : UInt64
  duplicates : UInt64
  graftsSent : UInt64
  prunesSent : UInt64
  repairs : UInt64
  cacheEvictions : UInt64
  deriving DecidableEq, Repr

/-- One call of `send_fn`; the payload is empty where the code passes NULL. -/
structure Send (Id Msg : Type) where
  msgType : MsgType
  target : Id
  msgId : Msg
  payload : List UInt8
  deriving DecidableEq, Repr

/-- One call of `deliver_fn`. -/
structure Delivery (Id Msg : Type) where
  msgId : Msg
  payload : List UInt8
  fromId : Id
  deriving DecidableEq, Repr

/-- The node after a handler, and the callbacks it made. -/
structure Outcome (Id Msg : Type) where
  node : Node Id Msg
  sends : List (Send Id Msg)
  delivers : List (Delivery Id Msg)

variable {Id Msg : Type}

/-! ## Lifecycle -/

def defaultConfig : Config where
  maxPeers := 512
  cacheSize := 1024
  pendingSize := 256
  lazyTimeoutMs := 5000
  cacheTtlMs := 60000

/-- The minimums which `wake_plumtree_create` enforces. -/
def Config.enforced (cfg : Config) : Config where
  maxPeers := if cfg.maxPeers = 0 then 512 else cfg.maxPeers
  cacheSize := if cfg.cacheSize = 0 then 1024 else cfg.cacheSize
  pendingSize := if cfg.pendingSize = 0 then 256 else cfg.pendingSize
  lazyTimeoutMs := if cfg.lazyTimeoutMs = 0 then 5000 else cfg.lazyTimeoutMs
  cacheTtlMs := if cfg.cacheTtlMs = 0 then 60000 else cfg.cacheTtlMs

/-- A node with empty tables and counters. -/
def emptyNode (selfId : Id) (config : Config) : Node Id Msg where
  config := config
  selfId := selfId
  peers := []
  cache := List.replicate config.cacheSize.toNat none
  cacheCount := 0
  pending := List.replicate config.pendingSize.toNat none
  pendingCount := 0
  messagesReceived := 0
  messagesBroadcast := 0
  duplicates := 0
  graftsSent := 0
  prunesSent := 0
  repairs := 0
  cacheEvictions := 0

/-- `wake_plumtree_create`. -/
def create (selfId : Id) (cfg : Option Config) : Node Id Msg :=
  emptyNode selfId (cfg.getD defaultConfig).enforced

/-- `wake_plumtree_reset`. -/
def reset (node : Node Id Msg) : Node Id Msg :=
  emptyNode node.selfId node.config

section Handlers

variable [DecidableEq Id] [DecidableEq Msg]

/-! ## Helpers -/

/-- `find_peer`. -/
def findPeer (peers : List (Peer Id)) (nodeId : Id) : Option ℕ :=
  peers.findIdx? fun p => p.nodeId = nodeId

/-- `cache_find`. -/
def cacheFind (cache : List (Option (CacheEntry Msg))) (msgId : Msg) :
    Option (CacheEntry Msg) :=
  cache.findSome? fun slot => slot.filter fun e => e.msgId = msgId

/-- The victim search of `cache_insert` in a full cache: the first of the
entries received longest ago. -/
def oldestCached (cache : List (Option (CacheEntry Msg))) : ℕ :=
  (List.range' 1 (cache.length - 1)).foldl (fun oldest i =>
    match cache[i]?, cache[oldest]? with
    | some (some e), some (some o) => if e.receivedMs < o.receivedMs then i else oldest
    | _, _ => oldest) 0

/-- `cache_insert`. -/
def cacheInsert (node : Node Id Msg) (msgId : Msg) (payload : List UInt8)
    (now : UInt64) : Node Id Msg :=
  let entry : CacheEntry Msg :=
    { msgId := msgId, receivedMs := now, payload := payload.take maxPayload }
  match node.cache.findIdx? Option.isNone with
  | some i =>
      { node with
        cache := node.cache.set i (some entry)
        cacheCount := node.cacheCount + 1 }
  | none =>
      { node with
        cache := node.cache.set (oldestCached node.cache) (some entry)
        cacheEvictions := node.cacheEvictions + 1 }

/-- `pending_find`. -/
def pendingFind (pending : List (Option (Pending Id Msg))) (msgId : Msg) : Option ℕ :=
  pending.findIdx? fun slot => slot.any fun p => p.msgId = msgId

/-- The victim search of `pending_add` in a full table. -/
def oldestPending (pending : List (Option (Pending Id Msg))) : Option ℕ :=
  (List.range pending.length).foldl (fun (oldest : Option ℕ) i =>
    match pending[i]? with
    | some (some p) =>
        match oldest.bind fun j => (pending[j]?).join with
        | none => some i
        | some o => if p.receivedMs < o.receivedMs then some i else oldest
    | _ => oldest) none

/-- `pending_add`. -/
def pendingAdd (node : Node Id Msg) (msgId : Msg) (fromId : Id) (now : UInt64) :
    Node Id Msg :=
  let entry : Pending Id Msg := { msgId := msgId, fromId := fromId, receivedMs := now }
  match pendingFind node.pending msgId with
  | some i => { node with pending := node.pending.set i (some entry) }
  | none =>
      match node.pending.findIdx? Option.isNone with
      | some i =>
          { node with
            pending := node.pending.set i (some entry)
            pendingCount := node.pendingCount + 1 }
      | none =>
          match oldestPending node.pending with
          | some i => { node with pending := node.pending.set i (some entry) }
          | none => node

/-- `pending_remove_msg`; the count stops at 0. -/
def pendingRemoveMsg (node : Node Id Msg) (msgId : Msg) : Node Id Msg :=
  match pendingFind node.pending msgId with
  | some i =>
      { node with
        pending := node.pending.set i none
        pendingCount := node.pendingCount - 1 }
  | none => node

/-- The common body of `promote_eager` and `demote_lazy`. -/
def setLink (link : Link) (node : Node Id Msg) (nodeId : Id) (now : UInt64) :
    Node Id Msg :=
  match findPeer node.peers nodeId with
  | some idx =>
      { node with
        peers := node.peers.modify idx fun p =>
          { p with linkType := link, lastActiveMs := now } }
  | none => node

/-- `promote_eager`. -/
def promoteEager (node : Node Id Msg) (nodeId : Id) (now : UInt64) : Node Id Msg :=
  setLink .eager node nodeId now

/-- `demote_lazy`. -/
def demoteLazy (node : Node Id Msg) (nodeId : Id) (now : UInt64) : Node Id Msg :=
  setLink .lazy node nodeId now

/-! ## Peer management -/

/-- `wake_plumtree_add_peer`. -/
def addPeer (node : Node Id Msg) (nodeId : Id) (now : UInt64) : Result × Node Id Msg :=
  if nodeId = node.selfId then (.self, node)
  else if (findPeer node.peers nodeId).isSome then (.exists, node)
  else if node.peers.length ≥ node.config.maxPeers.toNat then (.full, node)
  else
    (.ok, { node with
      peers := node.peers ++
        [{ nodeId := nodeId, lastActiveMs := now, linkType := .eager }] })

/-- `wake_plumtree_remove_peer`: the last peer fills the gap. -/
def removePeer (node : Node Id Msg) (nodeId : Id) : Result × Node Id Msg :=
  match findPeer node.peers nodeId with
  | none => (.notFound, node)
  | some idx =>
      match node.peers.getLast? with
      | none => (.notFound, node)
      | some last => (.ok, { node with peers := (node.peers.set idx last).dropLast })

/-- `wake_plumtree_peer_link`; `none` is the result -1. -/
def peerLink (node : Node Id Msg) (nodeId : Id) : Option Link :=
  (findPeer node.peers nodeId).bind fun idx => (node.peers[idx]?).map Peer.linkType

/-- `wake_plumtree_has_msg`. -/
def hasMsg (node : Node Id Msg) (msgId : Msg) : Bool :=
  (cacheFind node.cache msgId).isSome

/-! ## Broadcast and the protocol handlers -/

/-- The message for one peer: the payload over an EAGER link, the id over a LAZY
one. -/
def announce (msgId : Msg) (payload : List UInt8) (p : Peer Id) : Send Id Msg :=
  match p.linkType with
  | .eager => { msgType := .gossip, target := p.nodeId, msgId := msgId, payload := payload }
  | .lazy => { msgType := .ihave, target := p.nodeId, msgId := msgId, payload := [] }

/-- `wake_plumtree_broadcast`. -/
def broadcast (node : Node Id Msg) (msgId : Msg) (payload : List UInt8) (now : UInt64) :
    Outcome Id Msg :=
  if payload.length = 0 then { node := node, sends := [], delivers := [] }
  else
    let cached := cacheInsert node msgId payload now
    { node := { cached with messagesBroadcast := cached.messagesBroadcast + 1 }
      sends := cached.peers.map (announce msgId payload)
      delivers := [] }

/-- The duplicate branch of `wake_plumtree_recv_gossip`. -/
def recvDuplicate (node : Node Id Msg) (fromId : Id) (msgId : Msg) (now : UInt64) :
    Outcome Id Msg :=
  { node := demoteLazy
      { node with
        duplicates := node.duplicates + 1
        prunesSent := node.prunesSent + 1 } fromId now
    sends := [{ msgType := .prune, target := fromId, msgId := msgId, payload := [] }]
    delivers := [] }

/-- The branch of `wake_plumtree_recv_gossip` for a new message. -/
def recvNew (node : Node Id Msg) (fromId : Id) (msgId : Msg) (payload : List UInt8)
    (now : UInt64) : Outcome Id Msg :=
  let cached := cacheInsert node msgId payload now
  let cancelled := pendingRemoveMsg cached msgId
  let promoted := promoteEager cancelled fromId now
  { node := promoted
    sends := (promoted.peers.filter fun p => p.nodeId ≠ fromId).map
      (announce msgId payload)
    delivers := [{ msgId := msgId, payload := payload, fromId := fromId }] }

/-- `wake_plumtree_recv_gossip`. -/
def recvGossip (node : Node Id Msg) (fromId : Id) (msgId : Msg) (payload : List UInt8)
    (now : UInt64) : Bool × Outcome Id Msg :=
  let received := { node with messagesReceived := node.messagesReceived + 1 }
  if hasMsg received msgId then (false, recvDuplicate received fromId msgId now)
  else (true, recvNew received fromId msgId payload now)

/-- `wake_plumtree_recv_ihave`. -/
def recvIhave (node : Node Id Msg) (fromId : Id) (msgId : Msg) (now : UInt64) :
    Outcome Id Msg :=
  { node := if hasMsg node msgId then node else pendingAdd node msgId fromId now
    sends := []
    delivers := [] }

/-- `wake_plumtree_recv_graft`. -/
def recvGraft (node : Node Id Msg) (fromId : Id) (msgId : Msg) (now : UInt64) :
    Outcome Id Msg :=
  let promoted := promoteEager node fromId now
  { node := { promoted with repairs := promoted.repairs + 1 }
    sends := (cacheFind promoted.cache msgId).toList.map fun e =>
      { msgType := .gossip, target := fromId, msgId := msgId, payload := e.payload }
    delivers := [] }

/-- `wake_plumtree_recv_prune`. -/
def recvPrune (node : Node Id Msg) (fromId : Id) (now : UInt64) : Outcome Id Msg :=
  { node := demoteLazy node fromId now, sends := [], delivers := [] }

/-! ## Timer tick -/

/-- The time since an entry came in, as the unsigned difference of the code, has
reached the limit. -/
def elapsed (now receivedMs : UInt64) (limit : UInt32) : Bool :=
  now - receivedMs ≥ limit.toUInt64

/-- The body of the GRAFT loop of `wake_plumtree_tick` for pending slot `i`. -/
def graftStep (now : UInt64) (state : Node Id Msg × List (Send Id Msg)) (i : ℕ) :
    Node Id Msg × List (Send Id Msg) :=
  match state.1.pending[i]? with
  | some (some p) =>
      if elapsed now p.receivedMs state.1.config.lazyTimeoutMs then
        let promoted := promoteEager state.1 p.fromId now
        ({ promoted with
            graftsSent := promoted.graftsSent + 1
            pending := promoted.pending.set i none
            pendingCount := promoted.pendingCount - 1 },
          state.2 ++
            [{ msgType := .graft, target := p.fromId, msgId := p.msgId, payload := [] }])
      else state
  | _ => state

/-- The body of the expiry loop of `wake_plumtree_tick` for cache slot `i`. -/
def expireStep (now : UInt64) (node : Node Id Msg) (i : ℕ) : Node Id Msg :=
  match node.cache[i]? with
  | some (some e) =>
      if elapsed now e.receivedMs node.config.cacheTtlMs then
        { node with
          cache := node.cache.set i none
          cacheCount := node.cacheCount - 1
          cacheEvictions := node.cacheEvictions + 1 }
      else node
  | _ => node

/-- `wake_plumtree_tick`: the number of GRAFTs sent, and the outcome. -/
def tick (node : Node Id Msg) (now : UInt64) : ℕ × Outcome Id Msg :=
  let (grafted, sends) :=
    (List.range node.config.pendingSize.toNat).foldl (graftStep now) (node, [])
  let expired :=
    if node.config.cacheTtlMs > 0 then
      (List.range node.config.cacheSize.toNat).foldl (expireStep now) grafted
    else grafted
  (sends.length, { node := expired, sends := sends, delivers := [] })

/-! ## Statistics -/

/-- `wake_plumtree_stats_t`. -/
structure Stats where
  peerCount : ℕ
  eagerCount : ℕ
  lazyCount : ℕ
  cacheEntries : ℕ
  pendingIhaves : ℕ
  messagesReceived : UInt64
  messagesBroadcast : UInt64
  duplicates : UInt64
  graftsSent : UInt64
  prunesSent : UInt64
  repairs : UInt64
  cacheEvictions : UInt64
  deriving DecidableEq, Repr

/-- `wake_plumtree_stats`. -/
def stats (node : Node Id Msg) : Stats where
  peerCount := node.peers.length
  eagerCount := node.peers.countP fun p => p.linkType = .eager
  lazyCount := node.peers.countP fun p => p.linkType ≠ .eager
  cacheEntries := node.cacheCount
  pendingIhaves := node.pendingCount
  messagesReceived := node.messagesReceived
  messagesBroadcast := node.messagesBroadcast
  duplicates := node.duplicates
  graftsSent := node.graftsSent
  prunesSent := node.prunesSent
  repairs := node.repairs
  cacheEvictions := node.cacheEvictions

/-! ## Runs -/

/-- One call of a public operation which can change the node. -/
inductive Call (Id Msg : Type) where
  | reset
  | addPeer (nodeId : Id) (now : UInt64)
  | removePeer (nodeId : Id)
  | broadcast (msgId : Msg) (payload : List UInt8) (now : UInt64)
  | recvGossip (fromId : Id) (msgId : Msg) (payload : List UInt8) (now : UInt64)
  | recvIhave (fromId : Id) (msgId : Msg) (now : UInt64)
  | recvGraft (fromId : Id) (msgId : Msg) (now : UInt64)
  | recvPrune (fromId : Id) (now : UInt64)
  | tick (now : UInt64)
  deriving DecidableEq, Repr

/-- The outcome of one call. -/
def performCall (node : Node Id Msg) : Call Id Msg → Outcome Id Msg
  | .reset => ⟨PlumTree.reset node, [], []⟩
  | .addPeer nodeId now => ⟨(PlumTree.addPeer node nodeId now).2, [], []⟩
  | .removePeer nodeId => ⟨(PlumTree.removePeer node nodeId).2, [], []⟩
  | .broadcast msgId payload now => PlumTree.broadcast node msgId payload now
  | .recvGossip fromId msgId payload now =>
      (PlumTree.recvGossip node fromId msgId payload now).2
  | .recvIhave fromId msgId now => PlumTree.recvIhave node fromId msgId now
  | .recvGraft fromId msgId now => PlumTree.recvGraft node fromId msgId now
  | .recvPrune fromId now => PlumTree.recvPrune node fromId now
  | .tick now => (PlumTree.tick node now).2

/-- The runs of one node from `create`. -/
def runs : TransitionSystem (Node Id Msg) (Call Id Msg) where
  Initial node := ∃ selfId cfg, create selfId cfg = node
  step node call := some (performCall node call).node

end Handlers

end PlumTree
end LibWake
