import Mathlib.Data.Int.Notation
import Mathlib.Data.List.Basic
import LibWake.TransitionSystem

/-!
# The SWIM membership state machine

The functions of `wake_swim` as pure functions of one node's state.  Node ids
are only ever compared for equality, so their type is a parameter.  A member's
or an update's state is the raw byte of the code: the wire may carry any of the
256 values.  The dense arrays are lists of their used prefix.
-/

namespace LibWake
namespace Swim

/-! ## Constants -/

def alive : UInt8 := 0
def suspect : UInt8 := 1
def dead : UInt8 := 2
def left : UInt8 := 3
def healthMax : ℕ := 8

/-- `wake_swim_result_t`. -/
inductive Result where
  | ok
  | exists
  | notFound
  | full
  | self
  | stale
  | noop
  deriving DecidableEq, Repr

/-! ## Data -/

variable {Id : Type}

structure Member (Id : Type) where
  nodeId : Id
  lastChangeMs : UInt64
  suspectMs : UInt64
  addr : UInt32
  incarnation : UInt32
  port : UInt16
  state : UInt8
  deriving DecidableEq, Repr

structure Update (Id : Type) where
  nodeId : Id
  addr : UInt32
  port : UInt16
  state : UInt8
  incarnation : UInt32
  piggybackCount : UInt16
  deriving DecidableEq, Repr

structure Config where
  maxMembers : UInt16
  updateQueueSize : UInt16
  suspicionMult : UInt16
  maxPiggybacks : UInt16
  protocolPeriodMs : UInt32
  suspectTimeoutMs : UInt32
  prngSeed : UInt64
  deriving DecidableEq, Repr

/-- `wake_swim_t`.  The list `probeOrder` has the length `probe_size`. -/
structure Node (Id : Type) where
  config : Config
  members : List (Member Id)
  aliveCount : ℕ
  probeOrder : List ℕ
  probeIndex : ℕ
  updates : List (Update Id)
  selfId : Id
  selfAddr : UInt32
  selfPort : UInt16
  selfIncarnation : UInt32
  prngState : UInt64
  roundsCompleted : UInt64
  stateChanges : UInt64
  updatesQueued : UInt64
  updatesPiggybacked : UInt64
  suspectsExpired : UInt64
  healthScore : UInt32
  deriving DecidableEq, Repr

/-! ## Helpers -/

/-- Floor of the binary logarithm; 0 for 0 and 1. -/
def ilog2 (n : ℕ) : ℕ :=
  if n ≤ 1 then 0 else ilog2 (n / 2) + 1

/-- `wake_splitmix64`: the next state and the output. -/
def splitmix64 (state : UInt64) : UInt64 × UInt64 :=
  let next := state + 0x9E3779B97F4A7C15
  let z := (next ^^^ (next >>> 30)) * 0xBF58476D1CE4E5B9
  let z := (z ^^^ (z >>> 27)) * 0x94D049BB133111EB
  (next, z ^^^ (z >>> 31))

/-- ALIVE and SUSPECT members are probed. -/
def Member.probeEligible (m : Member Id) : Bool :=
  m.state = alive || m.state = suspect

/-- `recount_alive`. -/
def Node.recountAlive (node : Node Id) : Node Id :=
  { node with aliveCount := node.members.countP Member.probeEligible }

def Node.invalidateProbeOrder (node : Node Id) : Node Id :=
  { node with probeOrder := [] }

def Node.setMember (node : Node Id) (idx : ℕ) (m : Member Id) : Node Id :=
  { node with members := node.members.set idx m }

/-- The dissemination update which reports a member. -/
def Member.toUpdate (m : Member Id) : Update Id where
  nodeId := m.nodeId
  addr := m.addr
  port := m.port
  state := m.state
  incarnation := m.incarnation
  piggybackCount := 0

/-- The victim search of a full queue: the first entry with the highest
piggyback count. -/
def worstUpdate (updates : List (Update Id)) : ℕ :=
  ((List.range updates.length).foldl (fun worst i =>
      match updates[i]? with
      | some u => if u.piggybackCount > worst.2 then (i, u.piggybackCount) else worst
      | none => worst)
    (0, (updates.head?.map Update.piggybackCount).getD 0)).1

section Operations

variable [DecidableEq Id]

/-- `find_member`: the index of the entry and the entry itself. -/
def findMemberFrom (nodeId : Id) : ℕ → List (Member Id) → Option (ℕ × Member Id)
  | _, [] => none
  | i, m :: rest =>
      if m.nodeId = nodeId then some (i, m) else findMemberFrom nodeId (i + 1) rest

def findMember (node : Node Id) (nodeId : Id) : Option (ℕ × Member Id) :=
  findMemberFrom nodeId 0 node.members

/-- The queue index of the update about a node. -/
def findUpdate (updates : List (Update Id)) (nodeId : Id) : Option ℕ :=
  updates.findIdx? fun u => u.nodeId = nodeId

/-- `queue_update`: replace the update of the same node, append, or evict. -/
def queueUpdate (node : Node Id) (m : Member Id) : Node Id :=
  match findUpdate node.updates m.nodeId with
  | some i => { node with updates := node.updates.set i m.toUpdate }
  | none =>
      if node.updates.length < node.config.updateQueueSize.toNat then
        { node with
          updates := node.updates ++ [m.toUpdate]
          updatesQueued := node.updatesQueued + 1 }
      else
        { node with
          updates := node.updates.set (worstUpdate node.updates) m.toUpdate
          updatesQueued := node.updatesQueued + 1 }

/-- `state_supersedes`. -/
def stateSupersedes (newState : UInt8) (newInc : UInt32) (oldState : UInt8)
    (oldInc : UInt32) : Bool :=
  if newState = left then true
  else if oldState = left then false
  else if newInc > oldInc then true
  else if newInc < oldInc then false
  else newState > oldState

/-! ## Lifecycle -/

def defaultConfig : Config where
  maxMembers := 512
  updateQueueSize := 256
  suspicionMult := 5
  maxPiggybacks := 8
  protocolPeriodMs := 1000
  suspectTimeoutMs := 0
  prngSeed := 0

/-- The minimums which `wake_swim_create` enforces. -/
def Config.enforced (cfg : Config) : Config where
  maxMembers := if cfg.maxMembers = 0 then 512 else cfg.maxMembers
  updateQueueSize := if cfg.updateQueueSize = 0 then 256 else cfg.updateQueueSize
  suspicionMult := if cfg.suspicionMult = 0 then 5 else cfg.suspicionMult
  maxPiggybacks := if cfg.maxPiggybacks = 0 then 8 else cfg.maxPiggybacks
  protocolPeriodMs := if cfg.protocolPeriodMs = 0 then 1000 else cfg.protocolPeriodMs
  suspectTimeoutMs := cfg.suspectTimeoutMs
  prngSeed := cfg.prngSeed

/-- `wake_swim_create`; `addressSeed` is the seed which the code takes from the
address of the instance when the configuration gives none. -/
def create (selfId : Id) (selfAddr : UInt32) (selfPort : UInt16)
    (cfg : Option Config) (addressSeed : UInt64) : Node Id :=
  let config := (cfg.getD defaultConfig).enforced
  { config := config
    members := []
    aliveCount := 0
    probeOrder := []
    probeIndex := 0
    updates := []
    selfId := selfId
    selfAddr := selfAddr
    selfPort := selfPort
    selfIncarnation := 0
    prngState := if config.prngSeed ≠ 0 then config.prngSeed else addressSeed
    roundsCompleted := 0
    stateChanges := 0
    updatesQueued := 0
    updatesPiggybacked := 0
    suspectsExpired := 0
    healthScore := 0 }

/-- `wake_swim_reset`: the configuration, the identity, the incarnation and the
PRNG state stay. -/
def reset (node : Node Id) : Node Id :=
  { node with
    members := []
    aliveCount := 0
    probeOrder := []
    probeIndex := 0
    updates := []
    roundsCompleted := 0
    stateChanges := 0
    updatesQueued := 0
    updatesPiggybacked := 0
    suspectsExpired := 0
    healthScore := 0 }

/-! ## Member management -/

/-- A member as `wake_swim_add_member` fills it in. -/
def newMember (nodeId : Id) (addr : UInt32) (port : UInt16) (now : UInt64) :
    Member Id where
  nodeId := nodeId
  lastChangeMs := now
  suspectMs := 0
  addr := addr
  incarnation := 0
  port := port
  state := alive

/-- `wake_swim_add_member`. -/
def addMember (node : Node Id) (nodeId : Id) (addr : UInt32) (port : UInt16)
    (now : UInt64) : Result × Node Id :=
  if nodeId = node.selfId then (.self, node)
  else if (findMember node nodeId).isSome then (.exists, node)
  else if node.members.length ≥ node.config.maxMembers.toNat then (.full, node)
  else
    let m := newMember nodeId addr port now
    let added := { node with
      members := node.members ++ [m]
      aliveCount := node.aliveCount + 1
      stateChanges := node.stateChanges + 1 }
    (.ok, (queueUpdate added m).invalidateProbeOrder)

/-- The common tail of a member's state change. -/
def changeMember (node : Node Id) (idx : ℕ) (m : Member Id) : Node Id :=
  let changed := { node.setMember idx m with stateChanges := node.stateChanges + 1 }
  (queueUpdate changed.recountAlive m).invalidateProbeOrder

/-- `wake_swim_remove_member`. -/
def removeMember (node : Node Id) (nodeId : Id) (now : UInt64) : Result × Node Id :=
  if nodeId = node.selfId then (.self, node)
  else
    match findMember node nodeId with
    | none => (.notFound, node)
    | some (idx, m) =>
        (.ok, changeMember node idx
          { m with state := left, lastChangeMs := now, suspectMs := 0 })

/-! ## The state machine -/

/-- The entry of this node in a refutation. -/
def selfMember (node : Node Id) (now : UInt64) : Member Id where
  nodeId := node.selfId
  lastChangeMs := now
  suspectMs := 0
  addr := node.selfAddr
  incarnation := node.selfIncarnation
  port := node.selfPort
  state := alive

/-- The branch of `wake_swim_apply_update` for an update about this node. -/
def applySelf (node : Node Id) (update : Update Id) (now : UInt64) :
    Result × Node Id :=
  if update.state = suspect ∨ update.state = dead then
    let raised :=
      if update.incarnation ≥ node.selfIncarnation then
        { node with selfIncarnation := update.incarnation + 1 }
      else node
    (.ok, queueUpdate raised (selfMember raised now))
  else if update.incarnation > node.selfIncarnation then
    (.noop, { node with selfIncarnation := update.incarnation })
  else (.noop, node)

/-- The branch of `wake_swim_apply_update` for an unknown node. -/
def applyUnknown (node : Node Id) (update : Update Id) (now : UInt64) :
    Result × Node Id :=
  if update.state = alive then
    match addMember node update.nodeId update.addr update.port now with
    | (.ok, added) =>
        match findMember added update.nodeId with
        | some (idx, m) =>
            (.ok, added.setMember idx { m with incarnation := update.incarnation })
        | none => (.ok, added)
    | refused => refused
  else (.notFound, node)

/-- A member after an update which supersedes it. -/
def updatedMember (m : Member Id) (update : Update Id) (now : UInt64) : Member Id :=
  { m with
    state := update.state
    incarnation := update.incarnation
    addr := update.addr
    port := update.port
    lastChangeMs := now
    suspectMs := if update.state = suspect then now else 0 }

/-- `wake_swim_apply_update`. -/
def applyUpdate (node : Node Id) (update : Update Id) (now : UInt64) :
    Result × Node Id :=
  if update.nodeId = node.selfId then applySelf node update now
  else
    match findMember node update.nodeId with
    | none => applyUnknown node update now
    | some (idx, m) =>
        if !stateSupersedes update.state update.incarnation m.state m.incarnation then
          if update.state = m.state ∧ update.incarnation = m.incarnation then
            (.noop, node)
          else (.stale, node)
        else (.ok, changeMember node idx (updatedMember m update now))

/-- `wake_swim_suspect_member`. -/
def suspectMember (node : Node Id) (nodeId : Id) (now : UInt64) : Result × Node Id :=
  if nodeId = node.selfId then (.self, node)
  else
    match findMember node nodeId with
    | none => (.notFound, node)
    | some (idx, m) =>
        if m.state ≠ alive then (.stale, node)
        else
          (.ok, changeMember node idx
            { m with state := suspect, suspectMs := now, lastChangeMs := now })

/-! ## Probing -/

/-- Swap two elements of a list, given their values. -/
def swapAt (order : List ℕ) (i j : ℕ) : List ℕ :=
  match order[i]?, order[j]? with
  | some a, some b => (order.set i b).set j a
  | _, _ => order

/-- The Fisher-Yates loop of `rebuild_probe_order`, from `i` down to 2. -/
def shuffle : ℕ → List ℕ → UInt64 → List ℕ × UInt64
  | 0, order, prng => (order, prng)
  | 1, order, prng => (order, prng)
  | i + 2, order, prng =>
      let (next, r) := splitmix64 prng
      shuffle (i + 1) (swapAt order (i + 1) (r.toNat % (i + 2))) next

/-- The indices of the probe-eligible members. -/
def eligibleIndices (members : List (Member Id)) : List ℕ :=
  (List.range members.length).filter fun i =>
    match members[i]? with
    | some m => m.probeEligible
    | none => false

/-- `rebuild_probe_order`. -/
def rebuildProbeOrder (node : Node Id) : Node Id :=
  let order := eligibleIndices node.members
  let (shuffled, prng) := shuffle order.length order node.prngState
  { node with probeOrder := shuffled, prngState := prng, probeIndex := 0 }

/-- The member of a probe order entry, if it can still be probed. -/
def probeTarget (node : Node Id) (idx : ℕ) : Option (Member Id) :=
  node.members[idx]?.filter Member.probeEligible

/-- The scan of `wake_swim_next_probe` over the rest of the order: the target
and the probe index behind it. -/
def scanProbe (node : Node Id) : ℕ → List ℕ → Option (Member Id) × ℕ
  | index, [] => (none, index)
  | index, idx :: rest =>
      match probeTarget node idx with
      | some m => (some m, index + 1)
      | none => scanProbe node (index + 1) rest

/-- The last attempt of `wake_swim_next_probe`, once all entries were stale. -/
def probeOnceMore (node : Node Id) : Option (Member Id) × Node Id :=
  let rebuilt := rebuildProbeOrder node
  let rebuilt := { rebuilt with roundsCompleted := rebuilt.roundsCompleted + 1 }
  match rebuilt.probeOrder with
  | [] => (none, rebuilt)
  | idx :: _ => (probeTarget rebuilt idx, { rebuilt with probeIndex := 1 })

/-- The scan of `wake_swim_next_probe` over the current order. -/
def probeCurrent (node : Node Id) : Option (Member Id) × Node Id :=
  match scanProbe node node.probeIndex (node.probeOrder.drop node.probeIndex) with
  | (some m, index) => (some m, { node with probeIndex := index })
  | (none, index) => probeOnceMore { node with probeIndex := index }

/-- `wake_swim_next_probe`. -/
def nextProbe (node : Node Id) : Option (Member Id) × Node Id :=
  if node.aliveCount = 0 then (none, node)
  else if node.probeOrder.length = 0 ∨ node.probeIndex ≥ node.probeOrder.length then
    let rebuilt := rebuildProbeOrder node
    if rebuilt.probeOrder.length = 0 then (none, rebuilt)
    else if rebuilt.probeIndex ≥ rebuilt.probeOrder.length then
      probeCurrent { rebuilt with roundsCompleted := rebuilt.roundsCompleted + 1 }
    else probeCurrent rebuilt
  else probeCurrent node

/-- The delegates on offer to `wake_swim_select_delegates`. -/
def eligibleDelegates (node : Node Id) (excludeId : Option Id) : List ℕ :=
  (List.range (min node.members.length 512)).filter fun i =>
    match node.members[i]? with
    | some m => m.state = alive && m.nodeId ≠ node.selfId && some m.nodeId ≠ excludeId
    | none => false

/-- The partial Fisher-Yates shuffle: `count` delegates from position `i`. -/
def pickDelegates (node : Node Id) : ℕ → ℕ → List ℕ → UInt64 →
    List (Member Id) × UInt64
  | 0, _, _, prng => ([], prng)
  | count + 1, i, eligible, prng =>
      let (next, r) := splitmix64 prng
      let picked := swapAt eligible i (i + r.toNat % (eligible.length - i))
      let (rest, final) := pickDelegates node count (i + 1) picked next
      ((picked[i]?.bind fun idx => node.members[idx]?).toList ++ rest, final)

/-- `wake_swim_select_delegates`. -/
def selectDelegates (node : Node Id) (excludeId : Option Id) (max : ℕ) :
    List (Member Id) × Node Id :=
  if max = 0 then ([], node)
  else
    let eligible := eligibleDelegates node excludeId
    let (out, prng) := pickDelegates node (min max eligible.length) 0 eligible
      node.prngState
    (out, { node with prngState := prng })

/-! ## Suspicion -/

/-- `wake_swim_suspect_timeout`, with the 64-bit intermediate values of the
code. -/
def suspectTimeout (node : Node Id) : UInt32 :=
  let n := if node.aliveCount > 2 then node.aliveCount else 2
  let logN := if ilog2 n = 0 then 1 else ilog2 n
  let autoMs : UInt64 := node.config.suspicionMult.toUInt64 * UInt64.ofNat logN *
    node.config.protocolPeriodMs.toUInt64
  let base : UInt32 :=
    if node.config.suspectTimeoutMs ≠ 0 then node.config.suspectTimeoutMs
    else if autoMs > 0xFFFFFFFF then 0xFFFFFFFF else autoMs.toUInt32
  let scaled : UInt64 := base.toUInt64 * (1 + node.healthScore).toUInt64
  if scaled > 0xFFFFFFFF then 0xFFFFFFFF else scaled.toUInt32

/-- `wake_swim_report_health`. -/
def reportHealth (node : Node Id) (delta : ℤ) : Node Id :=
  let h : ℤ := node.healthScore.toNat + delta
  { node with healthScore := UInt32.ofNat (min (max h 0) healthMax).toNat }

/-- The suspicion of the member has run out. -/
def suspicionOver (now : UInt64) (timeout : UInt32) (m : Member Id) : Bool :=
  m.state = suspect && m.suspectMs ≠ 0 && now - m.suspectMs ≥ timeout.toUInt64

/-- A member whose suspicion has run out. -/
def expiredMember (m : Member Id) (now : UInt64) : Member Id :=
  { m with state := dead, lastChangeMs := now, suspectMs := 0 }

/-- The loop body of `wake_swim_check_suspects` for member `i`. -/
def checkStep (now : UInt64) (timeout : UInt32) (state : Node Id × ℕ) (i : ℕ) :
    Node Id × ℕ :=
  match state.1.members[i]? with
  | none => state
  | some m =>
      if !suspicionOver now timeout m then state
      else
        let expired := expiredMember m now
        let changed := { state.1.setMember i expired with
          stateChanges := state.1.stateChanges + 1
          suspectsExpired := state.1.suspectsExpired + 1 }
        (queueUpdate changed expired, state.2 + 1)

/-- `wake_swim_check_suspects`: the number of expired members and the node. -/
def checkSuspects (node : Node Id) (now : UInt64) : ℕ × Node Id :=
  let (checked, expired) := (List.range node.members.length).foldl
    (checkStep now (suspectTimeout node)) (node, 0)
  if expired > 0 then (expired, checked.recountAlive.invalidateProbeOrder)
  else (expired, checked)

/-- A DEAD or LEFT member which has been so for the retention time. -/
def reapable (now retention : UInt64) (m : Member Id) : Bool :=
  (m.state = dead || m.state = left) && now - m.lastChangeMs ≥ retention

/-- `wake_swim_reap`: the compaction keeps the order of the other members. -/
def reap (node : Node Id) (now retention : UInt64) : ℕ × Node Id :=
  let kept := node.members.filter fun m => !reapable now retention m
  let reaped := node.members.length - kept.length
  let compacted := { node with members := kept }
  if reaped > 0 then (reaped, compacted.recountAlive.invalidateProbeOrder)
  else (reaped, compacted)

/-! ## Dissemination -/

/-- The selection scan of `wake_swim_get_updates`: the first of the entries not
yet selected with the lowest piggyback count below 65535. -/
def bestUpdate (updates : List (Update Id)) (selected : List ℕ) : Option ℕ :=
  ((List.range (min updates.length 256)).foldl (fun (best : Option ℕ × UInt16) i =>
      if i ∈ selected then best
      else
        match updates[i]? with
        | some u =>
            if u.piggybackCount < best.2 then (some i, u.piggybackCount) else best
        | none => best)
    (none, 0xFFFF)).1

/-- The selection loop of `wake_swim_get_updates`: up to `count` updates, and
the queue with their counts raised. -/
def selectUpdates : ℕ → List (Update Id) → List ℕ →
    List (Update Id) × List (Update Id)
  | 0, updates, _ => ([], updates)
  | count + 1, updates, selected =>
      match bestUpdate updates selected with
      | none => ([], updates)
      | some best =>
          match updates[best]? with
          | none => ([], updates)
          | some u =>
              let sent := { u with piggybackCount := u.piggybackCount + 1 }
              let (rest, final) :=
                selectUpdates count (updates.set best sent) (best :: selected)
              (u :: rest, final)

/-- An update is pruned once it has been sent this often. -/
def pruneLimit (aliveCount : ℕ) : ℕ :=
  let n := if aliveCount > 2 then aliveCount else 2
  if 3 * ilog2 n < 3 then 3 else 3 * ilog2 n

/-- `wake_swim_get_updates`. -/
def getUpdates (node : Node Id) (max : ℕ) : List (Update Id) × Node Id :=
  if max = 0 ∨ node.updates = [] then ([], node)
  else
    let (out, raised) := selectUpdates (min max node.updates.length) node.updates []
    let limit := UInt16.ofNat (pruneLimit node.aliveCount)
    (out, { node with
      updates := raised.filter fun u => !(u.piggybackCount ≥ limit)
      updatesPiggybacked := node.updatesPiggybacked + UInt64.ofNat out.length })

/-! ## Statistics -/

/-- `wake_swim_stats_t`. -/
structure Stats where
  total : ℕ
  alive : ℕ
  suspect : ℕ
  dead : ℕ
  left : ℕ
  probeEligible : ℕ
  roundsCompleted : UInt64
  stateChanges : UInt64
  updatesQueued : UInt64
  updatesPiggybacked : UInt64
  suspectsExpired : UInt64
  deriving DecidableEq, Repr

/-- The loop body of `wake_swim_stats`; the `default` case counts the member in
the total only. -/
def countState (out : Stats) (m : Member Id) : Stats :=
  let out := { out with total := out.total + 1 }
  if m.state = alive then { out with alive := out.alive + 1 }
  else if m.state = suspect then { out with suspect := out.suspect + 1 }
  else if m.state = dead then { out with dead := out.dead + 1 }
  else if m.state = left then { out with left := out.left + 1 }
  else out

/-- `wake_swim_stats`. -/
def stats (node : Node Id) : Stats :=
  let out := node.members.foldl countState ⟨0, 0, 0, 0, 0, 0, 0, 0, 0, 0, 0⟩
  { out with
    probeEligible := out.alive + out.suspect
    roundsCompleted := node.roundsCompleted
    stateChanges := node.stateChanges
    updatesQueued := node.updatesQueued
    updatesPiggybacked := node.updatesPiggybacked
    suspectsExpired := node.suspectsExpired }

/-! ## Runs -/

/-- One call of a public operation which can change the node. -/
inductive Call (Id : Type) where
  | reset
  | addMember (nodeId : Id) (addr : UInt32) (port : UInt16) (now : UInt64)
  | removeMember (nodeId : Id) (now : UInt64)
  | applyUpdate (update : Update Id) (now : UInt64)
  | suspectMember (nodeId : Id) (now : UInt64)
  | nextProbe
  | selectDelegates (excludeId : Option Id) (max : ℕ)
  | reportHealth (delta : ℤ)
  | checkSuspects (now : UInt64)
  | reap (now retention : UInt64)
  | getUpdates (max : ℕ)
  deriving DecidableEq, Repr

/-- The node after one call. -/
def performCall (node : Node Id) : Call Id → Node Id
  | .reset => Swim.reset node
  | .addMember nodeId addr port now => (Swim.addMember node nodeId addr port now).2
  | .removeMember nodeId now => (Swim.removeMember node nodeId now).2
  | .applyUpdate update now => (Swim.applyUpdate node update now).2
  | .suspectMember nodeId now => (Swim.suspectMember node nodeId now).2
  | .nextProbe => (Swim.nextProbe node).2
  | .selectDelegates excludeId max => (Swim.selectDelegates node excludeId max).2
  | .reportHealth delta => Swim.reportHealth node delta
  | .checkSuspects now => (Swim.checkSuspects node now).2
  | .reap now retention => (Swim.reap node now retention).2
  | .getUpdates max => (Swim.getUpdates node max).2

/-- The runs of one node from `create`. -/
def runs : TransitionSystem (Node Id) (Call Id) where
  Initial node := ∃ selfId addr port cfg addressSeed,
    create selfId addr port cfg addressSeed = node
  step node call := some (performCall node call)

end Operations

end Swim
end LibWake
