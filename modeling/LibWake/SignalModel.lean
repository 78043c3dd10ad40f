import LibWake.ByteOrder
import LibWake.EntityModel

/-!
# Mesh signals

The functions of `wake_signal`: construction, verification and forwarding.  The wire
image is the structure itself, with its integers little-endian.  The clock reading of a
construction is an argument.

Of Monocypher three functions are used: the derivation of a key pair from a seed, signing
with an expanded secret key, and the check of a signature.  They are parameters.
-/

namespace LibWake
namespace Signals

open Entities

/-! ## Data -/

def signalMagic : UInt16 := 0x574B
def signalVersion : UInt8 := 1

/-- `WAKE_SIG__COUNT`. -/
def signalTypeCount : UInt8 := 4

/-- `WAKE_SCOPE__COUNT`. -/
def scopeCount : UInt8 := 2

/-- `wake_signal_meta_t`. -/
structure Meta where
  magic : UInt16
  version : UInt8
  signalType : UInt8
  scope : UInt8
  ttl : UInt8
  hopCount : UInt8
  action : UInt8
  outcome : UInt8
  pad0 : Vector UInt8 3
  phaseFlags : UInt32
  tenantId : UInt32
  timestamp : UInt32
  confidence : UInt32
  hitCount : UInt32
  nodeId : Vector UInt8 32
  deriving DecidableEq, Repr

/-- `wake_signal_t`; the structure holds the metadata in the field `meta`. -/
structure Signal where
  entity : Entity
  metadata : Meta
  sig : Vector UInt8 64
  deriving DecidableEq, Repr

/-- `wake_node_key_t`; the secret key is the seed followed by the public key. -/
structure NodeKey where
  publicKey : Vector UInt8 32
  secretKey : Vector UInt8 64
  deriving DecidableEq, Repr

/-! ## Signatures -/

/-- `crypto_ed25519_key_pair`, `crypto_ed25519_sign` and `crypto_ed25519_check`. -/
structure Monocypher where
  keyPair : Vector UInt8 32 → Vector UInt8 64 × Vector UInt8 32
  sign : Vector UInt8 64 → List UInt8 → Vector UInt8 64
  check : Vector UInt8 64 → Vector UInt8 32 → List UInt8 → Bool

/-- A signature made with a key verifies under the public key of that key. -/
def Monocypher.Genuine (m : Monocypher) : Prop :=
  ∀ seed msg, m.check (m.sign (m.keyPair seed).1 msg) (m.keyPair seed).2 msg = true

/-- The first 32 bytes of the secret key. -/
def NodeKey.seed (key : NodeKey) : Vector UInt8 32 :=
  Vector.ofFn fun i => key.secretKey.get (i.castLE (by decide))

/-- The public key belongs to the secret key. -/
def NodeKey.Matches (m : Monocypher) (key : NodeKey) : Prop :=
  key.publicKey = (m.keyPair key.seed).2

instance (m : Monocypher) (key : NodeKey) : Decidable (key.Matches m) :=
  inferInstanceAs (Decidable (_ = _))

/-- `wake_ed25519_sign`: the expanded key is derived from the seed again. -/
def ed25519Sign (m : Monocypher) (msg : List UInt8) (key : NodeKey) : Vector UInt8 64 :=
  m.sign (m.keyPair key.seed).1 msg

/-! ## The signed bytes -/

/-- The 64 bytes of an entity. -/
def entityBytes (e : Entity) : List UInt8 :=
  [e.eclass, e.etype, e.valueLen, e.flags] ++ leBytes 4 e.reserved.toNat ++ e.value.toList

/-- The 64 bytes of the metadata. -/
def metaBytes (d : Meta) : List UInt8 :=
  leBytes 2 d.magic.toNat ++
    [d.version, d.signalType, d.scope, d.ttl, d.hopCount, d.action, d.outcome] ++
    d.pad0.toList ++ leBytes 4 d.phaseFlags.toNat ++ leBytes 4 d.tenantId.toNat ++
    leBytes 4 d.timestamp.toNat ++ leBytes 4 d.confidence.toNat ++
    leBytes 4 d.hitCount.toNat ++ d.nodeId.toList

/-- Bytes 0 to 127 of a signal. -/
def signedBytes (signal : Signal) : List UInt8 :=
  entityBytes signal.entity ++ metaBytes signal.metadata

/-- Sign bytes 0 to 127. -/
def resign (m : Monocypher) (signal : Signal) (key : NodeKey) : Signal :=
  { signal with sig := ed25519Sign m (signedBytes signal) key }

/-! ## The calls -/

/-- The arguments of `wake_signal_init` except the entity and the key.  The type, the
scope, the action and the outcome are the values of their enumerations. -/
structure InitArgs where
  signalType : UInt32
  scope : UInt32
  action : UInt32
  outcome : UInt32
  tenantId : UInt32
  confidence : UInt32
  hitCount : UInt32
  ttl : UInt8
  phaseFlags : UInt32
  clock : UInt32
  deriving DecidableEq, Repr

/-- The metadata which `wake_signal_init` writes. -/
def initMeta (args : InitArgs) (key : NodeKey) : Meta where
  magic := signalMagic
  version := signalVersion
  signalType := args.signalType.toUInt8
  scope := args.scope.toUInt8
  ttl := args.ttl
  hopCount := 0
  action := args.action.toUInt8
  outcome := args.outcome.toUInt8
  pad0 := Vector.replicate 3 0
  phaseFlags := args.phaseFlags
  tenantId := args.tenantId
  timestamp := args.clock
  confidence := args.confidence
  hitCount := args.hitCount
  nodeId := key.publicKey

/-- `wake_signal_init`. -/
def init (m : Monocypher) (entity : Entity) (args : InitArgs) (key : NodeKey) : Signal :=
  resign m ⟨entity, initMeta args key, Vector.replicate 64 0⟩ key

/-- `wake_signal_verify`. -/
def verify (m : Monocypher) (signal : Signal) : Bool :=
  if signal.metadata.magic ≠ signalMagic then false
  else if signal.metadata.version ≠ signalVersion then false
  else if signal.metadata.signalType ≥ signalTypeCount then false
  else if signal.metadata.scope ≥ scopeCount then false
  else if !valid signal.entity then false
  else if !m.check signal.sig signal.metadata.nodeId (signedBytes signal) then false
  else true

/-- `wake_signal_forward`: the signal afterwards and the answer. -/
def forward (m : Monocypher) (signal : Signal) (key : NodeKey) : Signal × Bool :=
  if signal.metadata.ttl = 0 then (signal, false)
  else
    (resign m { signal with
      metadata := { signal.metadata with
        ttl := signal.metadata.ttl - 1
        hopCount := signal.metadata.hopCount + 1
        nodeId := key.publicKey } } key, true)

/-- A sequence of calls of `wake_signal_forward`: the signal afterwards and the answers. -/
def forwardAll (m : Monocypher) : Signal → List NodeKey → Signal × List Bool
  | signal, [] => (signal, [])
  | signal, key :: rest =>
      let (next, answer) := forward m signal key
      let (final, answers) := forwardAll m next rest
      (final, answer :: answers)

end Signals
end LibWake
