import LibWake.SignalModel

/-!
# Chains of forwarders

Along a chain every forwarder moves one unit from the ttl to the hop count and signs the
signal anew, so that each hop verifies under the key of the last forwarder.
-/

namespace LibWake
namespace Signals

open Entities

variable {m : Monocypher}

/-! ## What verification needs -/

/-- The checks of `wake_signal_verify` in front of the signature. -/
structure WellFramed (signal : Signal) : Prop where
  magic : signal.metadata.magic = signalMagic
  version : signal.metadata.version = signalVersion
  signalType : signal.metadata.signalType < signalTypeCount
  scope : signal.metadata.scope < scopeCount
  entity : valid signal.entity = true

theorem verify_iff {signal : Signal} :
    verify m signal = true ↔ WellFramed signal ∧
      m.check signal.sig signal.metadata.nodeId (signedBytes signal) = true := by
  unfold verify
  constructor
  · intro hverify
    split_ifs at hverify with hmagic hversion htype hscope hentity hcheck
    · refine ⟨⟨not_not.mp hmagic, not_not.mp hversion, ?_, ?_, ?_⟩, by simpa using hcheck⟩
      · exact UInt8.not_le.mp htype
      · exact UInt8.not_le.mp hscope
      · simpa using hentity
  · rintro ⟨hframed, hcheck⟩
    rw [if_neg (not_not.mpr hframed.magic), if_neg (not_not.mpr hframed.version),
      if_neg (UInt8.not_le.mpr hframed.signalType), if_neg (UInt8.not_le.mpr hframed.scope),
      if_neg (by simp [hframed.entity]), if_neg (by simp [hcheck])]

theorem verify_resign (hgenuine : m.Genuine) {signal : Signal} {key : NodeKey}
    (hmatches : key.Matches m) (hnode : signal.metadata.nodeId = key.publicKey)
    (hframed : WellFramed signal) : verify m (resign m signal key) = true := by
  refine verify_iff.mpr ⟨⟨hframed.magic, hframed.version, hframed.signalType, hframed.scope,
    hframed.entity⟩, ?_⟩
  have hcheck := hgenuine key.seed (signedBytes signal)
  rwa [← hmatches, ← hnode] at hcheck

theorem toUInt8_lt {value bound : UInt32} (hlt : value < bound)
    (hbound : bound.toNat < 256) : value.toUInt8 < bound.toUInt8 := by
  rw [UInt32.lt_iff_toNat_lt] at hlt
  rw [UInt8.lt_iff_toNat_lt, UInt32.toNat_toUInt8, UInt32.toNat_toUInt8]
  omega

theorem init_wellFramed {entity : Entity} {args : InitArgs} (key : NodeKey)
    (hvalid : valid entity = true) (htype : args.signalType < 4) (hscope : args.scope < 2) :
    WellFramed (init m entity args key) where
  magic := rfl
  version := rfl
  signalType := toUInt8_lt htype (by decide)
  scope := toUInt8_lt hscope (by decide)
  entity := hvalid

/-! ## One hop -/

theorem forward_of_expired {signal : Signal} (hexpired : signal.metadata.ttl = 0)
    (key : NodeKey) : forward m signal key = (signal, false) :=
  if_pos hexpired

theorem ttl_pred {ttl : UInt8} (hpos : ttl ≠ 0) : (ttl - 1).toNat = ttl.toNat - 1 := by
  have hone : (1 : UInt8) ≤ ttl := by
    rw [UInt8.le_iff_toNat_le]
    exact Nat.pos_of_ne_zero fun hzero => hpos (UInt8.toNat_inj.mp hzero)
  rw [UInt8.toNat_sub_of_le _ _ hone]
  rfl

/-- The metadata of two signals differ in ttl, hop count and node id at most. -/
def SameButHops (before after : Meta) : Prop :=
  { before with ttl := 0, hopCount := 0, nodeId := Vector.replicate 32 0 } =
    { after with ttl := 0, hopCount := 0, nodeId := Vector.replicate 32 0 }

/-- What every signal of a chain has in common with the first one. -/
structure Descends (original signal : Signal) : Prop where
  framed : WellFramed signal
  entity : signal.entity = original.entity
  metadata : SameButHops original.metadata signal.metadata
  hops : signal.metadata.ttl.toNat + signal.metadata.hopCount.toNat =
    original.metadata.ttl.toNat

namespace Descends

variable {original signal : Signal} {key : NodeKey}

theorem forward (hdescends : Descends original signal) (key : NodeKey) :
    Descends original (forward m signal key).1 := by
  by_cases hexpired : signal.metadata.ttl = 0
  · rw [forward_of_expired hexpired]
    exact hdescends
  · have hpos : 0 < signal.metadata.ttl.toNat := by
      rw [Nat.pos_iff_ne_zero]
      exact fun hzero => hexpired (UInt8.toNat_inj.mp hzero)
    have httl := original.metadata.ttl.toNat_lt
    have hhops := hdescends.hops
    rw [Signals.forward, if_neg hexpired]
    refine ⟨⟨hdescends.framed.magic, hdescends.framed.version, hdescends.framed.signalType,
      hdescends.framed.scope, hdescends.framed.entity⟩, hdescends.entity,
      hdescends.metadata, ?_⟩
    change (signal.metadata.ttl - 1).toNat + (signal.metadata.hopCount + 1).toNat =
      original.metadata.ttl.toNat
    have hup : (signal.metadata.hopCount + 1).toNat = signal.metadata.hopCount.toNat + 1 := by
      rw [UInt8.toNat_add]
      change (signal.metadata.hopCount.toNat + 1) % 256 = _
      exact Nat.mod_eq_of_lt (by omega)
    rw [ttl_pred hexpired, hup]
    omega

theorem forward_verifies (hdescends : Descends original signal) (hgenuine : m.Genuine)
    (hmatches : key.Matches m) (hanswer : (Signals.forward m signal key).2 = true) :
    verify m (Signals.forward m signal key).1 = true ∧
      (Signals.forward m signal key).1.metadata.nodeId = key.publicKey := by
  have hframed := (hdescends.forward (m := m) key).framed
  unfold Signals.forward at hanswer hframed ⊢
  split_ifs at hanswer hframed ⊢ with hexpired
  exact ⟨verify_resign hgenuine hmatches rfl ⟨hframed.magic, hframed.version,
    hframed.signalType, hframed.scope, hframed.entity⟩, rfl⟩

end Descends

/-! ## A chain -/

theorem Descends.forwardAll {original signal : Signal}
    (hdescends : Descends original signal) (keys : List NodeKey) :
    Descends original (forwardAll m signal keys).1 := by
  induction keys generalizing signal with
  | nil => exact hdescends
  | cons key rest ih => exact ih (hdescends.forward key)

theorem forwardAll_answers (signal : Signal) (keys : List NodeKey) :
    (forwardAll m signal keys).2.count true =
      min signal.metadata.ttl.toNat keys.length := by
  induction keys generalizing signal with
  | nil => simp [forwardAll]
  | cons key rest ih =>
      have hrest := ih (forward m signal key).1
      simp only [forwardAll, List.count_cons, hrest, List.length_cons]
      by_cases hexpired : signal.metadata.ttl = 0
      · rw [forward_of_expired hexpired, hexpired]
        simp
      · have hpos : signal.metadata.ttl.toNat ≠ 0 :=
          fun hzero => hexpired (UInt8.toNat_inj.mp hzero)
        have hnext : (forward m signal key).1.metadata.ttl.toNat =
            signal.metadata.ttl.toNat - 1 := by
          rw [forward, if_neg hexpired]
          exact ttl_pred hexpired
        have hanswer : (forward m signal key).2 = true := by
          rw [forward, if_neg hexpired]
        rw [hnext, hanswer]
        simp only [beq_self_eq_true, if_true]
        omega

/-- Along every chain of forwarders: a call which succeeds leaves a signal which verifies
and names its forwarder, a call which fails changes nothing, ttl and hop count add up to
the first ttl, as many calls succeed as it allows, and the rest of the signal is that of
the original. -/
theorem forwarding_chain (m : Monocypher) (hgenuine : m.Genuine) (entity : Entity)
    (hvalid : valid entity = true) (args : InitArgs) (htype : args.signalType < 4)
    (hscope : args.scope < 2) (emitter : NodeKey) (keys : List NodeKey)
    (hmatches : ∀ key ∈ keys, key.Matches m) :
    (∀ front key back, keys = front ++ key :: back →
      ((forward m (forwardAll m (init m entity args emitter) front).1 key).2 = true →
        verify m (forward m (forwardAll m (init m entity args emitter) front).1 key).1 =
            true ∧
          (forward m (forwardAll m (init m entity args emitter) front).1
            key).1.metadata.nodeId = key.publicKey) ∧
      ((forward m (forwardAll m (init m entity args emitter) front).1 key).2 = false →
        (forward m (forwardAll m (init m entity args emitter) front).1 key).1 =
          (forwardAll m (init m entity args emitter) front).1)) ∧
    (forwardAll m (init m entity args emitter) keys).1.metadata.ttl.toNat +
        (forwardAll m (init m entity args emitter) keys).1.metadata.hopCount.toNat =
      args.ttl.toNat ∧
    (forwardAll m (init m entity args emitter) keys).2.count true =
      min args.ttl.toNat keys.length ∧
    (forwardAll m (init m entity args emitter) keys).1.entity = entity ∧
    SameButHops (initMeta args emitter)
      (forwardAll m (init m entity args emitter) keys).1.metadata := by
  have hstart : Descends (init m entity args emitter) (init m entity args emitter) :=
    ⟨init_wellFramed emitter hvalid htype hscope, rfl, rfl, Nat.add_zero _⟩
  have hend := hstart.forwardAll (m := m) keys
  refine ⟨?_, hend.hops, forwardAll_answers _ keys, hend.entity, hend.metadata⟩
  rintro front key back rfl
  refine ⟨?_, ?_⟩
  · exact (hstart.forwardAll front).forward_verifies hgenuine
      (hmatches key (List.mem_append_right _ List.mem_cons_self))
  · intro hrefused
    unfold forward at hrefused ⊢
    split_ifs at hrefused ⊢
    rfl

/-! ## Two forwarders -/

/-- A stand-in for signatures: the public key is the seed, and a signature is the key
twice with the sum of the message added to each byte. -/
def summed (key : Vector UInt8 32) (msg : List UInt8) : Vector UInt8 64 :=
  (key ++ key).map (· + msg.foldl (· + ·) 0)

def summingSigner : Monocypher where
  keyPair seed := (seed ++ seed, seed)
  sign expanded msg := expanded.map (· + msg.foldl (· + ·) 0)
  check sig publicKey msg := sig == summed publicKey msg

theorem summingSigner_genuine : summingSigner.Genuine := by
  intro seed msg
  exact beq_self_eq_true _

/-- The key pair of a seed of equal bytes. -/
def nodeKey (byte : UInt8) : NodeKey where
  publicKey := Vector.replicate 32 byte
  secretKey := Vector.replicate 32 byte ++ Vector.replicate 32 byte

/-- The source address 10.0.0.1. -/
def sourceAddress : Entity where
  eclass := 0
  etype := 0x10
  valueLen := 4
  flags := 0
  reserved := 0
  value := Vector.ofFn fun i => [10, 0, 0, 1].getD i 0

/-- A fleet-wide alert which may be forwarded once. -/
def alertOnce : InitArgs := ⟨2, 1, 2, 1, 1, 20000, 5, 1, 0, 1700000000⟩

theorem forwarding_chain_twoForwarders :
    (forwardAll summingSigner (init summingSigner sourceAddress alertOnce (nodeKey 1))
        [nodeKey 2, nodeKey 3]).2 = [true, false] ∧
      (forwardAll summingSigner (init summingSigner sourceAddress alertOnce (nodeKey 1))
        [nodeKey 2, nodeKey 3]).2.count true = 1 ∧
      verify summingSigner (forward summingSigner
        (init summingSigner sourceAddress alertOnce (nodeKey 1)) (nodeKey 2)).1 = true := by
  have hchain := forwarding_chain summingSigner summingSigner_genuine sourceAddress
    (by decide) alertOnce (by decide) (by decide) (nodeKey 1) [nodeKey 2, nodeKey 3]
    (by decide +kernel)
  refine ⟨by decide +kernel, hchain.2.2.1, ?_⟩
  exact ((hchain.1 [] (nodeKey 2) [nodeKey 3] rfl).1 (by decide +kernel)).1

end Signals
end LibWake
