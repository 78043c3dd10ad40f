import Mathlib.Data.List.GetD
import LibWake.SignalModel

/-!
# Entity hashing and entities made from strings

SipHash-2-4, the hash and the comparison of entities, and `wake_entity_init_str`.  The
process-global key `siphash_key` is an argument of each function which reads it.
-/

namespace LibWake
namespace Entities

open Signals (entityBytes)

/-! ## SipHash-2-4 -/

/-- The variables `v0` to `v3`. -/
structure SipState where
  v0 : UInt64
  v1 : UInt64
  v2 : UInt64
  v3 : UInt64

def rotl64 (x b : UInt64) : UInt64 := (x <<< b) ||| (x >>> (64 - b))

/-- `SIPROUND`. -/
def sipRound (s : SipState) : SipState :=
  let v0 := s.v0 + s.v1
  let v1 := rotl64 s.v1 13 ^^^ v0
  let v0 := rotl64 v0 32
  let v2 := s.v2 + s.v3
  let v3 := rotl64 s.v3 16 ^^^ v2
  let v0 := v0 + v3
  let v3 := rotl64 v3 21 ^^^ v0
  let v2 := v2 + v1
  let v1 := rotl64 v1 17 ^^^ v2
  ⟨v0, v1, rotl64 v2 32, v3⟩

/-- One message word between two rounds. -/
def sipWord (s : SipState) (m : UInt64) : SipState :=
  let mixed := sipRound (sipRound { s with v3 := s.v3 ^^^ m })
  { mixed with v0 := mixed.v0 ^^^ m }

/-- `load_le64`. -/
def loadLe64 (bytes : List UInt8) : UInt64 := UInt64.ofNat (leNat (bytes.take 8))

/-- The loop over the first `blocks` blocks of eight bytes. -/
def sipBlocks : ℕ → List UInt8 → SipState → SipState
  | 0, _, s => s
  | blocks + 1, bytes, s => sipBlocks blocks (bytes.drop 8) (sipWord s (loadLe64 bytes))

/-- The last word: the bytes behind the last block, and the length in the top byte. -/
def sipTail (data : List UInt8) : UInt64 :=
  (data.drop (8 * (data.length / 8))).zipIdx.foldl
    (fun b byte => b ||| (byte.1.toUInt64 <<< UInt64.ofNat (8 * byte.2)))
    (UInt64.ofNat data.length <<< 56)

/-- `siphash_2_4`. -/
def siphash24 (data key : List UInt8) : UInt64 :=
  let k0 := loadLe64 key
  let k1 := loadLe64 (key.drop 8)
  let start : SipState :=
    ⟨k0 ^^^ 0x736f6d6570736575, k1 ^^^ 0x646f72616e646f6d,
      k0 ^^^ 0x6c7967656e657261, k1 ^^^ 0x7465646279746573⟩
  let absorbed := sipWord (sipBlocks (data.length / 8) data start) (sipTail data)
  let final := sipRound (sipRound (sipRound (sipRound
    { absorbed with v2 := absorbed.v2 ^^^ 0xff })))
  final.v0 ^^^ final.v1 ^^^ final.v2 ^^^ final.v3

example : siphash24 ((List.range 15).map UInt8.ofNat) ((List.range 16).map UInt8.ofNat) =
    0xa129ca6149be45e5 := by
  decide +kernel

/-! ## Entities -/

/-- `value`, zero behind the given bytes. -/
def valueOf (bytes : List UInt8) : Vector UInt8 valueMax :=
  Vector.ofFn fun i => bytes.getD i.val 0

instance : Inhabited Entity := ⟨⟨0, 0, 0, 0, 0, valueOf []⟩⟩

/-- `wake_entity_hash`: the eight bytes before the value, and the used bytes of the value. -/
def entityHash (siphashKey : List UInt8) (e : Entity) : UInt64 :=
  siphash24 ((entityBytes e).take (8 + e.valueLen.toNat)) siphashKey

/-- `wake_entity_eq`. -/
def entityEq (a b : Entity) : Bool := entityBytes a == entityBytes b

/-- `wake_entity_init_str`: a value above the inline capacity is replaced by its hash, in the
byte order of a little-endian host. -/
def initStr (siphashKey : List UInt8) (ec et : UInt32) (val : List UInt8) : Entity :=
  if val.length ≤ valueMax then
    { eclass := ec.toUInt8
      etype := et.toUInt8
      valueLen := UInt8.ofNat val.length
      flags := 0
      reserved := 0
      value := valueOf val }
  else
    { eclass := ec.toUInt8
      etype := et.toUInt8
      valueLen := 8
      flags := flagHashed
      reserved := 0
      value := valueOf (leBytes 8 (siphash24 val siphashKey).toNat) }

/-! ## The same string under two keys -/

theorem entityBytes_injective {a b : Entity} (heq : entityBytes a = entityBytes b) : a = b := by
  unfold entityBytes at heq
  obtain ⟨hfront, hvalue⟩ := List.append_inj heq (by simp)
  obtain ⟨hbytes, hreserved⟩ := List.append_inj hfront rfl
  have hword : a.reserved = b.reserved :=
    UInt32.toNat_inj.mp (leBytes_injective a.reserved.toNat_lt b.reserved.toNat_lt hreserved)
  simp only [List.cons.injEq, and_true] at hbytes
  obtain ⟨hclass, htype, hlen, hflags⟩ := hbytes
  cases a
  cases b
  simp_all [Vector.toList_inj]

theorem entityEq_iff {a b : Entity} : entityEq a b = true ↔ a = b := by
  unfold entityEq
  rw [beq_iff_eq]
  exact ⟨entityBytes_injective, congrArg entityBytes⟩

/-- The value holds all eight bytes of a stored hash. -/
theorem valueOf_leBytes_injective {x y : UInt64}
    (heq : valueOf (leBytes 8 x.toNat) = valueOf (leBytes 8 y.toNat)) : x = y := by
  have hbytes : leBytes 8 x.toNat = leBytes 8 y.toNat := by
    apply List.ext_getElem (by simp)
    intro i hx hy
    have hi : i < valueMax := lt_trans (by simpa using hx) (show 8 < valueMax by decide)
    have hbyte : (leBytes 8 x.toNat).getD i 0 = (leBytes 8 y.toNat).getD i 0 := by
      simpa [valueOf] using congrArg (fun value : Vector UInt8 valueMax => value[i]) heq
    rwa [List.getD_eq_getElem _ _ hx, List.getD_eq_getElem _ _ hy] at hbyte
  exact UInt64.toNat_inj.mp (leBytes_injective x.toNat_lt y.toNat_lt hbytes)

/-- Two processes make equal entities of one string exactly when it fits the inline value, or
their keys give it the same hash. -/
theorem initStr_eq_iff (keyA keyB : List UInt8) (ec et : UInt32) (val : List UInt8) :
    entityEq (initStr keyA ec et val) (initStr keyB ec et val) = true ↔
      val.length ≤ valueMax ∨ siphash24 val keyA = siphash24 val keyB := by
  rw [entityEq_iff]
  unfold initStr
  by_cases hinline : val.length ≤ valueMax
  · simp [hinline]
  · rw [if_neg hinline, if_neg hinline, Entity.mk.injEq]
    constructor
    · rintro ⟨_, _, _, _, _, hvalue⟩
      exact Or.inr (valueOf_leBytes_injective hvalue)
    · intro hcondition
      rw [hcondition.resolve_left hinline]
      exact ⟨rfl, rfl, rfl, rfl, rfl, rfl⟩

/-- A domain of 57 bytes, hashed under the key of zero bytes and under the key of ones. -/
theorem initStr_keys_disagree :
    entityEq (initStr (List.replicate 16 0) 0 0x30 (List.replicate 57 97))
      (initStr (List.replicate 16 1) 0 0x30 (List.replicate 57 97)) = false := by
  decide +kernel

end Entities
end LibWake
