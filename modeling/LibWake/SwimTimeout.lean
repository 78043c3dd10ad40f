import Mathlib.Data.Nat.Log
import LibWake.SwimRepresentation

/-!
# The suspicion timeout

The code saturates twice, the automatic base first and then the base widened by
the health score, and computes both products in 64 bits.  In every reachable
state the result is the exact product, saturated once.
-/

namespace LibWake
namespace Swim

variable {Id : Type}

/-! ## Saturation -/

/-- The 64-bit value as a 32-bit one, saturated. -/
theorem saturate_toNat (x : UInt64) :
    (if x > 0xFFFFFFFF then 0xFFFFFFFF else x.toUInt32 : UInt32).toNat =
      min (2 ^ 32 - 1) x.toNat := by
  have hiff : x > 0xFFFFFFFF ↔ 2 ^ 32 - 1 < x.toNat := UInt64.lt_iff_toNat_lt
  by_cases hlarge : x > 0xFFFFFFFF
  · rw [if_pos hlarge, Nat.min_eq_left (hiff.mp hlarge).le]
    rfl
  · have hsmall : x.toNat ≤ 2 ^ 32 - 1 := Nat.not_lt.mp (mt hiff.mpr hlarge)
    rw [if_neg hlarge, UInt64.toNat_toUInt32, Nat.min_eq_right hsmall,
      Nat.mod_eq_of_lt (by omega)]

/-- A factor of at least one does not see whether its other factor was saturated
before the product is. -/
theorem min_mul_min {limit factor value : ℕ} (hfactor : 1 ≤ factor) :
    min limit (factor * min limit value) = min limit (factor * value) := by
  rcases Nat.le_total value limit with hle | hle
  · rw [Nat.min_eq_right hle]
  · have hlimit : limit ≤ factor * limit := Nat.le_mul_of_pos_left limit hfactor
    have hvalue : limit ≤ factor * value := hlimit.trans (Nat.mul_le_mul_left factor hle)
    rw [Nat.min_eq_left hle, Nat.min_eq_left hlimit, Nat.min_eq_left hvalue]

theorem toNat_mul_of_lt {a b : UInt64} (hlt : a.toNat * b.toNat < 2 ^ 64) :
    (a * b).toNat = a.toNat * b.toNat := by
  rw [UInt64.toNat_mul, Nat.mod_eq_of_lt hlt]

theorem ilog2_eq_log (n : ℕ) : ilog2 n = Nat.log 2 n := by
  induction n using Nat.strong_induction_on with
  | _ n ih =>
      unfold ilog2
      split_ifs with hsmall
      · exact (Nat.log_of_lt (by omega)).symm
      · rw [ih (n / 2) (by omega)]
        exact (Nat.log_of_one_lt_of_le (by omega) (by omega)).symm

/-! ## The exact timeout -/

/-- The timeout of a healthy node over the natural numbers. -/
def timeoutBase (node : Node Id) : ℕ :=
  if node.config.suspectTimeoutMs ≠ 0 then node.config.suspectTimeoutMs.toNat
  else
    node.config.suspicionMult.toNat * Nat.log 2 (max 2 node.aliveCount) *
      node.config.protocolPeriodMs.toNat

/-- The bounds within which neither product wraps. -/
structure TimeoutInRange (node : Node Id) : Prop where
  count : node.aliveCount < 2 ^ 16
  health : node.healthScore.toNat ≤ healthMax

theorem log_max_two_pos (count : ℕ) : 0 < Nat.log 2 (max 2 count) :=
  Nat.log_pos (by omega) (le_max_left 2 count)

theorem log_max_two_lt {count : ℕ} (hcount : count < 2 ^ 16) :
    Nat.log 2 (max 2 count) < 2 ^ 4 := by
  have hlt : Nat.log 2 (max 2 count) < 16 :=
    Nat.log_lt_of_lt_pow (by omega) (max_lt (by omega) hcount)
  omega

theorem autoMs_toNat {node : Node Id} (hcount : node.aliveCount < 2 ^ 16) :
    (node.config.suspicionMult.toUInt64 *
        UInt64.ofNat (Nat.log 2 (max 2 node.aliveCount)) *
        node.config.protocolPeriodMs.toUInt64).toNat =
      node.config.suspicionMult.toNat * Nat.log 2 (max 2 node.aliveCount) *
        node.config.protocolPeriodMs.toNat := by
  have hlog := log_max_two_lt hcount
  set log := Nat.log 2 (max 2 node.aliveCount)
  have hmult : node.config.suspicionMult.toUInt64.toNat < 2 ^ 16 :=
    node.config.suspicionMult.toNat_lt
  have hperiod : node.config.protocolPeriodMs.toUInt64.toNat < 2 ^ 32 :=
    node.config.protocolPeriodMs.toNat_lt
  have hlogWord : (UInt64.ofNat log).toNat = log := by
    rw [UInt64.toNat_ofNat', Nat.mod_eq_of_lt (by omega)]
  have hrate : node.config.suspicionMult.toUInt64.toNat * (UInt64.ofNat log).toNat <
      2 ^ 16 * 2 ^ 4 := by
    rw [hlogWord]
    exact Nat.mul_lt_mul_of_lt_of_lt hmult hlog
  have hrateWord := toNat_mul_of_lt (hrate.trans (by decide))
  have hproduct : (node.config.suspicionMult.toUInt64 * UInt64.ofNat log).toNat *
      node.config.protocolPeriodMs.toUInt64.toNat < 2 ^ 16 * 2 ^ 4 * 2 ^ 32 := by
    rw [hrateWord]
    exact Nat.mul_lt_mul_of_lt_of_lt hrate hperiod
  rw [toNat_mul_of_lt (hproduct.trans (by decide)), hrateWord, hlogWord]
  rfl

/-- The two saturations in sequence are one. -/
theorem suspectTimeout_toNat {node : Node Id} (hrange : TimeoutInRange node) :
    (suspectTimeout node).toNat =
      min (2 ^ 32 - 1) ((1 + node.healthScore.toNat) * timeoutBase node) := by
  have hcount : (if node.aliveCount > 2 then node.aliveCount else 2) =
      max 2 node.aliveCount := by
    split_ifs <;> omega
  have hlog : (if ilog2 (max 2 node.aliveCount) = 0 then 1
      else ilog2 (max 2 node.aliveCount)) = Nat.log 2 (max 2 node.aliveCount) := by
    rw [ilog2_eq_log, if_neg (log_max_two_pos node.aliveCount).ne']
  have hbase : (if node.config.suspectTimeoutMs ≠ 0 then node.config.suspectTimeoutMs
      else if node.config.suspicionMult.toUInt64 *
            UInt64.ofNat (Nat.log 2 (max 2 node.aliveCount)) *
            node.config.protocolPeriodMs.toUInt64 > 0xFFFFFFFF then 0xFFFFFFFF
        else (node.config.suspicionMult.toUInt64 *
            UInt64.ofNat (Nat.log 2 (max 2 node.aliveCount)) *
            node.config.protocolPeriodMs.toUInt64).toUInt32 : UInt32).toNat =
      min (2 ^ 32 - 1) (timeoutBase node) := by
    unfold timeoutBase
    split_ifs with hgiven hlarge
    · have hlt := node.config.suspectTimeoutMs.toNat_lt
      exact (Nat.min_eq_right (by omega)).symm
    · rw [← autoMs_toNat hrange.count, ← saturate_toNat, if_pos hlarge]
    · rw [← autoMs_toNat hrange.count, ← saturate_toNat, if_neg hlarge]
  have hhealth : (1 + node.healthScore).toUInt64.toNat = 1 + node.healthScore.toNat := by
    have hsmall := hrange.health
    rw [UInt32.toNat_toUInt64, UInt32.toNat_add]
    simp only [healthMax] at hsmall
    exact Nat.mod_eq_of_lt (by
      have hone : (1 : UInt32).toNat = 1 := rfl
      omega)
  unfold suspectTimeout
  simp only [hcount, hlog]
  rw [saturate_toNat, toNat_mul_of_lt, UInt32.toNat_toUInt64, hbase, hhealth, Nat.mul_comm,
    min_mul_min (Nat.le_add_right 1 _)]
  rw [UInt32.toNat_toUInt64, hbase, hhealth]
  have hle : min (2 ^ 32 - 1) (timeoutBase node) ≤ 2 ^ 32 - 1 := Nat.min_le_left _ _
  have hnine : 1 + node.healthScore.toNat ≤ 9 := by
    have hsmall := hrange.health
    simp only [healthMax] at hsmall
    omega
  exact (Nat.mul_le_mul hle hnine).trans_lt (by decide)

/-! ## Reachable states -/

theorem reportHealth_le (node : Node Id) (delta : ℤ) :
    (reportHealth node delta).healthScore.toNat ≤ healthMax := by
  unfold reportHealth
  simp only
  have hle : (min (max ((node.healthScore.toNat : ℤ) + delta) 0) healthMax).toNat ≤
      healthMax := by
    rw [Int.toNat_le]
    exact min_le_right _ _
  rw [UInt32.toNat_ofNat']
  exact (Nat.mod_le _ _).trans hle

section Calls

variable [DecidableEq Id]

theorem reachable_healthScore {node : Node Id} (hreach : runs.Reachable node) :
    node.healthScore.toNat ≤ healthMax := by
  refine hreach.invariant (motive := fun node => node.healthScore.toNat ≤ healthMax) ?_ ?_
  · rintro node ⟨selfId, addr, port, cfg, addressSeed, rfl⟩
    exact Nat.zero_le _
  · intro node call next hgood hstep
    obtain rfl : performCall node call = next := Option.some.inj hstep
    rcases gauges_performCall node call with hsame | rfl | rfl | ⟨delta, rfl⟩
    · rwa [hsame.healthScore]
    · exact Nat.zero_le _
    · obtain ⟨_, _, _, _, hframe⟩ := nextProbe_frame node
      rwa [performCall, hframe]
    · exact reportHealth_le node delta

omit [DecidableEq Id] in
theorem WellFormed.aliveCount_lt {node : Node Id} (hwell : WellFormed node) :
    node.aliveCount < 2 ^ 16 := by
  have hroom := hwell.members.room
  have hlt := node.config.maxMembers.toNat_lt
  have hcount : node.members.countP Member.probeEligible ≤ node.members.length :=
    List.countP_le_length
  rw [hwell.derived.alive_count]
  omega

theorem reachable_timeoutInRange {node : Node Id} (hreach : runs.Reachable node) :
    TimeoutInRange node :=
  ⟨(reachable_wellFormed hreach).aliveCount_lt, reachable_healthScore hreach⟩

/-! ## Monotony -/

omit [DecidableEq Id] in
theorem timeoutBase_le {node other : Node Id} (hconfig : other.config = node.config)
    (hcount : node.config.suspectTimeoutMs = 0 → node.aliveCount ≤ other.aliveCount) :
    timeoutBase node ≤ timeoutBase other := by
  unfold timeoutBase
  rw [hconfig]
  split_ifs with hgiven
  · exact le_rfl
  · have hlog : Nat.log 2 (max 2 node.aliveCount) ≤ Nat.log 2 (max 2 other.aliveCount) :=
      Nat.log_mono_right (max_le_max_left 2 (hcount (not_not.mp hgiven)))
    exact Nat.mul_le_mul_right _ (Nat.mul_le_mul_left _ hlog)

omit [DecidableEq Id] in
theorem suspectTimeout_le {node other : Node Id} (hrange : TimeoutInRange node)
    (hrange' : TimeoutInRange other) (hconfig : other.config = node.config)
    (hhealth : node.healthScore ≤ other.healthScore)
    (hcount : node.config.suspectTimeoutMs = 0 → node.aliveCount ≤ other.aliveCount) :
    suspectTimeout node ≤ suspectTimeout other := by
  rw [UInt32.le_iff_toNat_le, suspectTimeout_toNat hrange, suspectTimeout_toNat hrange']
  refine min_le_min_left _ (Nat.mul_le_mul ?_ (timeoutBase_le hconfig hcount))
  exact Nat.add_le_add_left (UInt32.le_iff_toNat_le.mp hhealth) 1

/-- The timeout is the product over the natural numbers, saturated once, in every
reachable state.  So the health score only ever widens it, and it grows with the
health score and, when it is computed, with the number of live members. -/
theorem suspectTimeout_saturates {node : Node Id} (hreach : runs.Reachable node) :
    (suspectTimeout node).toNat =
        min (2 ^ 32 - 1) ((1 + node.healthScore.toNat) * timeoutBase node) ∧
      suspectTimeout { node with healthScore := 0 } ≤ suspectTimeout node ∧
      ∀ other : Node Id, runs.Reachable other → other.config = node.config →
        node.healthScore ≤ other.healthScore →
        (node.config.suspectTimeoutMs = 0 → node.aliveCount ≤ other.aliveCount) →
        suspectTimeout node ≤ suspectTimeout other := by
  have hrange := reachable_timeoutInRange hreach
  refine ⟨suspectTimeout_toNat hrange, ?_, ?_⟩
  · have hhealthy : TimeoutInRange { node with healthScore := 0 } :=
      ⟨hrange.count, Nat.zero_le _⟩
    refine suspectTimeout_le hhealthy hrange rfl ?_ fun _ => le_rfl
    exact UInt32.le_iff_toNat_le.mpr (Nat.zero_le _)
  · intro other hother hconfig hhealth hcount
    exact suspectTimeout_le hrange (reachable_timeoutInRange hother) hconfig hhealth hcount

end Calls

/-- A node which has reported itself overloaded. -/
def overloaded : Node ℕ := performCall oneMember (.reportHealth 20)

theorem reachable_overloaded : runs.Reachable overloaded :=
  reachable_oneMember.step (show runs.step oneMember (.reportHealth 20) = some _ from rfl)

theorem suspectTimeout_saturates_overloaded :
    (suspectTimeout overloaded).toNat =
        min (2 ^ 32 - 1) ((1 + overloaded.healthScore.toNat) * timeoutBase overloaded) ∧
      suspectTimeout oneMember ≤ suspectTimeout overloaded :=
  ⟨(suspectTimeout_saturates reachable_overloaded).1,
    (suspectTimeout_saturates reachable_oneMember).2.2 overloaded reachable_overloaded rfl
      (by decide) (fun _ => le_rfl)⟩

end Swim
end LibWake
