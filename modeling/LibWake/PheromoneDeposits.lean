import Mathlib.Data.Fintype.Basic
import Mathlib.Tactic.FinCases
import LibWake.PheromoneConcurrent

/-!
# Concurrent deposits on one absent entity

The slot which the processes compete for is the first free slot of the probe
window.  Until the process which claimed it has stored a counter, an addition
to that counter is overwritten; when no addition is made in that interval,
every deposit is accounted for.
-/

namespace LibWake
namespace Pheromone

open OpenAddressing

variable {Entity : Type}

/-! ## Phases -/

namespace Phase

/-- The slot which the process has claimed and whose confidence it has not yet
stored. -/
def confidencePending : Phase → Option ℕ
  | .loadVersion idx => some idx
  | .lockVersion idx _ => some idx
  | .writeCold idx _ => some idx
  | .unlockVersion idx _ => some idx
  | .clearReason idx _ => some idx
  | .initConfidence idx => some idx
  | _ => none

/-- The slot which the process has claimed and whose hit count it has not yet
stored. -/
def hitPending : Phase → Option ℕ
  | .initHit idx => some idx
  | phase => phase.confidencePending

/-- The process has made its contribution to the hit count. -/
def hitDone : Phase → Bool
  | .storeUpdate _ _ => true
  | .addSrc _ _ => true
  | .orFlags _ _ => true
  | .initUpdate _ => true
  | .initSrc _ => true
  | .initFlags _ => true
  | .returned value => value ≠ 0
  | _ => false

/-- The process has made its contribution to the confidence. -/
def confidenceDone : Phase → Bool
  | .addHit _ _ => true
  | .initHit _ => true
  | phase => phase.hitDone

theorem hitPending_of_confidencePending {phase : Phase} {idx : ℕ}
    (hpending : phase.confidencePending = some idx) :
    phase.hitPending = some idx := by
  cases phase <;> first | exact hpending | simp [confidencePending] at hpending

end Phase

/-- The scheduler never lets a process add to a counter of a slot while the
process which claimed the slot has still to store that counter. -/
def AddsSettled {P : Type} (shared : Shared P Entity) (p : P) : Prop :=
  (∀ idx, shared.phase p = .addConfidence idx →
    ∀ q, (shared.phase q).confidencePending ≠ some idx) ∧
  ∀ idx newConf, shared.phase p = .addHit idx newConf →
    ∀ q, (shared.phase q).hitPending ≠ some idx

instance {P : Type} [Fintype P] (shared : Shared P Entity) (p : P) :
    Decidable (AddsSettled shared p) :=
  match hphase : shared.phase p with
  | .addConfidence idx =>
      decidable_of_iff (∀ q, (shared.phase q).confidencePending ≠ some idx) (by
        simp [AddsSettled, hphase])
  | .addHit idx newConf =>
      decidable_of_iff (∀ q, (shared.phase q).hitPending ≠ some idx) (by
        simp [AddsSettled, hphase])
  | .probing _ _ | .storeUpdate _ _ | .addSrc _ _ | .orFlags _ _ | .recheck _
  | .swap _ _ | .loadVersion _ | .lockVersion _ _ | .writeCold _ _
  | .unlockVersion _ _ | .clearReason _ _ | .initConfidence _ | .initHit _
  | .initUpdate _ | .initSrc _ | .initFlags _ | .returned _ =>
      .isTrue (by simp [AddsSettled, hphase])

/-! ## One operation -/

/-- What one operation does to the keys and the two counters. -/
inductive Effect (key : UInt64) (deposit : Deposit Entity)
    (entries : ℕ → Entry Entity) (phase : Phase) :
    (ℕ → Entry Entity) × Phase → Prop
  | quiet (after : ℕ → Entry Entity) (next : Phase)
      (hkeys : ∀ idx, (after idx).keyHash = (entries idx).keyHash)
      (hconfidence : ∀ idx, (after idx).confidence = (entries idx).confidence)
      (hhits : ∀ idx, (after idx).hitCount = (entries idx).hitCount)
      (hpending : next.confidencePending = phase.confidencePending)
      (hhitPending : next.hitPending = phase.hitPending)
      (hdone : next.confidenceDone = phase.confidenceDone)
      (hhitDone : next.hitDone = phase.hitDone) :
      Effect key deposit entries phase (after, next)
  | claim (idx : ℕ) (expected : UInt64) (hphase : phase = .swap idx expected)
      (hexpected : (entries idx).keyHash = expected) :
      Effect key deposit entries phase
        (Function.update entries idx { entries idx with keyHash := key },
          .loadVersion idx)
  | addConfidence (idx : ℕ) (hphase : phase = .addConfidence idx) :
      Effect key deposit entries phase
        (Function.update entries idx { entries idx with
            confidence := (entries idx).confidence + deposit.delta },
          .addHit idx ((entries idx).confidence + deposit.delta))
  | addHit (idx : ℕ) (newConf : UInt32) (hphase : phase = .addHit idx newConf) :
      Effect key deposit entries phase
        (Function.update entries idx { entries idx with
            hitCount := (entries idx).hitCount + 1 },
          .storeUpdate idx newConf)
  | initConfidence (idx : ℕ) (hphase : phase = .initConfidence idx) :
      Effect key deposit entries phase
        (Function.update entries idx { entries idx with confidence := deposit.delta },
          .initHit idx)
  | initHit (idx : ℕ) (hphase : phase = .initHit idx) :
      Effect key deposit entries phase
        (Function.update entries idx { entries idx with hitCount := 1 },
          .initUpdate idx)

theorem Effect.of_update {key : UInt64} {deposit : Deposit Entity}
    {entries : ℕ → Entry Entity} {phase next : Phase} {idx : ℕ}
    {entry : Entry Entity} (hkey : entry.keyHash = (entries idx).keyHash)
    (hconfidence : entry.confidence = (entries idx).confidence)
    (hhits : entry.hitCount = (entries idx).hitCount)
    (hpending : next.confidencePending = phase.confidencePending)
    (hhitPending : next.hitPending = phase.hitPending)
    (hdone : next.confidenceDone = phase.confidenceDone)
    (hhitDone : next.hitDone = phase.hitDone) :
    Effect key deposit entries phase (Function.update entries idx entry, next) := by
  refine .quiet _ _ ?_ ?_ ?_ hpending hhitPending hdone hhitDone
  all_goals
    intro other
    by_cases heq : other = idx
    · subst heq
      rw [Function.update_self]
      assumption
    · rw [Function.update_of_ne heq]

/-- The value which a process carries to its return is not zero. -/
def Phase.CarriesValue (deposit : Deposit Entity) : Phase → Prop
  | .addHit _ newConf => newConf ≠ 0
  | .storeUpdate _ newConf => newConf ≠ 0
  | .addSrc _ newConf => newConf ≠ 0
  | .orFlags _ newConf => newConf ≠ 0
  | .initFlags _ => deposit.delta ≠ 0
  | _ => True

theorem afterProbe_quiet (first : Option ℕ) :
    (afterProbe first).hitPending = none ∧
      (afterProbe first).confidencePending = none ∧
      (afterProbe first).confidenceDone = false ∧
      (afterProbe first).hitDone = false := by
  cases first <;> exact ⟨rfl, rfl, rfl, rfl⟩

theorem nextProbe_quiet (probe : ℕ) (first : Option ℕ) :
    (nextProbe probe first).hitPending = none ∧
      (nextProbe probe first).confidencePending = none ∧
      (nextProbe probe first).confidenceDone = false ∧
      (nextProbe probe first).hitDone = false := by
  unfold nextProbe
  split_ifs
  · exact ⟨rfl, rfl, rfl, rfl⟩
  · exact afterProbe_quiet first

theorem afterSrc_quiet (deposit : Deposit Entity) (idx : ℕ) {newConf : UInt32}
    (hvalue : newConf ≠ 0) :
    (afterSrc deposit idx newConf).hitPending = none ∧
      (afterSrc deposit idx newConf).confidencePending = none ∧
      (afterSrc deposit idx newConf).confidenceDone = true ∧
      (afterSrc deposit idx newConf).hitDone = true := by
  unfold afterSrc
  split_ifs
  · exact ⟨rfl, rfl, rfl, rfl⟩
  · exact ⟨rfl, rfl, decide_eq_true hvalue, decide_eq_true hvalue⟩

theorem afterUpdate_quiet (deposit : Deposit Entity) (idx : ℕ) {newConf : UInt32}
    (hvalue : newConf ≠ 0) :
    (afterUpdate deposit idx newConf).hitPending = none ∧
      (afterUpdate deposit idx newConf).confidencePending = none ∧
      (afterUpdate deposit idx newConf).confidenceDone = true ∧
      (afterUpdate deposit idx newConf).hitDone = true := by
  unfold afterUpdate
  split_ifs
  · exact ⟨rfl, rfl, rfl, rfl⟩
  · exact afterSrc_quiet deposit idx hvalue

theorem effect_of_stepPhase {h : Header} {key : UInt64} {deposit : Deposit Entity}
    {entries : ℕ → Entry Entity} {phase : Phase}
    {next : (ℕ → Entry Entity) × Phase} (hcarries : phase.CarriesValue deposit)
    (hstep : stepPhase h key deposit entries phase = some next) :
    Effect key deposit entries phase next := by
  have hquiet : ∀ after : Phase,
      after.hitPending = phase.hitPending ∧
        after.confidencePending = phase.confidencePending ∧
        after.confidenceDone = phase.confidenceDone ∧
        after.hitDone = phase.hitDone →
      Effect key deposit entries phase (entries, after) :=
    fun after hsame => .quiet _ _ (fun _ => rfl) (fun _ => rfl) (fun _ => rfl)
      hsame.2.1 hsame.1 hsame.2.2.1 hsame.2.2.2
  cases phase with
  | probing probe first =>
      simp only [stepPhase] at hstep
      split_ifs at hstep <;> simp only [Option.some.injEq] at hstep <;> subst hstep
      · exact hquiet _ ⟨rfl, rfl, rfl, rfl⟩
      · exact hquiet _ (afterProbe_quiet _)
      · exact hquiet _ (nextProbe_quiet _ _)
      · exact hquiet _ (nextProbe_quiet _ _)
  | addConfidence idx =>
      simp only [stepPhase, Option.some.injEq] at hstep
      subst hstep
      exact .addConfidence idx rfl
  | addHit idx newConf =>
      simp only [stepPhase, Option.some.injEq] at hstep
      subst hstep
      exact .addHit idx newConf rfl
  | storeUpdate idx newConf =>
      simp only [stepPhase, Option.some.injEq] at hstep
      subst hstep
      obtain ⟨hhit, hpending, hdone, hhitDone⟩ :=
        afterUpdate_quiet deposit idx hcarries
      exact .of_update rfl rfl rfl hpending hhit hdone hhitDone
  | addSrc idx newConf =>
      simp only [stepPhase, Option.some.injEq] at hstep
      subst hstep
      obtain ⟨hhit, hpending, hdone, hhitDone⟩ := afterSrc_quiet deposit idx hcarries
      exact .of_update rfl rfl rfl hpending hhit hdone hhitDone
  | orFlags idx newConf =>
      simp only [stepPhase, Option.some.injEq] at hstep
      subst hstep
      exact .of_update rfl rfl rfl rfl rfl (decide_eq_true hcarries)
        (decide_eq_true hcarries)
  | recheck idx =>
      simp only [stepPhase] at hstep
      split_ifs at hstep <;> simp only [Option.some.injEq] at hstep <;> subst hstep
      · exact hquiet _ ⟨rfl, rfl, rfl, rfl⟩
      · exact hquiet _ ⟨rfl, rfl, rfl, rfl⟩
  | swap idx expected =>
      simp only [stepPhase] at hstep
      split_ifs at hstep with hexpected <;>
        simp only [Option.some.injEq] at hstep <;> subst hstep
      · exact .claim idx expected rfl hexpected
      · exact hquiet _ ⟨rfl, rfl, rfl, rfl⟩
      · exact hquiet _ ⟨rfl, rfl, rfl, rfl⟩
  | loadVersion idx =>
      simp only [stepPhase, Option.some.injEq] at hstep
      subst hstep
      exact hquiet _ ⟨rfl, rfl, rfl, rfl⟩
  | lockVersion idx ver =>
      simp only [stepPhase, Option.some.injEq] at hstep
      subst hstep
      exact .of_update rfl rfl rfl rfl rfl rfl rfl
  | writeCold idx writeVer =>
      simp only [stepPhase, Option.some.injEq] at hstep
      subst hstep
      exact .of_update rfl rfl rfl rfl rfl rfl rfl
  | unlockVersion idx writeVer =>
      simp only [stepPhase, Option.some.injEq] at hstep
      subst hstep
      exact .of_update rfl rfl rfl rfl rfl rfl rfl
  | clearReason idx i =>
      simp only [stepPhase, Option.some.injEq] at hstep
      subst hstep
      fin_cases i <;> exact .of_update rfl rfl rfl rfl rfl rfl rfl
  | initConfidence idx =>
      simp only [stepPhase, Option.some.injEq] at hstep
      subst hstep
      exact .initConfidence idx rfl
  | initHit idx =>
      simp only [stepPhase, Option.some.injEq] at hstep
      subst hstep
      exact .initHit idx rfl
  | initUpdate idx =>
      simp only [stepPhase, Option.some.injEq] at hstep
      subst hstep
      exact .of_update rfl rfl rfl rfl rfl rfl rfl
  | initSrc idx =>
      simp only [stepPhase, Option.some.injEq] at hstep
      subst hstep
      exact .of_update rfl rfl rfl rfl rfl rfl rfl
  | initFlags idx =>
      simp only [stepPhase, Option.some.injEq] at hstep
      subst hstep
      exact .of_update rfl rfl rfl rfl rfl (decide_eq_true hcarries)
        (decide_eq_true hcarries)
  | returned value => simp [stepPhase] at hstep

/-! ## The contested slot -/

/-- `slot` is the first free slot of the window of an absent key. -/
structure Contest (h : Header) (key : UInt64) (start : ℕ → Entry Entity)
    (slot : ℕ) : Prop where
  keyed : key ≠ slotEmpty ∧ key ≠ slotTombstone
  absent : ∀ p < probeMax, (start (probeIdx h key p)).keyHash ≠ key
  free : ¬ (start slot).Live
  first : ∃ p < probeMax, probeIdx h key p = slot ∧
    ∀ j < p, (start (probeIdx h key j)).Live

theorem contest_of_probeFree {h : Header} {key : UInt64}
    {start : ℕ → Entry Entity} {slot : ℕ}
    (hkeyed : key ≠ slotEmpty ∧ key ≠ slotTombstone)
    (habsent : ∀ p < probeMax, (start (probeIdx h key p)).keyHash ≠ key)
    (hfree : probeFree (tagSlots start) (probeWindow h key) = some slot) :
    Contest h key start slot := by
  refine ⟨hkeyed, habsent, tagSlots_isFree_iff.mp (probeFree_some_isFree hfree), ?_⟩
  obtain ⟨_, p, hp, hslot, hbefore⟩ := List.find?_eq_some_iff_getElem.mp hfree
  have hlength : (probeWindow h key).length = probeMax := by simp [probeWindow]
  refine ⟨p, hlength ▸ hp, by simpa [probeWindow] using hslot, fun j hj => ?_⟩
  have hbusy := hbefore j hj
  simp only [probeWindow, List.getElem_map, List.getElem_range, Bool.not_eq_true',
    ← Bool.not_eq_true, tagSlots_isFree_iff, not_not] at hbusy
  exact hbusy

/-- Only the contested slot may have changed its key, and only to `key`. -/
structure Untouched (key : UInt64) (start : ℕ → Entry Entity) (slot : ℕ)
    (entries : ℕ → Entry Entity) : Prop where
  others : ∀ idx, idx ≠ slot → (entries idx).keyHash = (start idx).keyHash
  contested : (entries slot).keyHash = key ∨
    (entries slot).keyHash = (start slot).keyHash

/-- What is known of a process in a given phase; `claimed` says that the
contested slot holds the key. -/
def Phase.Valid (h : Header) (key : UInt64) (start : ℕ → Entry Entity)
    (slot : ℕ) (claimed : Prop) : Phase → Prop
  | .probing probe first => probe < probeMax ∧
      (first = none ∧ (∀ j < probe, (start (probeIdx h key j)).Live) ∨
        first = some slot)
  | .recheck idx => idx = slot
  | .swap idx expected =>
      idx = slot ∧ (expected = slotEmpty ∨ expected = slotTombstone)
  | .returned value => value ≠ 0 → claimed
  | .addConfidence idx => idx = slot ∧ claimed
  | .addHit idx newConf => idx = slot ∧ claimed ∧ newConf ≠ 0
  | .storeUpdate idx newConf => idx = slot ∧ claimed ∧ newConf ≠ 0
  | .addSrc idx newConf => idx = slot ∧ claimed ∧ newConf ≠ 0
  | .orFlags idx newConf => idx = slot ∧ claimed ∧ newConf ≠ 0
  | .loadVersion idx => idx = slot ∧ claimed
  | .lockVersion idx _ => idx = slot ∧ claimed
  | .writeCold idx _ => idx = slot ∧ claimed
  | .unlockVersion idx _ => idx = slot ∧ claimed
  | .clearReason idx _ => idx = slot ∧ claimed
  | .initConfidence idx => idx = slot ∧ claimed
  | .initHit idx => idx = slot ∧ claimed
  | .initUpdate idx => idx = slot ∧ claimed
  | .initSrc idx => idx = slot ∧ claimed
  | .initFlags idx => idx = slot ∧ claimed

section Validity

variable {h : Header} {key : UInt64} {start entries : ℕ → Entry Entity} {slot : ℕ}
  {claimed : Prop}

theorem Phase.Valid.mono {phase : Phase} {claimed' : Prop}
    (hvalid : phase.Valid h key start slot claimed) (hclaimed : claimed → claimed') :
    phase.Valid h key start slot claimed' := by
  cases phase <;> simp only [Phase.Valid] at hvalid ⊢ <;> tauto

theorem Phase.Valid.idle {phase : Phase}
    (hvalid : phase.Valid h key start slot claimed) (hunclaimed : ¬ claimed) :
    phase.hitPending = none ∧ phase.confidencePending = none ∧
      phase.confidenceDone = false ∧ phase.hitDone = false := by
  cases phase with
  | probing => exact ⟨rfl, rfl, rfl, rfl⟩
  | recheck => exact ⟨rfl, rfl, rfl, rfl⟩
  | swap => exact ⟨rfl, rfl, rfl, rfl⟩
  | returned value =>
      have hzero : value = 0 := by
        by_contra hne
        exact hunclaimed (hvalid hne)
      subst hzero
      exact ⟨rfl, rfl, rfl, rfl⟩
  | addHit => exact absurd hvalid.2.1 hunclaimed
  | storeUpdate => exact absurd hvalid.2.1 hunclaimed
  | addSrc => exact absurd hvalid.2.1 hunclaimed
  | orFlags => exact absurd hvalid.2.1 hunclaimed
  | addConfidence => exact absurd hvalid.2 hunclaimed
  | loadVersion => exact absurd hvalid.2 hunclaimed
  | lockVersion => exact absurd hvalid.2 hunclaimed
  | writeCold => exact absurd hvalid.2 hunclaimed
  | unlockVersion => exact absurd hvalid.2 hunclaimed
  | clearReason => exact absurd hvalid.2 hunclaimed
  | initConfidence => exact absurd hvalid.2 hunclaimed
  | initHit => exact absurd hvalid.2 hunclaimed
  | initUpdate => exact absurd hvalid.2 hunclaimed
  | initSrc => exact absurd hvalid.2 hunclaimed
  | initFlags => exact absurd hvalid.2 hunclaimed

theorem Phase.Valid.carriesValue {phase : Phase} {deposit : Deposit Entity}
    (hvalid : phase.Valid h key start slot claimed) (hdelta : deposit.delta ≠ 0) :
    phase.CarriesValue deposit := by
  cases phase <;> simp only [Phase.Valid, Phase.CarriesValue] at hvalid ⊢ <;> tauto

/-- The slot which a valid process has pending is the contested one. -/
theorem Phase.Valid.slot_of_hitPending {phase : Phase} {idx : ℕ}
    (hvalid : phase.Valid h key start slot claimed)
    (hpending : phase.hitPending = some idx) : idx = slot := by
  cases phase <;>
    simp only [Phase.Valid, Phase.hitPending, Phase.confidencePending,
      Option.some.injEq, reduceCtorEq] at hvalid hpending <;>
    exact hpending.symm.trans hvalid.1

theorem Contest.slot_of_free (hcontest : Contest h key start slot)
    (huntouched : Untouched key start slot entries) {probe : ℕ}
    (hbefore : ∀ j < probe, (start (probeIdx h key j)).Live)
    (hfree : ¬ (entries (probeIdx h key probe)).Live) :
    probeIdx h key probe = slot := by
  by_contra hne
  have hstart : ¬ (start (probeIdx h key probe)).Live := by
    rwa [Entry.Live, ← huntouched.others _ hne]
  obtain ⟨p, _, hslot, hlive⟩ := hcontest.first
  rcases Nat.lt_trichotomy probe p with hlt | heq | hgt
  · exact hstart (hlive probe hlt)
  · exact hne (heq ▸ hslot)
  · exact hcontest.free (hslot ▸ hbefore p hgt)

theorem Contest.slot_of_key (hcontest : Contest h key start slot)
    (huntouched : Untouched key start slot entries) {probe : ℕ} (hlt : probe < probeMax)
    (hkey : (entries (probeIdx h key probe)).keyHash = key) :
    probeIdx h key probe = slot := by
  by_contra hne
  exact hcontest.absent probe hlt (by rw [← huntouched.others _ hne, hkey])

theorem valid_afterProbe {first : Option ℕ} (hfirst : first = none ∨ first = some slot) :
    (afterProbe first).Valid h key start slot claimed := by
  rcases hfirst with rfl | rfl
  · exact fun hne => absurd rfl hne
  · exact rfl

theorem valid_nextProbe {probe : ℕ} {first : Option ℕ}
    (hfirst : first = none ∧ (∀ j < probe + 1, (start (probeIdx h key j)).Live) ∨
      first = some slot) :
    (nextProbe probe first).Valid h key start slot claimed := by
  unfold nextProbe
  split_ifs with hlt
  · exact ⟨hlt, hfirst⟩
  · exact valid_afterProbe (hfirst.imp_left And.left)

theorem valid_afterUpdate (deposit : Deposit Entity) {newConf : UInt32}
    (hclaimed : claimed) (hvalue : newConf ≠ 0) :
    (afterSrc deposit slot newConf).Valid h key start slot claimed ∧
      (afterUpdate deposit slot newConf).Valid h key start slot claimed := by
  have hsrc : (afterSrc deposit slot newConf).Valid h key start slot claimed := by
    unfold afterSrc
    split_ifs
    · exact ⟨rfl, hclaimed, hvalue⟩
    · exact fun _ => hclaimed
  refine ⟨hsrc, ?_⟩
  unfold afterUpdate
  split_ifs
  · exact ⟨rfl, hclaimed, hvalue⟩
  · exact hsrc

theorem Untouched.update (huntouched : Untouched key start slot entries)
    {entry : Entry Entity} (hkey : entry.keyHash = (entries slot).keyHash) :
    Untouched key start slot (Function.update entries slot entry) where
  others idx hne := by
    rw [Function.update_of_ne hne]
    exact huntouched.others idx hne
  contested := by
    rw [Function.update_self, hkey]
    exact huntouched.contested

theorem valid_probing (hcontest : Contest h key start slot)
    (huntouched : Untouched key start slot entries) {probe : ℕ} {first : Option ℕ}
    (hvalid : (Phase.probing probe first).Valid h key start slot
      ((entries slot).keyHash = key))
    {deposit : Deposit Entity} {next : (ℕ → Entry Entity) × Phase}
    (hstep : stepPhase h key deposit entries (.probing probe first) = some next) :
    next.1 = entries ∧
      next.2.Valid h key start slot ((entries slot).keyHash = key) := by
  obtain ⟨hlt, hfirst⟩ := hvalid
  have hoffer : ¬ (entries (probeIdx h key probe)).Live →
      first.or (some (probeIdx h key probe)) = some slot := by
    intro hfree
    rcases hfirst with ⟨rfl, hbefore⟩ | rfl
    · simpa using hcontest.slot_of_free huntouched hbefore hfree
    · rfl
  simp only [stepPhase] at hstep
  split_ifs at hstep with hkey hempty htomb <;>
    simp only [Option.some.injEq] at hstep <;> subst hstep <;> refine ⟨rfl, ?_⟩
  · have hslot := hcontest.slot_of_key huntouched hlt hkey
    exact ⟨hslot, hslot ▸ hkey⟩
  · exact valid_afterProbe (Or.inr (hoffer fun hlive => hlive.1 hempty))
  · exact valid_nextProbe (Or.inr (hoffer fun hlive => hlive.2 htomb))
  · refine valid_nextProbe (hfirst.imp_left fun hnone => ⟨hnone.1, fun j hj => ?_⟩)
    by_cases heq : j = probe
    · subst heq
      have hne : probeIdx h key j ≠ slot := by
        intro hslot
        rcases huntouched.contested with hclaimed | hfree
        · exact hkey (hslot ▸ hclaimed)
        · apply hcontest.free
          rw [Entry.Live, ← hfree, ← hslot]
          exact ⟨hempty, htomb⟩
      rw [Entry.Live, ← huntouched.others _ hne]
      exact ⟨hempty, htomb⟩
    · exact hnone.2 j (by omega)

theorem valid_step (hcontest : Contest h key start slot)
    (huntouched : Untouched key start slot entries) {phase : Phase}
    (hvalid : phase.Valid h key start slot ((entries slot).keyHash = key))
    {deposit : Deposit Entity} {next : (ℕ → Entry Entity) × Phase}
    (hvalue : ∀ idx, phase = .addConfidence idx →
      (entries idx).confidence + deposit.delta ≠ 0)
    (hstep : stepPhase h key deposit entries phase = some next) :
    Untouched key start slot next.1 ∧
      ((entries slot).keyHash = key → (next.1 slot).keyHash = key) ∧
      next.2.Valid h key start slot ((next.1 slot).keyHash = key) := by
  have hrewrite : ∀ {entry : Entry Entity} {after : Phase},
      (Function.update entries slot entry, after) = next →
      entry.keyHash = (entries slot).keyHash →
      after.Valid h key start slot ((entries slot).keyHash = key) →
      Untouched key start slot next.1 ∧
        ((entries slot).keyHash = key → (next.1 slot).keyHash = key) ∧
        next.2.Valid h key start slot ((next.1 slot).keyHash = key) := by
    rintro entry after rfl hkey hafter
    refine ⟨huntouched.update hkey, ?_, ?_⟩
    · simp [hkey]
    · simpa [hkey] using hafter
  cases phase with
  | probing probe first =>
      obtain ⟨hsame, hnext⟩ := valid_probing hcontest huntouched hvalid hstep
      rw [hsame]
      exact ⟨huntouched, id, hnext⟩
  | recheck idx =>
      simp only [stepPhase] at hstep
      split_ifs at hstep with hlive <;> simp only [Option.some.injEq] at hstep <;>
        subst hstep
      · exact ⟨huntouched, id, fun hne => absurd rfl hne⟩
      · exact ⟨huntouched, id, hvalid, by tauto⟩
  | swap idx expected =>
      obtain ⟨rfl, hsentinel⟩ := hvalid
      simp only [stepPhase] at hstep
      split_ifs at hstep with hexpected hkey <;>
        simp only [Option.some.injEq] at hstep <;> subst hstep
      · refine ⟨⟨fun other hne => ?_, Or.inl ?_⟩, fun _ => ?_, rfl, ?_⟩
        · simp only [Function.update_of_ne hne]
          exact huntouched.others other hne
        all_goals simp
      · exact ⟨huntouched, id, rfl, hkey⟩
      · exact ⟨huntouched, id, fun hne => absurd rfl hne⟩
  | addConfidence idx =>
      obtain ⟨rfl, hclaimed⟩ := hvalid
      simp only [stepPhase, Option.some.injEq] at hstep
      exact hrewrite hstep rfl ⟨rfl, hclaimed, hvalue idx rfl⟩
  | addHit idx newConf =>
      obtain ⟨rfl, hclaimed, hne⟩ := hvalid
      simp only [stepPhase, Option.some.injEq] at hstep
      exact hrewrite hstep rfl ⟨rfl, hclaimed, hne⟩
  | storeUpdate idx newConf =>
      obtain ⟨rfl, hclaimed, hne⟩ := hvalid
      simp only [stepPhase, Option.some.injEq] at hstep
      exact hrewrite hstep rfl (valid_afterUpdate deposit hclaimed hne).2
  | addSrc idx newConf =>
      obtain ⟨rfl, hclaimed, hne⟩ := hvalid
      simp only [stepPhase, Option.some.injEq] at hstep
      exact hrewrite hstep rfl (valid_afterUpdate deposit hclaimed hne).1
  | orFlags idx newConf =>
      obtain ⟨rfl, hclaimed, hne⟩ := hvalid
      simp only [stepPhase, Option.some.injEq] at hstep
      exact hrewrite hstep rfl (fun _ => hclaimed)
  | loadVersion idx =>
      obtain ⟨rfl, hclaimed⟩ := hvalid
      simp only [stepPhase, Option.some.injEq] at hstep
      subst hstep
      exact ⟨huntouched, id, rfl, hclaimed⟩
  | lockVersion idx ver =>
      obtain ⟨rfl, hclaimed⟩ := hvalid
      simp only [stepPhase, Option.some.injEq] at hstep
      exact hrewrite hstep rfl ⟨rfl, hclaimed⟩
  | writeCold idx writeVer =>
      obtain ⟨rfl, hclaimed⟩ := hvalid
      simp only [stepPhase, Option.some.injEq] at hstep
      exact hrewrite hstep rfl ⟨rfl, hclaimed⟩
  | unlockVersion idx writeVer =>
      obtain ⟨rfl, hclaimed⟩ := hvalid
      simp only [stepPhase, Option.some.injEq] at hstep
      exact hrewrite hstep rfl ⟨rfl, hclaimed⟩
  | clearReason idx i =>
      obtain ⟨rfl, hclaimed⟩ := hvalid
      simp only [stepPhase, Option.some.injEq] at hstep
      refine hrewrite hstep rfl ?_
      fin_cases i <;> exact ⟨rfl, hclaimed⟩
  | initConfidence idx =>
      obtain ⟨rfl, hclaimed⟩ := hvalid
      simp only [stepPhase, Option.some.injEq] at hstep
      exact hrewrite hstep rfl ⟨rfl, hclaimed⟩
  | initHit idx =>
      obtain ⟨rfl, hclaimed⟩ := hvalid
      simp only [stepPhase, Option.some.injEq] at hstep
      exact hrewrite hstep rfl ⟨rfl, hclaimed⟩
  | initUpdate idx =>
      obtain ⟨rfl, hclaimed⟩ := hvalid
      simp only [stepPhase, Option.some.injEq] at hstep
      exact hrewrite hstep rfl ⟨rfl, hclaimed⟩
  | initSrc idx =>
      obtain ⟨rfl, hclaimed⟩ := hvalid
      simp only [stepPhase, Option.some.injEq] at hstep
      exact hrewrite hstep rfl ⟨rfl, hclaimed⟩
  | initFlags idx =>
      obtain ⟨rfl, hclaimed⟩ := hvalid
      simp only [stepPhase, Option.some.injEq] at hstep
      exact hrewrite hstep rfl (fun _ => hclaimed)
  | returned value => simp [stepPhase] at hstep

end Validity

end Pheromone
end LibWake
