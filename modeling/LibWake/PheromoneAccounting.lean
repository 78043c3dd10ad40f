import Mathlib.Algebra.BigOperators.Fin
import LibWake.CounterLedger
import LibWake.PheromoneDeposits

/-!
# No deposit is lost while the adds are settled

In a run in which no process adds to a counter of a claimed slot before the
claiming process has stored that counter, the confidence and the hit count of
the contested slot account for every deposit.  In other runs a deposit can be
overwritten.
-/

namespace LibWake
namespace Pheromone

open OpenAddressing CounterLedger

variable {Entity : Type}

/-! ## What the calls leave behind -/

/-- The `hit_count` of the entity's entry, 0 when it has none. -/
def hitCountOf (entityHash : Entity → UInt64) (table : Table Entity)
    (entity : Entity) : UInt32 :=
  match probeKey table (entityKeyHash entityHash entity) with
  | some idx => (table.entries idx).hitCount
  | none => 0

/-- When all calls have returned, the confidence is the sum of the deltas, and
the hit count the number, of the calls which returned a non-zero value. -/
def KeepsDeposits {P : Type} [Fintype P] (entityHash : Entity → UInt64)
    (entity : Entity) (args : P → Deposit Entity) (final : Shared P Entity) : Prop :=
  ∀ value : P → UInt32, (∀ p, final.phase p = .returned (value p)) →
    (lookup entityHash final.table entity).toNat =
        ∑ p with value p ≠ 0, (args p).delta.toNat ∧
      (hitCountOf entityHash final.table entity).toNat =
        (Finset.univ.filter fun p => value p ≠ 0).card

/-! ## The accounts of the contested slot -/

section Accounts

variable {P : Type} [Fintype P] {h : Header} {key : UInt64}
  {start : ℕ → Entry Entity} {slot : ℕ} {args : P → Deposit Entity}

/-- At most one process owns the contested slot, and both counters of a claimed
slot are balanced. -/
structure Ledgers (key : UInt64) (slot : ℕ) (args : P → Deposit Entity)
    (entries : ℕ → Entry Entity) (phase : P → Phase) : Prop where
  owner : ∀ p q, (phase p).hitPending ≠ none → (phase q).hitPending ≠ none → q = p
  confidence : (entries slot).keyHash = key →
    Balanced (fun phase : Phase => phase.confidencePending ≠ none)
      Phase.confidenceDone (fun q => (args q).delta.toNat)
      (entries slot).confidence.toNat phase
  hits : (entries slot).keyHash = key →
    Balanced (fun phase : Phase => phase.hitPending ≠ none) Phase.hitDone
      (fun _ => 1) (entries slot).hitCount.toNat phase

/-- The invariant of a run which starts with the key absent. -/
structure Accounted (h : Header) (key : UInt64) (start : ℕ → Entry Entity)
    (slot : ℕ) (args : P → Deposit Entity) (shared : Shared P Entity) : Prop where
  header : shared.table.header = h
  untouched : Untouched key start slot shared.table.entries
  valid : ∀ p, (shared.phase p).Valid h key start slot
    ((shared.table.entries slot).keyHash = key)
  ledgers : Ledgers key slot args shared.table.entries shared.phase

theorem toNat_add_of_lt {a b : UInt32} (hlt : a.toNat + b.toNat < 2 ^ 32) :
    (a + b).toNat = a.toNat + b.toNat := by
  rw [UInt32.toNat_add, Nat.mod_eq_of_lt hlt]

theorem card_le_sum_delta (hpos : ∀ p, 0 < (args p).delta) :
    ∑ _p : P, 1 ≤ ∑ p, (args p).delta.toNat := by
  apply Finset.sum_le_sum
  intro p _
  exact UInt32.lt_iff_toNat_lt.mp (hpos p)

namespace Accounted

variable {shared : Shared P Entity} {p : P}

theorem confidence_free (hgood : Accounted h key start slot args shared)
    (hsettled : AddsSettled shared p)
    (hphase : shared.phase p = .addConfidence slot) (q : P) :
    ¬ (shared.phase q).confidencePending ≠ none := by
  intro hpending
  obtain ⟨idx, hidx⟩ := Option.ne_none_iff_exists'.mp hpending
  have hslot := (hgood.valid q).slot_of_hitPending
    (Phase.hitPending_of_confidencePending hidx)
  exact hsettled.1 slot hphase q (hslot ▸ hidx)

theorem hits_free (hgood : Accounted h key start slot args shared)
    (hsettled : AddsSettled shared p) {newConf : UInt32}
    (hphase : shared.phase p = .addHit slot newConf) (q : P) :
    ¬ (shared.phase q).hitPending ≠ none := by
  intro hpending
  obtain ⟨idx, hidx⟩ := Option.ne_none_iff_exists'.mp hpending
  have hslot := (hgood.valid q).slot_of_hitPending hidx
  exact hsettled.2 slot newConf hphase q (hslot ▸ hidx)

variable [DecidableEq P]

theorem confidence_add (hgood : Accounted h key start slot args shared)
    (hsum : ∑ q, (args q).delta.toNat < 2 ^ 32)
    (hsettled : AddsSettled shared p)
    (hphase : shared.phase p = .addConfidence slot) :
    ((shared.table.entries slot).confidence + (args p).delta).toNat =
      (shared.table.entries slot).confidence.toNat + (args p).delta.toNat := by
  have hvalid := hgood.valid p
  rw [hphase] at hvalid
  have hvalue := (hgood.ledgers.confidence hvalid.2).value_of_free
    (hgood.confidence_free hsettled hphase)
  have hbefore : (shared.phase p).confidenceDone = false := by rw [hphase]; rfl
  have hroom := contributed_add_le (fun q => (args q).delta.toNat) hbefore
  exact toNat_add_of_lt (by omega)

theorem hits_add (hgood : Accounted h key start slot args shared)
    (hpos : ∀ q, 0 < (args q).delta) (hsum : ∑ q, (args q).delta.toNat < 2 ^ 32)
    (hsettled : AddsSettled shared p) {newConf : UInt32}
    (hphase : shared.phase p = .addHit slot newConf) :
    ((shared.table.entries slot).hitCount + 1).toNat =
      (shared.table.entries slot).hitCount.toNat + 1 := by
  have hvalid := hgood.valid p
  rw [hphase] at hvalid
  have hvalue := (hgood.ledgers.hits hvalid.2.1).value_of_free
    (hgood.hits_free hsettled hphase)
  have hbefore : (shared.phase p).hitDone = false := by rw [hphase]; rfl
  have hroom := contributed_add_le (fun _ : P => 1) hbefore
  have hcard := card_le_sum_delta hpos
  refine toNat_add_of_lt ?_
  rw [UInt32.toNat_one]
  omega

theorem owner_update (hgood : Accounted h key start slot args shared) {next : Phase}
    (hpending : next.hitPending ≠ none → (shared.phase p).hitPending ≠ none)
    (q r : P) (hq : (Function.update shared.phase p next q).hitPending ≠ none)
    (hr : (Function.update shared.phase p next r).hitPending ≠ none) : r = q := by
  have hbefore : ∀ q, (Function.update shared.phase p next q).hitPending ≠ none →
      (shared.phase q).hitPending ≠ none := by
    intro q hq
    by_cases heq : q = p
    · subst heq
      rw [Function.update_self] at hq
      exact hpending hq
    · rwa [Function.update_of_ne heq] at hq
  exact hgood.ledgers.owner q r (hbefore q hq) (hbefore r hr)

theorem ledgers_step (hcontest : Contest h key start slot)
    (hgood : Accounted h key start slot args shared)
    (hpos : ∀ q, 0 < (args q).delta) (hsum : ∑ q, (args q).delta.toNat < 2 ^ 32)
    (hsettled : AddsSettled shared p) {next : (ℕ → Entry Entity) × Phase}
    (heffect : Effect key (args p) shared.table.entries (shared.phase p) next) :
    Ledgers key slot args next.1 (Function.update shared.phase p next.2) := by
  have hvalid := hgood.valid p
  cases heffect with
  | quiet after next hkeys hconfidence hhits hpending hhitPending hdone hhitDone =>
      refine ⟨hgood.owner_update fun h => hhitPending ▸ h, ?_, ?_⟩
      · intro hclaimed
        rw [hkeys] at hclaimed
        simp only [hconfidence]
        exact (hgood.ledgers.confidence hclaimed).quiet (by rw [hpending]) hdone
      · intro hclaimed
        rw [hkeys] at hclaimed
        simp only [hhits]
        exact (hgood.ledgers.hits hclaimed).quiet (by rw [hhitPending]) hhitDone
  | claim idx expected hphase hexpected =>
      rw [hphase] at hvalid
      obtain ⟨rfl, hsentinel⟩ := hvalid
      have hunclaimed : ¬ (shared.table.entries idx).keyHash = key := by
        rw [hexpected]
        rintro rfl
        exact hsentinel.elim hcontest.keyed.1 hcontest.keyed.2
      have hidle := fun q => (hgood.valid q).idle hunclaimed
      refine ⟨?_, fun _ => ?_, fun _ => ?_⟩
      · have howner : ∀ q, (Function.update shared.phase p (.loadVersion idx)
            q).hitPending ≠ none → q = p := by
          intro q hq
          by_contra hne
          rw [Function.update_of_ne hne] at hq
          exact hq (hidle q).1
        exact fun q r hq hr => (howner r hr).trans (howner q hq).symm
      · exact .claim (fun q => (hidle q).2.2.1) (by simp [Phase.confidencePending]) rfl
      · exact .claim (fun q => (hidle q).2.2.2) (by
          simp [Phase.hitPending, Phase.confidencePending]) rfl
  | addConfidence idx hphase =>
      rw [hphase] at hvalid
      obtain ⟨rfl, hclaimed⟩ := hvalid
      refine ⟨hgood.owner_update fun h => absurd rfl h, fun _ => ?_, fun _ => ?_⟩
      · simp only [Function.update_self]
        rw [hgood.confidence_add hsum hsettled hphase]
        exact (hgood.ledgers.confidence hclaimed).add
          (hgood.confidence_free hsettled hphase) (by rw [hphase]; rfl) rfl
          fun h => h rfl
      · simp only [Function.update_self]
        exact (hgood.ledgers.hits hclaimed).quiet (by rw [hphase]; rfl)
          (by rw [hphase]; rfl)
  | addHit idx newConf hphase =>
      rw [hphase] at hvalid
      obtain ⟨rfl, hclaimed, _⟩ := hvalid
      refine ⟨hgood.owner_update fun h => absurd rfl h, fun _ => ?_, fun _ => ?_⟩
      · simp only [Function.update_self]
        exact (hgood.ledgers.confidence hclaimed).quiet (by rw [hphase]; rfl)
          (by rw [hphase]; rfl)
      · simp only [Function.update_self]
        rw [hgood.hits_add hpos hsum hsettled hphase]
        exact (hgood.ledgers.hits hclaimed).add (hgood.hits_free hsettled hphase)
          (by rw [hphase]; rfl) rfl fun h => h rfl
  | initConfidence idx hphase =>
      rw [hphase] at hvalid
      obtain ⟨rfl, hclaimed⟩ := hvalid
      have howns : (shared.phase p).hitPending ≠ none := by
        rw [hphase]
        simp [Phase.hitPending, Phase.confidencePending]
      refine ⟨hgood.owner_update fun _ => howns, fun _ => ?_, fun _ => ?_⟩
      · simp only [Function.update_self]
        refine (hgood.ledgers.confidence hclaimed).store (fun q hq => ?_) ?_ rfl
          fun h => h rfl
        · obtain ⟨other, hother⟩ := Option.ne_none_iff_exists'.mp hq
          refine hgood.ledgers.owner p q howns ?_
          rw [Phase.hitPending_of_confidencePending hother]
          exact Option.some_ne_none other
        · rw [hphase]
          simp [Phase.confidencePending]
      · simp only [Function.update_self]
        exact (hgood.ledgers.hits hclaimed).quiet (by rw [hphase]; rfl)
          (by rw [hphase]; rfl)
  | initHit idx hphase =>
      rw [hphase] at hvalid
      obtain ⟨rfl, hclaimed⟩ := hvalid
      have howns : (shared.phase p).hitPending ≠ none := by
        rw [hphase]
        simp [Phase.hitPending]
      refine ⟨hgood.owner_update fun h => absurd rfl h, fun _ => ?_, fun _ => ?_⟩
      · simp only [Function.update_self]
        exact (hgood.ledgers.confidence hclaimed).quiet (by rw [hphase]; rfl)
          (by rw [hphase]; rfl)
      · simp only [Function.update_self]
        exact (hgood.ledgers.hits hclaimed).store
          (fun q hq => hgood.ledgers.owner p q howns hq) howns rfl fun h => h rfl

theorem step (hcontest : Contest h key start slot)
    (hgood : Accounted h key start slot args shared)
    (hpos : ∀ q, 0 < (args q).delta) (hsum : ∑ q, (args q).delta.toNat < 2 ^ 32)
    (hsettled : AddsSettled shared p) {next : (ℕ → Entry Entity) × Phase}
    (hstep : stepPhase shared.table.header key (args p) shared.table.entries
      (shared.phase p) = some next) :
    Accounted h key start slot args
      ⟨{ shared.table with entries := next.1 },
        Function.update shared.phase p next.2⟩ := by
  have hdelta : (args p).delta ≠ 0 := by
    intro hzero
    exact absurd (hzero ▸ hpos p) (by decide)
  have hvalue : ∀ idx, shared.phase p = .addConfidence idx →
      (shared.table.entries idx).confidence + (args p).delta ≠ 0 := by
    intro idx hphase hzero
    have hvalid := hgood.valid p
    rw [hphase] at hvalid
    obtain ⟨rfl, _⟩ := hvalid
    have hadd := hgood.confidence_add hsum hsettled hphase
    have hlt := UInt32.lt_iff_toNat_lt.mp (hpos p)
    rw [hzero, UInt32.toNat_zero] at hadd
    rw [UInt32.toNat_zero] at hlt
    omega
  have heffect := effect_of_stepPhase ((hgood.valid p).carriesValue hdelta) hstep
  rw [hgood.header] at hstep
  obtain ⟨huntouched, hkeep, hnext⟩ :=
    valid_step hcontest hgood.untouched (hgood.valid p) hvalue hstep
  refine ⟨hgood.header, huntouched, fun q => ?_,
    hgood.ledgers_step hcontest hpos hsum hsettled heffect⟩
  by_cases heq : q = p
  · subst heq
    simpa using hnext
  · simp only [Function.update_of_ne heq]
    exact (hgood.valid q).mono hkeep

end Accounted

end Accounts

/-! ## A window without a free slot -/

/-- Every slot of the window holds another live key, and no call has done more
than probe. -/
structure NoRoom {P : Type} (h : Header) (key : UInt64) (shared : Shared P Entity) : Prop where
  header : shared.table.header = h
  live : ∀ j < probeMax, (shared.table.entries (probeIdx h key j)).Live ∧
    (shared.table.entries (probeIdx h key j)).keyHash ≠ key
  idle : ∀ p, (∃ k < probeMax, shared.phase p = .probing k none) ∨
    shared.phase p = .returned 0

theorem NoRoom.step {P : Type} [DecidableEq P] {h : Header} {key : UInt64}
    {shared : Shared P Entity} {p : P} (hgood : NoRoom h key shared) {deposit : Deposit Entity}
    {next : (ℕ → Entry Entity) × Phase}
    (hstep : stepPhase shared.table.header key deposit shared.table.entries
      (shared.phase p) = some next) :
    NoRoom h key ⟨{ shared.table with entries := next.1 },
      Function.update shared.phase p next.2⟩ := by
  rcases hgood.idle p with ⟨k, hk, hphase⟩ | hphase
  · obtain ⟨⟨hempty, htomb⟩, hkey⟩ := hgood.live k hk
    rw [hphase, hgood.header] at hstep
    simp only [stepPhase, if_neg hkey, if_neg hempty, if_neg htomb,
      Option.some.injEq] at hstep
    subst hstep
    refine ⟨hgood.header, hgood.live, fun q => ?_⟩
    by_cases heq : q = p
    · subst heq
      simp only [Function.update_self, nextProbe]
      split_ifs with hlt
      · exact Or.inl ⟨k + 1, hlt, rfl⟩
      · exact Or.inr rfl
    · simp only [Function.update_of_ne heq]
      exact hgood.idle q
  · rw [hphase] at hstep
    simp [stepPhase] at hstep

/-! ## The final lookup -/

section Lookup

variable {h : Header} {key : UInt64} {start entries : ℕ → Entry Entity} {slot : ℕ}

theorem probeKeyIn_of_claimed (hcontest : Contest h key start slot)
    (hchained : Chained (tagSlots start) (probeWindow h key) slot)
    (huntouched : Untouched key start slot entries)
    (hclaimed : (entries slot).keyHash = key) :
    probeKeyIn entries key (probeWindow h key) = some slot := by
  obtain ⟨hempty, htomb⟩ := hcontest.keyed
  rw [probeKeyIn_eq _ hempty htomb]
  have hlive : tagSlots entries slot = .live key :=
    tagSlots_eq_live_iff.mpr ⟨hclaimed, by rw [Entry.Live, hclaimed]; exact ⟨hempty, htomb⟩⟩
  have hreach : Chained (tagSlots entries) (probeWindow h key) slot := by
    refine hchained.mono fun other hother => ?_
    have hne : other ≠ slot := by
      rintro rfl
      rw [hlive] at hother
      contradiction
    rwa [tagSlots, ← huntouched.others other hne]
  obtain ⟨idx, hfind⟩ :=
    Option.isSome_iff_exists.mp (probeFind_isSome_of_chained hreach hlive)
  obtain ⟨hmem, hidx⟩ := probeFind_some_mem hfind
  obtain ⟨p, hp, rfl⟩ := mem_probeWindow.mp hmem
  rw [hfind, hcontest.slot_of_key huntouched hp (tagSlots_eq_live_iff.mp hidx).1]

theorem probeKeyIn_of_absent (hkeyed : key ≠ slotEmpty ∧ key ≠ slotTombstone)
    (habsent : ∀ p < probeMax, (entries (probeIdx h key p)).keyHash ≠ key) :
    probeKeyIn entries key (probeWindow h key) = none := by
  rw [probeKeyIn_eq _ hkeyed.1 hkeyed.2]
  cases hfind : probeFind (tagSlots entries) key (probeWindow h key) with
  | none => rfl
  | some idx =>
      obtain ⟨hmem, hidx⟩ := probeFind_some_mem hfind
      obtain ⟨p, hp, rfl⟩ := mem_probeWindow.mp hmem
      exact absurd (tagSlots_eq_live_iff.mp hidx).1 (habsent p hp)

end Lookup

section Returned

variable {P : Type} [Fintype P] {args : P → Deposit Entity}
  {entityHash : Entity → UInt64} {entity : Entity} {final : Shared P Entity}

/-- Nothing is kept, and nothing has to be, when every call returned 0. -/
theorem keepsDeposits_of_absent
    (hprobe : probeKey final.table (entityKeyHash entityHash entity) = none)
    (hzero : ∀ p value, final.phase p = .returned value → value = 0) :
    KeepsDeposits entityHash entity args final := by
  intro value hreturned
  have hnone : Finset.univ.filter (fun p => value p ≠ 0) = ∅ := by
    apply Finset.filter_eq_empty_iff.mpr
    intro p _ hne
    exact hne (hzero p _ (hreturned p))
  rw [hnone, lookup, hitCountOf, hprobe]
  exact ⟨rfl, rfl⟩

theorem Accounted.keepsDeposits {h : Header} {start : ℕ → Entry Entity} {slot : ℕ}
    (hcontest : Contest h (entityKeyHash entityHash entity) start slot)
    (hchained : Chained (tagSlots start)
      (probeWindow h (entityKeyHash entityHash entity)) slot)
    (hgood : Accounted h (entityKeyHash entityHash entity) start slot args final) :
    KeepsDeposits entityHash entity args final := by
  by_cases hclaimed :
      (final.table.entries slot).keyHash = entityKeyHash entityHash entity
  · intro value hreturned
    have hprobe : probeKey final.table (entityKeyHash entityHash entity) =
        some slot := by
      rw [probeKey, hgood.header]
      exact probeKeyIn_of_claimed hcontest hchained hgood.untouched hclaimed
    have hconfidence := (hgood.ledgers.confidence hclaimed).value_of_free
      fun q hq => hq (by rw [hreturned q]; rfl)
    have hhits := (hgood.ledgers.hits hclaimed).value_of_free
      fun q hq => hq (by rw [hreturned q]; rfl)
    simp only [lookup, hitCountOf, hprobe, hconfidence, hhits, contributed,
      hreturned, Phase.confidenceDone, Phase.hitDone, decide_eq_true_eq]
    rw [Finset.sum_filter, Finset.card_filter]
    exact ⟨rfl, rfl⟩
  · apply keepsDeposits_of_absent
    · rw [probeKey, hgood.header]
      refine probeKeyIn_of_absent hcontest.keyed fun p hp hkey => ?_
      exact hclaimed (hcontest.slot_of_key hgood.untouched hp hkey ▸ hkey)
    · intro p value hreturned
      by_contra hne
      have hvalid := hgood.valid p
      rw [hreturned] at hvalid
      exact hclaimed (hvalid hne)

end Returned

/-! ## Settled runs -/

/-- In a run whose adds are settled no deposit on an absent entity is lost. -/
theorem settled_run_keepsDeposits {P : Type} [Fintype P] [DecidableEq P]
    (entityHash : Entity → UInt64) (entity : Entity) (args : P → Deposit Entity)
    (hentity : ∀ p, (args p).entity = entity) (hpos : ∀ p, 0 < (args p).delta)
    (hsum : ∑ p, (args p).delta.toNat < 2 ^ 32) {start final : Shared P Entity}
    {schedule : List P} (hstart : (concurrent entityHash args).Initial start)
    (habsent : ∀ idx,
      (start.table.entries idx).keyHash ≠ entityKeyHash entityHash entity)
    (hsettled : (concurrent entityHash args).RunMeets AddsSettled start schedule)
    (hrun : (concurrent entityHash args).run start schedule = some final) :
    KeepsDeposits entityHash entity args final := by
  have hkeyed := entityKeyHash_ne_sentinel entityHash entity
  cases hfree : probeFree (tagSlots start.table.entries)
      (probeWindow start.table.header (entityKeyHash entityHash entity)) with
  | none =>
      have hroom : NoRoom start.table.header (entityKeyHash entityHash entity)
          start := by
        refine ⟨rfl, fun j hj => ⟨?_, habsent _⟩, fun p => ?_⟩
        · obtain ⟨held, hheld⟩ := probeFree_eq_none_iff.mp hfree _
            (mem_probeWindow.mpr ⟨j, hj, rfl⟩)
          exact (tagSlots_eq_live_iff.mp hheld).2
        · exact Or.inl ⟨0, by decide, hstart p⟩
      have hfinal : NoRoom start.table.header (entityKeyHash entityHash entity)
          final := by
        refine (concurrent entityHash args).run_invariant ?_ hroom hrun
        intro shared p next hgood hstep
        obtain ⟨after, hafter, rfl⟩ := Option.map_eq_some_iff.mp hstep
        rw [hentity p] at hafter
        exact hgood.step hafter
      apply keepsDeposits_of_absent
      · rw [probeKey, hfinal.header]
        exact probeKeyIn_of_absent hkeyed fun p hp => (hfinal.live p hp).2
      · intro p value hreturned
        rcases hfinal.idle p with ⟨k, _, hphase⟩ | hphase
        · rw [hphase] at hreturned
          contradiction
        · rw [hphase] at hreturned
          exact (Phase.returned.inj hreturned).symm
  | some slot =>
      have hcontest := contest_of_probeFree hkeyed (fun p _ => habsent _) hfree
      have hunclaimed : ¬ (start.table.entries slot).keyHash =
          entityKeyHash entityHash entity := habsent slot
      have hgood : Accounted start.table.header (entityKeyHash entityHash entity)
          start.table.entries slot args start := by
        refine ⟨rfl, ⟨fun _ _ => rfl, Or.inr rfl⟩, fun p => ?_, ?_, ?_, ?_⟩
        · rw [hstart p]
          exact ⟨by decide, Or.inl ⟨rfl, fun j hj => absurd hj (Nat.not_lt_zero j)⟩⟩
        · intro p q hp
          rw [hstart p] at hp
          exact absurd rfl hp
        · exact fun hclaimed => absurd hclaimed hunclaimed
        · exact fun hclaimed => absurd hclaimed hunclaimed
      refine Accounted.keepsDeposits hcontest (chained_of_probeFree hfree) ?_
      refine (concurrent entityHash args).run_invariant_of_runMeets ?_ hgood hsettled
        hrun
      intro shared p next hshared hguard hstep
      obtain ⟨after, hafter, rfl⟩ := Option.map_eq_some_iff.mp hstep
      rw [hentity p] at hafter
      exact hshared.step hcontest hpos hsum hguard hafter

/-! ## Two deposits on one entity -/

/-- Two deposits on entity 5, of 40 and of 30. -/
def twoDeposits (p : Fin 2) : Deposit ℕ where
  entity := 5
  action := 0
  outcome := 0
  tenantId := 0
  delta := if p = 0 then 40 else 30
  incrementSrc := false
  phaseFlags := 0
  clock := 0

/-- Both calls are about to probe the fresh table of two slots. -/
def twoCallers : Shared (Fin 2) ℕ := ⟨smallTable, fun _ => .probing 0 none⟩

/-- The second call runs once the first has returned. -/
def oneAfterTheOther : List (Fin 2) := List.replicate 15 0 ++ List.replicate 4 1

/-- The second call runs between the claim and the stores of the first. -/
def duringTheClaim : List (Fin 2) :=
  List.replicate 3 0 ++ List.replicate 4 1 ++ List.replicate 12 0

theorem settled_run_keepsDeposits_oneAfterTheOther :
    ∃ final, (concurrent UInt64.ofNat twoDeposits).run twoCallers oneAfterTheOther =
        some final ∧
      KeepsDeposits UInt64.ofNat 5 twoDeposits final ∧
      lookup UInt64.ofNat final.table 5 = 70 := by
  have habsent : ∀ idx, (twoCallers.table.entries idx).keyHash ≠
      entityKeyHash UInt64.ofNat 5 :=
    fun _ => (entityKeyHash_ne_sentinel UInt64.ofNat 5).1.symm
  have hsettled : (concurrent UInt64.ofNat twoDeposits).RunMeets AddsSettled
      twoCallers oneAfterTheOther := by decide +kernel
  refine ⟨_, rfl, ?_, by decide +kernel⟩
  exact settled_run_keepsDeposits UInt64.ofNat 5 twoDeposits (by decide) (by decide)
    (by decide) (fun _ => rfl) habsent hsettled rfl

/-- The stores of the claiming call overwrite the adds of the other: both calls
returned a non-zero value, and one deposit is gone. -/
theorem duringTheClaim_loses_deposit :
    ∃ final, (concurrent UInt64.ofNat twoDeposits).run twoCallers duringTheClaim =
        some final ∧
      (∀ p, final.phase p = .returned (twoDeposits p).delta) ∧
      lookup UInt64.ofNat final.table 5 = 40 ∧
      hitCountOf UInt64.ofNat final.table 5 = 1 ∧
      ¬ KeepsDeposits UInt64.ofNat 5 twoDeposits final := by
  refine ⟨_, rfl, by decide +kernel, by decide +kernel, by decide +kernel, ?_⟩
  intro hkeeps
  have hconfidence := (hkeeps (fun p => (twoDeposits p).delta) (by decide +kernel)).1
  revert hconfidence
  decide +kernel

end Pheromone
end LibWake
