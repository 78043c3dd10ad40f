import LibWake.TacBudget

/-!
# Distinct witnesses and bounded weight

Every live edge is audited: its source count is the number of its used slots,
its weight is covered by what its sources spent, and its largest eta was
applied to it.  The two results of this module read the audit in terms of the
events of the run.
-/

namespace LibWake
namespace Tac

theorem delta_pos (w : Witnesses) : 1 ≤ w.delta := by
  unfold Witnesses.delta jointDelta
  simp only
  split_ifs <;> omega

theorem deltaOf_le (eta : UInt16) : deltaOf eta ≤ deltaMax := by
  have hlt := eta.toNat_lt
  unfold deltaOf deltaMax
  rw [Nat.shiftRight_eq_div_pow]
  omega

theorem delta_le (w : Witnesses) : w.delta ≤ deltaMax := by
  have hpos : 1 ≤ deltaMax := by decide
  have hle := deltaOf_le (etaLow w.w0Eta w.w1Eta w.w1Src)
  unfold Witnesses.delta jointDelta
  simp only
  split_ifs <;> omega

theorem quarantineReassess_eq (h : Header) (entry : Entry) :
    ∃ quarantine, quarantineReassess h entry =
      { entry with quarantine := quarantine } := by
  unfold quarantineReassess
  split_ifs
  · exact ⟨entry.quarantine, rfl⟩
  · exact ⟨0, rfl⟩
  · exact ⟨entry.quarantine, rfl⟩
  · exact ⟨1, rfl⟩
  · exact ⟨entry.quarantine, rfl⟩

theorem Witnesses.Normal.ne_none_of_mayCharge {w : Witnesses} (hnormal : w.Normal)
    {source : UInt16} (hmay : w.mayCharge source) : source ≠ srcNone := by
  rcases hmay with rfl | ⟨rfl, hne⟩
  · exact hnormal.w0_ne_none
  · exact hne

/-! ## The audit -/

structure Audited (h : Header) (entry : Entry)
    (sources etas : Finset UInt16) : Prop where
  ledger : Ledger entry.budget sources
  srcCount_eq : entry.srcCount = (usedSlots entry.budget).card
  spending : Spending h entry.budget
  weight_pos : 1 ≤ entry.weight
  weight_le : entry.weight ≤ totalSpent entry.budget
  reinfCount_le : entry.reinfCount ≤ totalSpent entry.budget
  etaMax_mem : entry.etaMaxFp16 ∈ etas

namespace Audited

variable {h : Header} {entry : Entry} {sources etas : Finset UInt16}

theorem srcCount_eq_min (haudited : Audited h entry sources etas) :
    entry.srcCount = min sources.card budgetSlots := by
  rw [haudited.srcCount_eq, haudited.ledger.card_usedSlots]
  rfl

theorem totalSpent_le (haudited : Audited h entry sources etas) :
    totalSpent entry.budget ≤ entry.srcCount * h.budgetPerSource := by
  rw [haudited.srcCount_eq]
  exact haudited.spending.total_le

theorem srcCount_mul_le (haudited : Audited h entry sources etas)
    (hsound : h.Sound) : entry.srcCount * h.budgetPerSource ≤ 5 * 65535 := by
  rw [haudited.srcCount_eq]
  exact Nat.mul_le_mul (card_usedSlots_le _) hsound.budget_le

end Audited

theorem audited_fresh {h : Header} (stale : Entry) (slotKey ehash : UInt64)
    (key : List UInt8) (tLo tHi : UInt32) {w : Witnesses} (hsound : h.Sound)
    (hnormal : w.Normal) :
    Audited h
      { claimedEntry h stale slotKey ehash key tLo tHi w with weight := w.delta }
      (chargeFresh h w.w0Src w.w1Src w.delta).2.2.toFinset {w.etaHi} := by
  have hdelta := delta_pos w
  obtain ⟨hcharges, hsome, hmay⟩ := charges_of_chargeFresh hnormal.w0_ne_none
    ((delta_le w).trans hsound.budget_ge)
  have hreal : ∀ source ∈ (chargeFresh h w.w0Src w.w1Src w.delta).2.2,
      source ≠ srcNone :=
    fun source hmem => hnormal.ne_none_of_mayCharge (hmay source hmem)
  obtain ⟨hledger, hused⟩ := Ledger.zero.charges hreal hcharges
  obtain ⟨hspending, htotal⟩ :=
    (spending_zero h).charges hsound.budget_le hreal hcharges
  have hlength : 1 ≤ (chargeFresh h w.w0Src w.w1Src w.delta).2.2.length :=
    List.length_pos_of_ne_nil hsome
  have hcovered : w.delta ≤
      totalSpent (chargeFresh h w.w0Src w.w1Src w.delta).1 := by
    rw [htotal]
    exact (Nat.le_mul_of_pos_left _ hlength).trans (Nat.le_add_left _ _)
  rw [Finset.empty_union] at hledger
  exact {
    ledger := hledger
    srcCount_eq := by
      rw [show usedSlots (fun _ => Budget.zero) = ∅ from rfl,
        Finset.card_empty, Nat.zero_add] at hused
      exact hused.symm
    spending := hspending
    weight_pos := hdelta
    weight_le := hcovered
    reinfCount_le := hdelta.trans hcovered
    etaMax_mem := Finset.mem_singleton_self _ }

/-- An applied call charges its force at least once, and adds it to the weight
once. -/
theorem audited_reinforced {h : Header} {entry : Entry} {w : Witnesses}
    {budget : Fin 5 → Budget} {bump : ℕ} {accepted : List UInt16}
    {sources etas : Finset UInt16} (hsound : h.Sound) (hnormal : w.Normal)
    (haudited : Audited h entry sources etas)
    (hcharge : chargeExisting h entry.budget w.w0Src w.w1Src w.delta =
      some (budget, bump, accepted)) :
    Audited h (reinforcedEntry h entry w budget bump)
      (sources ∪ accepted.toFinset) (insert w.etaHi etas) := by
  have hdelta := delta_pos w
  obtain ⟨hcharges, hsome, hmay⟩ := charges_of_chargeExisting hcharge
  have hreal : ∀ source ∈ accepted, source ≠ srcNone :=
    fun source hmem => hnormal.ne_none_of_mayCharge (hmay source hmem)
  obtain ⟨hledger, hused⟩ := haudited.ledger.charges hreal hcharges
  obtain ⟨hspending, htotal⟩ :=
    haudited.spending.charges hsound.budget_le hreal hcharges
  have hgrown : totalSpent entry.budget + w.delta ≤ totalSpent budget := by
    rw [htotal]
    exact Nat.add_le_add_left
      (Nat.le_mul_of_pos_left _ (List.length_pos_of_ne_nil hsome)) _
  have hbounded : totalSpent budget ≤ 5 * 65535 :=
    hspending.total_le.trans
      (Nat.mul_le_mul (card_usedSlots_le _) hsound.budget_le)
  have hweight := haudited.weight_le
  have hreinf := haudited.reinfCount_le
  have hpos := haudited.weight_pos
  have hcount := haudited.srcCount_eq
  have hfive := card_usedSlots_le budget
  obtain ⟨quarantine, hreassess⟩ := quarantineReassess_eq h
    { entry with
      budget := budget
      weight := (entry.weight + w.delta) % 2 ^ 32
      reinfCount := (entry.reinfCount + 1) % 2 ^ 32
      lastReinf := w.nowRel
      etaMaxFp16 := if entry.etaMaxFp16 < w.etaHi then w.etaHi else entry.etaMaxFp16
      srcCount :=
        if bump ≠ 0 then
          if entry.srcCount + bump > budgetSlots then budgetSlots
          else entry.srcCount + bump
        else entry.srcCount }
  unfold reinforcedEntry
  rw [hreassess]
  exact {
    ledger := hledger
    srcCount_eq := by
      have hslots : budgetSlots = 5 := rfl
      simp only
      split_ifs <;> omega
    spending := hspending
    weight_pos := by
      simp only
      omega
    weight_le := by
      simp only
      omega
    reinfCount_le := by
      simp only
      omega
    etaMax_mem := by
      simp only
      split_ifs
      · exact Finset.mem_insert_self _ _
      · exact Finset.mem_insert_of_mem haudited.etaMax_mem }

theorem decayedWeight_le {h : Header} (hsound : h.Sound) (entry : Entry) :
    decayedWeight h entry ≤ entry.weight := by
  have hfactor : decayFactor h entry ≤ 65536 := by
    have hnovel := hsound.decayNovel_lt
    have hcorr := hsound.decayCorr_lt
    unfold decayFactor
    split_ifs <;> omega
  unfold decayedWeight
  rw [Nat.shiftRight_eq_div_pow]
  have hdiv : entry.weight * decayFactor h entry / 2 ^ 16 ≤ entry.weight := by
    apply Nat.div_le_of_le_mul
    rw [Nat.mul_comm]
    exact Nat.mul_le_mul_right _ hfactor
  exact (Nat.mod_le _ _).trans hdiv

theorem audited_rule : EntryRule Audited where
  fresh _ stale slotKey ehash key tLo tHi _ hsound hnormal :=
    audited_fresh stale slotKey ehash key tLo tHi hsound hnormal
  reinforced _ _ _ _ _ _ _ _ hsound hnormal haudited _ hcharge :=
    audited_reinforced hsound hnormal haudited hcharge
  decayed _ entry _ _ hsound haudited hfloor :=
    { haudited with
      weight_pos := hsound.noiseFloor_pos.trans_le hfloor
      weight_le := (decayedWeight_le hsound entry).trans haudited.weight_le }

/-! ## One producer -/

/-- Every source of the call is normalized to `producer`. -/
def Call.FiredBy (producer : UInt16) : Call → Prop
  | .reinforce _ _ _ _ sourceId _ => normalizeSource sourceId = producer
  | .reinforceBatch _ acts _ =>
      ∀ act ∈ acts, act.sourceId ≠ srcNone →
        normalizeSource act.sourceId = producer
  | .decay => True
  | .reset => True

theorem applyEdge_charged (keyedHash : KeyedHash) (table : Table)
    (ehash : UInt64) (key : List UInt8) (tLo tHi : UInt32) {w : Witnesses}
    {event : Event}
    (hmem : event ∈ (applyEdge keyedHash table ehash key tLo tHi w).events)
    {idx : ℕ} {source : UInt16} (hevent : event = .charged idx source)
    (hsound : table.header.Sound) (hnormal : w.Normal) : w.mayCharge source := by
  have hfresh := (charges_of_chargeFresh (w := w) hnormal.w0_ne_none
    ((delta_le w).trans hsound.budget_ge)).2.2
  have hstep := applyEdge_edgeStep keyedHash table ehash key tLo tHi w
  generalize applyEdge keyedHash table ehash key tLo tHi w = outcome at hstep hmem
  subst hevent
  cases hstep with
  | refused => simp at hmem
  | reinforced slot _ _ _ _ _ hcharge =>
      simp only [List.mem_append, List.mem_map, Event.charged.injEq,
        List.mem_singleton, reduceCtorEq, or_false] at hmem
      obtain ⟨_, hsource, _, rfl⟩ := hmem
      exact (charges_of_chargeExisting hcharge).2.2 _ hsource
  | undone slot =>
      simp only [List.mem_cons, List.mem_map, Event.charged.injEq, reduceCtorEq,
        false_or] at hmem
      obtain ⟨_, hsource, _, rfl⟩ := hmem
      exact hfresh _ hsource
  | inserted slot =>
      simp only [List.mem_append, List.mem_cons, List.mem_map,
        Event.charged.injEq, reduceCtorEq, false_or, List.not_mem_nil,
        or_false] at hmem
      obtain ⟨_, hsource, _, rfl⟩ := hmem
      exact hfresh _ hsource

theorem chargedSources_append_subset {idx : ℕ} {bound : Finset UInt16}
    {events fresh : List Event} (hbound : chargedSources idx events ⊆ bound)
    (hfresh : ∀ event ∈ fresh, ∀ slot source, event = .charged slot source →
      source ∈ bound) :
    chargedSources idx (events ++ fresh) ⊆ bound := by
  unfold chargedSources at hbound ⊢
  rw [List.foldl_append]
  generalize events.foldl (sourceStep idx) ∅ = charged at hbound ⊢
  induction fresh generalizing charged with
  | nil => exact hbound
  | cons event rest ih =>
      rw [List.foldl_cons]
      refine ih (fun other hmem => hfresh other (List.mem_cons_of_mem _ hmem)) _ ?_
      cases event with
      | claimed slot =>
          simp only [sourceStep]
          split_ifs
          · exact Finset.empty_subset _
          · exact hbound
      | charged slot source =>
          simp only [sourceStep]
          split_ifs
          · exact Finset.insert_subset
              (hfresh _ List.mem_cons_self slot source rfl) hbound
          · exact hbound
      | applied => exact hbound

/-- The calls of one producer charge that producer only. -/
theorem performCall_chargedSources {keyedHash : KeyedHash} {table : Table}
    {events : List Event} {idx : ℕ} {bound : Finset UInt16}
    {producer : UInt16} {call : Call} (hsound : table.header.Sound)
    (hproducer : producer ∈ bound) (hby : call.FiredBy producer)
    (hbound : chargedSources idx events ⊆ bound) :
    chargedSources idx (events ++ (performCall keyedHash table call).2) ⊆ bound := by
  cases call with
  | reinforce key tA tB etaFp16 sourceId nowRel =>
      simp only [performCall, reinforce]
      split_ifs with hinvalid
      · simpa using hbound
      all_goals
        simp only [not_or] at hinvalid
        apply chargedSources_append_subset hbound
        intro event hmem slot source hevent
        have hmay := applyEdge_charged keyedHash table _ key _ _ hmem hevent hsound
          (normal_of_sources hinvalid.2.1 (by decide))
        rcases hmay with rfl | ⟨_, hnone⟩
        · rw [show normalizeSource sourceId = producer from hby]
          exact hproducer
        · exact absurd rfl hnone
  | reinforceBatch key acts nowRel =>
      simp only [performCall, reinforceBatch]
      split_ifs with hinvalid
      · simpa using hbound
      · have hfit : ∀ pair ∈ batchPairs acts,
            (pairWitnesses pair nowRel).Normal ∧
              ∀ source, (pairWitnesses pair nowRel).mayCharge source →
                source = producer := by
          intro pair hmem
          refine ⟨normal_of_mem_batchPairs hmem nowRel, ?_⟩
          obtain ⟨hfirst, hsecond⟩ := mem_of_mem_batchPairs hmem
          rintro source (rfl | ⟨rfl, hne⟩)
          · exact hby _ hfirst (source_ne_none_of_mem_batchPairs hmem)
          · exact hby _ hsecond fun hnone => hne (by rw [pairWitnesses, hnone]; rfl)
        have hgood := @batch_induction keyedHash
          (fun table events => table.header.Sound ∧
            chargedSources idx events ⊆ bound)
          (fun w => w.Normal ∧ ∀ source, w.mayCharge source →
            source = producer)
          (entityHashOf keyedHash table key) key nowRel
          (fun table events tLo tHi w hstate _ hw => by
            refine ⟨by rw [applyEdge_header]; exact hstate.1, ?_⟩
            apply chargedSources_append_subset hstate.2
            intro event hmem slot source hevent
            rw [hw.2 source (applyEdge_charged keyedHash table _ key tLo tHi hmem
              hevent hstate.1 hw.1)]
            exact hproducer)
          _ (fun _ hmem => technique_ne_of_mem_batchPairs hmem) hfit events
          ⟨table, 0, []⟩ ⟨hsound, by simpa using hbound⟩
        exact hgood.2
  | decay => simpa [performCall] using hbound
  | reset => simpa [performCall] using hbound

theorem run_chargedSources {keyedHash : KeyedHash} {start final : History}
    {calls : List Call} {idx : ℕ} {bound : Finset UInt16} {producer : UInt16}
    (hreach : (writer keyedHash).Reachable start)
    (hby : ∀ call ∈ calls, call.FiredBy producer)
    (hrun : (writer keyedHash).run start calls = some final)
    (hproducer : producer ∈ bound)
    (hbound : chargedSources idx start.events ⊆ bound) :
    (writer keyedHash).Reachable final ∧
      chargedSources idx final.events ⊆ bound := by
  refine (writer keyedHash).run_invariant_of_runMeets
    (motive := fun history => (writer keyedHash).Reachable history ∧
      chargedSources idx history.events ⊆ bound) ?_ ⟨hreach, hbound⟩
    ((writer keyedHash).runMeets_of_forall_mem start hby) hrun
  intro history call next hgood hcall hstep
  refine ⟨hgood.1.step hstep, ?_⟩
  simp only [writer, Option.some.injEq] at hstep
  subst hstep
  exact performCall_chargedSources (audited_rule.reachable hgood.1).sound hproducer
    hcall hgood.2

/-! ## Distinct witnesses -/

/-- What the stored budget slots and counters of an edge prove about the
sources charged on it and the eta values applied to it. -/
structure ProvesWitnesses (h : Header) (entry : Entry)
    (sources etas : Finset UInt16) : Prop where
  srcCount_eq : entry.srcCount = min sources.card budgetSlots
  named_charged : ∀ i ∈ namedSlots, (entry.budget i).sourceId ≠ srcNone →
    (entry.budget i).sourceId ∈ sources
  named_distinct : ∀ i ∈ namedSlots, ∀ j ∈ namedSlots,
    (entry.budget i).sourceId = (entry.budget j).sourceId →
    (entry.budget i).sourceId ≠ srcNone → i = j
  named_from_left : ∀ i j, i < j → j ∈ namedSlots →
    (entry.budget i).sourceId = srcNone → (entry.budget j).sourceId = srcNone
  corroborated : edgeCorroborated h entry.srcCount entry.etaMaxFp16 = true →
    h.corroborationSrcMin ≤ sources.card ∧ ∃ eta ∈ etas, etaStrongFp16 ≤ eta

theorem Audited.provesWitnesses {h : Header} {entry : Entry}
    {sources etas : Finset UInt16} (haudited : Audited h entry sources etas) :
    ProvesWitnesses h entry sources etas where
  srcCount_eq := haudited.srcCount_eq_min
  named_charged i hi hne :=
    haudited.ledger.member i (ne_overflow_of_mem_named hi) hne
  named_distinct i hi j hj heq hne :=
    haudited.ledger.distinct i j (ne_overflow_of_mem_named hi)
      (ne_overflow_of_mem_named hj) heq hne
  named_from_left i j hij hj hnone :=
    haudited.ledger.filled i j hij (ne_overflow_of_mem_named hj) hnone
  corroborated hstrong := by
    simp only [edgeCorroborated, Bool.and_eq_true, decide_eq_true_eq] at hstrong
    rw [haudited.srcCount_eq_min] at hstrong
    exact ⟨hstrong.1.trans (min_le_left _ _),
      entry.etaMaxFp16, haudited.etaMax_mem, hstrong.2⟩

/-- What a decay pass with one factor leaves of a live entry. -/
def decayedBy (h : Header) (factor : ℕ) (entry : Entry) : Entry :=
  if (entry.weight * factor) >>> 16 % 2 ^ 32 < h.noiseFloor then
    { entry with keyHash := slotTombstone }
  else { entry with weight := (entry.weight * factor) >>> 16 % 2 ^ 32 }

/-- A decay pass gives the entry the novel rate, or the corroborated rate and
its witnesses are enough for it. -/
structure DecaysByWitnesses (h : Header) (entry after : Entry)
    (sources etas : Finset UInt16) : Prop where
  decayed : after = decayedBy h (decayFactor h entry) entry
  factor : decayFactor h entry = h.decayNovelFp16 ∨
    decayFactor h entry = h.decayCorrFp16 ∧
      h.corroborationSrcMin ≤ sources.card ∧ ∃ eta ∈ etas, etaStrongFp16 ≤ eta
  uncorroborated : (sources.card < h.corroborationSrcMin ∨ ∀ eta ∈ etas, eta < etaStrongFp16) →
    after = decayedBy h h.decayNovelFp16 entry

theorem decayedEntry_of_live {h : Header} {entry : Entry} (hlive : entry.Live) :
    decayedEntry h entry = decayedBy h (decayFactor h entry) entry := by
  rw [decayedEntry, if_neg (not_not.mpr hlive)]
  rfl

theorem ProvesWitnesses.decaysByWitnesses {table : Table} {idx : ℕ} {sources etas : Finset UInt16}
    (hproves : ProvesWitnesses table.header (table.entries idx) sources etas)
    (hlt : idx < table.header.capacity) (hlive : (table.entries idx).Live) :
    DecaysByWitnesses table.header (table.entries idx) ((decay table).1.entries idx)
      sources etas := by
  have hdecayed : (decay table).1.entries idx =
      decayedBy table.header (decayFactor table.header (table.entries idx))
        (table.entries idx) := by
    rw [decay_entries, if_pos hlt, decayedEntry_of_live hlive]
  have hfactor : decayFactor table.header (table.entries idx) = table.header.decayNovelFp16 ∨
      decayFactor table.header (table.entries idx) = table.header.decayCorrFp16 ∧
        table.header.corroborationSrcMin ≤ sources.card ∧ ∃ eta ∈ etas, etaStrongFp16 ≤ eta := by
    unfold decayFactor
    split_ifs with hstrong
    · exact .inr ⟨rfl, hproves.corroborated hstrong⟩
    · exact .inl rfl
  refine ⟨hdecayed, hfactor, fun hlacks => ?_⟩
  rcases hfactor with hnovel | ⟨-, hcard, eta, hmem, heta⟩
  · rw [hdecayed, hnovel]
  · rcases hlacks with hfew | hweak
    · exact absurd hcard (Nat.not_le.mpr hfew)
    · exact absurd heta (UInt16.not_le.mpr (hweak eta hmem))

/-- The source count of every reachable live edge is the number of distinct
sources charged on it since its claim, up to five; a decay pass gives it the
corroborated rate only if enough sources were charged and a strong eta was
applied; and however often one producer calls, an edge which only it has
charged keeps a count of at most one. -/
theorem srcCount_proves_witnesses (keyedHash : KeyedHash) :
    (∀ history, (writer keyedHash).Reachable history →
      ∀ idx < history.table.header.capacity, (history.table.entries idx).Live →
        ProvesWitnesses history.table.header (history.table.entries idx)
            (chargedSources idx history.events) (appliedEtas idx history.events) ∧
          DecaysByWitnesses history.table.header (history.table.entries idx)
            ((decay history.table).1.entries idx)
            (chargedSources idx history.events) (appliedEtas idx history.events)) ∧
    ∀ producer start calls final, (writer keyedHash).Reachable start →
      (∀ call ∈ calls, Call.FiredBy producer call) →
      (writer keyedHash).run start calls = some final →
      ∀ idx < final.table.header.capacity, (final.table.entries idx).Live →
        chargedSources idx start.events ⊆ {producer} →
          (final.table.entries idx).srcCount ≤ 1 := by
  constructor
  · intro history hreach idx hlt hlive
    have hproves := ((audited_rule.reachable hreach).live idx hlt hlive).provesWitnesses
    exact ⟨hproves, hproves.decaysByWitnesses hlt hlive⟩
  · intro producer start calls final hreach hby hrun idx hlt hlive hstart
    obtain ⟨hfinal, hsources⟩ := run_chargedSources hreach hby hrun
      (Finset.mem_singleton_self producer) hstart
    rw [((audited_rule.reachable hfinal).live idx hlt hlive).srcCount_eq_min]
    have hcard := Finset.card_le_card hsources
    rw [Finset.card_singleton] at hcard
    omega

theorem srcCount_proves_witnesses_twoWitnesses :
    ProvesWitnesses twoWitnesses.table.header (twoWitnesses.table.entries 3)
        (chargedSources 3 twoWitnesses.events) (appliedEtas 3 twoWitnesses.events) ∧
      DecaysByWitnesses twoWitnesses.table.header (twoWitnesses.table.entries 3)
        ((decay twoWitnesses.table).1.entries 3)
        (chargedSources 3 twoWitnesses.events) (appliedEtas 3 twoWitnesses.events) :=
  (srcCount_proves_witnesses fun _ _ => 7).1 twoWitnesses (reachable_replay _ _) 3
    (by decide) (by decide)

/-! ## Bounded weight -/

/-- The weight and the reinforcement count are covered by the spent values,
and these by the budgets of the charged sources. -/
structure CoveredBySpending (h : Header) (entry : Entry)
    (sources : Finset UInt16) : Prop where
  spent_le : ∀ i, (entry.budget i).spent ≤ h.budgetPerSource
  weight_pos : 1 ≤ entry.weight
  weight_le : entry.weight ≤ totalSpent entry.budget
  totalSpent_le : totalSpent entry.budget ≤ entry.srcCount * h.budgetPerSource
  budgets_le : entry.srcCount * h.budgetPerSource ≤ 5 * 65535
  reinfCount_le : entry.reinfCount ≤ totalSpent entry.budget
  weight_le_sources : entry.weight ≤ min sources.card 5 * h.budgetPerSource

/-- The additions of the next call on the edge are exact. -/
structure AddsExactly (h : Header) (entry : Entry) : Prop where
  weight : ∀ w : Witnesses, entry.weight + w.delta < 2 ^ 32
  reinfCount : entry.reinfCount + 1 < 2 ^ 32
  spent : ∀ (w : Witnesses) budget bump accepted, w.Normal →
    chargeExisting h entry.budget w.w0Src w.w1Src w.delta =
      some (budget, bump, accepted) →
    (∀ i, (budget i).spent ≤ uint16Max) ∧
      totalSpent budget = totalSpent entry.budget + accepted.length * w.delta

theorem Audited.coveredBySpending {h : Header} {entry : Entry}
    {sources etas : Finset UInt16} (haudited : Audited h entry sources etas)
    (hsound : h.Sound) : CoveredBySpending h entry sources where
  spent_le := haudited.spending.within
  weight_pos := haudited.weight_pos
  weight_le := haudited.weight_le
  totalSpent_le := haudited.totalSpent_le
  budgets_le := haudited.srcCount_mul_le hsound
  reinfCount_le := haudited.reinfCount_le
  weight_le_sources := by
    calc
      entry.weight ≤ totalSpent entry.budget := haudited.weight_le
      _ ≤ entry.srcCount * h.budgetPerSource := haudited.totalSpent_le
      _ = min sources.card 5 * h.budgetPerSource := by
        rw [haudited.srcCount_eq_min]
        rfl

theorem Audited.addsExactly {h : Header} {entry : Entry}
    {sources etas : Finset UInt16} (haudited : Audited h entry sources etas)
    (hsound : h.Sound) : AddsExactly h entry := by
  have hweight := haudited.weight_le
  have hreinf := haudited.reinfCount_le
  have htotal := haudited.totalSpent_le
  have hbudgets := haudited.srcCount_mul_le hsound
  refine ⟨?_, ?_, ?_⟩
  · intro w
    have hdelta := delta_le w
    have hmax : deltaMax = 4095 := rfl
    omega
  · omega
  · intro w budget bump accepted hnormal hcharge
    obtain ⟨hcharges, _, hmay⟩ := charges_of_chargeExisting hcharge
    obtain ⟨hspending, hadded⟩ := haudited.spending.charges hsound.budget_le
      (fun source hmem => hnormal.ne_none_of_mayCharge (hmay source hmem)) hcharges
    exact ⟨fun i => (hspending.within i).trans hsound.budget_le, hadded⟩

/-- Between the calls of a run, and between the pairs of a batch, the weight
of every live edge is covered by what its sources spent, no source is over
budget, and the next additions do not wrap. -/
theorem weight_covered_by_spending (keyedHash : KeyedHash) (history : History)
    (hreach : (writer keyedHash).Reachable history) (key : List UInt8)
    (acts : List Activation) (nowRel : UInt32)
    (front : List (Activation × Activation)) (hfront : front <+: batchPairs acts) :
    let state := front.foldl
      (batchStep keyedHash (entityHashOf keyedHash history.table key) key nowRel)
      ⟨history.table, 0, []⟩
    ∀ idx < state.table.header.capacity, (state.table.entries idx).Live →
      CoveredBySpending state.table.header (state.table.entries idx)
          (chargedSources idx (history.events ++ state.events)) ∧
        AddsExactly state.table.header (state.table.entries idx) := by
  intro state idx hlt hlive
  have haudit := audited_rule.batch hreach
    (entityHashOf keyedHash history.table key) key nowRel hfront
  exact ⟨(haudit.live idx hlt hlive).coveredBySpending haudit.sound,
    (haudit.live idx hlt hlive).addsExactly haudit.sound⟩

theorem weight_covered_by_spending_twoWitnesses :
    CoveredBySpending twoWitnesses.table.header (twoWitnesses.table.entries 3)
        (chargedSources 3 (twoWitnesses.events ++ [])) ∧
      AddsExactly twoWitnesses.table.header (twoWitnesses.table.entries 3) :=
  weight_covered_by_spending (fun _ _ => 7) twoWitnesses (reachable_replay _ _)
    [1] [] 0 [] List.nil_prefix 3 (by decide) (by decide)

end Tac
end LibWake
