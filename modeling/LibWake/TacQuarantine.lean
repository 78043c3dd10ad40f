import LibWake.TacEdges

/-!
# Quarantine yields to corroboration

A quarantined edge has one source.  A second source passes the gate, is charged
on a free budget slot whatever the first one has spent, and brings the source
count to two, which clears the quarantine.  From then on the count never falls,
so the edge stays clear until its slot is claimed again.
-/

namespace LibWake
namespace Tac

/-! ## Quarantined edges have one source -/

/-- A quarantined entry has less than two sources, and quarantine is enabled. -/
def Isolated (h : Header) (entry : Entry) : Prop :=
  entry.quarantine ≠ 0 →
    entry.srcCount < 2 ∧ h.quarantineMinW ≠ 0 ∧ h.quarantineMinW ≠ uint32Max

theorem quarantineReassess_isolated {h : Header} {entry : Entry}
    (henabled : entry.quarantine ≠ 0 →
      h.quarantineMinW ≠ 0 ∧ h.quarantineMinW ≠ uint32Max) :
    Isolated h (quarantineReassess h entry) := by
  unfold quarantineReassess Isolated
  split_ifs with hoff hcorroborated
  · intro hset
    exact absurd hoff (not_or.mpr (henabled hset))
  · exact fun hset => absurd rfl hset
  all_goals exact fun _ => ⟨Nat.lt_of_not_ge hcorroborated, not_or.mp hoff⟩

theorem isolated_rule : EntryRule fun h entry sources etas =>
    Audited h entry sources etas ∧ Isolated h entry where
  fresh h stale slotKey ehash key tLo tHi w hsound hnormal :=
    ⟨audited_rule.fresh h stale slotKey ehash key tLo tHi w hsound hnormal,
      fun hset => absurd rfl hset⟩
  reinforced h entry w budget bump accepted sources etas hsound hnormal hgood hpass
      hcharge :=
    ⟨audited_rule.reinforced h entry w budget bump accepted sources etas hsound hnormal
        hgood.1 hpass hcharge,
      quarantineReassess_isolated fun hset => (hgood.2 hset).2⟩
  decayed h entry sources etas hsound hgood hfloor :=
    ⟨audited_rule.decayed h entry sources etas hsound hgood.1 hfloor, hgood.2⟩

theorem Audited.srcCount_pos {h : Header} {entry : Entry} {sources etas : Finset UInt16}
    (haudited : Audited h entry sources etas) : 1 ≤ entry.srcCount := by
  have hpos := haudited.weight_pos
  have hspent := haudited.weight_le.trans haudited.totalSpent_le
  by_contra hzero
  rw [Nat.lt_one_iff.mp (Nat.lt_of_not_ge hzero), Nat.zero_mul] at hspent
  omega

/-! ## A new source is charged -/

theorem namedKnowsSource_of_unknown {budget : Fin 5 → Budget} {source : UInt16}
    {slots : List (Fin 5)} (hunknown : ∀ i ∈ slots, (budget i).sourceId ≠ source)
    (hfree : ∃ i ∈ slots, (budget i).sourceId = srcNone) :
    namedKnowsSource budget source slots = some false := by
  induction slots with
  | nil =>
      obtain ⟨i, hmem, _⟩ := hfree
      exact absurd hmem List.not_mem_nil
  | cons i rest ih =>
      rw [namedKnowsSource, if_neg (hunknown i List.mem_cons_self)]
      by_cases hnone : (budget i).sourceId = srcNone
      · rw [if_pos hnone]
      · rw [if_neg hnone]
        apply ih fun j hmem => hunknown j (List.mem_cons_of_mem _ hmem)
        obtain ⟨j, hmem, hj⟩ := hfree
        rcases List.mem_cons.mp hmem with rfl | hrest
        · exact absurd hj hnone
        · exact ⟨j, hrest, hj⟩

namespace Ledger

variable {budget : Fin 5 → Budget} {sources : Finset UInt16} {source : UInt16}

theorem unknown (hledger : Ledger budget sources) (hnew : source ∉ sources)
    (hreal : source ≠ srcNone) {i : Fin 5} (hmem : i ∈ namedSlots) :
    (budget i).sourceId ≠ source := by
  intro heq
  subst heq
  exact hnew (hledger.member i (ne_overflow_of_mem_named hmem) hreal)

theorem free_named (hledger : Ledger budget sources) (hcard : sources.card ≤ 3) :
    ∃ i ∈ namedSlots, (budget i).sourceId = srcNone := by
  by_contra hfull
  push Not at hfull
  have hsubset : namedSlots.toFinset ⊆ usedSlots budget := fun i hi =>
    mem_usedSlots.mpr (hfull i (List.mem_toFinset.mp hi))
  have hfour : namedSlots.toFinset.card = 4 := by decide
  have hused := Finset.card_le_card hsubset
  rw [hledger.card_usedSlots, hfour] at hused
  omega

theorem not_knows (hledger : Ledger budget sources) (hcard : sources.card ≤ 3)
    (hnew : source ∉ sources) (hreal : source ≠ srcNone) :
    budgetKnowsSource budget source = false := by
  rw [budgetKnowsSource, namedKnowsSource_of_unknown
    (fun i hmem => hledger.unknown hnew hreal hmem) (hledger.free_named hcard)]

/-- A new source takes a free named slot, so that only its own force counts
against its budget. -/
theorem charge_new (hledger : Ledger budget sources) (hcard : sources.card ≤ 3)
    (hnew : source ∉ sources) (hreal : source ≠ srcNone) {h : Header} {delta : ℕ}
    (hroom : delta ≤ h.budgetPerSource) :
    ∃ charged, budgetCharge h budget source delta = some (charged, true) := by
  have hknown : (namedSlots.find? fun i => decide ((budget i).sourceId = source)) = none :=
    List.find?_eq_none.mpr fun i hmem heq =>
      hledger.unknown hnew hreal hmem (of_decide_eq_true heq)
  obtain ⟨i, hmem, hnone⟩ := hledger.free_named hcard
  have hfree : (namedSlots.find? fun i => decide ((budget i).sourceId = srcNone)).isSome :=
    List.find?_isSome.mpr ⟨i, hmem, decide_eq_true hnone⟩
  obtain ⟨slot, hslot⟩ := Option.isSome_iff_exists.mp hfree
  rw [budgetCharge, hknown, hslot]
  simp only [if_neg (Nat.not_lt.mpr hroom)]
  exact ⟨_, rfl⟩

end Ledger

/-- One of the sources of the call has not been charged. -/
def Witnesses.BringsNew (w : Witnesses) (sources : Finset UInt16) : Prop :=
  w.w0Src ∉ sources ∨ w.w1Src ≠ srcNone ∧ w.w1Src ∉ sources

/-- The charges succeed and count a new source, also when the budget of the first
source is spent. -/
theorem chargeExisting_new {h : Header} {budget : Fin 5 → Budget}
    {sources : Finset UInt16} {w : Witnesses} {delta : ℕ}
    (hledger : Ledger budget sources) (hcard : sources.card ≤ 3) (hnormal : w.Normal)
    (hroom : delta ≤ h.budgetPerSource) (hnew : w.BringsNew sources) :
    ∃ charged bump accepted, chargeExisting h budget w.w0Src w.w1Src delta =
      some (charged, bump, accepted) ∧ 1 ≤ bump := by
  unfold chargeExisting
  by_cases hfirst : w.w0Src ∉ sources
  · obtain ⟨charged, hcharge⟩ :=
      hledger.charge_new hcard hfirst hnormal.w0_ne_none hroom
    simp only [hcharge]
    split_ifs
    · exact ⟨_, _, _, rfl, Nat.le_add_right 1 _⟩
    · exact ⟨_, _, _, rfl, le_rfl⟩
  · obtain ⟨hpresent, hsecond⟩ := hnew.resolve_left hfirst
    rw [not_not] at hfirst
    have hne : w.w1Src ≠ w.w0Src := by
      intro heq
      exact hsecond (heq ▸ hfirst)
    have htwo : (decide (w.w1Src ≠ srcNone) && decide (w.w1Src ≠ w.w0Src)) = true := by
      rw [decide_eq_true hpresent, decide_eq_true hne]
      rfl
    simp only [htwo, if_true]
    cases hcharge : budgetCharge h budget w.w0Src delta with
    | none =>
        obtain ⟨charged, hcharged⟩ := hledger.charge_new hcard hsecond hpresent hroom
        rw [hcharged]
        exact ⟨_, _, _, rfl, le_rfl⟩
    | some first =>
        have hmiddle := (hledger.charge hnormal.w0_ne_none
          (charge_of_budgetCharge hcharge)).1
        rw [Finset.insert_eq_of_mem hfirst] at hmiddle
        obtain ⟨charged, hcharged⟩ := hmiddle.charge_new hcard hsecond hpresent hroom
        simp only [chargeIgnoringRefusal, hcharged]
        exact ⟨_, _, _, rfl, Nat.le_add_left 1 _⟩

theorem quarantineReassess_cleared {h : Header} {entry : Entry}
    (henabled : h.quarantineMinW ≠ 0 ∧ h.quarantineMinW ≠ uint32Max)
    (htwo : 2 ≤ entry.srcCount) : (quarantineReassess h entry).quarantine = 0 := by
  rw [quarantineReassess, if_neg (not_or.mpr henabled), if_pos htwo]

theorem quarantineReassess_clear_of_clear {h : Header} {entry : Entry}
    (hclear : entry.quarantine = 0) (htwo : 2 ≤ entry.srcCount) :
    (quarantineReassess h entry).quarantine = 0 := by
  rw [quarantineReassess]
  split_ifs
  · exact hclear
  · rfl

theorem reinforcedEntry_srcCount (h : Header) (entry : Entry) (w : Witnesses)
    (budget : Fin 5 → Budget) (bump : ℕ) :
    (reinforcedEntry h entry w budget bump).srcCount =
      if bump ≠ 0 then
        if entry.srcCount + bump > budgetSlots then budgetSlots
        else entry.srcCount + bump
      else entry.srcCount :=
  quarantineReassess_srcCount h _

theorem two_le_reinforcedEntry_srcCount (h : Header) {entry : Entry} (w : Witnesses)
    (budget : Fin 5 → Budget) {bump : ℕ}
    (htwo : 2 ≤ entry.srcCount ∨ 1 ≤ entry.srcCount ∧ 1 ≤ bump) :
    2 ≤ (reinforcedEntry h entry w budget bump).srcCount := by
  have hslots : budgetSlots = 5 := rfl
  rw [reinforcedEntry_srcCount]
  split_ifs <;> omega

/-! ## The corroborating call -/

/-- The pair of a call on `key` is the pair of the edge in slot `idx`. -/
structure Targets (keyedHash : KeyedHash) (table : Table) (idx : ℕ) (key : List UInt8)
    (tA tB : UInt32) : Prop where
  entityHash : (table.entries idx).entityHash = entityHashOf keyedHash table key
  tLo : (table.entries idx).tLo = if tA < tB then tA else tB
  tHi : (table.entries idx).tHi = if tA < tB then tB else tA

/-- The edge in slot `idx` has two sources and is not quarantined. -/
def Corroborated (table : Table) (idx : ℕ) : Prop :=
  2 ≤ (table.entries idx).srcCount ∧ (table.entries idx).quarantine = 0

theorem applyEdge_corroborates {keyedHash : KeyedHash} {history : History}
    (hreach : (edgeWriter keyedHash).Reachable history) {idx : ℕ}
    (hlive : (history.table.entries idx).Live)
    (hquarantined : (history.table.entries idx).quarantine ≠ 0) (key : List UInt8)
    {w : Witnesses} (hnormal : w.Normal)
    (hnew : w.BringsNew (chargedSources idx history.events)) :
    let outcome := applyEdge keyedHash history.table
      (history.table.entries idx).entityHash key (history.table.entries idx).tLo
      (history.table.entries idx).tHi w
    outcome.result = .applied ∧ Corroborated outcome.table idx := by
  intro outcome
  have hlinked := edge_reachable_linked hreach
  obtain ⟨haudited, hisolated⟩ :=
    (isolated_rule.edge_reachable hreach).live idx (hlinked.lt_of_live hlive) hlive
  obtain ⟨hsole, henabled⟩ := hisolated hquarantined
  have hcount := haudited.srcCount_eq_min
  have hcard : (chargedSources idx history.events).card ≤ 3 := by
    have hslots : budgetSlots = 5 := rfl
    omega
  have hkey := (hlinked.keyed idx hlive).key_eq
  have hfind : findSlot history.table (slotHashOf keyedHash history.table
      (history.table.entries idx).entityHash (history.table.entries idx).tLo
      (history.table.entries idx).tHi) = some idx := by
    rw [← hkey]
    exact (hlinked.findSlot_eq_some_iff hlive.1 hlive.2).mpr rfl
  -- the gate lets the call through
  have hpass : quarantineRefuses (history.table.entries idx) w = false := by
    rcases hnew with hfirst | ⟨hpresent, hsecond⟩
    · simp [quarantineRefuses, haudited.ledger.not_knows hcard hfirst hnormal.w0_ne_none]
    · simp [quarantineRefuses, haudited.ledger.not_knows hcard hsecond hpresent, hpresent]
  obtain ⟨charged, bump, accepted, hcharge, hbump⟩ := chargeExisting_new haudited.ledger
    hcard hnormal ((delta_le w).trans hlinked.sound.budget_ge) hnew
  have houtcome : outcome = ⟨history.table.setEntry idx
      (reinforcedEntry history.table.header (history.table.entries idx) w charged bump),
      .applied, accepted.map (Event.charged idx) ++ [.applied idx w.etaHi]⟩ := by
    simp only [outcome, applyEdge, hfind, applyExisting, hpass, hcharge]
    rfl
  have htwo := two_le_reinforcedEntry_srcCount history.table.header w charged
    (.inr ⟨haudited.srcCount_pos, hbump⟩)
  rw [houtcome]
  refine ⟨rfl, ?_⟩
  rw [Corroborated, setEntry_entries, Function.update_self]
  refine ⟨htwo, quarantineReassess_cleared henabled ?_⟩
  rwa [reinforcedEntry, quarantineReassess_srcCount] at htwo

theorem Targets.applyEdge_eq {keyedHash : KeyedHash} {table : Table} {idx : ℕ}
    {key : List UInt8} {tA tB : UInt32} (htargets : Targets keyedHash table idx key tA tB)
    (w : Witnesses) :
    applyEdge keyedHash table (entityHashOf keyedHash table key) key
        (if tA < tB then tA else tB) (if tA < tB then tB else tA) w =
      applyEdge keyedHash table (table.entries idx).entityHash key
        (table.entries idx).tLo (table.entries idx).tHi w := by
  rw [htargets.entityHash, htargets.tLo, htargets.tHi]

/-! ## Never quarantined again -/

/-- No later update quarantines slot `idx` before a new edge claims it. -/
def StaysClear (keyedHash : KeyedHash) (idx : ℕ) (start : History) : Prop :=
  ∀ updates final later, (edgeWriter keyedHash).run start updates = some final →
    final.events = start.events ++ later → .claimed idx ∉ later →
    (final.table.entries idx).quarantine = 0

/-- What holds of a corroborated slot ever after: it was claimed again, or it is
clear and keeps its two sources as long as it is live. -/
def ClearSince (idx : ℕ) (before : List Event) (table : Table) (events : List Event) :
    Prop :=
  ∃ later, events = before ++ later ∧ (.claimed idx ∈ later ∨
    (table.entries idx).quarantine = 0 ∧
      (2 ≤ (table.entries idx).srcCount ∨ ¬ (table.entries idx).Live))

theorem ClearSince.claimed {idx : ℕ} {before events fresh : List Event}
    {table after : Table} (hclear : ClearSince idx before table events)
    (hmem : .claimed idx ∈ fresh) : ClearSince idx before after (events ++ fresh) := by
  obtain ⟨later, rfl, _⟩ := hclear
  exact ⟨later ++ fresh, List.append_assoc _ _ _, .inl (List.mem_append_right _ hmem)⟩

theorem ClearSince.keep {idx : ℕ} {before events : List Event} {table after : Table}
    (hclear : ClearSince idx before table events) (fresh : List Event)
    (hkeep : (table.entries idx).quarantine = 0 →
      2 ≤ (table.entries idx).srcCount ∨ ¬ (table.entries idx).Live →
      (after.entries idx).quarantine = 0 ∧
        (2 ≤ (after.entries idx).srcCount ∨ ¬ (after.entries idx).Live)) :
    ClearSince idx before after (events ++ fresh) := by
  obtain ⟨later, rfl, hsince⟩ := hclear
  refine ⟨later ++ fresh, List.append_assoc _ _ _, ?_⟩
  rcases hsince with hmem | ⟨hquarantine, hcount⟩
  · exact .inl (List.mem_append_left _ hmem)
  · exact .inr (hkeep hquarantine hcount)

/-- The victim of the cap loses its key, every other slot stays. -/
theorem retiredEntries_clear {table : Table} {victim : Option ℕ} {idx : ℕ}
    (hquarantine : (table.entries idx).quarantine = 0)
    (hcount : 2 ≤ (table.entries idx).srcCount ∨ ¬ (table.entries idx).Live) :
    (retiredEntries table victim idx).quarantine = 0 ∧
      (2 ≤ (retiredEntries table victim idx).srcCount ∨
        ¬ (retiredEntries table victim idx).Live) := by
  cases victim with
  | none => exact ⟨hquarantine, hcount⟩
  | some victim =>
      rw [retiredEntries]
      by_cases heq : idx = victim
      · subst heq
        rw [Function.update_self]
        exact ⟨hquarantine, .inr (tombstone_dead rfl)⟩
      · rw [Function.update_of_ne heq]
        exact ⟨hquarantine, hcount⟩

theorem findSlot_keyHash {table : Table} {slotKey : UInt64} {idx : ℕ}
    (hfind : findSlot table slotKey = some idx) : (table.entries idx).keyHash = slotKey := by
  rw [findSlot] at hfind
  generalize probeWindow table.header slotKey = window at hfind
  induction window with
  | nil => cases hfind
  | cons other rest ih =>
      rw [findSlotIn] at hfind
      split_ifs at hfind with hsame
      · exact Option.some.inj hfind ▸ hsame
      · exact ih hfind

theorem applyEdge_clearSince {keyedHash : KeyedHash} {idx : ℕ} {before events : List Event}
    {table : Table} (hclear : ClearSince idx before table events) (ehash : UInt64)
    (key : List UInt8) (tLo tHi : UInt32) (w : Witnesses) :
    ClearSince idx before (applyEdge keyedHash table ehash key tLo tHi w).table
      (events ++ (applyEdge keyedHash table ehash key tLo tHi w).events) := by
  have hstep := applyEdge_edgeStep keyedHash table ehash key tLo tHi w
  generalize applyEdge keyedHash table ehash key tLo tHi w = outcome at hstep
  cases hstep with
  | refused => exact hclear.keep [] fun hquarantine hcount => ⟨hquarantine, hcount⟩
  | reinforced slot budget bump accepted hfind =>
      refine hclear.keep _ fun hquarantine hcount => ?_
      rw [setEntry_entries]
      by_cases heq : idx = slot
      · subst heq
        have hlive : (table.entries idx).Live := by
          rw [Entry.Live, findSlot_keyHash hfind]
          exact slotHashOf_ne_sentinel _ _ _ _ _
        have htwo := two_le_reinforcedEntry_srcCount table.header w budget
          (.inl (hcount.resolve_right (not_not.mpr hlive)) : _ ∨ _ ∧ 1 ≤ bump)
        rw [Function.update_self]
        refine ⟨quarantineReassess_clear_of_clear hquarantine ?_, .inl htwo⟩
        rwa [reinforcedEntry, quarantineReassess_srcCount] at htwo
      · rw [Function.update_of_ne heq]
        exact ⟨hquarantine, hcount⟩
  | undone slot victim fresh tracked _ hcap hclaim _ hadd =>
      by_cases heq : idx = slot
      · subst heq
        exact hclear.claimed List.mem_cons_self
      · refine hclear.keep _ fun hquarantine hcount => ?_
        rw [(tracked_setEntry hclaim hcap hadd _).2, Function.update_of_ne heq]
        exact retiredEntries_clear hquarantine hcount
  | inserted slot victim fresh tracked _ hcap hclaim _ hadd =>
      by_cases heq : idx = slot
      · subst heq
        exact hclear.claimed (List.mem_append_left _ List.mem_cons_self)
      · refine hclear.keep _ fun hquarantine hcount => ?_
        rw [(tracked_setEntry hclaim hcap hadd _).2, Function.update_of_ne heq]
        exact retiredEntries_clear hquarantine hcount

theorem decay_clearSince {idx : ℕ} {before events : List Event} {table : Table}
    (hclear : ClearSince idx before table events) :
    ClearSince idx before (decay table).1 events := by
  have hkept := @ClearSince.keep idx before events table (decay table).1 hclear []
  rw [List.append_nil] at hkept
  apply hkept
  intro hquarantine hcount
  rw [decay_entries]
  split_ifs
  · unfold decayedEntry
    split_ifs with hlive
    · exact ⟨hquarantine, .inr (tombstone_dead rfl)⟩
    · exact ⟨hquarantine, hcount⟩
    · exact ⟨hquarantine, hcount⟩
  · exact ⟨hquarantine, hcount⟩

theorem reset_clearSince {idx : ℕ} {before events : List Event} {table : Table}
    (hclear : ClearSince idx before table events) :
    ClearSince idx before (reset table) events := by
  have hkept := @ClearSince.keep idx before events table (reset table) hclear []
  rw [List.append_nil] at hkept
  apply hkept
  intro hquarantine hcount
  simp only [reset]
  split_ifs
  · exact ⟨rfl, .inr fun hlive => hlive.1 rfl⟩
  · exact ⟨hquarantine, hcount⟩

theorem Corroborated.staysClear {keyedHash : KeyedHash} {idx : ℕ} {start : History}
    (hcorroborated : Corroborated start.table idx) : StaysClear keyedHash idx start := by
  intro updates final later hrun hevents hunclaimed
  have hclear : ClearSince idx start.events final.table final.events := by
    refine (edgeWriter keyedHash).run_invariant
      (motive := fun state => ClearSince idx start.events state.table state.events) ?_
      ⟨[], (List.append_nil _).symm, .inr ⟨hcorroborated.2, .inl hcorroborated.1⟩⟩ hrun
    intro state call next hstate hstep
    exact edge_step_induction (motive := ClearSince idx start.events)
      (fun _ _ ehash key tLo tHi w hgood _ _ _ =>
        applyEdge_clearSince hgood ehash key tLo tHi w)
      (fun _ _ hgood => decay_clearSince hgood)
      (fun _ _ hgood => reset_clearSince hgood) hstate hstep
  obtain ⟨since, hsince, hclaimed | hquarantine⟩ := hclear
  · rw [hevents, List.append_cancel_left_eq] at hsince
    exact absurd (hsince ▸ hclaimed) hunclaimed
  · exact hquarantine.1

/-! ## Quarantine never buries corroboration -/

/-- In every state between two updates a quarantined live edge has one source; and
a reinforcement of its pair with a source which has not been charged on it, by
`reinforce` or as a pair of a batch, is applied, clears the quarantine, and the
edge is not quarantined again before its slot is claimed for a new edge. -/
theorem quarantine_yields_to_corroboration (keyedHash : KeyedHash) (history : History)
    (hreach : (edgeWriter keyedHash).Reachable history) (idx : ℕ)
    (hlive : (history.table.entries idx).Live)
    (hquarantined : (history.table.entries idx).quarantine ≠ 0) :
    (history.table.entries idx).srcCount = 1 ∧
    (∀ key tA tB etaFp16 sourceId nowRel, key ≠ [] → sourceId ≠ srcNone →
      Targets keyedHash history.table idx key tA tB →
      normalizeSource sourceId ∉ chargedSources idx history.events →
      let outcome := reinforce keyedHash history.table key tA tB etaFp16 sourceId nowRel
      outcome.result = .applied ∧ (outcome.table.entries idx).quarantine = 0 ∧
        StaysClear keyedHash idx ⟨outcome.table, history.events ++ outcome.events⟩) ∧
    ∀ key acts nowRel applied batchEvents, ∀ pair ∈ batchPairs acts,
      Targets keyedHash history.table idx key pair.1.technique pair.2.technique →
      (normalizeSource pair.1.sourceId ∉ chargedSources idx history.events ∨
        pair.2.sourceId ≠ srcNone ∧
          normalizeSource pair.2.sourceId ∉ chargedSources idx history.events) →
      let after := batchStep keyedHash (entityHashOf keyedHash history.table key) key nowRel
        ⟨history.table, applied, batchEvents⟩ pair
      after.applied = (applied + 1) % 2 ^ 32 ∧ (after.table.entries idx).quarantine = 0 ∧
        ∀ before, StaysClear keyedHash idx ⟨after.table, before ++ after.events⟩ := by
  have hlinked := edge_reachable_linked hreach
  refine ⟨?_, ?_, ?_⟩
  · obtain ⟨haudited, hisolated⟩ :=
      (isolated_rule.edge_reachable hreach).live idx (hlinked.lt_of_live hlive) hlive
    have hsole := (hisolated hquarantined).1
    have hpos := haudited.srcCount_pos
    omega
  · intro key tA tB etaFp16 sourceId nowRel hkey hsource htargets hnew outcome
    have hdistinct : tA ≠ tB := by
      rintro rfl
      have hordered := (hlinked.keyed idx hlive).ordered
      rw [htargets.tLo, htargets.tHi] at hordered
      exact absurd hordered (by simp)
    have houtcome : outcome = applyEdge keyedHash history.table
        (history.table.entries idx).entityHash key (history.table.entries idx).tLo
        (history.table.entries idx).tHi
        ⟨etaFp16, normalizeSource sourceId, 0, srcNone, nowRel⟩ := by
      simp only [outcome, reinforce]
      rw [if_neg (by simp [hkey, hsource, hdistinct]), htargets.applyEdge_eq]
    have hnormal : Witnesses.Normal
        ⟨etaFp16, normalizeSource sourceId, 0, srcNone, nowRel⟩ :=
      normal_of_sources hsource (by decide)
    obtain ⟨happlied, hcorroborated⟩ :=
      applyEdge_corroborates hreach hlive hquarantined key hnormal (.inl hnew)
    rw [houtcome]
    exact ⟨happlied, hcorroborated.2, Corroborated.staysClear hcorroborated⟩
  · intro key acts nowRel applied batchEvents pair hmem htargets hnew after
    have hnew' : (pairWitnesses pair nowRel).BringsNew
        (chargedSources idx history.events) :=
      hnew.imp_right fun hsecond => ⟨normalizeSource_ne_none hsecond.1, hsecond.2⟩
    obtain ⟨happlied, hcorroborated⟩ := applyEdge_corroborates hreach hlive hquarantined key
      (normal_of_mem_batchPairs hmem nowRel) hnew'
    rw [← htargets.applyEdge_eq] at happlied hcorroborated
    refine ⟨if_pos happlied, hcorroborated.2, fun before => ?_⟩
    exact Corroborated.staysClear hcorroborated

/-- One source fires a pair twice, and the edge is quarantined. -/
def soleProducer : History :=
  replay (fun _ _ => 7) ⟨smallTable, []⟩
    [.reinforce [1] 10 20 0xFFFF 1 0, .reinforce [1] 10 20 0xFFFF 1 1]

theorem quarantine_yields_to_corroboration_soleProducer :
    (soleProducer.table.entries 3).srcCount = 1 ∧
      (reinforce (fun _ _ => 7) soleProducer.table [1] 20 10 0 2 2).result = .applied := by
  have hyields := quarantine_yields_to_corroboration (fun _ _ => 7) soleProducer
    (reachable_edges (reachable_replay _ _)) 3 (by decide) (by decide)
  exact ⟨hyields.1, (hyields.2.1 [1] 20 10 0 2 2 (by decide) (by decide)
    ⟨by decide, by decide, by decide⟩ (by decide)).1⟩

end Tac
end LibWake
