import Mathlib.Data.Finset.Lattice.Lemmas
import LibWake.TacInvariant

/-!
# What an edge has witnessed

The table forgets who charged an edge; the events of a run remember it.  For
every slot this module recovers from the events the sources which were charged
and the eta values which were applied since the slot was last claimed, and it
reduces an invariant of live entries to three steps: a fresh edge, an applied
reinforcement, and a decay.
-/

namespace LibWake
namespace Tac

/-- The effect of one event on the charged sources of a slot. -/
def sourceStep (idx : ℕ) (charged : Finset UInt16) : Event → Finset UInt16
  | .claimed other => if other = idx then ∅ else charged
  | .charged other source => if other = idx then insert source charged else charged
  | .applied _ _ => charged

/-- The sources whose charge on slot `idx` was accepted since its last claim. -/
def chargedSources (idx : ℕ) (events : List Event) : Finset UInt16 :=
  events.foldl (sourceStep idx) ∅

/-- The effect of one event on the applied eta values of a slot. -/
def etaStep (idx : ℕ) (etas : Finset UInt16) : Event → Finset UInt16
  | .claimed other => if other = idx then ∅ else etas
  | .charged _ _ => etas
  | .applied other etaHi => if other = idx then insert etaHi etas else etas

/-- The larger eta of each reinforcement of slot `idx` which was applied since
its last claim. -/
def appliedEtas (idx : ℕ) (events : List Event) : Finset UInt16 :=
  events.foldl (etaStep idx) ∅

/-! ## The events of one `applyEdge` -/

theorem foldl_sourceStep_charged (idx : ℕ) (charged : Finset UInt16)
    (accepted : List UInt16) :
    (accepted.map (Event.charged idx)).foldl (sourceStep idx) charged =
      charged ∪ accepted.toFinset := by
  induction accepted generalizing charged with
  | nil => simp
  | cons source rest ih =>
      simp only [List.map_cons, List.foldl_cons, sourceStep, if_true, ih,
        List.toFinset_cons]
      ext other
      simp only [Finset.mem_union, Finset.mem_insert]
      tauto

theorem foldl_etaStep_charged (idx other : ℕ) (etas : Finset UInt16)
    (accepted : List UInt16) :
    (accepted.map (Event.charged other)).foldl (etaStep idx) etas = etas := by
  induction accepted generalizing etas with
  | nil => rfl
  | cons source rest ih => simp only [List.map_cons, List.foldl_cons, etaStep, ih]

section Reinforced

variable (idx : ℕ) (events : List Event) (accepted : List UInt16) (etaHi : UInt16)

theorem chargedSources_reinforced :
    chargedSources idx
        (events ++ (accepted.map (Event.charged idx) ++ [.applied idx etaHi])) =
      chargedSources idx events ∪ accepted.toFinset := by
  unfold chargedSources
  rw [List.foldl_append, List.foldl_append, foldl_sourceStep_charged]
  rfl

theorem appliedEtas_reinforced :
    appliedEtas idx
        (events ++ (accepted.map (Event.charged idx) ++ [.applied idx etaHi])) =
      insert etaHi (appliedEtas idx events) := by
  unfold appliedEtas
  rw [List.foldl_append, List.foldl_append, foldl_etaStep_charged]
  simp [etaStep]

theorem chargedSources_inserted :
    chargedSources idx
        (events ++
          (.claimed idx :: accepted.map (Event.charged idx) ++
            [.applied idx etaHi])) = accepted.toFinset := by
  unfold chargedSources
  rw [List.cons_append, List.foldl_append, List.foldl_cons, List.foldl_append]
  simp only [sourceStep, if_true, foldl_sourceStep_charged]
  simp [sourceStep]

theorem appliedEtas_inserted :
    appliedEtas idx
        (events ++
          (.claimed idx :: accepted.map (Event.charged idx) ++
            [.applied idx etaHi])) = {etaHi} := by
  unfold appliedEtas
  rw [List.cons_append, List.foldl_append, List.foldl_cons, List.foldl_append,
    foldl_etaStep_charged]
  simp [etaStep]

end Reinforced

/-- The event is about slot `idx`. -/
def Event.about (idx : ℕ) : Event → Prop
  | .claimed other => other = idx
  | .charged other _ => other = idx
  | .applied other _ => other = idx

theorem chargedSources_append_other {idx other : ℕ} (hne : other ≠ idx)
    (events : List Event) (fresh : List Event)
    (hfresh : ∀ event ∈ fresh, event.about other) :
    chargedSources idx (events ++ fresh) = chargedSources idx events ∧
      appliedEtas idx (events ++ fresh) = appliedEtas idx events := by
  unfold chargedSources appliedEtas
  rw [List.foldl_append, List.foldl_append]
  generalize events.foldl (sourceStep idx) ∅ = charged
  generalize events.foldl (etaStep idx) ∅ = etas
  induction fresh generalizing charged etas with
  | nil => exact ⟨rfl, rfl⟩
  | cons event rest ih =>
      have habout := hfresh event List.mem_cons_self
      have hsame : sourceStep idx charged event = charged ∧
          etaStep idx etas event = etas := by
        cases event with
        | claimed slot =>
            simp only [Event.about] at habout
            simp [sourceStep, etaStep, habout, hne]
        | charged slot source =>
            simp only [Event.about] at habout
            simp [sourceStep, etaStep, habout, hne]
        | applied slot etaHi =>
            simp only [Event.about] at habout
            simp [sourceStep, etaStep, habout, hne]
      rw [List.foldl_cons, List.foldl_cons, hsame.1, hsame.2]
      exact ih (fun event hmem => hfresh event (List.mem_cons_of_mem _ hmem)) _ _

theorem about_of_mem_charged {idx : ℕ} {accepted : List UInt16} {event : Event}
    (hmem : event ∈ accepted.map (Event.charged idx)) : event.about idx := by
  obtain ⟨source, _, rfl⟩ := List.mem_map.mp hmem
  rfl

theorem about_of_mem_claimed {idx : ℕ} {accepted : List UInt16} {event : Event}
    (hmem : event ∈ .claimed idx :: accepted.map (Event.charged idx)) :
    event.about idx := by
  rcases List.mem_cons.mp hmem with rfl | hcharged
  · rfl
  · exact about_of_mem_charged hcharged

theorem about_of_mem_applied {idx : ℕ} {etaHi : UInt16} {event : Event}
    (hmem : event ∈ [Event.applied idx etaHi]) : event.about idx := by
  rw [List.mem_singleton.mp hmem]
  rfl

/-! ## Invariants of live entries -/

/-- A statement about an entry, the sources charged on it and the eta values
applied to it since its claim, which every step establishes or keeps. -/
structure EntryRule
    (Good : Header → Entry → Finset UInt16 → Finset UInt16 → Prop) : Prop where
  fresh : ∀ h stale slotKey ehash key tLo tHi w, h.Sound → w.Normal →
    Good h { claimedEntry h stale slotKey ehash key tLo tHi w with weight := w.delta }
      (chargeFresh h w.w0Src w.w1Src w.delta).2.2.toFinset {w.etaHi}
  reinforced : ∀ h entry w budget bump accepted sources etas,
    h.Sound → w.Normal → Good h entry sources etas →
    quarantineRefuses entry w = false →
    chargeExisting h entry.budget w.w0Src w.w1Src w.delta =
      some (budget, bump, accepted) →
    Good h (reinforcedEntry h entry w budget bump)
      (sources ∪ accepted.toFinset) (insert w.etaHi etas)
  decayed : ∀ h entry sources etas, h.Sound → Good h entry sources etas →
    h.noiseFloor ≤ decayedWeight h entry →
    Good h { entry with weight := decayedWeight h entry } sources etas

/-- Every live entry satisfies `Good` with its own part of the events. -/
structure EntriesSatisfy
    (Good : Header → Entry → Finset UInt16 → Finset UInt16 → Prop)
    (table : Table) (events : List Event) : Prop where
  sound : table.header.Sound
  live : ∀ idx < table.header.capacity, (table.entries idx).Live →
    Good table.header (table.entries idx) (chargedSources idx events)
      (appliedEtas idx events)

/-- Events about one slot leave the account of every other slot as it was. -/
theorem EntriesSatisfy.other
    {Good : Header → Entry → Finset UInt16 → Finset UInt16 → Prop} {table : Table}
    {events added : List Event} (hgood : EntriesSatisfy Good table events) {idx other : ℕ}
    (hne : other ≠ idx) (hadded : ∀ event ∈ added, event.about idx)
    (hlt : other < table.header.capacity) (hlive : (table.entries other).Live) :
    Good table.header (table.entries other) (chargedSources other (events ++ added))
      (appliedEtas other (events ++ added)) := by
  obtain ⟨hsources, hetas⟩ := chargedSources_append_other (Ne.symm hne) events
    added hadded
  rw [hsources, hetas]
  exact hgood.live other hlt hlive

theorem retiredEntries_of_live {table : Table} {victim : Option ℕ} {idx : ℕ}
    (hlive : (retiredEntries table victim idx).Live) :
    retiredEntries table victim idx = table.entries idx := by
  cases victim with
  | none => rfl
  | some victim =>
      by_cases heq : idx = victim
      · subst heq
        simp only [retiredEntries, Function.update_self] at hlive
        exact absurd rfl hlive.2
      · simp only [retiredEntries, Function.update_of_ne heq]

/-- What one `applyEdge` keeps: the two steps of the rule are asked for at its own
arguments only, and a fresh edge only when one was inserted. -/
theorem EntriesSatisfy.edgeStep
    {Good : Header → Entry → Finset UInt16 → Finset UInt16 → Prop} {table : Table}
    {events : List Event} {slotKey ehash : UInt64} {key : List UInt8}
    {tLo tHi : UInt32} {w : Witnesses} {outcome : Outcome}
    (hgood : EntriesSatisfy Good table events)
    (hstep : EdgeStep table slotKey ehash key tLo tHi w outcome)
    (hreinforced : ∀ entry budget bump accepted sources etas,
      Good table.header entry sources etas → quarantineRefuses entry w = false →
      chargeExisting table.header entry.budget w.w0Src w.w1Src w.delta =
        some (budget, bump, accepted) →
      Good table.header (reinforcedEntry table.header entry w budget bump)
        (sources ∪ accepted.toFinset) (insert w.etaHi etas))
    (hinserted : outcome.result = .applied → findSlot table slotKey = none →
      ∀ stale, Good table.header
        { claimedEntry table.header stale slotKey ehash key tLo tHi w with
          weight := w.delta }
        (chargeFresh table.header w.w0Src w.w1Src w.delta).2.2.toFinset {w.etaHi}) :
    EntriesSatisfy Good outcome.table (events ++ outcome.events) := by
  cases hstep with
  | refused => simpa using hgood
  | reinforced idx budget bump accepted hfind hpass hcharge =>
      refine ⟨hgood.sound, fun other hlt hlive => ?_⟩
      simp only [setEntry_entries, setEntry_header] at hlive hlt ⊢
      by_cases heq : other = idx
      · subst heq
        rw [Function.update_self] at hlive ⊢
        rw [chargedSources_reinforced, appliedEtas_reinforced]
        have hold : (table.entries other).Live := by
          simpa [Entry.Live, reinforcedEntry] using hlive
        exact hreinforced _ _ _ _ _ _ (hgood.live other hlt hold) hpass hcharge
      · rw [Function.update_of_ne heq] at hlive ⊢
        exact hgood.other heq (fun _ hmem => (List.mem_append.mp hmem).elim
          about_of_mem_charged about_of_mem_applied) hlt hlive
  | undone idx victim fresh tracked _ hcap hclaim _ hadd =>
      obtain ⟨hheader, hentries⟩ := tracked_setEntry hclaim hcap hadd
        { fresh with keyHash := slotTombstone }
      refine ⟨by rw [hheader]; exact hgood.sound, fun other hlt hlive => ?_⟩
      rw [hheader] at hlt ⊢
      rw [hentries] at hlive ⊢
      by_cases heq : other = idx
      · subst heq
        rw [Function.update_self] at hlive
        exact absurd rfl hlive.2
      · rw [Function.update_of_ne heq] at hlive ⊢
        have hkept := retiredEntries_of_live hlive
        rw [hkept] at hlive ⊢
        exact hgood.other heq (fun _ hmem => about_of_mem_claimed hmem) hlt hlive
  | inserted idx victim fresh tracked hfind hcap hclaim hfresh hadd =>
      obtain ⟨hheader, hentries⟩ := tracked_setEntry hclaim hcap hadd
        { fresh with weight := w.delta }
      refine ⟨by rw [hheader]; exact hgood.sound, fun other hlt hlive => ?_⟩
      rw [hheader] at hlt ⊢
      rw [hentries] at hlive ⊢
      by_cases heq : other = idx
      · subst heq
        rw [Function.update_self, chargedSources_inserted, appliedEtas_inserted,
          hfresh]
        exact hinserted rfl hfind _
      · rw [Function.update_of_ne heq] at hlive ⊢
        have hkept := retiredEntries_of_live hlive
        rw [hkept] at hlive ⊢
        exact hgood.other heq (fun _ hmem => (List.mem_append.mp hmem).elim
          about_of_mem_claimed about_of_mem_applied) hlt hlive

/-- What a decay pass keeps, with the step asked for at the header of the table. -/
theorem EntriesSatisfy.decay
    {Good : Header → Entry → Finset UInt16 → Finset UInt16 → Prop} {table : Table}
    {events : List Event} (hgood : EntriesSatisfy Good table events)
    (hdecayed : ∀ entry sources etas, Good table.header entry sources etas →
      table.header.noiseFloor ≤ decayedWeight table.header entry →
      Good table.header { entry with weight := decayedWeight table.header entry }
        sources etas) :
    EntriesSatisfy Good (decay table).1 events := by
  refine ⟨by rw [decay_header]; exact hgood.sound, fun idx hlt hlive => ?_⟩
  rw [decay_header] at hlt ⊢
  rw [decay_entries, if_pos hlt] at hlive ⊢
  obtain ⟨hold, hfloor, hentry⟩ := live_of_decayedEntry hlive
  rw [hentry]
  exact hdecayed _ _ _ (hgood.live idx hlt hold) hfloor

namespace EntryRule

variable {Good : Header → Entry → Finset UInt16 → Finset UInt16 → Prop}

theorem create {cfg : Option Config} {epoch : UInt32} {hashKey : List UInt8}
    {table : Table} (hcreate : create cfg epoch hashKey = some table) :
    EntriesSatisfy Good table [] := by
  obtain ⟨hsound, hentries, _⟩ := create_eq_some hcreate
  refine ⟨hsound, fun idx _ hlive => ?_⟩
  rw [hentries] at hlive
  exact absurd rfl hlive.1

theorem reset {table : Table} {events : List Event}
    (hgood : EntriesSatisfy Good table events) :
    EntriesSatisfy Good (reset table) events := by
  refine ⟨hgood.sound, fun idx hlt hlive => ?_⟩
  unfold Tac.reset at hlive hlt
  simp only [if_pos hlt] at hlive
  exact absurd rfl hlive.1

theorem decay (hrule : EntryRule Good) {table : Table} {events : List Event}
    (hgood : EntriesSatisfy Good table events) :
    EntriesSatisfy Good (decay table).1 events :=
  hgood.decay fun _ _ _ hentry hfloor =>
    hrule.decayed _ _ _ _ hgood.sound hentry hfloor

theorem applyEdge (hrule : EntryRule Good) {table : Table} {events : List Event}
    (hgood : EntriesSatisfy Good table events) (keyedHash : KeyedHash)
    (ehash : UInt64) (key : List UInt8) (tLo tHi : UInt32) {w : Witnesses}
    (hnormal : w.Normal) :
    EntriesSatisfy Good (applyEdge keyedHash table ehash key tLo tHi w).table
      (events ++ (applyEdge keyedHash table ehash key tLo tHi w).events) :=
  hgood.edgeStep (applyEdge_edgeStep keyedHash table ehash key tLo tHi w)
    (fun _ _ _ _ _ _ hentry hpass hcharge =>
      hrule.reinforced _ _ _ _ _ _ _ _ hgood.sound hnormal hentry hpass hcharge)
    (fun _ _ _ => hrule.fresh _ _ _ _ _ _ _ _ hgood.sound hnormal)

theorem reachable (hrule : EntryRule Good) {keyedHash : KeyedHash}
    {history : History} (hreach : (writer keyedHash).Reachable history) :
    EntriesSatisfy Good history.table history.events :=
  reachable_induction (motive := EntriesSatisfy Good)
    (fun _ _ _ _ hcreate => create hcreate)
    (fun _ _ ehash key tLo tHi _ hgood _ _ hnormal =>
      hrule.applyEdge hgood keyedHash ehash key tLo tHi hnormal)
    (fun _ _ hgood => hrule.decay hgood)
    (fun _ _ hgood => reset hgood) hreach

theorem batch (hrule : EntryRule Good) {keyedHash : KeyedHash}
    {history : History} (hreach : (writer keyedHash).Reachable history)
    (ehash : UInt64) (key : List UInt8) (nowRel : UInt32)
    {acts : List Activation} {front : List (Activation × Activation)}
    (hfront : front <+: batchPairs acts) :
    EntriesSatisfy Good
      (front.foldl (batchStep keyedHash ehash key nowRel)
        ⟨history.table, 0, []⟩).table
      (history.events ++ (front.foldl (batchStep keyedHash ehash key nowRel)
        ⟨history.table, 0, []⟩).events) :=
  batch_induction (motive := EntriesSatisfy Good)
    (fun _ _ tLo tHi _ hgood _ hnormal =>
      hrule.applyEdge hgood keyedHash ehash key tLo tHi hnormal)
    (fun _ hmem => technique_ne_of_mem_batchPairs (hfront.subset hmem))
    (fun _ hmem => normal_of_mem_batchPairs (hfront.subset hmem) nowRel)
    (by simpa using hrule.reachable hreach)

end EntryRule

end Tac
end LibWake
