import LibWake.TacCap
import LibWake.TacLookup
import LibWake.TacWitness

/-!
# The writer, edge by edge

Every call of the writer is a sequence of updates: one `applyEdge` for each pair
of its activations, a decay pass, or a reset.  The states between the pairs of a
batch are states of this finer system, and the invariants of the calls hold in
all of them.
-/

namespace LibWake
namespace Tac

/-! ## Updates -/

/-- One update of the table. -/
inductive EdgeCall where
  | edge (ehash : UInt64) (key : List UInt8) (tLo tHi : UInt32) (w : Witnesses)
  | decay
  | reset

/-- What the entry points have checked before they call `apply_edge`. -/
def EdgeCall.Checked : EdgeCall → Prop
  | .edge ehash _ tLo tHi w => ehash ≠ 0 ∧ tLo < tHi ∧ w.Normal
  | .decay => True
  | .reset => True

instance (w : Witnesses) : Decidable w.Normal :=
  decidable_of_iff (w.w0Src ≠ srcNone ∧ w.w0Src ≠ srcOther ∧ w.w1Src ≠ srcOther)
    ⟨fun h => ⟨h.1, h.2.1, h.2.2⟩, fun h => ⟨h.w0_ne_none, h.w0_ne_other, h.w1_ne_other⟩⟩

instance : DecidablePred EdgeCall.Checked
  | .edge _ _ _ _ _ => inferInstanceAs (Decidable (_ ∧ _ ∧ _))
  | .decay => .isTrue trivial
  | .reset => .isTrue trivial

/-- The table after an update, and its events. -/
def performEdgeCall (keyedHash : KeyedHash) (table : Table) :
    EdgeCall → Table × List Event
  | .edge ehash key tLo tHi w =>
      let outcome := applyEdge keyedHash table ehash key tLo tHi w
      (outcome.table, outcome.events)
  | .decay => ((decay table).1, [])
  | .reset => (reset table, [])

/-- The runs of checked updates on a table which `create` made. -/
def edgeWriter (keyedHash : KeyedHash) : TransitionSystem History EdgeCall where
  Initial := (writer keyedHash).Initial
  step history call :=
    if call.Checked then
      let after := performEdgeCall keyedHash history.table call
      some ⟨after.1, history.events ++ after.2⟩
    else none

theorem edgeWriter_step_eq_some {keyedHash : KeyedHash} {history next : History}
    {call : EdgeCall} :
    (edgeWriter keyedHash).step history call = some next ↔ call.Checked ∧
      ⟨(performEdgeCall keyedHash history.table call).1,
        history.events ++ (performEdgeCall keyedHash history.table call).2⟩ = next := by
  simp only [edgeWriter]
  split_ifs with hchecked
  · rw [Option.some.injEq]
    exact ⟨fun heq => ⟨hchecked, heq⟩, fun heq => heq.2⟩
  · simp [hchecked]

/-! ## The updates of a call -/

/-- The update which a batch makes for one pair. -/
def pairCall (ehash : UInt64) (key : List UInt8) (nowRel : UInt32)
    (pair : Activation × Activation) : EdgeCall :=
  let a := pair.1.technique
  let b := pair.2.technique
  .edge ehash key (if a < b then a else b) (if a < b then b else a)
    (pairWitnesses pair nowRel)

/-- The updates of one call. -/
def Call.edgeCalls (keyedHash : KeyedHash) (table : Table) : Call → List EdgeCall
  | .reinforce key tA tB etaFp16 sourceId nowRel =>
      if key = [] ∨ sourceId = srcNone ∨ tA = tB then []
      else
        [.edge (entityHashOf keyedHash table key) key
          (if tA < tB then tA else tB) (if tA < tB then tB else tA)
          ⟨etaFp16, normalizeSource sourceId, 0, srcNone, nowRel⟩]
  | .reinforceBatch key acts nowRel =>
      if key = [] ∨ acts.length < 2 then []
      else (batchPairs acts).map (pairCall (entityHashOf keyedHash table key) key nowRel)
  | .decay => [.decay]
  | .reset => [.reset]

theorem pairCall_checked {ehash : UInt64} (hne : ehash ≠ 0) (key : List UInt8)
    (nowRel : UInt32) {acts : List Activation} {pair : Activation × Activation}
    (hmem : pair ∈ batchPairs acts) : (pairCall ehash key nowRel pair).Checked :=
  ⟨hne, ordered_techniques (technique_ne_of_mem_batchPairs hmem),
    normal_of_mem_batchPairs hmem nowRel⟩

theorem run_pairCalls (keyedHash : KeyedHash) {ehash : UInt64} {key : List UInt8}
    {nowRel : UInt32} {pairs : List (Activation × Activation)} (before : List Event)
    (hchecked : ∀ pair ∈ pairs, (pairCall ehash key nowRel pair).Checked)
    (state : BatchState) :
    (edgeWriter keyedHash).run ⟨state.table, before ++ state.events⟩
        (pairs.map (pairCall ehash key nowRel)) =
      some ⟨(pairs.foldl (batchStep keyedHash ehash key nowRel) state).table,
        before ++ (pairs.foldl (batchStep keyedHash ehash key nowRel) state).events⟩ := by
  induction pairs generalizing state with
  | nil => rfl
  | cons pair rest ih =>
      rw [List.map_cons, List.foldl_cons, (edgeWriter keyedHash).run_cons_eq_some]
      refine ⟨_, edgeWriter_step_eq_some.mpr ⟨hchecked pair List.mem_cons_self, rfl⟩, ?_⟩
      rw [← ih (fun other hmem => hchecked other (List.mem_cons_of_mem _ hmem))]
      simp only [List.append_assoc]
      rfl

/-- Every call is the run of its updates. -/
theorem run_edgeCalls (keyedHash : KeyedHash) (history : History) (call : Call) :
    (edgeWriter keyedHash).run history (call.edgeCalls keyedHash history.table) =
      (writer keyedHash).step history call := by
  cases call with
  | reinforce key tA tB etaFp16 sourceId nowRel =>
      simp only [Call.edgeCalls, writer, performCall, reinforce]
      by_cases hinvalid : key = [] ∨ sourceId = srcNone ∨ tA = tB
      · rw [if_pos hinvalid, if_pos hinvalid, List.append_nil]
        rfl
      · rw [if_neg hinvalid, if_neg hinvalid]
        simp only [not_or] at hinvalid
        refine (edgeWriter keyedHash).run_cons_eq_some.mpr
          ⟨_, edgeWriter_step_eq_some.mpr ⟨⟨entityHashOf_ne_zero _ _ _,
            ordered_techniques hinvalid.2.2,
            normal_of_sources hinvalid.2.1 (by decide)⟩, rfl⟩, rfl⟩
  | reinforceBatch key acts nowRel =>
      simp only [Call.edgeCalls, writer, performCall, reinforceBatch]
      by_cases hinvalid : key = [] ∨ acts.length < 2
      · rw [if_pos hinvalid, if_pos hinvalid, List.append_nil]
        rfl
      · rw [if_neg hinvalid, if_neg hinvalid]
        have hrun := run_pairCalls keyedHash history.events
          (fun pair (hmem : pair ∈ batchPairs acts) => pairCall_checked
            (entityHashOf_ne_zero keyedHash history.table key) key nowRel hmem)
          ⟨history.table, 0, []⟩
        rwa [List.append_nil] at hrun
  | decay => simp [Call.edgeCalls, writer, performCall, edgeWriter, TransitionSystem.run,
      performEdgeCall, EdgeCall.Checked]
  | reset => simp [Call.edgeCalls, writer, performCall, edgeWriter, TransitionSystem.run,
      performEdgeCall, EdgeCall.Checked]

/-- Every run of calls is a run of updates. -/
theorem run_edges {keyedHash : KeyedHash} {start final : History} {calls : List Call}
    (hrun : (writer keyedHash).run start calls = some final) :
    ∃ updates, (edgeWriter keyedHash).run start updates = some final := by
  induction calls generalizing start with
  | nil => exact ⟨[], hrun⟩
  | cons call rest ih =>
      obtain ⟨next, hstep, hrest⟩ := (writer keyedHash).run_cons_eq_some.mp hrun
      obtain ⟨updates, hupdates⟩ := ih hrest
      rw [← run_edgeCalls] at hstep
      exact ⟨_, (edgeWriter keyedHash).run_append_eq_some.mpr ⟨next, hstep, hupdates⟩⟩

theorem reachable_edges {keyedHash : KeyedHash} {history : History}
    (hreach : (writer keyedHash).Reachable history) :
    (edgeWriter keyedHash).Reachable history := by
  obtain ⟨start, calls, hinitial, hrun⟩ := hreach
  obtain ⟨updates, hupdates⟩ := run_edges hrun
  exact ⟨start, updates, hinitial, hupdates⟩

/-- A state between two pairs of a batch. -/
theorem reachable_batch {keyedHash : KeyedHash} {history : History}
    (hreach : (edgeWriter keyedHash).Reachable history) (key : List UInt8)
    {acts : List Activation} (nowRel : UInt32) {front : List (Activation × Activation)}
    (hfront : front <+: batchPairs acts) :
    (edgeWriter keyedHash).Reachable
      ⟨(front.foldl (batchStep keyedHash (entityHashOf keyedHash history.table key) key
          nowRel) ⟨history.table, 0, []⟩).table,
        history.events ++ (front.foldl (batchStep keyedHash
          (entityHashOf keyedHash history.table key) key nowRel)
            ⟨history.table, 0, []⟩).events⟩ := by
  obtain ⟨start, updates, hinitial, hrun⟩ := hreach
  have hbatch := run_pairCalls keyedHash history.events
    (fun pair hmem => pairCall_checked (entityHashOf_ne_zero keyedHash history.table key)
      key nowRel (hfront.subset hmem)) ⟨history.table, 0, []⟩
  rw [List.append_nil] at hbatch
  exact ⟨start, _, hinitial,
    (edgeWriter keyedHash).run_append_eq_some.mpr ⟨history, hrun, hbatch⟩⟩

/-! ## Invariants -/

theorem edge_step_induction {keyedHash : KeyedHash}
    {motive : Table → List Event → Prop}
    (hedge : ∀ table events ehash key tLo tHi w, motive table events →
      ehash ≠ 0 → tLo < tHi → w.Normal →
      motive (applyEdge keyedHash table ehash key tLo tHi w).table
        (events ++ (applyEdge keyedHash table ehash key tLo tHi w).events))
    (hdecay : ∀ table events, motive table events → motive (decay table).1 events)
    (hreset : ∀ table events, motive table events → motive (reset table) events)
    {history next : History} {call : EdgeCall}
    (hgood : motive history.table history.events)
    (hstep : (edgeWriter keyedHash).step history call = some next) :
    motive next.table next.events := by
  obtain ⟨hchecked, rfl⟩ := edgeWriter_step_eq_some.mp hstep
  cases call with
  | edge ehash key tLo tHi w =>
      exact hedge _ _ _ key _ _ w hgood hchecked.1 hchecked.2.1 hchecked.2.2
  | decay => simpa [performEdgeCall] using hdecay _ _ hgood
  | reset => simpa [performEdgeCall] using hreset _ _ hgood

theorem edge_reachable_induction {keyedHash : KeyedHash}
    {motive : Table → List Event → Prop}
    (hcreate : ∀ cfg epoch hashKey table,
      create cfg epoch hashKey = some table → motive table [])
    (hedge : ∀ table events ehash key tLo tHi w, motive table events →
      ehash ≠ 0 → tLo < tHi → w.Normal →
      motive (applyEdge keyedHash table ehash key tLo tHi w).table
        (events ++ (applyEdge keyedHash table ehash key tLo tHi w).events))
    (hdecay : ∀ table events, motive table events → motive (decay table).1 events)
    (hreset : ∀ table events, motive table events → motive (reset table) events)
    {history : History} (hreach : (edgeWriter keyedHash).Reachable history) :
    motive history.table history.events := by
  apply hreach.invariant (motive := fun state => motive state.table state.events)
  · rintro state ⟨⟨cfg, epoch, hashKey, htable⟩, hevents⟩
    rw [hevents]
    exact hcreate cfg epoch hashKey state.table htable
  · exact fun state call next hgood hstep =>
      edge_step_induction hedge hdecay hreset hgood hstep

theorem EntryRule.edge_reachable
    {Good : Header → Entry → Finset UInt16 → Finset UInt16 → Prop}
    (hrule : EntryRule Good) {keyedHash : KeyedHash} {history : History}
    (hreach : (edgeWriter keyedHash).Reachable history) :
    EntriesSatisfy Good history.table history.events :=
  edge_reachable_induction (motive := EntriesSatisfy Good)
    (fun _ _ _ _ hcreate => EntryRule.create hcreate)
    (fun _ _ ehash key tLo tHi _ hgood _ _ hnormal =>
      hrule.applyEdge hgood keyedHash ehash key tLo tHi hnormal)
    (fun _ _ hgood => hrule.decay hgood)
    (fun _ _ hgood => EntryRule.reset hgood) hreach

theorem edge_reachable_capped {keyedHash : KeyedHash} {history : History}
    (hreach : (edgeWriter keyedHash).Reachable history) : Capped history.table :=
  edge_reachable_induction (motive := fun table _ => Capped table)
    (fun _ _ _ _ hcreate => create_capped hcreate)
    (fun _ _ _ key tLo tHi w hcapped hne _ _ =>
      applyEdge_capped hcapped keyedHash hne key tLo tHi w)
    (fun _ _ hcapped => decay_capped hcapped)
    (fun _ _ hcapped => reset_capped hcapped) hreach

theorem edge_reachable_linked {keyedHash : KeyedHash} {history : History}
    (hreach : (edgeWriter keyedHash).Reachable history) :
    Linked keyedHash history.table :=
  edge_reachable_induction (motive := fun table _ => Linked keyedHash table)
    (fun _ _ _ _ hcreate => create_linked hcreate)
    (fun _ _ ehash key _ _ w hlinked _ hordered _ =>
      applyEdge_linked hlinked ehash key hordered w)
    (fun _ _ hlinked => decay_linked hlinked)
    (fun _ _ hlinked => reset_linked hlinked) hreach

end Tac
end LibWake
