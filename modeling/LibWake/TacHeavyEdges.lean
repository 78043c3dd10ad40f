import LibWake.TacCap
import LibWake.TacQuarantine
import LibWake.TacRead

/-!
# Heavy edges with one source

A reinforcement in place ends in `quarantine_reassess`, so an edge of one source
which it makes heavy is quarantined.  The path which creates an edge does not call
it: an edge which is heavy from its first reinforcement is counted until the next
one.  This is the only way to a heavy edge of one source which is not quarantined.
-/

namespace LibWake
namespace Tac

/-! ## One source holds the whole weight -/

theorem Audited.exists_spent {h : Header} {entry : Entry} {sources etas : Finset UInt16}
    (haudited : Audited h entry sources etas) (hsole : entry.srcCount < 2) :
    ∃ i, entry.weight ≤ (entry.budget i).spent := by
  have hpos := haudited.srcCount_pos
  have hcount := haudited.srcCount_eq
  obtain ⟨i, hi⟩ := Finset.card_eq_one.mp (by omega : (usedSlots entry.budget).card = 1)
  have htotal : totalSpent entry.budget = (entry.budget i).spent := by
    apply Finset.sum_eq_single_of_mem i (Finset.mem_univ i)
    intro j _ hj
    apply haudited.spending.unused
    by_contra hused
    exact hj (Finset.mem_singleton.mp (hi ▸ mem_usedSlots.mpr hused))
  exact ⟨i, htotal ▸ haudited.weight_le⟩

theorem spent_le_topSpent (budget : Fin 5 → Budget) (i : Fin 5) :
    (budget i).spent ≤ topSpent budget := by
  have hstep : ∀ (slots : List (Fin 5)) (top : ℕ), i ∈ slots ∨ (budget i).spent ≤ top →
      (budget i).spent ≤ slots.foldl (fun top i =>
        if (budget i).spent > top then (budget i).spent else top) top := by
    intro slots
    induction slots with
    | nil => exact fun top htop => htop.resolve_left List.not_mem_nil
    | cons j rest ih =>
        intro top htop
        rw [List.foldl_cons]
        apply ih
        rcases htop with hmem | hle
        · rcases List.mem_cons.mp hmem with rfl | hrest
          · right
            split_ifs <;> omega
          · exact .inl hrest
        · right
          split_ifs <;> omega
  exact hstep _ 0 (.inl (by fin_cases i <;> decide))

/-- One budget slot holds the share of the weight which trips the quarantine. -/
def Dominated (entry : Entry) : Prop :=
  ∃ i, entry.weight * quarantineSharePct ≤ (entry.budget i).spent * 100

theorem Audited.dominated {h : Header} {entry : Entry} {sources etas : Finset UInt16}
    (haudited : Audited h entry sources etas) (hsole : entry.srcCount < 2) :
    Dominated entry := by
  obtain ⟨i, hi⟩ := haudited.exists_spent hsole
  exact ⟨i, Nat.mul_le_mul hi (by decide)⟩

/-! ## The flag -/

/-- A heavy edge of one source is quarantined, unless quarantine is disabled. -/
def SoleQuarantined (h : Header) (entry : Entry) : Prop :=
  h.quarantineMinW ≠ uint32Max → entry.srcCount < 2 → h.quarantineMinW ≤ entry.weight →
    entry.quarantine ≠ 0

theorem quarantineReassess_sole {h : Header} {entry : Entry}
    {sources etas : Finset UInt16} (henabled : h.quarantineMinW ≠ 0)
    (haudited : Audited h (quarantineReassess h entry) sources etas) :
    SoleQuarantined h (quarantineReassess h entry) := by
  intro hmax hsole hheavy
  obtain ⟨i, hi⟩ := haudited.exists_spent hsole
  simp only [quarantineReassess_srcCount, quarantineReassess_weight,
    quarantineReassess_budget] at hsole hheavy hi
  have htop := spent_le_topSpent entry.budget i
  have hshare : topSpent entry.budget * 100 ≥ entry.weight * quarantineSharePct :=
    Nat.mul_le_mul (hi.trans htop) (by decide)
  rw [quarantineReassess, if_neg (not_or.mpr ⟨henabled, hmax⟩), if_neg (by omega),
    if_neg (by omega), if_pos hshare]
  exact (by decide : (1 : UInt8) ≠ 0)

/-! ## The first charges of an edge -/

/-- The two witnesses of a call come from one source. -/
def Witnesses.Sole (w : Witnesses) : Prop := w.w1Src = srcNone ∨ w.w1Src = w.w0Src

instance (w : Witnesses) : Decidable w.Sole :=
  inferInstanceAs (Decidable (_ ∨ _))

/-- A fresh edge counts one source, or two when the call brings two. -/
theorem chargeFresh_count {h : Header} {w : Witnesses} {delta : ℕ} (hnormal : w.Normal)
    (hroom : delta ≤ h.budgetPerSource) :
    (chargeFresh h w.w0Src w.w1Src delta).2.1 = if w.Sole then 1 else 2 := by
  obtain ⟨charged, hfirst⟩ := Ledger.zero.charge_new (Nat.zero_le 3)
    (Finset.notMem_empty w.w0Src) hnormal.w0_ne_none hroom
  simp only [chargeFresh, chargeIgnoringRefusal, hfirst]
  by_cases hsole : w.Sole
  · rw [if_neg (by unfold Witnesses.Sole at hsole; tauto), if_pos hsole]
    rfl
  · have htwo := not_or.mp hsole
    have hledger := (Ledger.zero.charge hnormal.w0_ne_none
      (charge_of_budgetCharge hfirst)).1
    obtain ⟨both, hsecond⟩ := hledger.charge_new (by simp)
      (by simpa using htwo.2) htwo.1 hroom
    simp only [hsecond]
    rw [if_pos htwo, if_neg hsole]
    rfl

/-! ## Creating an edge -/

theorem occFindIn_congr {table table' : Table} (ehash : UInt64) (claim : Bool)
    (hsame : ∀ idx, (table'.occ idx).entityHash = (table.occ idx).entityHash)
    (window : List ℕ) :
    (occFindIn table' ehash claim window).1 = (occFindIn table ehash claim window).1 := by
  induction window with
  | nil => rfl
  | cons idx rest ih =>
      simp only [occFindIn, hsame]
      split_ifs
      · rfl
      · rfl
      · rfl
      · exact ih

theorem occFindIn_full {table : Table} {ehash : UInt64} {window : List ℕ}
    (habsent : ∀ idx, (table.occ idx).entityHash ≠ ehash)
    (hfull : ∀ idx ∈ window, (table.occ idx).entityHash ≠ 0) :
    (occFindIn table ehash true window).1 = none := by
  induction window with
  | nil => rfl
  | cons idx rest ih =>
      rw [occFindIn, if_neg (habsent idx), if_neg (hfull idx List.mem_cons_self)]
      exact ih fun other hmem => hfull other (List.mem_cons_of_mem _ hmem)

/-- The call makes a new edge: its pair has none, the cap lets it in, a slot of the
window is free, and the sidecar has a record for the entity or room for one. -/
structure CreatesEdge (keyedHash : KeyedHash) (table : Table) (ehash : UInt64)
    (tLo tHi : UInt32) (w : Witnesses) : Prop where
  absent : findSlot table (slotHashOf keyedHash table ehash tLo tHi) = none
  admitted : (capDecision table ehash w.delta).isSome
  slot : (claimSlot table (slotHashOf keyedHash table ehash tLo tHi)).isSome
  record : (occFind table ehash true).1.isSome

theorem fillClaimed_occFind {table : Table} (hcapped : Capped table) {ehash : UInt64}
    (hne : ehash ≠ 0) {delta : ℕ} (idx : ℕ) {victim : Option ℕ} (slotKey : UInt64)
    (fresh : Entry) (hcap : capDecision table ehash delta = some victim) :
    (occFind (fillClaimed table idx victim slotKey ehash fresh) ehash true).1 =
      (occFind table ehash true).1 := by
  rw [occFind, occFind, fillClaimed_header]
  exact occFindIn_congr ehash true
    (fillClaimed_tracks hcapped hne idx slotKey fresh hcap).2.1 _

theorem createsEdge_of_applied {keyedHash : KeyedHash} {table : Table}
    (hcapped : Capped table) {ehash : UInt64} (hne : ehash ≠ 0) {key : List UInt8}
    {tLo tHi : UInt32} {w : Witnesses}
    (happlied : (applyEdge keyedHash table ehash key tLo tHi w).result = .applied)
    (habsent : findSlot table (slotHashOf keyedHash table ehash tLo tHi) = none) :
    CreatesEdge keyedHash table ehash tLo tHi w := by
  have hstep := applyEdge_edgeStep keyedHash table ehash key tLo tHi w
  generalize applyEdge keyedHash table ehash key tLo tHi w = outcome at hstep happlied
  cases hstep with
  | refused result hresult => exact absurd happlied hresult
  | reinforced idx budget bump accepted hfind =>
      rw [habsent] at hfind
      cases hfind
  | undone => cases happlied
  | inserted idx victim fresh tracked _ hcap hclaim _ hadd =>
      refine ⟨habsent, by rw [hcap]; rfl, by rw [hclaim]; rfl, ?_⟩
      rw [← fillClaimed_occFind hcapped hne idx _ fresh hcap]
      unfold occAddSlot at hadd
      cases hfound : occFind (fillClaimed table idx victim
          (slotHashOf keyedHash table ehash tLo tHi) ehash fresh) ehash true with
      | mk found after =>
          rw [hfound] at hadd
          cases found with
          | none => cases hadd
          | some record => rfl

theorem CreatesEdge.inserted {keyedHash : KeyedHash} {table : Table}
    (hcapped : Capped table) {ehash : UInt64} (hne : ehash ≠ 0) {tLo tHi : UInt32}
    {w : Witnesses} (hcreates : CreatesEdge keyedHash table ehash tLo tHi w)
    (key : List UInt8) :
    ∃ idx < table.header.capacity,
      (applyEdge keyedHash table ehash key tLo tHi w).table.entries idx =
        { claimedEntry table.header (table.entries idx)
            (slotHashOf keyedHash table ehash tLo tHi) ehash key tLo tHi w with
          weight := w.delta } := by
  obtain ⟨victim, hcap⟩ := Option.isSome_iff_exists.mp hcreates.admitted
  obtain ⟨idx, hclaim⟩ := Option.isSome_iff_exists.mp hcreates.slot
  refine ⟨idx, lt_of_mem_probeWindow hcapped.sound (claimSlot_some hclaim).1, ?_⟩
  generalize hfresh : claimedEntry table.header (table.entries idx)
    (slotHashOf keyedHash table ehash tLo tHi) ehash key tLo tHi w = fresh
  cases hadd : occAddSlot (fillClaimed table idx victim
      (slotHashOf keyedHash table ehash tLo tHi) ehash fresh) ehash idx with
  | mk answer tracked =>
      cases answer with
      | true =>
          have hentries := (tracked_setEntry hclaim hcap hadd
            { fresh with weight := w.delta }).2
          simp only [applyEdge, hcreates.absent, applyNew, hcap, hclaim, hfresh, hadd]
          rw [hentries, Function.update_self]
      | false =>
          -- the sidecar has room, so it does not refuse
          have hrecord := hcreates.record
          rw [← fillClaimed_occFind hcapped hne idx _ fresh hcap] at hrecord
          rcases occAddSlot_fillClaimed hcapped hne fresh hcap hclaim with
            ⟨htrue, _⟩ | ⟨_, habsent, hfull⟩
          · rw [hadd] at htrue
            cases htrue
          · rw [occFind, occFindIn_full habsent hfull] at hrecord
            cases hrecord

/-! ## Runs -/

/-- The update creates an edge which is heavy at once, from a single source. -/
def CreatesHeavy (keyedHash : KeyedHash) (table : Table) : EdgeCall → Prop
  | .edge ehash _ tLo tHi w =>
      CreatesEdge keyedHash table ehash tLo tHi w ∧ w.Sole ∧
        table.header.quarantineMinW ≤ w.delta
  | .decay => False
  | .reset => False

/-- While quarantine is enabled, every live edge with less than two sources, a weight
from the floor on and one slot which dominates the weight is quarantined, and neither
`query` nor `route` counts it. -/
def HeavyEdgesQuarantined (table : Table) : Prop :=
  table.header.quarantineMinW ≠ uint32Max →
    ∀ idx < table.header.capacity, (table.entries idx).Live →
      (table.entries idx).srcCount < 2 →
      table.header.quarantineMinW ≤ (table.entries idx).weight →
      Dominated (table.entries idx) →
      (table.entries idx).quarantine ≠ 0 ∧
        (∀ ehash snapshot, queryStep ehash snapshot (table.entries idx) = snapshot) ∧
        ∀ ehash acts acc, routeStep ehash acts acc (table.entries idx) = acc

/-- The invariant of the runs which create no heavy edge from one source. -/
structure HeavyGuarded (table : Table) (events : List Event) : Prop where
  capped : Capped table
  enabled : table.header.quarantineMinW ≠ 0
  entries : EntriesSatisfy (fun h entry sources etas =>
    Audited h entry sources etas ∧ SoleQuarantined h entry) table events

theorem not_visibleTo_of_quarantine {entry : Entry} (hset : entry.quarantine ≠ 0)
    (ehash : UInt64) : ¬ visibleTo ehash entry :=
  fun hvisible => hset hvisible.2.2.2

theorem HeavyGuarded.heavyEdgesQuarantined {table : Table} {events : List Event}
    (hguarded : HeavyGuarded table events) : HeavyEdgesQuarantined table := by
  intro hmax idx hlt hlive hsole hheavy _
  have hset := (hguarded.entries.live idx hlt hlive).2 hmax hsole hheavy
  exact ⟨hset, fun ehash _ => if_neg (not_visibleTo_of_quarantine hset ehash),
    fun ehash _ _ => if_neg (not_visibleTo_of_quarantine hset ehash)⟩

theorem create_quarantineMinW {cfg : Option Config} {epoch : UInt32}
    {hashKey : List UInt8} {table : Table}
    (hcreate : create cfg epoch hashKey = some table) : table.header.quarantineMinW ≠ 0 := by
  unfold create at hcreate
  simp only at hcreate
  split_ifs at hcreate
  simp only [Option.some.injEq] at hcreate
  subst hcreate
  exact (orDefault_pos (by decide)).ne'

theorem create_heavyGuarded {cfg : Option Config} {epoch : UInt32}
    {hashKey : List UInt8} {table : Table}
    (hcreate : create cfg epoch hashKey = some table) : HeavyGuarded table [] :=
  ⟨create_capped hcreate, create_quarantineMinW hcreate, EntryRule.create hcreate⟩

theorem soleQuarantined_fresh {h : Header} (stale : Entry) (slotKey ehash : UInt64)
    (key : List UInt8) (tLo tHi : UInt32) {w : Witnesses} (hsound : h.Sound)
    (hnormal : w.Normal) (hlight : ¬ (w.Sole ∧ h.quarantineMinW ≤ w.delta)) :
    SoleQuarantined h
      { claimedEntry h stale slotKey ehash key tLo tHi w with weight := w.delta } := by
  intro _ hsole hheavy
  have hcount : (chargeFresh h w.w0Src w.w1Src w.delta).2.1 < 2 := hsole
  rw [chargeFresh_count hnormal ((delta_le w).trans hsound.budget_ge)] at hcount
  split_ifs at hcount with hone
  · exact absurd ⟨hone, hheavy⟩ hlight
  · omega

theorem applyEdge_heavyGuarded {keyedHash : KeyedHash} {table : Table}
    {events : List Event} (hguarded : HeavyGuarded table events) {ehash : UInt64}
    (hne : ehash ≠ 0) (key : List UInt8) (tLo tHi : UInt32) {w : Witnesses}
    (hnormal : w.Normal)
    (hlight : ¬ CreatesHeavy keyedHash table (.edge ehash key tLo tHi w)) :
    HeavyGuarded (applyEdge keyedHash table ehash key tLo tHi w).table
      (events ++ (applyEdge keyedHash table ehash key tLo tHi w).events) := by
  have hsound := hguarded.entries.sound
  refine ⟨applyEdge_capped hguarded.capped keyedHash hne key tLo tHi w, ?_, ?_⟩
  · rw [applyEdge_header]
    exact hguarded.enabled
  · refine hguarded.entries.edgeStep (applyEdge_edgeStep keyedHash table ehash key tLo tHi w)
      ?_ ?_
    · intro entry budget bump accepted sources etas hgood hpass hcharge
      have haudited := audited_rule.reinforced _ _ _ _ _ _ _ _ hsound hnormal hgood.1 hpass
        hcharge
      exact ⟨haudited, quarantineReassess_sole hguarded.enabled haudited⟩
    · intro happlied habsent stale
      refine ⟨audited_rule.fresh _ _ _ _ _ _ _ _ hsound hnormal,
        soleQuarantined_fresh stale _ ehash key tLo tHi hsound hnormal fun hheavy => ?_⟩
      exact hlight ⟨createsEdge_of_applied hguarded.capped hne happlied habsent, hheavy⟩

/-- Decay lowers the weight, so that no edge becomes heavy. -/
theorem decay_heavyGuarded {table : Table} {events : List Event}
    (hguarded : HeavyGuarded table events) : HeavyGuarded (decay table).1 events := by
  have hsound := hguarded.entries.sound
  refine ⟨decay_capped hguarded.capped, by rw [decay_header]; exact hguarded.enabled,
    hguarded.entries.decay fun entry sources etas hgood hfloor => ?_⟩
  exact ⟨audited_rule.decayed _ _ _ _ hsound hgood.1 hfloor, fun hmax hsole hheavy =>
    hgood.2 hmax hsole (hheavy.trans (decayedWeight_le hsound entry))⟩

theorem reset_heavyGuarded {table : Table} {events : List Event}
    (hguarded : HeavyGuarded table events) : HeavyGuarded (reset table) events :=
  ⟨reset_capped hguarded.capped, hguarded.enabled, EntryRule.reset hguarded.entries⟩

theorem edge_step_heavyGuarded {keyedHash : KeyedHash} {history next : History}
    {call : EdgeCall} (hguarded : HeavyGuarded history.table history.events)
    (hlight : ¬ CreatesHeavy keyedHash history.table call)
    (hstep : (edgeWriter keyedHash).step history call = some next) :
    HeavyGuarded next.table next.events := by
  obtain ⟨hchecked, rfl⟩ := edgeWriter_step_eq_some.mp hstep
  cases call with
  | edge ehash key tLo tHi w =>
      exact applyEdge_heavyGuarded hguarded hchecked.1 key tLo tHi hchecked.2.2 hlight
  | decay => simpa [performEdgeCall] using decay_heavyGuarded hguarded
  | reset => simpa [performEdgeCall] using reset_heavyGuarded hguarded

/-- A heavy edge which the call creates from one source is counted. -/
theorem not_heavyEdgesQuarantined_of_createsHeavy {keyedHash : KeyedHash}
    {history next : History} {call : EdgeCall}
    (hguarded : HeavyGuarded history.table history.events)
    (hheavy : CreatesHeavy keyedHash history.table call)
    (hstep : (edgeWriter keyedHash).step history call = some next) :
    ¬ HeavyEdgesQuarantined next.table := by
  obtain ⟨hchecked, rfl⟩ := edgeWriter_step_eq_some.mp hstep
  cases call with
  | edge ehash key tLo tHi w =>
      obtain ⟨hcreates, hsole, hfloor⟩ := hheavy
      have hsound := hguarded.entries.sound
      have hheader := applyEdge_header keyedHash history.table ehash key tLo tHi w
      obtain ⟨idx, hlt, hentry⟩ := hcreates.inserted hguarded.capped hchecked.1 key
      have haudited := audited_fresh (history.table.entries idx)
        (slotHashOf keyedHash history.table ehash tLo tHi) ehash key tLo tHi hsound
        hchecked.2.2
      have hcount : (chargeFresh history.table.header w.w0Src w.w1Src w.delta).2.1 < 2 := by
        rw [chargeFresh_count hchecked.2.2 ((delta_le w).trans hsound.budget_ge),
          if_pos hsole]
        omega
      have hmax : history.table.header.quarantineMinW ≠ uint32Max := by
        have hdelta := hfloor.trans (delta_le w)
        have hlt : deltaMax < uint32Max := by decide
        omega
      intro hall
      simp only [performEdgeCall] at hall
      have hset := hall (by rwa [hheader]) idx (by rwa [hheader])
      rw [hheader, hentry] at hset
      exact (hset (claimedEntry_live keyedHash history.table _ _ _ _ _ _ _ _) hcount hfloor
        (haudited.dominated hcount)).1 rfl
  | decay => exact absurd hheavy not_false
  | reset => exact absurd hheavy not_false

/-- In a run on a table which `create` made, every heavy edge of one source is
quarantined in every state, if and only if no update of the run creates an edge
which is heavy at once from a single source. -/
theorem heavy_edges_quarantined_iff (keyedHash : KeyedHash) (start final : History)
    (hinitial : (edgeWriter keyedHash).Initial start) (updates : List EdgeCall)
    (hrun : (edgeWriter keyedHash).run start updates = some final) :
    (edgeWriter keyedHash).Always (fun history => HeavyEdgesQuarantined history.table)
        start updates ↔
      (edgeWriter keyedHash).RunMeets
        (fun history call => ¬ CreatesHeavy keyedHash history.table call) start updates := by
  obtain ⟨⟨cfg, epoch, hashKey, hcreate⟩, hevents⟩ := hinitial
  have hstart : HeavyGuarded start.table start.events := by
    rw [hevents]
    exact create_heavyGuarded hcreate
  refine (edgeWriter keyedHash).always_iff_runMeets
    (motive := fun history => HeavyGuarded history.table history.events)
    (fun _ hguarded => hguarded.heavyEdgesQuarantined) ?_ ?_ hstart hrun
  · exact fun _ _ _ hguarded hlight hstep => edge_step_heavyGuarded hguarded hlight hstep
  · intro _ _ _ hguarded hheavy hstep
    exact not_heavyEdgesQuarantined_of_createsHeavy hguarded (not_not.mp hheavy) hstep

/-- One reinforcement of a new pair, in full strength. -/
def heavyNewcomer : List EdgeCall :=
  [.edge 7 [1] 10 20 ⟨0xFFFF, 1, 0, srcNone, 0⟩]

theorem heavy_edges_quarantined_iff_heavyNewcomer :
    ¬ (edgeWriter fun _ _ => 7).Always (fun history => HeavyEdgesQuarantined history.table)
      ⟨smallTable, []⟩ heavyNewcomer := by
  have hiff := heavy_edges_quarantined_iff (fun _ _ => 7) ⟨smallTable, []⟩ _
    ⟨⟨_, _, _, create_smallTable⟩, rfl⟩ heavyNewcomer rfl
  rw [hiff]
  intro hmeets
  exact hmeets.1 ⟨⟨by decide, by decide, by decide, by decide⟩, by decide, by decide⟩

/-- With the default floor of 4000, one call of one source makes an edge of weight
4095 which is not quarantined, and `query` counts it. -/
theorem sole_heavy_edge_not_quarantined :
    ¬ (∀ history, (writer fun _ _ => 7).Reachable history →
        HeavyEdgesQuarantined history.table) ∧
      query (fun _ _ => 7) (replay (fun _ _ => 7) ⟨smallTable, []⟩
          [.reinforce [1] 10 20 0xFFFF 1 0]).table [1] =
        some ⟨4095, 1, [⟨10, 20, 4095, 0xFFFF, 1, 0⟩]⟩ := by
  constructor
  · intro hall
    have hheavy := hall _ (reachable_replay (fun _ _ => 7) [.reinforce [1] 10 20 0xFFFF 1 0])
      (by decide) 3 (by decide) (by decide) (by decide) (by decide) ⟨0, by decide⟩
    exact hheavy.1 (by decide)
  · decide

end Tac
end LibWake
