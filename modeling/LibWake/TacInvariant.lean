import Mathlib.Data.Finset.Range
import Mathlib.Data.Finset.Filter
import Mathlib.Data.Finset.Card
import LibWake.TransitionSystem
import LibWake.SlotPass
import LibWake.TacOccupancy

/-!
# Runs of the coupling table

What a header which passed its checks guarantees, the set of live edges of an
entity, what one `applyEdge` can do, and the transition system of the single
writer.  The invariants of the following modules are proved from `EdgeStep`,
which lists every outcome of `applyEdge` once.
-/

namespace LibWake
namespace Tac

open OpenAddressing SlotPass

/-! ## Headers -/

/-- The facts which both `create` and `openAccepts` establish about a header. -/
structure Header.Sound (h : Header) : Prop where
  capacity_pos : 0 < h.capacity
  capacity_le : h.capacity ≤ maxCapacity
  mask_eq : h.mask = UInt64.ofNat (h.capacity - 1)
  occSlots_pos : 0 < h.occSlots
  occSlots_le : h.occSlots ≤ maxCapacity
  decayNovel_lt : h.decayNovelFp16 < 65536
  decayCorr_lt : h.decayCorrFp16 < 65536
  noiseFloor_pos : 0 < h.noiseFloor
  budget_ge : deltaMax ≤ h.budgetPerSource
  budget_le : h.budgetPerSource ≤ uint16Max
  cap_pos : 0 < h.perEntityCap
  cap_le : h.perEntityCap ≤ perEntityCapMax

/-- What `wake_tac_open` checks in a header, the noise floor's upper bound apart. -/
structure Header.WellFormed (h : Header) : Prop where
  magic : h.magic = magicWord
  formatVersion : h.formatVersion = version
  capacity_pow : isPowerOf2 h.capacity = true
  occSlots_pow : isPowerOf2 h.occSlots = true
  capacity_le : h.capacity ≤ maxCapacity
  capacity_le_occSlots : h.capacity ≤ h.occSlots
  occSlots_le : h.occSlots ≤ maxCapacity
  mask_eq : h.mask = UInt64.ofNat (h.capacity - 1)
  decayNovel_ne : h.decayNovelFp16 ≠ 0
  decayNovel_lt : h.decayNovelFp16 < 65536
  decayCorr_ne : h.decayCorrFp16 ≠ 0
  decayCorr_lt : h.decayCorrFp16 < 65536
  noiseFloor_ne : h.noiseFloor ≠ 0
  budget_ge : deltaMax ≤ h.budgetPerSource
  budget_le : h.budgetPerSource ≤ uint16Max
  cap_ne : h.perEntityCap ≠ 0
  cap_le : h.perEntityCap ≤ perEntityCapMax
  corroboration_ne : h.corroborationSrcMin ≠ 0

theorem Header.WellFormed.sound {h : Header} (hwell : h.WellFormed) : h.Sound where
  capacity_pos := pos_of_isPowerOf2 hwell.capacity_pow
  capacity_le := hwell.capacity_le
  mask_eq := hwell.mask_eq
  occSlots_pos := pos_of_isPowerOf2 hwell.occSlots_pow
  occSlots_le := hwell.occSlots_le
  decayNovel_lt := hwell.decayNovel_lt
  decayCorr_lt := hwell.decayCorr_lt
  noiseFloor_pos := Nat.pos_of_ne_zero hwell.noiseFloor_ne
  budget_ge := hwell.budget_ge
  budget_le := hwell.budget_le
  cap_pos := Nat.pos_of_ne_zero hwell.cap_ne
  cap_le := hwell.cap_le

theorem orDefault_pos {cfg : Option Config} {field : Config → ℕ} {dflt : ℕ}
    (hdflt : 0 < dflt) : 0 < orDefault cfg field dflt := by
  unfold orDefault
  split
  · split_ifs <;> omega
  · exact hdflt

theorem orDefault_ne_zero {cfg : Option Config} {field : Config → ℕ} {dflt : ℕ}
    (hdflt : 0 < dflt) : orDefault cfg field dflt ≠ 0 :=
  Nat.pos_iff_ne_zero.mp (orDefault_pos hdflt)

/-- `create` establishes every check of `open` but one. -/
theorem create_wellFormed {cfg : Option Config} {epoch : UInt32} {hashKey : List UInt8}
    {table : Table} (hcreate : create cfg epoch hashKey = some table) :
    table.header.WellFormed := by
  unfold create at hcreate
  simp only [Bool.or_eq_true, decide_eq_true_eq, Bool.not_eq_true'] at hcreate
  split_ifs at hcreate with hcheck
  simp only [Option.some.injEq] at hcreate
  subst hcreate
  simp only [not_or, Bool.not_eq_false] at hcheck
  obtain ⟨⟨⟨⟨⟨⟨⟨⟨⟨⟨hcap2, hocc2⟩, hcapLe⟩, hcapOcc⟩, hoccLe⟩, hbudLe⟩, hbudGe⟩,
    hnovel⟩, hcorr⟩, hcap0⟩, hcapMax⟩ := hcheck
  exact {
    magic := rfl
    formatVersion := rfl
    capacity_pow := hcap2
    occSlots_pow := hocc2
    capacity_le := Nat.le_of_not_gt hcapLe
    capacity_le_occSlots := Nat.le_of_not_gt hcapOcc
    occSlots_le := Nat.le_of_not_gt hoccLe
    mask_eq := rfl
    decayNovel_ne := orDefault_ne_zero (by decide)
    decayNovel_lt := Nat.lt_of_not_ge hnovel
    decayCorr_ne := orDefault_ne_zero (by decide)
    decayCorr_lt := Nat.lt_of_not_ge hcorr
    noiseFloor_ne := orDefault_ne_zero (by decide)
    budget_ge := Nat.le_of_not_gt hbudGe
    budget_le := Nat.le_of_not_gt hbudLe
    cap_ne := hcap0
    cap_le := Nat.le_of_not_gt hcapMax
    corroboration_ne := orDefault_ne_zero (by decide) }

theorem create_eq_some {cfg : Option Config} {epoch : UInt32}
    {hashKey : List UInt8} {table : Table}
    (hcreate : create cfg epoch hashKey = some table) :
    table.header.Sound ∧ table.entries = (fun _ => Entry.zero) ∧
      table.occ = (fun _ => Occ.zero) := by
  refine ⟨(create_wellFormed hcreate).sound, ?_⟩
  unfold create at hcreate
  simp only at hcreate
  split_ifs at hcreate
  simp only [Option.some.injEq] at hcreate
  subst hcreate
  exact ⟨rfl, rfl⟩

/-- The product of the noise-floor check does not wrap for a budget of 16 bits. -/
theorem openAccepts_iff (h : Header) :
    openAccepts h = true ↔
      h.WellFormed ∧ h.noiseFloor < h.budgetPerSource * budgetSlots := by
  have hproduct : h.budgetPerSource ≤ uint16Max →
      h.budgetPerSource * budgetSlots % 2 ^ 32 = h.budgetPerSource * budgetSlots := by
    intro hle
    apply Nat.mod_eq_of_lt
    simp only [uint16Max, budgetSlots] at hle ⊢
    omega
  simp only [openAccepts, Bool.not_eq_true', Bool.or_eq_false_iff, decide_eq_false_iff_not,
    not_not, Bool.not_eq_false', not_lt, ge_iff_le, not_le, and_assoc]
  constructor
  · rintro ⟨hmagic, hversion, hcap2, hocc2, hcapLe, hcapOcc, hoccLe, hmask, hnovel0, hnovel,
      hcorr0, hcorr, hfloor0, hfloor, hbudGe, hbudLe, hcap0, hcapMax, hmin⟩
    exact ⟨⟨hmagic, hversion, hcap2, hocc2, hcapLe, hcapOcc, hoccLe, hmask, hnovel0, hnovel,
      hcorr0, hcorr, hfloor0, hbudGe, hbudLe, hcap0, hcapMax, hmin⟩, hproduct hbudLe ▸ hfloor⟩
  · rintro ⟨hwell, hfloor⟩
    refine ⟨hwell.magic, hwell.formatVersion, hwell.capacity_pow, hwell.occSlots_pow,
      hwell.capacity_le, hwell.capacity_le_occSlots, hwell.occSlots_le, hwell.mask_eq,
      hwell.decayNovel_ne, hwell.decayNovel_lt, hwell.decayCorr_ne, hwell.decayCorr_lt,
      hwell.noiseFloor_ne, ?_, hwell.budget_ge, hwell.budget_le, hwell.cap_ne, hwell.cap_le,
      hwell.corroboration_ne⟩
    rw [hproduct hwell.budget_le]
    exact hfloor

theorem sound_of_openAccepts {h : Header} (hopen : openAccepts h = true) :
    h.Sound :=
  ((openAccepts_iff h).mp hopen).1.sound

theorem probeIdx_lt {h : Header} (hsound : h.Sound) (slotKey : UInt64) (p : ℕ) :
    probeIdx h slotKey p < h.capacity := by
  unfold probeIdx
  rw [hsound.mask_eq, UInt64.toNat_toUInt32]
  exact lt_of_le_of_lt (Nat.mod_le _ _)
    (toNat_and_ofNat_pred_lt _ hsound.capacity_pos
      (hsound.capacity_le.trans (by decide)))

theorem lt_of_mem_probeWindow {h : Header} (hsound : h.Sound)
    {slotKey : UInt64} {idx : ℕ} (hmem : idx ∈ probeWindow h slotKey) :
    idx < h.capacity := by
  obtain ⟨p, _, rfl⟩ := List.mem_map.mp hmem
  exact probeIdx_lt hsound slotKey p

theorem lt_of_mem_occWindow {h : Header} (hsound : h.Sound)
    {ehash : UInt64} {idx : ℕ} (hmem : idx ∈ occWindow h ehash) :
    idx < h.occSlots := by
  obtain ⟨p, _, rfl⟩ := List.mem_map.mp hmem
  exact toNat_and_ofNat_pred_lt _ hsound.occSlots_pos
    (hsound.occSlots_le.trans (by decide))

theorem entityHashOf_ne_zero (keyedHash : KeyedHash) (table : Table)
    (key : List UInt8) : entityHashOf keyedHash table key ≠ 0 := by
  simp only [entityHashOf]
  split_ifs with hzero
  · decide
  · exact hzero

theorem slotHashOf_ne_sentinel (keyedHash : KeyedHash) (table : Table)
    (ehash : UInt64) (tLo tHi : UInt32) :
    slotHashOf keyedHash table ehash tLo tHi ≠ slotEmpty ∧
      slotHashOf keyedHash table ehash tLo tHi ≠ slotTombstone := by
  simp only [slotHashOf]
  split_ifs with hsentinel
  · rcases hsentinel with hempty | htomb
    · rw [hempty]
      decide
    · rw [htomb]
      decide
  · exact not_or.mp hsentinel

/-! ## Live edges -/

/-- The live entries of one entity. -/
def Table.edges (table : Table) (ehash : UInt64) : Finset ℕ :=
  (Finset.range table.header.capacity).filter fun idx =>
    (table.entries idx).Live ∧ (table.entries idx).entityHash = ehash

theorem mem_edges {table : Table} {ehash : UInt64} {idx : ℕ} :
    idx ∈ table.edges ehash ↔
      idx < table.header.capacity ∧ (table.entries idx).Live ∧
        (table.entries idx).entityHash = ehash := by
  simp [Table.edges]

theorem edges_congr {table table' : Table}
    (hheader : table'.header.capacity = table.header.capacity)
    (hentries : table'.entries = table.entries) :
    table'.edges = table.edges := by
  funext ehash
  ext idx
  rw [mem_edges, mem_edges, hheader, hentries]

theorem edges_setEntry_of_same {table : Table} {idx : ℕ} {entry : Entry}
    (hlive : entry.Live ↔ (table.entries idx).Live)
    (hhash : entry.entityHash = (table.entries idx).entityHash) :
    (table.setEntry idx entry).edges = table.edges := by
  funext ehash
  ext other
  rw [mem_edges, mem_edges, setEntry_entries, setEntry_header]
  by_cases heq : other = idx
  · subst heq
    rw [Function.update_self, hlive, hhash]
  · rw [Function.update_of_ne heq]

theorem edges_setEntry_of_dead {table : Table} {idx : ℕ} {entry : Entry}
    (hdead : ¬ entry.Live) (ehash : UInt64) :
    (table.setEntry idx entry).edges ehash = (table.edges ehash).erase idx := by
  ext other
  rw [Finset.mem_erase, mem_edges, mem_edges, setEntry_entries, setEntry_header]
  by_cases heq : other = idx
  · subst heq
    simp [hdead]
  · simp [heq]

theorem edges_setEntry_of_new {table : Table} {idx : ℕ} {entry : Entry}
    (hlt : idx < table.header.capacity) (hold : ¬ (table.entries idx).Live)
    (hnew : entry.Live) :
    (table.setEntry idx entry).edges =
      Function.update table.edges entry.entityHash
        (insert idx (table.edges entry.entityHash)) := by
  funext ehash
  ext other
  by_cases hhash : ehash = entry.entityHash
  · subst hhash
    rw [Function.update_self, Finset.mem_insert, mem_edges, mem_edges,
      setEntry_entries, setEntry_header]
    by_cases heq : other = idx
    · subst heq
      simp [hlt, hnew]
    · simp [heq]
  · rw [Function.update_of_ne hhash, mem_edges, mem_edges, setEntry_entries,
      setEntry_header]
    by_cases heq : other = idx
    · subst heq
      simp [hold, Ne.symm hhash]
    · simp [Function.update_of_ne heq]

/-! ## The outcomes of `applyEdge` -/

/-- The entry array once the cap victim has been retired. -/
def retiredEntries (table : Table) : Option ℕ → ℕ → Entry
  | none => table.entries
  | some victim =>
      Function.update table.entries victim
        { table.entries victim with weight := 0, keyHash := slotTombstone }

/-- Every outcome of `applyEdge`: a refusal without effect, a reinforcement of
an existing edge, a claim which is undone because the sidecar cannot track the
entity, and a new edge. -/
inductive EdgeStep (table : Table) (slotKey ehash : UInt64) (key : List UInt8)
    (tLo tHi : UInt32) (w : Witnesses) : Outcome → Prop
  | refused (result : Result) (hresult : result ≠ .applied) :
      EdgeStep table slotKey ehash key tLo tHi w ⟨table, result, []⟩
  | reinforced (idx : ℕ) (budget : Fin 5 → Budget) (bump : ℕ)
      (accepted : List UInt16)
      (hfind : findSlot table slotKey = some idx)
      (hpass : quarantineRefuses (table.entries idx) w = false)
      (hcharge : chargeExisting table.header (table.entries idx).budget
        w.w0Src w.w1Src w.delta = some (budget, bump, accepted)) :
      EdgeStep table slotKey ehash key tLo tHi w
        ⟨table.setEntry idx
            (reinforcedEntry table.header (table.entries idx) w budget bump),
          .applied,
          accepted.map (Event.charged idx) ++ [.applied idx w.etaHi]⟩
  | undone (idx : ℕ) (victim : Option ℕ) (fresh : Entry) (tracked : Table)
      (hfind : findSlot table slotKey = none)
      (hcap : capDecision table ehash w.delta = some victim)
      (hclaim : claimSlot table slotKey = some idx)
      (hfresh : fresh = claimedEntry table.header (table.entries idx)
        slotKey ehash key tLo tHi w)
      (hadd : occAddSlot (fillClaimed table idx victim slotKey ehash fresh)
        ehash idx = (false, tracked)) :
      EdgeStep table slotKey ehash key tLo tHi w
        ⟨tracked.setEntry idx { fresh with keyHash := slotTombstone },
          .refusedCap,
          .claimed idx ::
            (chargeFresh table.header w.w0Src w.w1Src w.delta).2.2.map
              (Event.charged idx)⟩
  | inserted (idx : ℕ) (victim : Option ℕ) (fresh : Entry) (tracked : Table)
      (hfind : findSlot table slotKey = none)
      (hcap : capDecision table ehash w.delta = some victim)
      (hclaim : claimSlot table slotKey = some idx)
      (hfresh : fresh = claimedEntry table.header (table.entries idx)
        slotKey ehash key tLo tHi w)
      (hadd : occAddSlot (fillClaimed table idx victim slotKey ehash fresh)
        ehash idx = (true, tracked)) :
      EdgeStep table slotKey ehash key tLo tHi w
        ⟨tracked.setEntry idx { fresh with weight := w.delta },
          .applied,
          .claimed idx ::
            (chargeFresh table.header w.w0Src w.w1Src w.delta).2.2.map
              (Event.charged idx) ++ [.applied idx w.etaHi]⟩

theorem applyEdge_edgeStep (keyedHash : KeyedHash) (table : Table)
    (ehash : UInt64) (key : List UInt8) (tLo tHi : UInt32) (w : Witnesses) :
    EdgeStep table (slotHashOf keyedHash table ehash tLo tHi) ehash key tLo tHi w
      (applyEdge keyedHash table ehash key tLo tHi w) := by
  simp only [applyEdge]
  cases hfind : findSlot table (slotHashOf keyedHash table ehash tLo tHi) with
  | some idx =>
      simp only [applyExisting]
      split_ifs with hpass
      · exact .refused .refusedQuarantine (by decide)
      · cases hcharge : chargeExisting table.header (table.entries idx).budget
            w.w0Src w.w1Src w.delta with
        | none => exact .refused .refusedBudget (by decide)
        | some charged =>
            obtain ⟨budget, bump, accepted⟩ := charged
            exact .reinforced idx budget bump accepted hfind (by simpa using hpass)
              hcharge
  | none =>
      simp only [applyNew]
      cases hcap : capDecision table ehash w.delta with
      | none => exact .refused .refusedCap (by decide)
      | some victim =>
          simp only
          cases hclaim : claimSlot table
              (slotHashOf keyedHash table ehash tLo tHi) with
          | none => exact .refused .tableFull (by decide)
          | some idx =>
              simp only
              generalize hfresh : claimedEntry table.header (table.entries idx)
                (slotHashOf keyedHash table ehash tLo tHi) ehash key tLo tHi w =
                  fresh
              cases hadd : occAddSlot (fillClaimed table idx victim
                  (slotHashOf keyedHash table ehash tLo tHi) ehash fresh)
                    ehash idx with
              | mk answer tracked =>
                  cases answer with
                  | false =>
                      exact .undone idx victim fresh tracked hfind hcap hclaim
                        hfresh.symm hadd
                  | true =>
                      exact .inserted idx victim fresh tracked hfind hcap hclaim
                        hfresh.symm hadd

/-! ## Victims and claimed slots -/

theorem claimSlot_some {table : Table} {slotKey : UInt64} {idx : ℕ}
    (hclaim : claimSlot table slotKey = some idx) :
    idx ∈ probeWindow table.header slotKey ∧ ¬ (table.entries idx).Live := by
  constructor
  · exact List.mem_of_find?_eq_some hclaim
  · simpa using List.find?_some hclaim

/-- The victim search only ever proposes a live edge of the entity. -/
theorem weakestFold_victim {table : Table} {ehash : UInt64} {record : Occ}
    {listed : List ℕ} {best : Option ℕ × ℕ} {victim : ℕ}
    (hbest : ∀ old, best.1 = some old → old ∈ table.edges ehash)
    (hvictim : (listed.foldl (weakestStep table ehash record) best).1 =
      some victim) :
    victim ∈ table.edges ehash := by
  induction listed generalizing best with
  | nil => exact hbest victim hvictim
  | cons i rest ih =>
      rw [List.foldl_cons] at hvictim
      refine ih ?_ hvictim
      intro old hold
      unfold weakestStep at hold
      simp only at hold
      split_ifs at hold with hrange hlive hsame hlighter
      · exact hbest old hold
      · exact hbest old hold
      · simp only [Option.some.injEq] at hold
        subst hold
        exact mem_edges.mpr ⟨Nat.lt_of_not_ge hrange, hlive, not_not.mp hsame⟩
      · exact hbest old hold
      · exact hbest old hold

/-- A victim is a live edge of the entity, which has a sidecar record and has
reached its cap. -/
theorem capDecision_victim {table : Table} {ehash : UInt64} {delta victim : ℕ}
    (hcap : capDecision table ehash delta = some (some victim)) :
    victim ∈ table.edges ehash ∧
      table.header.perEntityCap ≤ occCount table ehash := by
  unfold capDecision at hcap
  split_ifs at hcap with hfull
  · refine ⟨?_, hfull⟩
    cases hweak : weakestEdge table ehash with
    | mk found weakestW =>
        rw [hweak] at hcap
        cases found with
        | none => simp at hcap
        | some found =>
            simp only at hcap
            split_ifs at hcap
            simp only [Option.some.injEq] at hcap
            subst hcap
            unfold weakestEdge at hweak
            cases hrecord : (occFind table ehash false).1 with
            | none => simp [hrecord] at hweak
            | some recordIdx =>
                simp only [hrecord] at hweak
                exact weakestFold_victim (by simp)
                  (congrArg Prod.fst hweak)
  · simp at hcap

theorem capDecision_noVictim {table : Table} {ehash : UInt64} {delta : ℕ}
    (hcap : capDecision table ehash delta = some none) :
    occCount table ehash < table.header.perEntityCap := by
  unfold capDecision at hcap
  split_ifs at hcap with hfull
  · split at hcap
    · simp at hcap
    · split_ifs at hcap
      simp at hcap
  · omega

theorem claimed_ne_victim {table : Table} {slotKey ehash : UInt64}
    {delta idx victim : ℕ} (hclaim : claimSlot table slotKey = some idx)
    (hcap : capDecision table ehash delta = some (some victim)) :
    victim ≠ idx := by
  intro heq
  subst heq
  have hlive := (mem_edges.mp (capDecision_victim hcap).1).2.1
  exact (claimSlot_some hclaim).2 hlive

theorem fillClaimed_header (table : Table) (idx : ℕ) (victim : Option ℕ)
    (slotKey ehash : UInt64) (fresh : Entry) :
    (fillClaimed table idx victim slotKey ehash fresh).header = table.header := by
  unfold fillClaimed
  cases victim with
  | none => rfl
  | some victim => exact (occDelSlot_frame _ _ _).1

theorem fillClaimed_entries {table : Table} {idx : ℕ} {victim : Option ℕ}
    {slotKey ehash : UInt64} {delta : ℕ} (fresh : Entry)
    (hclaim : claimSlot table slotKey = some idx)
    (hcap : capDecision table ehash delta = some victim) :
    (fillClaimed table idx victim slotKey ehash fresh).entries =
      Function.update (retiredEntries table victim) idx fresh := by
  unfold fillClaimed retireVictim retiredEntries
  cases victim with
  | none => simp
  | some victim =>
      have hne := claimed_ne_victim hclaim hcap
      simp only [setEntry_entries, (occDelSlot_frame _ _ _).2]
      funext other
      by_cases hother : other = idx
      · simp [hother]
      · by_cases hvictim : other = victim
        · subst hvictim
          simp [hne]
        · simp [hother, hvictim]

theorem tracked_setEntry {table tracked : Table} {idx : ℕ} {victim : Option ℕ}
    {slotKey ehash : UInt64} {delta : ℕ} {fresh : Entry} {answer : Bool}
    (hclaim : claimSlot table slotKey = some idx)
    (hcap : capDecision table ehash delta = some victim)
    (hadd : occAddSlot (fillClaimed table idx victim slotKey ehash fresh)
      ehash idx = (answer, tracked)) (final : Entry) :
    (tracked.setEntry idx final).header = table.header ∧
      (tracked.setEntry idx final).entries =
        Function.update (retiredEntries table victim) idx final := by
  have hframe := occAddSlot_frame
    (fillClaimed table idx victim slotKey ehash fresh) ehash idx
  rw [hadd] at hframe
  rw [setEntry_header, setEntry_entries, hframe.1, hframe.2,
    fillClaimed_header, fillClaimed_entries fresh hclaim hcap]
  simp

theorem applyEdge_header (keyedHash : KeyedHash) (table : Table)
    (ehash : UInt64) (key : List UInt8) (tLo tHi : UInt32) (w : Witnesses) :
    (applyEdge keyedHash table ehash key tLo tHi w).table.header =
      table.header := by
  have hstep := applyEdge_edgeStep keyedHash table ehash key tLo tHi w
  generalize applyEdge keyedHash table ehash key tLo tHi w = outcome at hstep
  cases hstep with
  | refused => rfl
  | reinforced => rfl
  | undone idx victim fresh tracked _ hcap hclaim _ hadd =>
      exact (tracked_setEntry hclaim hcap hadd _).1
  | inserted idx victim fresh tracked _ hcap hclaim _ hadd =>
      exact (tracked_setEntry hclaim hcap hadd _).1

/-- The table after the cap victim has been retired. -/
def retiredTable (table : Table) (victim : Option ℕ) : Table :=
  { table with entries := retiredEntries table victim }

theorem tombstone_dead {entry : Entry} (htomb : entry.keyHash = slotTombstone) :
    ¬ entry.Live := by
  intro hlive
  exact hlive.2 htomb

/-- The edges of an entity once its cap victim has been retired. -/
def retiredEdges (table : Table) (ehash : UInt64) :
    Option ℕ → UInt64 → Finset ℕ
  | none => table.edges
  | some victim =>
      Function.update table.edges ehash ((table.edges ehash).erase victim)

theorem retiredEdges_subset (table : Table) (ehash : UInt64) (victim : Option ℕ)
    (other : UInt64) : retiredEdges table ehash victim other ⊆ table.edges other := by
  cases victim with
  | none => exact Finset.Subset.refl _
  | some victim =>
      simp only [retiredEdges]
      by_cases heq : other = ehash
      · rw [heq, Function.update_self]
        exact Finset.erase_subset _ _
      · rw [Function.update_of_ne heq]

theorem edges_retiredTable {table : Table} {ehash : UInt64} {delta : ℕ}
    {victim : Option ℕ} (hcap : capDecision table ehash delta = some victim) :
    (retiredTable table victim).edges = retiredEdges table ehash victim := by
  cases victim with
  | none => rfl
  | some victim =>
      have hvictim := mem_edges.mp (capDecision_victim hcap).1
      have hdead : ¬ Entry.Live
          { table.entries victim with weight := 0, keyHash := slotTombstone } :=
        tombstone_dead rfl
      funext other
      calc
        (retiredTable table (some victim)).edges other =
            (table.edges other).erase victim :=
          edges_setEntry_of_dead hdead other
        _ = retiredEdges table ehash (some victim) other := by
          simp only [retiredEdges]
          by_cases heq : other = ehash
          · rw [heq, Function.update_self]
          · rw [Function.update_of_ne heq, Finset.erase_eq_of_notMem]
            intro hmem
            exact heq ((mem_edges.mp hmem).2.2.symm.trans hvictim.2.2)

theorem notMem_retiredEdges {table : Table} {slotKey ehash : UInt64} {delta idx : ℕ}
    {victim : Option ℕ} (hclaim : claimSlot table slotKey = some idx)
    (hcap : capDecision table ehash delta = some victim) (other : UInt64) :
    idx ∉ retiredEdges table ehash victim other := by
  rw [← edges_retiredTable hcap, mem_edges]
  rintro ⟨-, hlive, -⟩
  cases victim with
  | none => exact (claimSlot_some hclaim).2 hlive
  | some victim =>
      have hne := claimed_ne_victim hclaim hcap
      simp only [retiredTable, retiredEntries,
        Function.update_of_ne (Ne.symm hne)] at hlive
      exact (claimSlot_some hclaim).2 hlive

/-- The edges of the table which an insertion, or an undone claim, leaves. -/
theorem edges_tracked_setEntry {table tracked : Table} {idx : ℕ}
    {victim : Option ℕ} {slotKey ehash : UInt64} {delta : ℕ}
    {fresh final : Entry} {answer : Bool}
    (hclaim : claimSlot table slotKey = some idx)
    (hcap : capDecision table ehash delta = some victim)
    (hadd : occAddSlot (fillClaimed table idx victim slotKey ehash fresh)
      ehash idx = (answer, tracked)) :
    (tracked.setEntry idx final).edges =
      ((retiredTable table victim).setEntry idx final).edges := by
  obtain ⟨hheader, hentries⟩ := tracked_setEntry hclaim hcap hadd final
  exact edges_congr (by rw [hheader]; rfl) hentries

@[simp] theorem quarantineReassess_keyHash (h : Header) (entry : Entry) :
    (quarantineReassess h entry).keyHash = entry.keyHash := by
  unfold quarantineReassess
  split_ifs <;> rfl

@[simp] theorem quarantineReassess_entityHash (h : Header) (entry : Entry) :
    (quarantineReassess h entry).entityHash = entry.entityHash := by
  unfold quarantineReassess
  split_ifs <;> rfl

@[simp] theorem quarantineReassess_tLo (h : Header) (entry : Entry) :
    (quarantineReassess h entry).tLo = entry.tLo := by
  unfold quarantineReassess
  split_ifs <;> rfl

@[simp] theorem quarantineReassess_tHi (h : Header) (entry : Entry) :
    (quarantineReassess h entry).tHi = entry.tHi := by
  unfold quarantineReassess
  split_ifs <;> rfl

@[simp] theorem quarantineReassess_weight (h : Header) (entry : Entry) :
    (quarantineReassess h entry).weight = entry.weight := by
  unfold quarantineReassess
  split_ifs <;> rfl

@[simp] theorem quarantineReassess_budget (h : Header) (entry : Entry) :
    (quarantineReassess h entry).budget = entry.budget := by
  unfold quarantineReassess
  split_ifs <;> rfl

@[simp] theorem quarantineReassess_srcCount (h : Header) (entry : Entry) :
    (quarantineReassess h entry).srcCount = entry.srcCount := by
  unfold quarantineReassess
  split_ifs <;> rfl

theorem edges_reinforced (table : Table) (idx : ℕ) (w : Witnesses)
    (budget : Fin 5 → Budget) (bump : ℕ) :
    (table.setEntry idx
      (reinforcedEntry table.header (table.entries idx) w budget bump)).edges =
        table.edges := by
  apply edges_setEntry_of_same
  · simp [Entry.Live, reinforcedEntry]
  · simp [reinforcedEntry]

/-! ## Decay -/

/-- What one decay pass makes of an entry. -/
def decayedEntry (h : Header) (entry : Entry) : Entry :=
  if ¬ entry.Live then entry
  else if decayedWeight h entry < h.noiseFloor then
    { entry with keyHash := slotTombstone }
  else { entry with weight := decayedWeight h entry }

theorem decayStep_header (state : Table × ℕ) (idx : ℕ) :
    (decayStep state idx).1.header = state.1.header := by
  unfold decayStep
  simp only
  split_ifs
  · rfl
  · exact (occAddSlot_frame _ _ _).1
  · rfl

theorem decayStep_entries (state : Table × ℕ) (idx : ℕ) :
    (decayStep state idx).1.entries =
      Function.update state.1.entries idx
        (decayedEntry state.1.header (state.1.entries idx)) := by
  unfold decayStep decayedEntry
  simp only
  split_ifs
  · rfl
  · exact (occAddSlot_frame _ _ _).2
  · rw [Function.update_eq_self]

/-- The induction rule of a decay pass: `k` entries have been visited. -/
theorem decay_induction {table : Table} {motive : ℕ → Table → Prop}
    (hstart : motive 0 (zeroSidecar table))
    (hstep : ∀ k state, k < table.header.capacity →
      state.1.header = table.header → motive k state.1 →
      motive (k + 1) (decayStep state k).1) :
    motive table.header.capacity (decay table).1 := by
  refine (foldl_range_induction (motive := fun k (state : Table × ℕ) =>
    state.1.header = table.header ∧ motive k state.1) table.header.capacity
      ⟨rfl, hstart⟩ ?_).2
  rintro k state hk ⟨hheader, hgood⟩
  exact ⟨(decayStep_header state k).trans hheader, hstep k state hk hheader hgood⟩

theorem decayStep_rewrites (h : Header) :
    Rewrites (fun state : Table × ℕ => state.1.header = h) (fun state => state.1.entries)
      (decayedEntry h) decayStep where
  fixed state idx hheader := (decayStep_header state idx).trans hheader
  slots_step state idx hheader := by rw [decayStep_entries, hheader]

theorem decay_header (table : Table) : (decay table).1.header = table.header :=
  (decayStep_rewrites table.header).fixed_foldl rfl _

theorem decay_entries (table : Table) (idx : ℕ) :
    (decay table).1.entries idx =
      if idx < table.header.capacity then
        decayedEntry table.header (table.entries idx)
      else table.entries idx :=
  (decayStep_rewrites table.header).slots_foldl rfl _ idx

/-- A decayed entry is live only if the entry was, and it keeps its key. -/
theorem live_of_decayedEntry {h : Header} {entry : Entry}
    (hlive : (decayedEntry h entry).Live) :
    entry.Live ∧ h.noiseFloor ≤ decayedWeight h entry ∧
      decayedEntry h entry = { entry with weight := decayedWeight h entry } := by
  unfold decayedEntry at hlive ⊢
  split_ifs at hlive ⊢ with hold hfloor
  · exact absurd rfl hlive.2
  · exact ⟨hold, Nat.le_of_not_gt hfloor, rfl⟩
  · exact absurd hlive hold

/-! ## Runs of the single writer -/

/-- One call of the writer with its arguments. -/
inductive Call where
  | reinforce (key : List UInt8) (tA tB : UInt32) (etaFp16 sourceId : UInt16)
      (nowRel : UInt32)
  | reinforceBatch (key : List UInt8) (acts : List Activation) (nowRel : UInt32)
  | decay
  | reset

/-- The table after a call, and the events of the call. -/
def performCall (keyedHash : KeyedHash) (table : Table) : Call → Table × List Event
  | .reinforce key tA tB etaFp16 sourceId nowRel =>
      let outcome := reinforce keyedHash table key tA tB etaFp16 sourceId nowRel
      (outcome.table, outcome.events)
  | .reinforceBatch key acts nowRel =>
      let batch := reinforceBatch keyedHash table key acts nowRel
      (batch.table, batch.events)
  | .decay => ((Tac.decay table).1, [])
  | .reset => (Tac.reset table, [])

/-- The table and the account of everything done to it so far. -/
structure History where
  table : Table
  events : List Event

/-- The runs of the single writer on a table which `create` made. -/
def writer (keyedHash : KeyedHash) : TransitionSystem History Call where
  Initial history :=
    (∃ cfg epoch hashKey, create cfg epoch hashKey = some history.table) ∧
      history.events = []
  step history call :=
    let after := performCall keyedHash history.table call
    some ⟨after.1, history.events ++ after.2⟩

/-- The history which a list of calls leaves. -/
def replay (keyedHash : KeyedHash) (history : History) (calls : List Call) : History :=
  calls.foldl (fun before call =>
    let after := performCall keyedHash before.table call
    ⟨after.1, before.events ++ after.2⟩) history

theorem run_eq_replay (keyedHash : KeyedHash) (history : History)
    (calls : List Call) :
    (writer keyedHash).run history calls = some (replay keyedHash history calls) := by
  induction calls generalizing history with
  | nil => rfl
  | cons call rest ih =>
      exact (writer keyedHash).run_cons_eq_some.mpr ⟨_, rfl, ih _⟩

/-- A fresh table of four slots. -/
def smallTable : Table where
  header := {
    magic := magicWord
    formatVersion := version
    capacity := 4
    mask := 3
    hashKey := []
    epoch := 0
    decayNovelFp16 := defaultDecayNovelFp16
    decayCorrFp16 := defaultDecayCorrFp16
    noiseFloor := defaultNoiseFloor
    occSlots := 4
    budgetPerSource := defaultBudgetPerSource
    perEntityCap := defaultPerEntityCap
    corroborationSrcMin := defaultCorroborationMin
    tickSeconds := defaultTickSeconds
    quarantineMinW := defaultQuarantineMinW }
  entries := fun _ => Entry.zero
  occ := fun _ => Occ.zero

theorem create_smallTable : create (some { capacity := 4 }) 0 [] = some smallTable :=
  rfl

theorem reachable_replay (keyedHash : KeyedHash) (calls : List Call) :
    (writer keyedHash).Reachable (replay keyedHash ⟨smallTable, []⟩ calls) :=
  ⟨⟨smallTable, []⟩, calls, ⟨⟨_, _, _, create_smallTable⟩, rfl⟩,
    run_eq_replay keyedHash _ calls⟩

/-- Two sources fire one pair of an entity, and a decay pass follows. -/
def twoWitnesses : History :=
  replay (fun _ _ => 7) ⟨smallTable, []⟩
    [.reinforceBatch [1] [⟨10, 0xFFFF, 1⟩, ⟨20, 0xFFFF, 2⟩] 0, .decay]

/-- The sources of a call have been checked and normalized. -/
structure Witnesses.Normal (w : Witnesses) : Prop where
  w0_ne_none : w.w0Src ≠ srcNone
  w0_ne_other : w.w0Src ≠ srcOther
  w1_ne_other : w.w1Src ≠ srcOther

theorem normalizeSource_ne_other (source : UInt16) :
    normalizeSource source ≠ srcOther := by
  unfold normalizeSource
  split_ifs with hother
  · decide
  · exact hother

theorem normalizeSource_ne_none {source : UInt16} (hsource : source ≠ srcNone) :
    normalizeSource source ≠ srcNone := by
  unfold normalizeSource
  split_ifs
  · decide
  · exact hsource

theorem normal_of_sources {source other etaFp16 otherEta : UInt16}
    {nowRel : UInt32} (hsource : source ≠ srcNone) (hother : other ≠ srcOther) :
    Witnesses.Normal ⟨etaFp16, normalizeSource source, otherEta, other, nowRel⟩ where
  w0_ne_none := normalizeSource_ne_none hsource
  w0_ne_other := normalizeSource_ne_other source
  w1_ne_other := hother

theorem source_ne_none_of_mem_batchPairs {acts : List Activation}
    {pair : Activation × Activation} (hmem : pair ∈ batchPairs acts) :
    pair.1.sourceId ≠ srcNone := by
  induction acts with
  | nil => simp [batchPairs] at hmem
  | cons first rest ih =>
      unfold batchPairs at hmem
      rcases List.mem_append.mp hmem with hhead | htail
      · split_ifs at hhead with hnone
        · simp at hhead
        · obtain ⟨second, _, rfl⟩ := List.mem_map.mp hhead
          exact hnone
      · exact ih htail

theorem technique_ne_of_mem_batchPairs {acts : List Activation}
    {pair : Activation × Activation} (hmem : pair ∈ batchPairs acts) :
    pair.1.technique ≠ pair.2.technique := by
  induction acts with
  | nil => simp [batchPairs] at hmem
  | cons first rest ih =>
      unfold batchPairs at hmem
      rcases List.mem_append.mp hmem with hhead | htail
      · split_ifs at hhead
        · simp at hhead
        · obtain ⟨second, hsecond, rfl⟩ := List.mem_map.mp hhead
          simpa using (of_decide_eq_true (List.mem_filter.mp hsecond).2).2
      · exact ih htail

/-- Both entry points order the two techniques of a pair. -/
theorem ordered_techniques {tA tB : UInt32} (hne : tA ≠ tB) :
    (if tA < tB then tA else tB) < (if tA < tB then tB else tA) := by
  split_ifs with hlt
  · exact hlt
  · exact UInt32.lt_of_le_of_ne (UInt32.not_lt.mp hlt) (Ne.symm hne)

theorem mem_of_mem_batchPairs {acts : List Activation}
    {pair : Activation × Activation} (hmem : pair ∈ batchPairs acts) :
    pair.1 ∈ acts ∧ pair.2 ∈ acts := by
  induction acts with
  | nil => simp [batchPairs] at hmem
  | cons first rest ih =>
      unfold batchPairs at hmem
      rcases List.mem_append.mp hmem with hhead | htail
      · split_ifs at hhead
        · simp at hhead
        · obtain ⟨second, hsecond, rfl⟩ := List.mem_map.mp hhead
          exact ⟨List.mem_cons_self,
            List.mem_cons_of_mem _ (List.mem_filter.mp hsecond).1⟩
      · exact ⟨List.mem_cons_of_mem _ (ih htail).1,
          List.mem_cons_of_mem _ (ih htail).2⟩

/-- The witnesses of the call which a batch makes for one pair. -/
def pairWitnesses (pair : Activation × Activation) (nowRel : UInt32) : Witnesses :=
  ⟨pair.1.etaFp16, normalizeSource pair.1.sourceId,
    pair.2.etaFp16, normalizeSource pair.2.sourceId, nowRel⟩

theorem normal_of_mem_batchPairs {acts : List Activation}
    {pair : Activation × Activation} (hmem : pair ∈ batchPairs acts)
    (nowRel : UInt32) : (pairWitnesses pair nowRel).Normal :=
  normal_of_sources (source_ne_none_of_mem_batchPairs hmem)
    (normalizeSource_ne_other _)

/-- What every `applyEdge` of a batch keeps, the batch keeps; `Fit` is what is
known of the witnesses. -/
theorem batch_induction {keyedHash : KeyedHash}
    {motive : Table → List Event → Prop} {Fit : Witnesses → Prop}
    {ehash : UInt64} {key : List UInt8} {nowRel : UInt32}
    (hedge : ∀ table events tLo tHi w, motive table events → tLo < tHi → Fit w →
      motive (applyEdge keyedHash table ehash key tLo tHi w).table
        (events ++ (applyEdge keyedHash table ehash key tLo tHi w).events))
    {pairs : List (Activation × Activation)}
    (hordered : ∀ pair ∈ pairs, pair.1.technique ≠ pair.2.technique)
    (hpairs : ∀ pair ∈ pairs, Fit (pairWitnesses pair nowRel))
    {before : List Event} {state : BatchState}
    (hgood : motive state.table (before ++ state.events)) :
    motive (pairs.foldl (batchStep keyedHash ehash key nowRel) state).table
      (before ++
        (pairs.foldl (batchStep keyedHash ehash key nowRel) state).events) := by
  induction pairs generalizing state with
  | nil => exact hgood
  | cons pair rest ih =>
      rw [List.foldl_cons]
      apply ih (fun other hmem => hordered other (List.mem_cons_of_mem _ hmem))
        fun other hmem => hpairs other (List.mem_cons_of_mem _ hmem)
      simp only [batchStep, ← List.append_assoc]
      exact hedge _ _ _ _ _ hgood
        (ordered_techniques (hordered pair List.mem_cons_self))
        (hpairs pair List.mem_cons_self)

/-- A property of tables and histories which `applyEdge`, `decay` and `reset`
keep is kept by every call. -/
theorem performCall_induction {keyedHash : KeyedHash}
    {motive : Table → List Event → Prop}
    (hedge : ∀ table events ehash key tLo tHi w, motive table events →
      ehash ≠ 0 → tLo < tHi → w.Normal →
      motive (applyEdge keyedHash table ehash key tLo tHi w).table
        (events ++ (applyEdge keyedHash table ehash key tLo tHi w).events))
    (hdecay : ∀ table events, motive table events → motive (decay table).1 events)
    (hreset : ∀ table events, motive table events → motive (reset table) events)
    {table : Table} {events : List Event} (hgood : motive table events)
    (call : Call) :
    motive (performCall keyedHash table call).1
      (events ++ (performCall keyedHash table call).2) := by
  cases call with
  | reinforce key tA tB etaFp16 sourceId nowRel =>
      simp only [performCall, reinforce]
      split_ifs with hinvalid
      · simpa using hgood
      all_goals
        simp only [not_or] at hinvalid
        have hordered := ordered_techniques hinvalid.2.2
        simp only [*] at hordered
        exact hedge _ _ _ _ _ _ _ hgood (entityHashOf_ne_zero _ _ _) hordered
          (normal_of_sources hinvalid.2.1 (by decide))
  | reinforceBatch key acts nowRel =>
      simp only [performCall, reinforceBatch]
      split_ifs with hinvalid
      · simpa using hgood
      · exact batch_induction
          (fun table events tLo tHi w htable hordered hnormal =>
            hedge table events _ key tLo tHi w htable
              (entityHashOf_ne_zero _ _ _) hordered hnormal)
          (fun _ hmem => technique_ne_of_mem_batchPairs hmem)
          (fun _ hmem => normal_of_mem_batchPairs hmem nowRel)
          (by simpa using hgood)
  | decay => simpa [performCall] using hdecay table events hgood
  | reset => simpa [performCall] using hreset table events hgood

theorem reachable_induction {keyedHash : KeyedHash}
    {motive : Table → List Event → Prop}
    (hcreate : ∀ cfg epoch hashKey table,
      create cfg epoch hashKey = some table → motive table [])
    (hedge : ∀ table events ehash key tLo tHi w, motive table events →
      ehash ≠ 0 → tLo < tHi → w.Normal →
      motive (applyEdge keyedHash table ehash key tLo tHi w).table
        (events ++ (applyEdge keyedHash table ehash key tLo tHi w).events))
    (hdecay : ∀ table events, motive table events → motive (decay table).1 events)
    (hreset : ∀ table events, motive table events → motive (reset table) events)
    {history : History} (hreach : (writer keyedHash).Reachable history) :
    motive history.table history.events := by
  apply hreach.invariant (motive := fun state => motive state.table state.events)
  · rintro state ⟨⟨cfg, epoch, hashKey, htable⟩, hevents⟩
    rw [hevents]
    exact hcreate cfg epoch hashKey state.table htable
  · intro state call next hgood hstep
    simp only [writer, Option.some.injEq] at hstep
    subst hstep
    exact performCall_induction hedge hdecay hreset hgood call

end Tac
end LibWake
