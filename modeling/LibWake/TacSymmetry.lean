import LibWake.TacChargeOrder
import LibWake.TacRefusal

/-!
# The order of two activations

A batch of two activations reinforces one pair, whose witnesses are the two in the order of the
list.  The force and the larger eta do not depend on that order, and the charges depend on it only
in who sits in which budget slot.
-/

namespace LibWake
namespace Tac

/-! ## Witnesses -/

def Witnesses.swap (w : Witnesses) : Witnesses :=
  ⟨w.w1Eta, w.w1Src, w.w0Eta, w.w0Src, w.nowRel⟩

/-- Both witnesses are present. -/
structure Witnesses.Both (w : Witnesses) : Prop where
  w0_ne_none : w.w0Src ≠ srcNone
  w1_ne_none : w.w1Src ≠ srcNone

theorem Witnesses.Both.etaHi_swap {w : Witnesses} (hboth : w.Both) : w.swap.etaHi = w.etaHi := by
  show etaHigh w.w1Eta w.w0Eta w.w0Src = etaHigh w.w0Eta w.w1Eta w.w1Src
  unfold etaHigh
  rw [if_congr (and_iff_right hboth.w0_ne_none) rfl rfl,
    if_congr (and_iff_right hboth.w1_ne_none) rfl rfl]
  split_ifs with hfirst hsecond hsecond
  · exact absurd (UInt16.lt_trans hfirst hsecond) (UInt16.lt_irrefl _)
  · rfl
  · rfl
  · exact UInt16.le_antisymm (UInt16.not_lt.mp hsecond) (UInt16.not_lt.mp hfirst)

theorem Witnesses.Both.delta_swap {w : Witnesses} (hboth : w.Both) : w.swap.delta = w.delta := by
  have hlow : etaLow w.w1Eta w.w0Eta w.w0Src = etaLow w.w0Eta w.w1Eta w.w1Src := by
    unfold etaLow
    rw [if_congr (and_iff_right hboth.w0_ne_none) rfl rfl,
      if_congr (and_iff_right hboth.w1_ne_none) rfl rfl]
    split_ifs with hfirst hsecond hsecond
    · exact absurd (UInt16.lt_trans hfirst hsecond) (UInt16.lt_irrefl _)
    · rfl
    · rfl
    · exact UInt16.le_antisymm (UInt16.not_lt.mp hfirst) (UInt16.not_lt.mp hsecond)
  simp only [Witnesses.delta, Witnesses.swap, jointDelta, hlow]

theorem Witnesses.Both.quarantineRefuses_swap {w : Witnesses} (hboth : w.Both) (entry : Entry) :
    quarantineRefuses entry w.swap = quarantineRefuses entry w := by
  have h0 : (w.w0Src == srcNone) = false := beq_eq_false_iff_ne.mpr hboth.w0_ne_none
  have h1 : (w.w1Src == srcNone) = false := beq_eq_false_iff_ne.mpr hboth.w1_ne_none
  simp only [quarantineRefuses, Witnesses.swap, h0, h1, Bool.false_or]
  rw [Bool.and_assoc, Bool.and_assoc, Bool.and_comm (budgetKnowsSource entry.budget w.w1Src)]

/-! ## Entries and tables up to the sources of the budget slots -/

/-- Two entries agree in everything but the sources of their budget slots. -/
structure Entry.Agrees (entry entry' : Entry) : Prop where
  fields : entry' = { entry with budget := entry'.budget }
  alike : Alike entry.budget entry'.budget

structure Table.Agrees (table table' : Table) : Prop where
  header : table'.header = table.header
  occ : table'.occ = table.occ
  entries : ∀ idx, (table.entries idx).Agrees (table'.entries idx)

protected theorem Table.Agrees.refl (table : Table) : table.Agrees table :=
  ⟨rfl, rfl, fun _ => ⟨rfl, .refl _⟩⟩

theorem Table.Agrees.setEntry {table table' : Table} (hagrees : table.Agrees table')
    {entry entry' : Entry} (hentry : entry.Agrees entry') (idx : ℕ) :
    (table.setEntry idx entry).Agrees (table'.setEntry idx entry') := by
  refine ⟨hagrees.header, hagrees.occ, fun other => ?_⟩
  rw [setEntry_entries, setEntry_entries]
  by_cases heq : other = idx
  · subst heq
    rwa [Function.update_self, Function.update_self]
  · rw [Function.update_of_ne heq, Function.update_of_ne heq]
    exact hagrees.entries other

theorem Entry.Agrees.withWeight {entry entry' : Entry} (hagrees : entry.Agrees entry')
    (weight : ℕ) :
    Entry.Agrees { entry with weight := weight } { entry' with weight := weight } := by
  obtain ⟨hfields, halike⟩ := hagrees
  rw [hfields]
  exact ⟨rfl, halike⟩

theorem Entry.Agrees.withKey {entry entry' : Entry} (hagrees : entry.Agrees entry')
    (keyHash : UInt64) :
    Entry.Agrees { entry with keyHash := keyHash } { entry' with keyHash := keyHash } := by
  obtain ⟨hfields, halike⟩ := hagrees
  rw [hfields]
  exact ⟨rfl, halike⟩

/-! ## An existing edge -/

theorem topSpent_congr {budget budget' : Fin 5 → Budget} (halike : Alike budget budget') :
    topSpent budget' = topSpent budget := by
  simp only [topSpent, halike.spent]

theorem quarantineReassess_agrees (h : Header) (entry : Entry) {budget : Fin 5 → Budget}
    (halike : Alike entry.budget budget) :
    (quarantineReassess h entry).Agrees (quarantineReassess h { entry with budget := budget }) := by
  simp only [quarantineReassess, topSpent_congr halike]
  split_ifs <;> exact ⟨rfl, halike⟩

theorem reinforcedEntry_agrees (h : Header) (entry : Entry) {w : Witnesses} (hboth : w.Both)
    {budget budget' : Fin 5 → Budget} (halike : Alike budget budget') (bump : ℕ) :
    (reinforcedEntry h entry w budget bump).Agrees
      (reinforcedEntry h entry w.swap budget' bump) := by
  unfold reinforcedEntry
  rw [hboth.etaHi_swap, hboth.delta_swap]
  exact quarantineReassess_agrees h _ halike

/-- Two outcomes give the same answer and agreeing tables. -/
structure Outcome.Agrees (outcome outcome' : Outcome) : Prop where
  result : outcome'.result = outcome.result
  table : outcome.table.Agrees outcome'.table

theorem applyExisting_agrees (table : Table) (idx : ℕ) {w : Witnesses} (hboth : w.Both) :
    (applyExisting table idx w).Agrees (applyExisting table idx w.swap) := by
  have hcomm := chargeExisting_comm table.header (table.entries idx).budget hboth.w0_ne_none
    hboth.w1_ne_none w.delta
  unfold applyExisting
  simp only [hboth.quarantineRefuses_swap, hboth.delta_swap]
  by_cases hrefuses : quarantineRefuses (table.entries idx) w = true
  · rw [if_pos hrefuses, if_pos hrefuses]
    exact ⟨rfl, .refl table⟩
  · rw [if_neg hrefuses, if_neg hrefuses]
    simp only [Witnesses.swap]
    cases hforth : chargeExisting table.header (table.entries idx).budget w.w0Src w.w1Src
        w.delta with
    | none =>
        rw [hforth] at hcomm
        cases hback : chargeExisting table.header (table.entries idx).budget w.w1Src w.w0Src
            w.delta with
        | none => exact ⟨rfl, .refl table⟩
        | some charged =>
            rw [hback] at hcomm
            cases hcomm
    | some charged =>
        rw [hforth] at hcomm
        cases hback : chargeExisting table.header (table.entries idx).budget w.w1Src w.w0Src
            w.delta with
        | none =>
            rw [hback] at hcomm
            cases hcomm
        | some charged' =>
            obtain ⟨budget, bump, accepted⟩ := charged
            obtain ⟨budget', bump', accepted'⟩ := charged'
            rw [hback] at hcomm
            cases hcomm with
            | some hsame =>
                obtain ⟨halike, rfl⟩ := hsame
                exact ⟨rfl, (Table.Agrees.refl table).setEntry
                  (reinforcedEntry_agrees table.header _ hboth halike _) idx⟩

/-! ## A new edge -/

theorem claimedEntry_agrees (h : Header) (stale : Entry) (slotKey ehash : UInt64)
    (key : List UInt8) (tLo tHi : UInt32) {w : Witnesses} (hboth : w.Both) :
    (claimedEntry h stale slotKey ehash key tLo tHi w).Agrees
      (claimedEntry h stale slotKey ehash key tLo tHi w.swap) := by
  obtain ⟨halike, hbump⟩ := chargeFresh_comm h hboth.w0_ne_none hboth.w1_ne_none w.delta
  have hdelta := hboth.delta_swap
  have heta := hboth.etaHi_swap
  simp only [Witnesses.swap] at halike hbump hdelta heta
  constructor
  · simp only [claimedEntry, Witnesses.swap, hdelta, heta, hbump]
  · simpa only [claimedEntry, Witnesses.swap, hdelta] using halike

/-- The sidecar loops do not touch the entries. -/
theorem setEntry_unseen (idx : ℕ) (entry : Entry) (h : Header) (ehash : UInt64) :
    Unseen (fun table => table.setEntry idx entry) h ehash where
  header _ := rfl
  read _ _ _ _ := rfl
  write _ _ _ _ _ := rfl

theorem occAddSlot_setEntry (table : Table) (idx : ℕ) (entry : Entry) (ehash : UInt64)
    (entryIdx : ℕ) :
    occAddSlot (table.setEntry idx entry) ehash entryIdx =
      ((occAddSlot table ehash entryIdx).1,
        (occAddSlot table ehash entryIdx).2.setEntry idx entry) :=
  (setEntry_unseen idx entry table.header ehash).occAddSlot entryIdx

theorem applyNew_agrees (table : Table) (slotKey ehash : UInt64) (key : List UInt8)
    (tLo tHi : UInt32) {w : Witnesses} (hboth : w.Both) :
    (applyNew table slotKey ehash key tLo tHi w).Agrees
      (applyNew table slotKey ehash key tLo tHi w.swap) := by
  unfold applyNew
  rw [hboth.delta_swap]
  cases capDecision table ehash w.delta with
  | none => exact ⟨rfl, .refl table⟩
  | some victim =>
      simp only
      cases claimSlot table slotKey with
      | none => exact ⟨rfl, .refl table⟩
      | some idx =>
          have hfresh := claimedEntry_agrees table.header (table.entries idx) slotKey ehash key
            tLo tHi hboth
          simp only [fillClaimed, occAddSlot_setEntry]
          generalize claimedEntry table.header (table.entries idx) slotKey ehash key tLo tHi w =
            fresh at hfresh ⊢
          generalize claimedEntry table.header (table.entries idx) slotKey ehash key tLo tHi
            w.swap = fresh' at hfresh ⊢
          generalize occAddSlot (retireVictim (table.setEntry idx
            { table.entries idx with keyHash := slotKey }) ehash victim) ehash idx = added
          obtain ⟨answer, tracked⟩ := added
          have hfilled := (Table.Agrees.refl tracked).setEntry hfresh idx
          cases answer with
          | false => exact ⟨rfl, hfilled.setEntry (hfresh.withKey slotTombstone) idx⟩
          | true => exact ⟨rfl, hfilled.setEntry (hfresh.withWeight w.delta) idx⟩

/-! ## The batch -/

theorem applyEdge_agrees (keyedHash : KeyedHash) (table : Table) (ehash : UInt64)
    (key : List UInt8) (tLo tHi : UInt32) {w : Witnesses} (hboth : w.Both) :
    (applyEdge keyedHash table ehash key tLo tHi w).Agrees
      (applyEdge keyedHash table ehash key tLo tHi w.swap) := by
  simp only [applyEdge]
  cases findSlot table (slotHashOf keyedHash table ehash tLo tHi) with
  | none => exact applyNew_agrees table _ ehash key tLo tHi hboth
  | some idx => exact applyExisting_agrees table idx hboth

theorem pairOutcome_agrees (keyedHash : KeyedHash) (table : Table) (ehash : UInt64)
    (key : List UInt8) (nowRel : UInt32) {x y : Activation} (hx : x.sourceId ≠ srcNone)
    (hy : y.sourceId ≠ srcNone) (hne : x.technique ≠ y.technique) :
    (pairOutcome keyedHash table ehash key nowRel (x, y)).Agrees
      (pairOutcome keyedHash table ehash key nowRel (y, x)) := by
  have hboth : (pairWitnesses (x, y) nowRel).Both :=
    ⟨normalizeSource_ne_none hx, normalizeSource_ne_none hy⟩
  have hagrees := fun tLo tHi => applyEdge_agrees keyedHash table ehash key tLo tHi hboth
  unfold pairOutcome
  by_cases hlt : x.technique < y.technique
  · have hge : ¬ y.technique < x.technique := fun h =>
      UInt32.lt_irrefl _ (UInt32.lt_trans hlt h)
    simp only [if_pos hlt, if_neg hge]
    exact hagrees _ _
  · have hgt : y.technique < x.technique :=
      UInt32.lt_of_le_of_ne (UInt32.not_lt.mp hlt) (Ne.symm hne)
    simp only [if_pos hgt, if_neg hlt]
    exact hagrees _ _

theorem batchPairs_two {x y : Activation} (hx : x.sourceId ≠ srcNone)
    (hy : y.sourceId ≠ srcNone) :
    batchPairs [x, y] = if x.technique = y.technique then [] else [(x, y)] := by
  by_cases heq : x.technique = y.technique <;> simp [batchPairs, hx, hy, heq]

/-- The five spent values of an entry, in no order. -/
def spentValues (entry : Entry) : Multiset ℕ :=
  Finset.univ.val.map fun i => (entry.budget i).spent

/-- In every table, reachable or not, a batch of two activations applies the same number of pairs
in either order, and leaves tables which differ in the sources of budget slots at most. -/
theorem witnesses_interchangeable (keyedHash : KeyedHash) (table : Table) (key : List UInt8)
    (nowRel : UInt32) (x y : Activation) (hx : x.sourceId ≠ srcNone) (hy : y.sourceId ≠ srcNone) :
    let forth := reinforceBatch keyedHash table key [x, y] nowRel
    let back := reinforceBatch keyedHash table key [y, x] nowRel
    back.applied = forth.applied ∧ back.table.header = forth.table.header ∧
      back.table.occ = forth.table.occ ∧
      (∀ idx, back.table.entries idx =
        { forth.table.entries idx with budget := (back.table.entries idx).budget }) ∧
      ∀ idx, spentValues (back.table.entries idx) = spentValues (forth.table.entries idx) := by
  intro forth back
  suffices hagrees : back.applied = forth.applied ∧ forth.table.Agrees back.table by
    obtain ⟨happlied, htable⟩ := hagrees
    refine ⟨happlied, htable.header, htable.occ, fun idx => (htable.entries idx).fields, ?_⟩
    intro idx
    exact Multiset.map_congr rfl fun i _ => (htable.entries idx).alike.spent i
  have hbatch : ∀ pairs, key ≠ [] → ∀ first second : Activation,
      batchPairs [first, second] = pairs →
      reinforceBatch keyedHash table key [first, second] nowRel =
        pairs.foldl (batchStep keyedHash (entityHashOf keyedHash table key) key nowRel)
          ⟨table, 0, []⟩ := by
    intro pairs hkey first second hpairs
    rw [reinforceBatch, if_neg (by simp [hkey]), hpairs]
  by_cases hkey : key = []
  · have hnothing : ∀ acts, reinforceBatch keyedHash table key acts nowRel = ⟨table, 0, []⟩ :=
      fun acts => if_pos (Or.inl hkey)
    simp only [forth, back, hnothing]
    exact ⟨trivial, .refl table⟩
  · by_cases heq : x.technique = y.technique
    · simp only [forth, back, hbatch [] hkey x y (by rw [batchPairs_two hx hy, if_pos heq]),
        hbatch [] hkey y x (by rw [batchPairs_two hy hx, if_pos heq.symm])]
      exact ⟨trivial, .refl table⟩
    · simp only [forth, back,
        hbatch [(x, y)] hkey x y (by rw [batchPairs_two hx hy, if_neg heq]),
        hbatch [(y, x)] hkey y x (by rw [batchPairs_two hy hx, if_neg (Ne.symm heq)])]
      have hagrees := pairOutcome_agrees keyedHash table (entityHashOf keyedHash table key) key
        nowRel hx hy heq
      refine ⟨?_, hagrees.table⟩
      rw [List.foldl_cons, List.foldl_cons, List.foldl_nil, List.foldl_nil, batchStep_applied,
        batchStep_applied, hagrees.result]

/-- A source which the edge knows and a new one fire its pair. -/
theorem witnesses_interchangeable_twoWitnesses :
    (reinforceBatch (fun _ _ => 7) twoWitnesses.table [1]
        [⟨20, 0xFFFF, 3⟩, ⟨10, 0xFFFF, 1⟩] 1).applied = 1 ∧
      spentValues ((reinforceBatch (fun _ _ => 7) twoWitnesses.table [1]
          [⟨20, 0xFFFF, 3⟩, ⟨10, 0xFFFF, 1⟩] 1).table.entries 3) =
        spentValues ((reinforceBatch (fun _ _ => 7) twoWitnesses.table [1]
          [⟨10, 0xFFFF, 1⟩, ⟨20, 0xFFFF, 3⟩] 1).table.entries 3) :=
  ⟨by decide +kernel, (witnesses_interchangeable (fun _ _ => 7) twoWitnesses.table [1] 1
    ⟨10, 0xFFFF, 1⟩ ⟨20, 0xFFFF, 3⟩ (by decide) (by decide)).2.2.2.2 3⟩

end Tac
end LibWake
