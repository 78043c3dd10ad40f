import LibWake.TacQuery
import LibWake.TacRefusal

/-!
# What an applied reinforcement changes

A reinforcement which is applied adds its force to the edge of the pair, or makes a new edge of
exactly that weight.  The new edge may cost the entity its weakest edge, which was weaker; nothing
else which is live changes.  The probe window of the new edge is shared with other entities, so
this rests on different triples having different slot hashes.
-/

namespace LibWake
namespace Tac

/-! ## Triples -/

/-- What the slot hash of an edge is taken of. -/
def Entry.triple (entry : Entry) : UInt64 × UInt32 × UInt32 :=
  (entry.entityHash, entry.tLo, entry.tHi)

/-- The triples of the live edges. -/
def Table.triples (table : Table) : Set (UInt64 × UInt32 × UInt32) :=
  {triple | ∃ idx, (table.entries idx).Live ∧ (table.entries idx).triple = triple}

/-- The triples in use, the one of the call included, have different slot hashes. -/
def Distinguished (keyedHash : KeyedHash) (table : Table)
    (triple : UInt64 × UInt32 × UInt32) : Prop :=
  Set.InjOn (fun used => slotHashOf keyedHash table used.1 used.2.1 used.2.2)
    (insert triple table.triples)

theorem Linked.triple_of_found {keyedHash : KeyedHash} {table : Table}
    (hlinked : Linked keyedHash table) {triple : UInt64 × UInt32 × UInt32}
    (hdistinct : Distinguished keyedHash table triple) {idx : ℕ}
    (hfind : findSlot table (slotHashOf keyedHash table triple.1 triple.2.1 triple.2.2) =
      some idx) :
    (table.entries idx).Live ∧ (table.entries idx).triple = triple := by
  obtain ⟨hempty, htomb⟩ :=
    slotHashOf_ne_sentinel keyedHash table triple.1 triple.2.1 triple.2.2
  have hkey := (hlinked.findSlot_eq_some_iff hempty htomb).mp hfind
  have hlive : (table.entries idx).Live := by
    rw [Entry.Live, hkey]
    exact ⟨hempty, htomb⟩
  refine ⟨hlive, ?_⟩
  apply hdistinct (Set.mem_insert_of_mem _ ⟨idx, hlive, rfl⟩) (Set.mem_insert _ _)
  exact (hlinked.keyed idx hlive).key_eq.symm.trans hkey

theorem Linked.notMem_triples {keyedHash : KeyedHash} {table : Table}
    (hlinked : Linked keyedHash table) {triple : UInt64 × UInt32 × UInt32}
    (hfind : findSlot table (slotHashOf keyedHash table triple.1 triple.2.1 triple.2.2) = none) :
    triple ∉ table.triples := by
  rintro ⟨idx, hlive, rfl⟩
  obtain ⟨hempty, htomb⟩ := slotHashOf_ne_sentinel keyedHash table
    (table.entries idx).entityHash (table.entries idx).tLo (table.entries idx).tHi
  exact (hlinked.findSlot_eq_none_iff hempty htomb).mp hfind idx (hlinked.keyed idx hlive).key_eq

/-! ## The weakest edge -/

/-- The victim is an edge of the entity, and none is weaker. -/
structure Weakest (table : Table) (ehash : UInt64) (victim : ℕ) : Prop where
  mem : victim ∈ table.edges ehash
  minimal : ∀ other ∈ table.edges ehash,
    (table.entries victim).weight ≤ (table.entries other).weight

theorem weakestStep_le (table : Table) (ehash : UInt64) (record : Occ) (best : Option ℕ × ℕ)
    (i : ℕ) : (weakestStep table ehash record best i).2 ≤ best.2 := by
  unfold weakestStep
  simp only
  split_ifs <;> omega

theorem weakestStep_le_weight {table : Table} {ehash : UInt64} {record : Occ} {i : ℕ}
    (hedge : record.slot i ∈ table.edges ehash) (best : Option ℕ × ℕ) :
    (weakestStep table ehash record best i).2 ≤ (table.entries (record.slot i)).weight := by
  obtain ⟨hlt, hlive, hhash⟩ := mem_edges.mp hedge
  unfold weakestStep
  simp only
  rw [if_neg (by omega), if_neg (not_not.mpr hlive), if_neg (not_not.mpr hhash)]
  split_ifs <;> omega

theorem weakestStep_weight {table : Table} {ehash : UInt64} {record : Occ}
    {best : Option ℕ × ℕ} (hbest : ∀ old ∈ best.1, (table.entries old).weight = best.2) (i : ℕ) :
    ∀ found ∈ (weakestStep table ehash record best i).1,
      (table.entries found).weight = (weakestStep table ehash record best i).2 := by
  unfold weakestStep
  simp only
  split_ifs
  · exact hbest
  · exact hbest
  · intro found hfound
    rw [← Option.some.inj hfound]
  · exact hbest
  · exact hbest

/-- The weight which the search ends with is below that of every listed edge, and is the weight
of the edge which it proposes. -/
theorem weakestFold_spec {table : Table} {ehash : UInt64} {record : Occ} (listed : List ℕ)
    {best : Option ℕ × ℕ} (hbest : ∀ old ∈ best.1, (table.entries old).weight = best.2) :
    (listed.foldl (weakestStep table ehash record) best).2 ≤ best.2 ∧
      (∀ i ∈ listed, record.slot i ∈ table.edges ehash →
        (listed.foldl (weakestStep table ehash record) best).2 ≤
          (table.entries (record.slot i)).weight) ∧
      ∀ found ∈ (listed.foldl (weakestStep table ehash record) best).1,
        (table.entries found).weight = (listed.foldl (weakestStep table ehash record) best).2 := by
  induction listed generalizing best with
  | nil => exact ⟨le_rfl, fun _ hmem => absurd hmem List.not_mem_nil, hbest⟩
  | cons head rest ih =>
      rw [List.foldl_cons]
      obtain ⟨hle, hlisted, hweight⟩ :=
        ih (@weakestStep_weight table ehash record best hbest head)
      refine ⟨hle.trans (weakestStep_le table ehash record best head), ?_, hweight⟩
      intro i hmem hedge
      rcases List.mem_cons.mp hmem with rfl | hrest
      · exact hle.trans (weakestStep_le_weight hedge best)
      · exact hlisted i hrest hedge

/-- The record of the entity lists all its edges, so the victim is the weakest of all. -/
theorem capDecision_weakest {table : Table} (hcapped : Capped table) {ehash : UInt64}
    (hne : ehash ≠ 0) {delta victim : ℕ}
    (hcap : capDecision table ehash delta = some (some victim)) :
    Weakest table ehash victim ∧ (table.entries victim).weight < delta := by
  obtain ⟨hvictim, hfull⟩ := capDecision_victim hcap
  unfold capDecision weakestEdge at hcap
  rw [if_pos hfull, occFind_noClaim table hne] at hcap
  cases hrecord : OpenAddressing.probeFind (sidecarSlots table.occ) ehash
      (occWindow table.header ehash) with
  | none => simp [hrecord] at hcap
  | some recordIdx =>
      have hhash := (hcapped.tracks.find_eq_some_iff hne).mp hrecord
      have hlists := hcapped.tracks.exact recordIdx (hhash ▸ hne)
      rw [hhash] at hlists
      have hcount : min (table.occ recordIdx).liveCount perEntityCapMax =
          (table.occ recordIdx).liveCount := by
        have hcard := hcapped.card_le_capMax ehash
        rw [hlists.card_eq] at hcard
        omega
      simp only [hrecord, hcount] at hcap
      have hspec := @weakestFold_spec table ehash (table.occ recordIdx)
        (List.range (table.occ recordIdx).liveCount) (none, uint32Max) (by simp)
      generalize (List.range (table.occ recordIdx).liveCount).foldl
        (weakestStep table ehash (table.occ recordIdx)) (none, uint32Max) = found at hcap hspec
      obtain ⟨_, hlisted, hweight⟩ := hspec
      cases found with
      | mk proposed weakestW =>
          cases proposed with
          | none => simp at hcap
          | some proposed =>
              simp only at hcap
              split_ifs at hcap with hstronger
              simp only [Option.some.injEq] at hcap
              subst hcap
              have hsame : (table.entries proposed).weight = weakestW := hweight proposed rfl
              refine ⟨⟨hvictim, ?_⟩, by omega⟩
              intro other hother
              obtain ⟨i, hi, rfl⟩ := hlists.mem_iff.mp hother
              rw [hsame]
              exact hlisted i (List.mem_range.mpr hi) hother

/-! ## What may change -/

/-- The edge of the triple gains the force, and nothing else changes. -/
structure Grows (before after : Table) (triple : UInt64 × UInt32 × UInt32) (delta idx : ℕ) :
    Prop where
  live : (before.entries idx).Live
  triple_eq : (before.entries idx).triple = triple
  same : SameEdge (before.entries idx) (after.entries idx)
  weight : (after.entries idx).weight = (before.entries idx).weight + delta
  others : ∀ other, other ≠ idx → after.entries other = before.entries other

/-- A free slot becomes an edge of the triple, with the force as its weight. -/
structure Adds (before after : Table) (triple : UInt64 × UInt32 × UInt32) (delta idx : ℕ) :
    Prop where
  free : ¬ (before.entries idx).Live
  live : (after.entries idx).Live
  triple_eq : (after.entries idx).triple = triple
  weight : (after.entries idx).weight = delta

/-- What an applied reinforcement of a triple with a given force does to the edges. -/
structure AppliedTo (before after : Table) (triple : UInt64 × UInt32 × UInt32) (delta : ℕ) :
    Prop where
  grown : triple ∈ before.triples → ∃ idx, Grows before after triple delta idx
  added : triple ∉ before.triples →
    occCount before triple.1 < before.header.perEntityCap →
    ∃ idx, Adds before after triple delta idx ∧
      ∀ other, other ≠ idx → after.entries other = before.entries other
  replaced : triple ∉ before.triples →
    ¬ occCount before triple.1 < before.header.perEntityCap →
    ∃ idx victim, Adds before after triple delta idx ∧ Weakest before triple.1 victim ∧
      (before.entries victim).weight < delta ∧ ¬ (after.entries victim).Live ∧
      ∀ other, other ≠ idx → other ≠ victim → after.entries other = before.entries other
  foreign : ∀ idx, (before.entries idx).Live → (before.entries idx).entityHash ≠ triple.1 →
    after.entries idx = before.entries idx
  foreign_edges : ∀ ehash, ehash ≠ triple.1 → after.edges ehash = before.edges ehash
  heavier : ∑ idx ∈ before.edges triple.1, (before.entries idx).weight <
    ∑ idx ∈ after.edges triple.1, (after.entries idx).weight
  not_fewer : (before.edges triple.1).card ≤ (after.edges triple.1).card

/-! ## An existing edge -/

/-- The weight of an edge is far from the end of its counter. -/
theorem reinforced_weight {h : Header} {entry : Entry} (hweight : entry.weight ≤ 5 * 65535)
    (w : Witnesses) (budget : Fin 5 → Budget) (bump : ℕ) :
    (reinforcedEntry h entry w budget bump).weight = entry.weight + w.delta := by
  have hdelta := delta_le w
  simp only [deltaMax] at hdelta
  rw [reinforcedEntry, quarantineReassess_weight]
  simp only
  omega

theorem applied_reinforced {keyedHash : KeyedHash} {table : Table}
    (hreadable : Readable keyedHash table) {triple : UInt64 × UInt32 × UInt32} {idx : ℕ}
    (hlive : (table.entries idx).Live) (htriple : (table.entries idx).triple = triple)
    (w : Witnesses) (budget : Fin 5 → Budget) (bump : ℕ) :
    AppliedTo table
      (table.setEntry idx (reinforcedEntry table.header (table.entries idx) w budget bump))
      triple w.delta := by
  have hweight := reinforced_weight (h := table.header) (hreadable.weight_le idx hlive)
    w budget bump
  have hdelta := delta_pos w
  have hhash : (table.entries idx).entityHash = triple.1 := by rw [← htriple]; rfl
  have hedges := edges_reinforced table idx w budget bump
  have hin : triple ∈ table.triples := ⟨idx, hlive, htriple⟩
  have hothers : ∀ other, other ≠ idx → (table.setEntry idx (reinforcedEntry table.header
      (table.entries idx) w budget bump)).entries other = table.entries other := by
    intro other hne
    rw [setEntry_entries, Function.update_of_ne hne]
  have hself : (table.setEntry idx (reinforcedEntry table.header (table.entries idx) w
      budget bump)).entries idx =
        reinforcedEntry table.header (table.entries idx) w budget bump := by
    rw [setEntry_entries, Function.update_self]
  exact {
    grown := fun _ => ⟨idx, hlive, htriple, by rw [hself]; exact sameEdge_reinforced _ _ _ _ _,
      by rw [hself]; exact hweight, hothers⟩
    added := fun hout => absurd hin hout
    replaced := fun hout => absurd hin hout
    foreign := fun other _ hother => hothers other fun heq => hother (heq ▸ hhash)
    foreign_edges := fun ehash _ => by rw [hedges]
    heavier := by
      rw [hedges]
      apply Finset.sum_lt_sum
      · intro other _
        by_cases heq : other = idx
        · rw [heq, hself, hweight]
          exact Nat.le_add_right _ _
        · rw [hothers other heq]
      · refine ⟨idx, mem_edges.mpr ⟨hreadable.linked.lt_of_live hlive, hlive, hhash⟩, ?_⟩
        rw [hself, hweight]
        omega
    not_fewer := by rw [hedges] }

/-! ## A new edge -/

theorem applied_inserted {table after : Table} {ehash : UInt64} {tLo tHi : UInt32}
    {delta idx : ℕ} {victim : Option ℕ} {final : Entry} (hcapped : Capped table)
    (hne : ehash ≠ 0) (hdelta : 1 ≤ delta) (hout : (ehash, tLo, tHi) ∉ table.triples)
    (hcap : capDecision table ehash delta = some victim)
    (hfree : ¬ (table.entries idx).Live) (hlive : final.Live)
    (htriple : final.triple = (ehash, tLo, tHi)) (hweight : final.weight = delta)
    (hentries : after.entries = Function.update (retiredEntries table victim) idx final)
    (hedges : after.edges = Function.update (retiredEdges table ehash victim) ehash
      (insert idx (retiredEdges table ehash victim ehash)))
    (hfresh : idx ∉ retiredEdges table ehash victim ehash) :
    AppliedTo table after (ehash, tLo, tHi) delta := by
  have hself : after.entries idx = final := by rw [hentries, Function.update_self]
  have hadds : Adds table after (ehash, tLo, tHi) delta idx :=
    ⟨hfree, by rw [hself]; exact hlive, by rw [hself]; exact htriple,
      by rw [hself]; exact hweight⟩
  have hothers : ∀ other, other ≠ idx → after.entries other = retiredEntries table victim other :=
    fun other hother => by rw [hentries, Function.update_of_ne hother]
  have hsum : ∑ other ∈ after.edges ehash, (after.entries other).weight =
      delta + ∑ other ∈ retiredEdges table ehash victim ehash,
        (retiredEntries table victim other).weight := by
    rw [hedges, Function.update_self, Finset.sum_insert hfresh, hself, hweight]
    congr 1
    apply Finset.sum_congr rfl
    intro other hmem
    rw [hothers other fun heq => hfresh (heq ▸ hmem)]
  have hcard : (after.edges ehash).card = (retiredEdges table ehash victim ehash).card + 1 := by
    rw [hedges, Function.update_self, Finset.card_insert_of_notMem hfresh]
  cases victim with
  | none =>
      have hcount := capDecision_noVictim hcap
      exact {
        grown := fun hin => absurd hin hout
        added := fun _ _ => ⟨idx, hadds, hothers⟩
        replaced := fun _ hfull => absurd hcount hfull
        foreign := fun other hother _ => hothers other fun heq => hfree (heq ▸ hother)
        foreign_edges := fun other hother => by
          rw [hedges, Function.update_of_ne hother]
          rfl
        heavier := by
          show ∑ other ∈ table.edges ehash, (table.entries other).weight < _
          rw [hsum]
          exact Nat.lt_add_of_pos_left hdelta
        not_fewer := by
          show (table.edges ehash).card ≤ (after.edges ehash).card
          rw [hcard]
          exact Nat.le_succ _ }
  | some victim =>
      obtain ⟨hweakest, hlighter⟩ := capDecision_weakest hcapped hne hcap
      have hfull := (capDecision_victim hcap).2
      obtain ⟨_, hvictimLive, hvictimHash⟩ := mem_edges.mp hweakest.mem
      have hdistinct : victim ≠ idx := fun heq => hfree (heq ▸ hvictimLive)
      have hkept : ∀ other, other ≠ idx → other ≠ victim →
          after.entries other = table.entries other := fun other hother hnot => by
        rw [hothers other hother, retiredEntries, Function.update_of_ne hnot]
      have hrest : retiredEdges table ehash (some victim) ehash =
          (table.edges ehash).erase victim := by
        rw [retiredEdges, Function.update_self]
      exact {
        grown := fun hin => absurd hin hout
        added := fun _ hroom => absurd hroom (Nat.not_lt.mpr hfull)
        replaced := fun _ _ => ⟨idx, victim, hadds, hweakest, hlighter, by
          rw [hothers victim hdistinct, retiredEntries, Function.update_self]
          exact tombstone_dead rfl, hkept⟩
        foreign := fun other hother hforeign => hkept other (fun heq => hfree (heq ▸ hother))
          fun heq => hforeign (heq ▸ hvictimHash)
        foreign_edges := fun other hother => by
          rw [hedges, Function.update_of_ne hother, retiredEdges, Function.update_of_ne hother]
        heavier := by
          show ∑ other ∈ table.edges ehash, (table.entries other).weight < _
          rw [hsum, hrest, ← Finset.add_sum_erase _ _ hweakest.mem]
          apply Nat.add_lt_add_of_lt_of_le hlighter
          apply le_of_eq
          apply Finset.sum_congr rfl
          intro other hmem
          rw [retiredEntries, Function.update_of_ne (Finset.ne_of_mem_erase hmem)]
        not_fewer := by
          show (table.edges ehash).card ≤ (after.edges ehash).card
          rw [hcard, hrest, Finset.card_erase_of_mem hweakest.mem]
          omega }

/-! ## Every applied call -/

theorem applyEdge_applied {keyedHash : KeyedHash} {table : Table}
    (hreadable : Readable keyedHash table) {ehash : UInt64} (hne : ehash ≠ 0) (key : List UInt8)
    {tLo tHi : UInt32} (w : Witnesses)
    (hdistinct : Distinguished keyedHash table (ehash, tLo, tHi))
    (happlied : (applyEdge keyedHash table ehash key tLo tHi w).result = .applied) :
    AppliedTo table (applyEdge keyedHash table ehash key tLo tHi w).table (ehash, tLo, tHi)
      w.delta := by
  have hstep := applyEdge_edgeStep keyedHash table ehash key tLo tHi w
  generalize applyEdge keyedHash table ehash key tLo tHi w = outcome at hstep happlied
  cases hstep with
  | refused result hresult => exact absurd happlied hresult
  | reinforced idx budget bump accepted hfind =>
      obtain ⟨hlive, htriple⟩ := hreadable.linked.triple_of_found hdistinct hfind
      exact applied_reinforced hreadable hlive htriple w budget bump
  | undone => cases happlied
  | inserted idx victim fresh tracked hfind hcap hclaim hfresh hadd =>
      have hlive : Entry.Live { fresh with weight := w.delta } := by
        rw [hfresh]
        exact claimedEntry_live keyedHash table _ _ _ _ _ _ _ _
      have htriple : Entry.triple { fresh with weight := w.delta } = (ehash, tLo, tHi) := by
        rw [hfresh]
        rfl
      exact applied_inserted hreadable.capped hne (delta_pos w)
        (hreadable.linked.notMem_triples hfind) hcap (claimSlot_some hclaim).2 hlive htriple rfl
        (tracked_setEntry hclaim hcap hadd _).2
        (edges_inserted hreadable.capped.sound hcap hclaim hadd _ (by rw [hfresh]; rfl) hlive)
        (notMem_retiredEdges hclaim hcap ehash)

/-- In every reachable state an applied reinforcement, alone or as one pair of a batch, changes
the edge of its pair, or adds it, in place of the weakest of a full entity. -/
theorem applied_effect (keyedHash : KeyedHash) (history : History)
    (hreach : (writer keyedHash).Reachable history) :
    (∀ key tA tB etaFp16 sourceId nowRel,
      let triple := (entityHashOf keyedHash history.table key, if tA < tB then tA else tB,
        if tA < tB then tB else tA)
      Distinguished keyedHash history.table triple →
      (reinforce keyedHash history.table key tA tB etaFp16 sourceId nowRel).result = .applied →
      AppliedTo history.table
        (reinforce keyedHash history.table key tA tB etaFp16 sourceId nowRel).table triple
        (jointDelta etaFp16 0 srcNone)) ∧
      ∀ key acts nowRel front pair back, batchPairs acts = front ++ pair :: back →
        let ehash := entityHashOf keyedHash history.table key
        let before := front.foldl (batchStep keyedHash ehash key nowRel) ⟨history.table, 0, []⟩
        let a := pair.1.technique
        let b := pair.2.technique
        let triple := (ehash, if a < b then a else b, if a < b then b else a)
        Distinguished keyedHash before.table triple →
        (pairOutcome keyedHash before.table ehash key nowRel pair).result = .applied →
        AppliedTo before.table (batchStep keyedHash ehash key nowRel before pair).table triple
          (pairWitnesses pair nowRel).delta := by
  constructor
  · intro key tA tB etaFp16 sourceId nowRel triple hdistinct happlied
    by_cases hinvalid : key = [] ∨ sourceId = srcNone ∨ tA = tB
    · rw [reinforce, if_pos hinvalid] at happlied
      cases happlied
    · rw [reinforce, if_neg hinvalid] at happlied ⊢
      exact applyEdge_applied (reachable_readable hreach)
        (entityHashOf_ne_zero keyedHash history.table key) key _ hdistinct happlied
  · intro key acts nowRel front pair back hpairs ehash before a b triple hdistinct happlied
    have hbatch := reachable_batch (reachable_edges hreach) key nowRel
      (⟨pair :: back, hpairs.symm⟩ : front <+: batchPairs acts)
    rw [batchStep_table]
    exact applyEdge_applied (edge_reachable_readable hbatch)
      (entityHashOf_ne_zero keyedHash history.table key) key _ hdistinct happlied

/-- The one edge of `twoWitnesses` has the only triple in use. -/
theorem distinguished_twoWitnesses :
    Distinguished (fun _ _ => 7) twoWitnesses.table (7, 10, 20) := by
  have honly : ∀ idx < 4, (twoWitnesses.table.entries idx).Live →
      (twoWitnesses.table.entries idx).triple = (7, 10, 20) := by
    decide +kernel
  have hlinked := reachable_linked (reachable_replay (fun _ _ => 7)
    [.reinforceBatch [1] [⟨10, 0xFFFF, 1⟩, ⟨20, 0xFFFF, 2⟩] 0, .decay])
  apply Set.Subsingleton.injOn
  apply Set.subsingleton_of_subset_singleton (a := (7, 10, 20))
  rintro triple (rfl | ⟨idx, hlive, rfl⟩)
  · rfl
  · exact honly idx (hlinked.lt_of_live hlive) hlive

theorem applied_effect_twoWitnesses :
    AppliedTo twoWitnesses.table
      (reinforce (fun _ _ => 7) twoWitnesses.table [1] 10 20 0xFFFF 1 1).table
      (7, 10, 20) 4095 :=
  (applied_effect _ twoWitnesses (reachable_replay _ _)).1 [1] 10 20 0xFFFF 1 1
    distinguished_twoWitnesses (by decide +kernel)

end Tac
end LibWake
