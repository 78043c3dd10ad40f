import LibWake.TacEdges
import LibWake.TacRead

/-!
# Refused reinforcements

Every exit of `apply_edge` but the last two comes before the first write.  The undo of a claim
whose entity the sidecar cannot track is the one refusal which writes: it may only be taken
before a victim was retired, and it turns a free slot into a tombstone.
-/

namespace LibWake
namespace Tac

/-- The two tables have the same live entries, field by field, and the same sidecar. -/
structure SameEdges (before after : Table) : Prop where
  header : after.header = before.header
  live_iff : ∀ idx, (after.entries idx).Live ↔ (before.entries idx).Live
  kept : ∀ idx, (before.entries idx).Live → after.entries idx = before.entries idx
  sidecar : after.occ = before.occ

namespace SameEdges

variable {before after : Table}

protected theorem refl (table : Table) : SameEdges table table :=
  ⟨rfl, fun _ => Iff.rfl, fun _ _ => rfl, rfl⟩

/-- A slot which is free before and after may change. -/
theorem of_free {idx : ℕ} {entry : Entry} (hheader : after.header = before.header)
    (hentries : after.entries = Function.update before.entries idx entry)
    (hocc : after.occ = before.occ) (hfree : ¬ (before.entries idx).Live)
    (hdead : ¬ entry.Live) : SameEdges before after where
  header := hheader
  live_iff other := by
    rw [hentries]
    by_cases heq : other = idx
    · subst heq
      rw [Function.update_self]
      exact ⟨fun hlive => absurd hlive hdead, fun hlive => absurd hlive hfree⟩
    · rw [Function.update_of_ne heq]
  kept other hlive := by
    have hne : other ≠ idx := by
      rintro rfl
      exact hfree hlive
    rw [hentries, Function.update_of_ne hne]
  sidecar := hocc

/-- A loop over the entries which passes over dead ones ends the same. -/
theorem foldl_eq {β : Type} (hsame : SameEdges before after) (step : β → Entry → β)
    (hskip : ∀ acc entry, ¬ entry.Live → step acc entry = acc) (slots : List ℕ) (start : β) :
    slots.foldl (fun acc i => step acc (after.entries i)) start =
      slots.foldl (fun acc i => step acc (before.entries i)) start := by
  apply List.foldl_ext
  intro acc idx _
  by_cases hlive : (before.entries idx).Live
  · rw [hsame.kept idx hlive]
  · rw [hskip acc _ hlive, hskip acc _ fun hafter => hlive ((hsame.live_iff idx).mp hafter)]

theorem entityHashOf_eq (hsame : SameEdges before after) (keyedHash : KeyedHash)
    (key : List UInt8) : entityHashOf keyedHash after key = entityHashOf keyedHash before key := by
  simp only [entityHashOf, hsame.header]

theorem query_eq (hsame : SameEdges before after) (keyedHash : KeyedHash) (key : List UInt8) :
    query keyedHash after key = query keyedHash before key := by
  unfold query
  rw [hsame.entityHashOf_eq, hsame.header]
  rw [hsame.foldl_eq (queryStep (entityHashOf keyedHash before key))]
  intro snapshot entry hdead
  exact if_neg fun hvisible => hdead hvisible.1

theorem route_eq (hsame : SameEdges before after) (keyedHash : KeyedHash) (key : List UInt8)
    (acts : List Activation) (outCap : ℕ) :
    route keyedHash after key acts outCap = route keyedHash before key acts outCap := by
  unfold route
  simp only [hsame.entityHashOf_eq, hsame.header]
  rw [hsame.foldl_eq (routeStep (entityHashOf keyedHash before key) _)]
  intro acc entry hdead
  exact if_neg fun hvisible => hdead hvisible.1

end SameEdges

/-! ## The exits of `apply_edge` -/

theorem applyEdge_refused {table : Table} (hcapped : Capped table) (keyedHash : KeyedHash)
    {ehash : UInt64} (hne : ehash ≠ 0) (key : List UInt8) (tLo tHi : UInt32) (w : Witnesses)
    (hrefused : (applyEdge keyedHash table ehash key tLo tHi w).result ≠ .applied) :
    SameEdges table (applyEdge keyedHash table ehash key tLo tHi w).table := by
  have hstep := applyEdge_edgeStep keyedHash table ehash key tLo tHi w
  generalize applyEdge keyedHash table ehash key tLo tHi w = outcome at hstep hrefused
  cases hstep with
  | refused result hresult => exact .refl table
  | reinforced idx budget bump => exact absurd rfl hrefused
  | undone idx victim fresh tracked _ hcap hclaim _ hadd =>
      rcases occAddSlot_claimed hcapped hne hcap hclaim hadd with
        ⟨hfalse, _⟩ | ⟨_, rfl, hocc⟩
      · contradiction
      · -- no victim has been retired when the sidecar turns the entity away
        obtain ⟨hheader, hentries⟩ := tracked_setEntry hclaim hcap hadd
          { fresh with keyHash := slotTombstone }
        exact .of_free hheader hentries hocc (claimSlot_some hclaim).2 (tombstone_dead rfl)
  | inserted idx victim fresh tracked => exact absurd rfl hrefused

/-- The call of `apply_edge` which the loops of a batch make for one pair. -/
def pairOutcome (keyedHash : KeyedHash) (table : Table) (ehash : UInt64) (key : List UInt8)
    (nowRel : UInt32) (pair : Activation × Activation) : Outcome :=
  let a := pair.1.technique
  let b := pair.2.technique
  applyEdge keyedHash table ehash key (if a < b then a else b) (if a < b then b else a)
    (pairWitnesses pair nowRel)

theorem batchStep_table (keyedHash : KeyedHash) (ehash : UInt64) (key : List UInt8)
    (nowRel : UInt32) (state : BatchState) (pair : Activation × Activation) :
    (batchStep keyedHash ehash key nowRel state pair).table =
      (pairOutcome keyedHash state.table ehash key nowRel pair).table := rfl

theorem batchStep_applied (keyedHash : KeyedHash) (ehash : UInt64) (key : List UInt8)
    (nowRel : UInt32) (state : BatchState) (pair : Activation × Activation) :
    (batchStep keyedHash ehash key nowRel state pair).applied =
      if (pairOutcome keyedHash state.table ehash key nowRel pair).result = .applied then
        (state.applied + 1) % 2 ^ 32
      else state.applied := rfl

/-- Nothing which the writer keeps and nothing which a reader sees has changed. -/
structure Unchanged (keyedHash : KeyedHash) (before after : Table) : Prop where
  edges : SameEdges before after
  queries : ∀ key, query keyedHash after key = query keyedHash before key
  routes : ∀ key acts outCap,
    route keyedHash after key acts outCap = route keyedHash before key acts outCap

theorem SameEdges.unchanged {before after : Table} (hsame : SameEdges before after)
    (keyedHash : KeyedHash) : Unchanged keyedHash before after :=
  ⟨hsame, hsame.query_eq keyedHash, hsame.route_eq keyedHash⟩

theorem reinforce_refused {table : Table} (hcapped : Capped table) (keyedHash : KeyedHash)
    (key : List UInt8) (tA tB : UInt32) (etaFp16 sourceId : UInt16) (nowRel : UInt32)
    (hrefused : (reinforce keyedHash table key tA tB etaFp16 sourceId nowRel).result ≠ .applied) :
    SameEdges table (reinforce keyedHash table key tA tB etaFp16 sourceId nowRel).table := by
  by_cases hinvalid : key = [] ∨ sourceId = srcNone ∨ tA = tB
  · rw [reinforce, if_pos hinvalid]
    exact .refl table
  · rw [reinforce, if_neg hinvalid] at hrefused ⊢
    exact applyEdge_refused hcapped keyedHash (entityHashOf_ne_zero keyedHash table key) _ _ _ _
      hrefused

/-- In every reachable state a refused reinforcement, alone or as one pair of a batch, changes no
live entry and no sidecar record. -/
theorem refused_unchanged (keyedHash : KeyedHash) (history : History)
    (hreach : (writer keyedHash).Reachable history) :
    (∀ key tA tB etaFp16 sourceId nowRel,
      (reinforce keyedHash history.table key tA tB etaFp16 sourceId nowRel).result ≠ .applied →
      Unchanged keyedHash history.table
        (reinforce keyedHash history.table key tA tB etaFp16 sourceId nowRel).table) ∧
      ∀ key acts nowRel front pair back, batchPairs acts = front ++ pair :: back →
        let ehash := entityHashOf keyedHash history.table key
        let before := front.foldl (batchStep keyedHash ehash key nowRel) ⟨history.table, 0, []⟩
        (pairOutcome keyedHash before.table ehash key nowRel pair).result ≠ .applied →
        Unchanged keyedHash before.table
          (batchStep keyedHash ehash key nowRel before pair).table := by
  constructor
  · intro key tA tB etaFp16 sourceId nowRel hrefused
    exact (reinforce_refused (reachable_capped hreach) keyedHash key tA tB etaFp16 sourceId nowRel
      hrefused).unchanged keyedHash
  · intro key acts nowRel front pair back hpairs
    have hbatch := reachable_batch (reachable_edges hreach) key nowRel
      (⟨pair :: back, hpairs.symm⟩ : front <+: batchPairs acts)
    have hcapped := edge_reachable_capped hbatch
    intro ehash before hrefused
    rw [batchStep_table]
    exact (applyEdge_refused hcapped keyedHash (entityHashOf_ne_zero keyedHash history.table key)
      key _ _ _ hrefused).unchanged keyedHash

/-- One source alone has fired one pair until the edge was quarantined. -/
def loneSource : History :=
  replay (fun _ _ => 7) ⟨smallTable, []⟩ (List.replicate 2 (.reinforce [1] 10 20 0xFFFF 1 0))

theorem refused_unchanged_loneSource :
    (reinforce (fun _ _ => 7) loneSource.table [1] 10 20 0xFFFF 1 0).result = .refusedQuarantine ∧
      Unchanged (fun _ _ => 7) loneSource.table
        (reinforce (fun _ _ => 7) loneSource.table [1] 10 20 0xFFFF 1 0).table := by
  have hresult : (reinforce (fun _ _ => 7) loneSource.table [1] 10 20 0xFFFF 1 0).result =
      .refusedQuarantine := by
    decide +kernel
  refine ⟨hresult, (refused_unchanged _ loneSource (reachable_replay _ _)).1 _ _ _ _ _ _ ?_⟩
  rw [hresult]
  decide

end Tac
end LibWake
