import LibWake.EntityForms
import LibWake.NewestKinds
import LibWake.PheromoneMap

/-!
# The reason words of an entity

A slot is claimed with three zero words, and from then on only notes for the entity which holds
it change them.  So the words of a live entity are the newest ones of the history which began
when its slot was claimed.  The table knows an entity by its key hash.
-/

namespace LibWake
namespace Pheromone

open NewestKinds OpenAddressing

variable {Entity : Type}

/-! ## Notes and claims -/

/-- The words with a kind which are noted for the entities with this key hash. -/
def notesFor (entityHash : Entity → UInt64) (key : UInt64) (calls : List (Call Entity)) :
    List UInt64 :=
  calls.filterMap fun
    | .noteReason entity word =>
        if entityKeyHash entityHash entity = key ∧ reasonKind word ≠ 0 then some word else none
    | _ => none

/-- The words with a kind which are passed for one entity. -/
def passedFor [DecidableEq Entity] (entity : Entity) (calls : List (Call Entity)) :
    List UInt64 :=
  calls.filterMap fun
    | .noteReason other word =>
        if other = entity ∧ reasonKind word ≠ 0 then some word else none
    | _ => none

/-- The call claims the slot: the slot was free, and it is live. -/
def Claims (entityHash : Entity → UInt64) (idx : ℕ) (table : Table Entity)
    (call : Call Entity) : Prop :=
  ¬ (table.entries idx).Live ∧ ((performCall entityHash table call).entries idx).Live

instance (entityHash : Entity → UInt64) (idx : ℕ) (table : Table Entity) (call : Call Entity) :
    Decidable (Claims entityHash idx table call) :=
  inferInstanceAs (Decidable (_ ∧ _))

/-- The calls `since` are the ones behind the last call of the run which claims the slot. -/
def SinceClaim [Inhabited Entity] (entityHash : Entity → UInt64) (idx : ℕ)
    (start : Table Entity) (calls since : List (Call Entity)) : Prop :=
  ∃ front call before, calls = front ++ call :: since ∧
    (sequential entityHash).run start front = some before ∧
    Claims entityHash idx before call ∧
    (sequential entityHash).RunMeets (fun table other => ¬ Claims entityHash idx table other)
      (performCall entityHash before call) since

theorem notedReasons_eq (reasons : Fin 3 → UInt64) (word : UInt64) :
    notedReasons reasons word = take reasonKind reasons word := by
  unfold notedReasons take
  split_ifs
  · rfl
  · funext i
    match i with
    | 0 | 1 | 2 => rfl

/-! ## One call and one slot -/

/-- What a call does to a slot: it claims the slot, keeps its key and notes the words for it, or
frees it. -/
inductive SlotStep (entityHash : Entity → UInt64) (call : Call Entity)
    (before after : Entry Entity) : Prop where
  | claimed (hfree : ¬ before.Live) (hreasons : after.reasons = fun _ => 0)
  | kept (hkey : after.keyHash = before.keyHash)
      (hreasons : before.Live →
        after.reasons = (notesFor entityHash before.keyHash [call]).foldl notedReasons
          before.reasons)
  | freed (hkey : after.keyHash = slotTombstone)

section Calls

variable {entityHash : Entity → UInt64} {table : Table Entity} {idx : ℕ}

theorem SlotStep.same {call : Call Entity} {entry : Entry Entity}
    (hnotes : entry.Live → notesFor entityHash entry.keyHash [call] = []) :
    SlotStep entityHash call entry entry :=
  .kept rfl fun hlive => by
    rw [hnotes hlive]
    rfl

theorem slotStep_insert (hgood : WellFormed table) (deposit : Deposit Entity) :
    SlotStep entityHash (.insert deposit) (table.entries idx)
      ((phtInsert entityHash table deposit).1.entries idx) := by
  have hstep := phtInsert_insertStep hgood entityHash deposit
  generalize phtInsert entityHash table deposit = outcome at hstep ⊢
  cases hstep with
  | updated slot hkey =>
      by_cases heq : idx = slot
      · subst heq
        simp only [Table.setEntry, Function.update_self]
        exact .kept rfl fun _ => rfl
      · simp only [Table.setEntry, Function.update_of_ne heq]
        exact .same fun _ => rfl
  | claimed slot habsent hfree =>
      by_cases heq : idx = slot
      · subst heq
        simp only [Table.setEntry, Function.update_self]
        exact .claimed (tagSlots_isFree_iff.mp (probeFree_some_isFree hfree)) rfl
      · simp only [Table.setEntry, Function.update_of_ne heq]
        exact .same fun _ => rfl
  | full => exact .same fun _ => rfl

theorem slotStep_remove (entity : Entity) :
    SlotStep entityHash (.remove entity) (table.entries idx)
      ((remove entityHash table entity).1.entries idx) := by
  unfold remove
  cases probeKey table (entityKeyHash entityHash entity) with
  | none => exact .same fun _ => rfl
  | some slot =>
      by_cases heq : idx = slot
      · subst heq
        simp only [Table.setEntry, Function.update_self]
        exact .freed rfl
      · simp only [Table.setEntry, Function.update_of_ne heq]
        exact .same fun _ => rfl

theorem slotStep_noteReason (hgood : WellFormed table) (entity : Entity) (word : UInt64) :
    SlotStep entityHash (.noteReason entity word) (table.entries idx)
      ((noteReason entityHash table entity word).entries idx) := by
  unfold noteReason
  split_ifs with hkind
  · exact .same fun _ => by simp [notesFor, hkind]
  · cases hprobe : probeKey table (entityKeyHash entityHash entity) with
    | none =>
        have habsent := hgood.probeKey_eq_none_iff.mp hprobe idx
        exact .same fun _ => by simp [notesFor, habsent.symm]
    | some slot =>
        have hslot := hgood.probeKey_eq_some_iff.mp hprobe
        by_cases heq : idx = slot
        · subst heq
          simp only [Table.setEntry, Function.update_self]
          exact .kept rfl fun _ => by simp [notesFor, hslot, hkind]
        · simp only [Table.setEntry, Function.update_of_ne heq]
          refine .same fun hlive => ?_
          have hother : entityKeyHash entityHash entity ≠ (table.entries idx).keyHash :=
            fun hkey => heq ((hgood.finiteMap entityHash).unique idx slot hlive
              (hkey.symm.trans hslot.symm))
          simp [notesFor, hother]

theorem slotStep_decay :
    SlotStep entityHash .decay (table.entries idx) ((decay table).1.entries idx) := by
  rw [decay_entries]
  split_ifs
  · unfold decayedEntry
    split_ifs
    · exact .freed rfl
    · exact .kept rfl fun _ => rfl
    · exact .same fun _ => rfl
  · exact .same fun _ => rfl

theorem slotStep_performCall (hgood : WellFormed table) (idx : ℕ) (call : Call Entity) :
    SlotStep entityHash call (table.entries idx)
      ((performCall entityHash table call).entries idx) := by
  cases call with
  | insert deposit => exact slotStep_insert hgood deposit
  | remove entity => exact slotStep_remove entity
  | noteReason entity word => exact slotStep_noteReason hgood entity word
  | decay => exact slotStep_decay

theorem Entry.live_congr {entry other : Entry Entity} (hkey : entry.keyHash = other.keyHash) :
    entry.Live ↔ other.Live := by
  rw [Entry.Live, Entry.Live, hkey]

theorem not_live_of_tombstone {entry : Entry Entity} (hkey : entry.keyHash = slotTombstone) :
    ¬ entry.Live := fun hlive => hlive.2 hkey

/-- A slot is claimed with three zero words. -/
theorem reasons_of_claims (hgood : WellFormed table) {call : Call Entity}
    (hclaims : Claims entityHash idx table call) :
    ((performCall entityHash table call).entries idx).reasons = fun _ => 0 := by
  obtain ⟨hfree, hlive⟩ := hclaims
  have hstep : SlotStep entityHash call _ _ := slotStep_performCall hgood idx call
  cases hstep with
  | claimed _ hreasons => exact hreasons
  | kept hkey _ => exact absurd ((Entry.live_congr hkey).mp hlive) hfree
  | freed hkey => exact absurd hlive (not_live_of_tombstone hkey)

/-- A call which leaves the slot live without claiming it notes its words for the key. -/
theorem reasons_of_not_claims (hgood : WellFormed table) {call : Call Entity}
    (hnot : ¬ Claims entityHash idx table call)
    (hlive : ((performCall entityHash table call).entries idx).Live) :
    ((performCall entityHash table call).entries idx).keyHash = (table.entries idx).keyHash ∧
      ((performCall entityHash table call).entries idx).reasons =
        (notesFor entityHash (table.entries idx).keyHash [call]).foldl notedReasons
          (table.entries idx).reasons := by
  have hstep : SlotStep entityHash call _ _ := slotStep_performCall hgood idx call
  cases hstep with
  | claimed hfree _ => exact absurd ⟨hfree, hlive⟩ hnot
  | kept hkey hreasons => exact ⟨hkey, hreasons ((Entry.live_congr hkey).mp hlive)⟩
  | freed hkey => exact absurd hlive (not_live_of_tombstone hkey)

end Calls

/-! ## A history since the claim -/

theorem notesFor_cons (entityHash : Entity → UInt64) (key : UInt64) (call : Call Entity)
    (rest : List (Call Entity)) :
    notesFor entityHash key (call :: rest) =
      notesFor entityHash key [call] ++ notesFor entityHash key rest := by
  unfold notesFor
  rw [← List.filterMap_append]
  rfl

theorem reasonKind_of_mem_notesFor {entityHash : Entity → UInt64} {key word : UInt64}
    {calls : List (Call Entity)} (hmem : word ∈ notesFor entityHash key calls) :
    reasonKind word ≠ 0 := by
  obtain ⟨call, -, hyields⟩ := List.mem_filterMap.mp hmem
  cases call with
  | noteReason entity noted =>
      simp only [Option.ite_none_right_eq_some, Option.some.injEq] at hyields
      obtain ⟨⟨-, hkind⟩, rfl⟩ := hyields
      exact hkind
  | insert _ => cases hyields
  | remove _ => cases hyields
  | decay => cases hyields

theorem notesFor_eq_passedFor [DecidableEq Entity] {entityHash : Entity → UInt64}
    {entity : Entity} {calls : List (Call Entity)}
    (hapart : ∀ other word, .noteReason other word ∈ calls →
      entityKeyHash entityHash other = entityKeyHash entityHash entity → other = entity) :
    notesFor entityHash (entityKeyHash entityHash entity) calls = passedFor entity calls := by
  apply List.filterMap_congr
  intro call hmem
  cases call with
  | noteReason other word =>
      have hsame : entityKeyHash entityHash other = entityKeyHash entityHash entity ↔
          other = entity := ⟨hapart other word hmem, congrArg _⟩
      simp only [hsame]
  | insert _ => rfl
  | remove _ => rfl
  | decay => rfl

section Runs

variable [Inhabited Entity] {entityHash : Entity → UInt64} {table final : Table Entity} {idx : ℕ}
  {calls : List (Call Entity)}

/-- A slot which is live at the end of a run, and which no call of the run claims, has kept its
key and noted the words for it. -/
theorem reasons_of_unclaimed (hgood : WellFormed table)
    (hunclaimed : (sequential entityHash).RunMeets
      (fun state call => ¬ Claims entityHash idx state call) table calls)
    (hrun : (sequential entityHash).run table calls = some final)
    (hlive : (final.entries idx).Live) :
    (final.entries idx).keyHash = (table.entries idx).keyHash ∧
      (final.entries idx).reasons =
        (notesFor entityHash (final.entries idx).keyHash calls).foldl notedReasons
          (table.entries idx).reasons := by
  induction calls generalizing table with
  | nil =>
      rw [TransitionSystem.run_nil, Option.some.injEq] at hrun
      subst hrun
      exact ⟨rfl, rfl⟩
  | cons call rest ih =>
      obtain ⟨next, hstep, hrest⟩ := (sequential entityHash).run_cons_eq_some.mp hrun
      obtain ⟨hnot, hafter⟩ :=
        ((sequential entityHash).runMeets_cons_of_step hstep rest).mp hunclaimed
      obtain rfl := Option.some.inj hstep
      obtain ⟨hkey, hreasons⟩ := ih (hgood.performCall entityHash call) hafter hrest
      obtain ⟨hkept, hnoted⟩ :=
        reasons_of_not_claims hgood hnot ((Entry.live_congr hkey).mp hlive)
      refine ⟨hkey.trans hkept, ?_⟩
      rw [hreasons, hnoted, hkey.trans hkept, ← List.foldl_append, ← notesFor_cons]

theorem exists_sinceClaim {start : Table Entity} (hinitial : (sequential entityHash).Initial start)
    (hrun : (sequential entityHash).run start calls = some final)
    (hlive : (final.entries idx).Live) : ∃ since, SinceClaim entityHash idx start calls since := by
  obtain ⟨cfg, clock, hashKey, hcreate⟩ := hinitial
  have hlast : (sequential entityHash).RunMeets
      (fun table call => ¬ Claims entityHash idx table call) start calls ∨ _ :=
    (sequential entityHash).runMeets_or_last hrun
  rcases hlast with
    hunclaimed | ⟨front, call, back, before, after, hsplit, hfront, hstep, hclaims, hmeets⟩
  · -- a fresh table has no live slot, and a slot which is live keeps its key
    have hkey := (reasons_of_unclaimed (create_wellFormed hcreate) hunclaimed hrun hlive).1
    rw [(create_eq_some hcreate).2] at hkey
    exact absurd hkey hlive.1
  · obtain rfl := Option.some.inj hstep
    exact ⟨back, front, call, before, hsplit, hfront, not_not.mp hclaims, hmeets⟩

/-- The reason words of a live entity are the newest of the words which were noted for it since
its slot was last claimed, each run of one kind reduced to its last word.  The notes are those for
its key hash; if no other entity with its key hash is noted, they are the words passed for it. -/
theorem reasons_are_newest [DecidableEq Entity] {start : Table Entity} {entity : Entity}
    (hinitial : (sequential entityHash).Initial start)
    (hrun : (sequential entityHash).run start calls = some final)
    (hkey : (final.entries idx).keyHash = entityKeyHash entityHash entity) :
    (∃ since, SinceClaim entityHash idx start calls since) ∧
      ∀ since, SinceClaim entityHash idx start calls since →
        (∀ i : Fin 3, (final.entries idx).reasons i =
          (lastOfRuns reasonKind
            (notesFor entityHash (entityKeyHash entityHash entity) since)).reverse.getD i 0) ∧
        ((∀ other word, .noteReason other word ∈ since →
            entityKeyHash entityHash other = entityKeyHash entityHash entity → other = entity) →
          notesFor entityHash (entityKeyHash entityHash entity) since =
            passedFor entity since) := by
  have hlive : (final.entries idx).Live := by
    rw [Entry.Live, hkey]
    exact entityKeyHash_ne_sentinel entityHash entity
  refine ⟨exists_sinceClaim hinitial hrun hlive, fun since hsince => ⟨?_, notesFor_eq_passedFor⟩⟩
  obtain ⟨front, call, before, rfl, hfront, hclaims, hunclaimed⟩ := hsince
  obtain ⟨middle, hmiddle, hback⟩ := (sequential entityHash).run_append_eq_some.mp hrun
  obtain rfl := Option.some.inj (hfront.symm.trans hmiddle)
  have hgood : WellFormed before := reachable_wellFormed ⟨start, front, hinitial, hfront⟩
  have hreasons := (reasons_of_unclaimed (hgood.performCall entityHash call) hunclaimed hback
    hlive).2
  rw [reasons_of_claims hgood hclaims, hkey, funext₂ notedReasons_eq] at hreasons
  have hkinds : ∀ word ∈ notesFor entityHash (entityKeyHash entityHash entity) since,
      reasonKind word ≠ reasonKind 0 := fun word hmem => reasonKind_of_mem_notesFor hmem
  intro i
  rw [hreasons, foldl_take hkinds]
  rfl

end Runs

/-- The slot of entity 3 is freed and claimed for entity 5, which is noted three words, the first
two of one kind; entity 9 has no slot when it is noted. -/
def recycledRun : List (Call ℕ) :=
  [.insert ⟨3, 0, 0, 0, 4000, false, 0, 0⟩, .noteReason 3 0x105, .remove 3,
    .insert ⟨5, 0, 0, 0, 4000, false, 0, 0⟩, .noteReason 5 0x107, .noteReason 9 0x108,
    .noteReason 5 0x207, .decay, .noteReason 5 0x106]

theorem reasons_are_newest_recycled :
    ∃ final, (sequential fun n : ℕ => UInt64.ofNat n).run smallTable recycledRun = some final ∧
      ∀ i : Fin 3, (final.entries 1).reasons i = [0x106, 0x207].getD i 0 := by
  have hrun : (sequential fun n : ℕ => UInt64.ofNat n).run smallTable recycledRun =
      some (recycledRun.foldl (performCall fun n => UInt64.ofNat n) smallTable) := rfl
  have hkey : ((recycledRun.foldl (performCall fun n => UInt64.ofNat n) smallTable).entries
      1).keyHash = entityKeyHash (fun n : ℕ => UInt64.ofNat n) 5 := by decide
  have hsince : SinceClaim (fun n : ℕ => UInt64.ofNat n) 1 smallTable recycledRun
      (recycledRun.drop 4) :=
    ⟨recycledRun.take 3, .insert ⟨5, 0, 0, 0, 4000, false, 0, 0⟩, _, rfl, rfl, by decide,
      by decide⟩
  have hnewest := reasons_are_newest ⟨_, _, _, create_smallTable⟩ hrun hkey
  exact ⟨_, hrun, (hnewest.2 _ hsince).1⟩

section Fresh

variable [Inhabited Entity] {cfg : Option Config} {clock : UInt32} {hashKey : List UInt8}
  {table : Table Entity} (entityHash : Entity → UInt64)

/-- The slot of a deposit into a fresh table. -/
def freshSlot (table : Table Entity) (entity : Entity) : ℕ :=
  probeIdx table.header (entityKeyHash entityHash entity) 0

/-- The entry which it leaves there. -/
def freshEntry (table : Table Entity) (deposit : Deposit Entity) : Entry Entity :=
  claimedEntry Entry.zero (entityKeyHash entityHash deposit.entity) deposit
    (relativeTime table.header deposit.clock)

theorem phtInsert_fresh (hcreate : create cfg clock hashKey = some table)
    (deposit : Deposit Entity) :
    (phtInsert entityHash table deposit).1 =
      table.setEntry (freshSlot entityHash table deposit.entity)
        (freshEntry entityHash table deposit) := by
  have hzero : ∀ idx, table.entries idx = Entry.zero :=
    fun idx => congrFun (create_eq_some hcreate).2 idx
  have hkey : slotEmpty ≠ entityKeyHash entityHash deposit.entity :=
    (entityKeyHash_ne_sentinel entityHash deposit.entity).1.symm
  have hempty : (Entry.zero : Entry Entity).keyHash = slotEmpty := rfl
  have hprobe : insertProbe table.entries (entityKeyHash entityHash deposit.entity)
      (probeWindow table.header (entityKeyHash entityHash deposit.entity)) none =
        (none, some (freshSlot entityHash table deposit.entity)) := by
    show insertProbe _ _ (_ :: _) _ = _
    rw [insertProbe, hzero, hempty, if_neg hkey, if_pos rfl]
    rfl
  rw [phtInsert, hprobe]
  simp only [hzero]
  rfl

theorem phtInsert_fresh_slot (hcreate : create cfg clock hashKey = some table)
    (deposit : Deposit Entity) :
    (phtInsert entityHash table deposit).1.entries (freshSlot entityHash table deposit.entity) =
      freshEntry entityHash table deposit := by
  rw [phtInsert_fresh entityHash hcreate]
  exact Function.update_self ..

/-- A note under the key hash of the deposit lands in its slot. -/
theorem noteReason_fresh (hcreate : create cfg clock hashKey = some table)
    (deposit : Deposit Entity) {other : Entity}
    (hkey : entityKeyHash entityHash other = entityKeyHash entityHash deposit.entity)
    {word : UInt64} (hkind : reasonKind word ≠ 0) :
    (noteReason entityHash (phtInsert entityHash table deposit).1 other word).entries
        (freshSlot entityHash table deposit.entity) =
      { freshEntry entityHash table deposit with
        reasons := notedReasons (fun _ => 0) word } := by
  have hprobe : probeKey (phtInsert entityHash table deposit).1
      (entityKeyHash entityHash other) = some (freshSlot entityHash table deposit.entity) := by
    rw [phtInsert_fresh entityHash hcreate, hkey]
    show probeKeyIn _ _ (freshSlot entityHash table deposit.entity :: _) = _
    rw [probeKeyIn, if_pos]
    simp only [Table.setEntry, Function.update_self]
    rfl
  rw [noteReason, if_neg hkind, hprobe]
  simp only [Table.setEntry, Function.update_self, phtInsert_fresh_slot entityHash hcreate]
  rfl

/-- The deposit claims the slot, and a note does not. -/
theorem sinceClaim_fresh (hcreate : create cfg clock hashKey = some table)
    (deposit : Deposit Entity) (other : Entity) (word : UInt64) :
    SinceClaim entityHash (freshSlot entityHash table deposit.entity) table
      [.insert deposit, .noteReason other word] [.noteReason other word] := by
  have hlive : ((performCall entityHash table (.insert deposit)).entries
      (freshSlot entityHash table deposit.entity)).Live := by
    show ((phtInsert entityHash table deposit).1.entries _).Live
    rw [phtInsert_fresh_slot entityHash hcreate]
    exact entityKeyHash_ne_sentinel entityHash deposit.entity
  refine ⟨[], .insert deposit, table, rfl, rfl, ⟨?_, hlive⟩, fun hclaims => hclaims.1 hlive,
    fun _ _ => trivial⟩
  rw [congrFun (create_eq_some hcreate).2]
  exact fun hzero => hzero.1 rfl

end Fresh

/-- A note for another entity with the key hash of a live one lands in the live one's words: no
word was passed for the live one, and its first word is the other's. -/
theorem note_of_other_entity :
    ∃ (entity other : Entities.Entity) (start final : Table Entities.Entity) (idx : ℕ),
      Entities.valid entity = true ∧ Entities.valid other = true ∧ entity ≠ other ∧
      create (some { capacity := 2 }) 0 (List.replicate 16 0) = some start ∧
      (sequential (Entities.entityHash (List.replicate 16 0))).run start
        [.insert ⟨entity, 0, 0, 0, 40, false, 0, 0⟩, .noteReason other 0x105] = some final ∧
      (final.entries idx).Live ∧ (final.entries idx).entity = entity ∧
      (final.entries idx).keyHash =
        entityKeyHash (Entities.entityHash (List.replicate 16 0)) entity ∧
      SinceClaim (Entities.entityHash (List.replicate 16 0)) idx start
        [.insert ⟨entity, 0, 0, 0, 40, false, 0, 0⟩, .noteReason other 0x105]
        [.noteReason other 0x105] ∧
      passedFor entity [.noteReason other 0x105] = [] ∧
      (final.entries idx).reasons 0 = 0x105 := by
  obtain ⟨entity, other, hentity, hother, hne, hhash⟩ :=
    Entities.exists_same_entityHash (List.replicate 16 0)
  generalize Entities.entityHash (List.replicate 16 0) = entityHash at hhash ⊢
  obtain ⟨start, hcreate⟩ : ∃ start : Table Entities.Entity,
      create (some { capacity := 2 }) 0 (List.replicate 16 0) = some start := ⟨_, rfl⟩
  have hkey : entityKeyHash entityHash other = entityKeyHash entityHash entity := by
    rw [entityKeyHash, entityKeyHash, hhash]
  have hsince := sinceClaim_fresh entityHash hcreate ⟨entity, 0, 0, 0, 40, false, 0, 0⟩ other 0x105
  have hnoted := noteReason_fresh entityHash hcreate ⟨entity, 0, 0, 0, 40, false, 0, 0⟩ hkey
    (show reasonKind 0x105 ≠ 0 by decide)
  generalize hfinal : noteReason entityHash
    (phtInsert entityHash start ⟨entity, 0, 0, 0, 40, false, 0, 0⟩).1 other 0x105 = final at hnoted
  have hrun : (sequential entityHash).run start
      [.insert ⟨entity, 0, 0, 0, 40, false, 0, 0⟩, .noteReason other 0x105] = some final := by
    rw [← hfinal]
    rfl
  refine ⟨entity, other, start, final, freshSlot entityHash start entity, hentity, hother, hne,
    hcreate, hrun, ?_⟩
  rw [hnoted]
  have hpassed : passedFor entity [.noteReason other 0x105] = [] :=
    List.filterMap_eq_nil_iff.mpr fun call hmem => by
      rw [List.mem_singleton.mp hmem]
      exact if_neg fun hsame => hne hsame.1.symm
  exact ⟨entityKeyHash_ne_sentinel entityHash entity, rfl, rfl, hsince, hpassed, rfl⟩

end Pheromone
end LibWake
