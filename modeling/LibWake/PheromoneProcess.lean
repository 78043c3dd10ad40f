import LibWake.EntityHash
import LibWake.PheromoneMap

/-!
# Several pheromone tables in one process

A process maps any number of table files.  `wake_entity_hash` reads the one key of the process,
which `wake_pheromone_create` and `wake_pheromone_open` install, while each header keeps the key
of its own table.  A path names a table; an operation may go through any handle of it.
-/

namespace LibWake
namespace Pheromone

open Entities OpenAddressing

/-! ## Calls on one file -/

abbrev EntityTable := Table Entity

/-- The calls which take a table or its path. -/
inductive FileCall where
  | create (cfg : Option Config) (clock : UInt32) (hashKey : List UInt8)
  | openTable
  | insert (deposit : Deposit Entity)
  | lookup (entity : Entity)
  | remove (entity : Entity)
  | noteReason (entity : Entity) (word : UInt64)
  | decay

/-- What a call returns. -/
inductive Answer where
  | opened (ok : Bool)
  | confidence (value : UInt32)
  | removed (found : Bool)
  | noted
  | evicted (count : ℕ)
  | noTable
  deriving DecidableEq, Repr

/-- The checks of `wake_pheromone_open` on a header. -/
def openAccepts (h : Header) : Bool :=
  h.magic = magicWord && h.formatVersion = version && isPowerOf2 h.capacity.toNat

/-- A call on the file of one path, while `siphashKey` is the key of the process: the file
afterwards and the answer.  A failed `create` leaves the file. -/
def performAt (siphashKey : List UInt8) (file : Option EntityTable) (call : FileCall) :
    Option EntityTable × Answer :=
  match call, file with
  | .create cfg clock hashKey, file =>
      match Pheromone.create cfg clock hashKey with
      | some table => (some table, .opened true)
      | none => (file, .opened false)
  | .openTable, some table => (some table, .opened (openAccepts table.header))
  | .openTable, none => (none, .opened false)
  | .insert deposit, some table =>
      let inserted := phtInsert (entityHash siphashKey) table deposit
      (some inserted.1, .confidence inserted.2)
  | .lookup entity, some table =>
      (some table, .confidence (Pheromone.lookup (entityHash siphashKey) table entity))
  | .remove entity, some table =>
      let removed := Pheromone.remove (entityHash siphashKey) table entity
      (some removed.1, .removed removed.2)
  | .noteReason entity word, some table =>
      (some (Pheromone.noteReason (entityHash siphashKey) table entity word), .noted)
  | .decay, some table =>
      let decayed := Pheromone.decay table
      (some decayed.1, .evicted decayed.2)
  | _, none => (none, .noTable)

/-- The key of the process after a call: `create` and `open` install the key of the table. -/
def installedKey (siphashKey : List UInt8) (file : Option EntityTable) (call : FileCall) :
    List UInt8 :=
  match call, file with
  | .create cfg clock hashKey, _ =>
      match (Pheromone.create cfg clock hashKey : Option EntityTable) with
      | some _ => hashKey
      | none => siphashKey
  | .openTable, some table =>
      if openAccepts table.header then table.header.hashKey else siphashKey
  | _, _ => siphashKey

/-! ## The process -/

/-- The key of the process, its files by path, and the answers given so far with the path of
each call. -/
structure Process where
  siphashKey : List UInt8
  files : ℕ → Option EntityTable
  log : List (ℕ × Answer)

structure PathCall where
  path : ℕ
  call : FileCall

def Process.perform (process : Process) (request : PathCall) : Process where
  siphashKey := installedKey process.siphashKey (process.files request.path) request.call
  files := Function.update process.files request.path
    (performAt process.siphashKey (process.files request.path) request.call).1
  log := process.log ++ [(request.path,
    (performAt process.siphashKey (process.files request.path) request.call).2)]

/-- Runs of one process, from any files and any key. -/
def processes : TransitionSystem Process PathCall where
  Initial _ := True
  step process request := some (process.perform request)

/-- The answers which the calls on a path have got. -/
def Process.answersAt (process : Process) (path : ℕ) : List Answer :=
  (process.log.filter fun answer => answer.1 = path).map Prod.snd

/-- The calls of a run which go to a path. -/
def callsAt (path : ℕ) (requests : List PathCall) : List FileCall :=
  (requests.filter fun request => request.path = path).map PathCall.call

/-! ## One table alone -/

/-- The key in the header of a table. -/
def ownKey : Option EntityTable → List UInt8
  | some table => table.header.hashKey
  | none => []

/-- The calls on one file, each under the key of the table itself: the file afterwards and the
answers.  No other table and no key of a process occurs. -/
def alone : Option EntityTable → List FileCall → Option EntityTable × List Answer
  | file, [] => (file, [])
  | file, call :: rest =>
      let performed := performAt (ownKey file) file call
      let remaining := alone performed.1 rest
      (remaining.1, performed.2 :: remaining.2)

/-- The calls which hash an entity. -/
def FileCall.hashes : FileCall → Bool
  | .insert _ => true
  | .lookup _ => true
  | .remove _ => true
  | .noteReason _ _ => true
  | _ => false

/-- A call which hashes an entity for the table of the path runs while the process has the key of
that table. -/
def UnderOwnKey (path : ℕ) (process : Process) (request : PathCall) : Prop :=
  request.path = path → request.call.hashes = true →
    process.siphashKey = ownKey (process.files path)

instance (path : ℕ) (process : Process) (request : PathCall) :
    Decidable (UnderOwnKey path process request) :=
  inferInstanceAs (Decidable (_ → _ → _))

theorem performAt_ownKey {siphashKey : List UInt8} {file : Option EntityTable} {call : FileCall}
    (hkey : call.hashes = true → siphashKey = ownKey file) :
    performAt siphashKey file call = performAt (ownKey file) file call := by
  cases call with
  | create cfg clock hashKey => cases file <;> rfl
  | openTable => cases file <;> rfl
  | decay => cases file <;> rfl
  | insert deposit => rw [hkey rfl]
  | lookup entity => rw [hkey rfl]
  | remove entity => rw [hkey rfl]
  | noteReason entity word => rw [hkey rfl]

/-! ## One step and one run -/

theorem alone_append (file : Option EntityTable) (front back : List FileCall) :
    alone file (front ++ back) =
      ((alone (alone file front).1 back).1,
        (alone file front).2 ++ (alone (alone file front).1 back).2) := by
  induction front generalizing file with
  | nil => rfl
  | cons call rest ih =>
      rw [List.cons_append, alone, ih]
      rfl

theorem perform_other {process : Process} {request : PathCall} {path : ℕ}
    (hother : request.path ≠ path) :
    (process.perform request).files path = process.files path ∧
      (process.perform request).answersAt path = process.answersAt path := by
  constructor
  · exact Function.update_of_ne (Ne.symm hother) _ _
  · simp [Process.answersAt, Process.perform, hother]

theorem perform_own {process : Process} {request : PathCall} {path : ℕ}
    (hown : request.path = path) (hkey : UnderOwnKey path process request) :
    (process.perform request).files path =
        (performAt (ownKey (process.files path)) (process.files path) request.call).1 ∧
      (process.perform request).answersAt path = process.answersAt path ++
        [(performAt (ownKey (process.files path)) (process.files path) request.call).2] := by
  subst hown
  have hperform := performAt_ownKey (hkey rfl)
  constructor
  · simp [Process.perform, hperform]
  · simp [Process.answersAt, Process.perform, hperform]

/-- A run under the own key of a table is, for this table, the run of its own calls. -/
theorem run_alone {start final : Process} {requests : List PathCall} {path : ℕ}
    (hrun : processes.run start requests = some final)
    (hkey : processes.RunMeets (UnderOwnKey path) start requests) :
    final.files path = (alone (start.files path) (callsAt path requests)).1 ∧
      final.answersAt path =
        start.answersAt path ++ (alone (start.files path) (callsAt path requests)).2 := by
  induction requests generalizing start with
  | nil =>
      simp only [TransitionSystem.run_nil, Option.some.injEq] at hrun
      subst hrun
      simp [callsAt, alone]
  | cons request rest ih =>
      obtain ⟨next, hstep, hrest⟩ := processes.run_cons_eq_some.mp hrun
      have hnext : start.perform request = next := Option.some.inj hstep
      obtain ⟨hfiles, hanswers⟩ := ih hrest (hkey.2 next hstep)
      rw [hfiles, hanswers, ← hnext]
      by_cases hown : request.path = path
      · have hcalls : callsAt path (request :: rest) = request.call :: callsAt path rest := by
          simp [callsAt, hown]
        obtain ⟨hfile, hanswer⟩ := perform_own hown hkey.1
        rw [hcalls, alone, hfile, hanswer, List.append_assoc]
        exact ⟨rfl, rfl⟩
      · have hcalls : callsAt path (request :: rest) = callsAt path rest := by
          simp [callsAt, hown]
        obtain ⟨hfile, hanswer⟩ := @perform_other start request path hown
        rw [hcalls, hfile, hanswer]
        exact ⟨rfl, rfl⟩

/-! ## A deposit and what follows it -/

section Deposits

variable {α : Type} (hash : α → UInt64) (table : Table α)

/-- A deposit in terms of the search for its key and for a free slot. -/
theorem phtInsert_eq (deposit : Deposit α) :
    phtInsert hash table deposit =
      match probeKey table (entityKeyHash hash deposit.entity),
        probeFree (tagSlots table.entries)
          (probeWindow table.header (entityKeyHash hash deposit.entity)) with
      | some idx, _ =>
          (table.setEntry idx (reinforcedEntry (table.entries idx) deposit
            (relativeTime table.header deposit.clock)),
            (table.entries idx).confidence + deposit.delta)
      | none, none => (table, 0)
      | none, some idx =>
          (table.setEntry idx (claimedEntry (table.entries idx)
            (entityKeyHash hash deposit.entity) deposit
            (relativeTime table.header deposit.clock)), deposit.delta) := by
  obtain ⟨hempty, htomb⟩ := entityKeyHash_ne_sentinel hash deposit.entity
  obtain ⟨hfound, hfirst⟩ := insertProbe_eq table.entries hempty htomb
    (probeWindow table.header (entityKeyHash hash deposit.entity)) none
  rw [probeKey, probeKeyIn_eq _ hempty htomb]
  unfold phtInsert
  simp only
  generalize insertProbe table.entries (entityKeyHash hash deposit.entity)
    (probeWindow table.header (entityKeyHash hash deposit.entity)) none = result at *
  obtain ⟨found, first⟩ := result
  simp only at hfound hfirst
  rw [← hfound]
  cases found with
  | some idx => rfl
  | none =>
      have hfree := hfirst hfound.symm
      rw [Option.none_or] at hfree
      rw [hfree]
      cases OpenAddressing.probeFree (tagSlots table.entries)
        (probeWindow table.header (entityKeyHash hash deposit.entity)) <;> rfl

theorem probeKey_rewrite {key : UInt64} {idx : ℕ} {entry : Entry α}
    (hkey : entry.keyHash = (table.entries idx).keyHash) (hempty : key ≠ slotEmpty)
    (htomb : key ≠ slotTombstone) :
    probeKey (table.setEntry idx entry) key = probeKey table key := by
  rw [probeKey, probeKey, probeKeyIn_eq _ hempty htomb, probeKeyIn_eq _ hempty htomb]
  rw [Table.setEntry, tagSlots_rewrite hkey]

/-- The search for a key ends in a slot of this confidence, or other keys fill its window and the
confidence is 0. -/
def Settled (key : UInt64) (confidence : UInt32) : Prop :=
  (∃ idx, probeKey table key = some idx ∧ (table.entries idx).confidence = confidence) ∨
    probeKey table key = none ∧
      probeFree (tagSlots table.entries) (probeWindow table.header key) = none ∧ confidence = 0

variable {hash table}

/-- A deposit settles its key with the confidence which it returns. -/
theorem settled_phtInsert (deposit : Deposit α) :
    Settled (phtInsert hash table deposit).1 (entityKeyHash hash deposit.entity)
      (phtInsert hash table deposit).2 := by
  obtain ⟨hempty, htomb⟩ := entityKeyHash_ne_sentinel hash deposit.entity
  rw [phtInsert_eq]
  cases hprobe : probeKey table (entityKeyHash hash deposit.entity) with
  | some idx =>
      refine .inl ⟨idx, ?_, by simp [Table.setEntry, reinforcedEntry]⟩
      simp only
      rw [probeKey_rewrite table (by rfl) hempty htomb, hprobe]
  | none =>
      cases hfree : probeFree (tagSlots table.entries)
          (probeWindow table.header (entityKeyHash hash deposit.entity)) with
      | none => exact .inr ⟨hprobe, hfree, rfl⟩
      | some idx =>
          refine .inl ⟨idx, ?_, by simp [Table.setEntry, claimedEntry]⟩
          have habsent := hprobe
          rw [probeKey, probeKeyIn_eq _ hempty htomb] at habsent
          simp only
          rw [probeKey, probeKeyIn_eq _ hempty htomb, tagSlots_setEntry]
          have hlive : Slot.ofTag slotEmpty slotTombstone (entityKeyHash hash deposit.entity) =
              .live (entityKeyHash hash deposit.entity) :=
            Slot.ofTag_eq_live_iff.mpr ⟨rfl, hempty, htomb⟩
          rw [claimedEntry, hlive]
          exact probeFind_update_probeFree habsent hfree

theorem Settled.lookup {entity : α} {confidence : UInt32}
    (hsettled : Settled table (entityKeyHash hash entity) confidence) :
    Pheromone.lookup hash table entity = confidence := by
  unfold Pheromone.lookup
  rcases hsettled with ⟨idx, hprobe, hconfidence⟩ | ⟨hprobe, -, hzero⟩
  · rw [hprobe]
    exact hconfidence
  · rw [hprobe]
    exact hzero.symm

/-- A deposit under a settled key claims no slot. -/
theorem Settled.keyHash_phtInsert {deposit : Deposit α} {confidence : UInt32}
    (hsettled : Settled table (entityKeyHash hash deposit.entity) confidence) (idx : ℕ) :
    ((phtInsert hash table deposit).1.entries idx).keyHash = (table.entries idx).keyHash := by
  rw [phtInsert_eq]
  rcases hsettled with ⟨slot, hprobe, -⟩ | ⟨hprobe, hfull, -⟩
  · rw [hprobe]
    by_cases heq : idx = slot
    · subst heq
      simp only [Table.setEntry, Function.update_self]
      rfl
    · simp only [Table.setEntry, Function.update_of_ne heq]
  · rw [hprobe, hfull]

/-- A slot rewritten under its own key, with its confidence if the key is the settled one. -/
theorem Settled.rewrite {key : UInt64} {confidence : UInt32}
    (hsettled : Settled table key confidence) (hempty : key ≠ slotEmpty)
    (htomb : key ≠ slotTombstone) {idx : ℕ} {entry : Entry α}
    (hkey : entry.keyHash = (table.entries idx).keyHash)
    (hsame : (table.entries idx).keyHash = key →
      entry.confidence = (table.entries idx).confidence) :
    Settled (table.setEntry idx entry) key confidence := by
  have hprobes : probeKey (table.setEntry idx entry) key = probeKey table key :=
    probeKey_rewrite table hkey hempty htomb
  rcases hsettled with ⟨slot, hprobe, hconfidence⟩ | ⟨hprobe, hfull, hzero⟩
  · refine .inl ⟨slot, hprobes.trans hprobe, ?_⟩
    by_cases heq : slot = idx
    · subst heq
      have hheld := keyHash_of_probeKeyIn hempty htomb hprobe
      simp only [Table.setEntry, Function.update_self]
      rw [hsame hheld, hconfidence]
    · simpa only [Table.setEntry, Function.update_of_ne heq] using hconfidence
  · refine .inr ⟨hprobes.trans hprobe, ?_, hzero⟩
    rw [Table.setEntry, tagSlots_rewrite hkey]
    exact hfull

/-- A free slot claimed for another key. -/
theorem Settled.claim {key : UInt64} {confidence : UInt32}
    (hsettled : Settled table key confidence) (hempty : key ≠ slotEmpty)
    (htomb : key ≠ slotTombstone) {idx : ℕ} {entry : Entry α} {other : UInt64}
    (hfree : (tagSlots table.entries idx).isFree = true)
    (hclaimed : Slot.ofTag slotEmpty slotTombstone entry.keyHash = .live other)
    (hne : other ≠ key) : Settled (table.setEntry idx entry) key confidence := by
  rcases hsettled with ⟨slot, hprobe, hconfidence⟩ | ⟨hprobe, hfull, hzero⟩
  · rw [probeKey, probeKeyIn_eq _ hempty htomb] at hprobe
    refine .inl ⟨slot, ?_, ?_⟩
    · rw [probeKey, probeKeyIn_eq _ hempty htomb, tagSlots_setEntry, hclaimed]
      exact probeFind_update_other hprobe hfree hne
    · have hslot : slot ≠ idx := by
        rintro rfl
        rw [(probeFind_some_mem hprobe).2] at hfree
        cases hfree
      simpa only [Table.setEntry, Function.update_of_ne hslot] using hconfidence
  · -- the window is full, so the claimed slot lies outside
    have hapart : ∀ slot ∈ probeWindow table.header key,
        Function.update (tagSlots table.entries) idx (.live other) slot =
          tagSlots table.entries slot := by
      intro slot hmem
      apply Function.update_of_ne
      rintro rfl
      obtain ⟨held, hheld⟩ := probeFree_eq_none_iff.mp hfull slot hmem
      rw [hheld] at hfree
      cases hfree
    refine .inr ⟨?_, ?_, hzero⟩
    · rw [probeKey, probeKeyIn_eq _ hempty htomb] at hprobe ⊢
      rw [tagSlots_setEntry, hclaimed]
      exact (probeFind_congr hapart).trans hprobe
    · rw [tagSlots_setEntry, hclaimed, probeFree_eq_none_iff]
      intro slot hmem
      obtain ⟨held, hheld⟩ := probeFree_eq_none_iff.mp hfull slot hmem
      exact ⟨held, (hapart slot hmem).trans hheld⟩

theorem Settled.insert_other {entity : α} {confidence : UInt32}
    (hsettled : Settled table (entityKeyHash hash entity) confidence) {deposit : Deposit α}
    (hne : entityKeyHash hash deposit.entity ≠ entityKeyHash hash entity) :
    Settled (phtInsert hash table deposit).1 (entityKeyHash hash entity) confidence := by
  obtain ⟨hempty, htomb⟩ := entityKeyHash_ne_sentinel hash entity
  have hsentinels := entityKeyHash_ne_sentinel hash deposit.entity
  rw [phtInsert_eq]
  cases hprobe : probeKey table (entityKeyHash hash deposit.entity) with
  | some idx =>
      apply hsettled.rewrite hempty htomb (by rfl)
      intro hkey
      have hheld := keyHash_of_probeKeyIn hsentinels.1 hsentinels.2 hprobe
      exact absurd (hheld.symm.trans hkey) hne
  | none =>
      cases hfree : probeFree (tagSlots table.entries)
          (probeWindow table.header (entityKeyHash hash deposit.entity)) with
      | none => exact hsettled
      | some idx =>
          exact hsettled.claim hempty htomb (probeFree_some_isFree hfree)
            (Slot.ofTag_eq_live_iff.mpr ⟨rfl, hsentinels⟩) hne

theorem Settled.noteReason {entity : α} {confidence : UInt32}
    (hsettled : Settled table (entityKeyHash hash entity) confidence) (noted : α)
    (word : UInt64) :
    Settled (Pheromone.noteReason hash table noted word) (entityKeyHash hash entity)
      confidence := by
  obtain ⟨hempty, htomb⟩ := entityKeyHash_ne_sentinel hash entity
  unfold Pheromone.noteReason
  split_ifs
  · exact hsettled
  · split
    · exact hsettled.rewrite hempty htomb rfl fun _ => rfl
    · exact hsettled

end Deposits

/-! ## Independence -/

/-- The call keeps the table, removes and decays nothing, and deposits nothing under the key hash
of the entity. -/
def FileCall.Spares (siphashKey : List UInt8) (entity : Entity) : FileCall → Prop
  | .openTable => True
  | .lookup _ => True
  | .noteReason _ _ => True
  | .insert deposit => entityKeyHash (entityHash siphashKey) deposit.entity ≠
      entityKeyHash (entityHash siphashKey) entity
  | .create _ _ _ => False
  | .remove _ => False
  | .decay => False

/-- The file of a table in which the entity is settled, or no file. -/
def SettledIn (siphashKey : List UInt8) (entity : Entity) (answer : Answer) :
    Option EntityTable → Prop
  | none => answer = .noTable
  | some table => table.header.hashKey = siphashKey ∧
      ∃ confidence, answer = .confidence confidence ∧
        Settled table (entityKeyHash (entityHash siphashKey) entity) confidence

theorem settledIn_insert (file : Option EntityTable) (deposit : Deposit Entity) :
    SettledIn (ownKey file) deposit.entity (performAt (ownKey file) file (.insert deposit)).2
      (performAt (ownKey file) file (.insert deposit)).1 := by
  cases file with
  | none => rfl
  | some table =>
      have hheader := performCall_header (entityHash table.header.hashKey) table (.insert deposit)
      exact ⟨congrArg Header.hashKey hheader, _, rfl, settled_phtInsert deposit⟩

theorem SettledIn.performAt {siphashKey : List UInt8} {entity : Entity} {answer : Answer}
    {file : Option EntityTable} (hsettled : SettledIn siphashKey entity answer file)
    {call : FileCall} (hspares : call.Spares siphashKey entity) :
    SettledIn siphashKey entity answer (Pheromone.performAt (ownKey file) file call).1 := by
  cases file with
  | none =>
      cases call with
      | create _ _ _ => exact hspares.elim
      | _ => exact hsettled
  | some table =>
      obtain ⟨rfl, confidence, hanswer, hkey⟩ := hsettled
      have hheader := performCall_header (entityHash table.header.hashKey) table
      cases call with
      | openTable => exact ⟨rfl, confidence, hanswer, hkey⟩
      | lookup _ => exact ⟨rfl, confidence, hanswer, hkey⟩
      | insert deposit =>
          exact ⟨congrArg Header.hashKey (hheader (.insert deposit)), confidence, hanswer,
            hkey.insert_other hspares⟩
      | noteReason noted word =>
          exact ⟨congrArg Header.hashKey (hheader (.noteReason noted word)), confidence, hanswer,
            hkey.noteReason noted word⟩
      | create _ _ _ => exact hspares.elim
      | remove _ => exact hspares.elim
      | decay => exact hspares.elim

theorem SettledIn.alone {siphashKey : List UInt8} {entity : Entity} {answer : Answer}
    {file : Option EntityTable} (hsettled : SettledIn siphashKey entity answer file)
    {calls : List FileCall} (hspares : ∀ call ∈ calls, call.Spares siphashKey entity) :
    SettledIn siphashKey entity answer (Pheromone.alone file calls).1 := by
  induction calls generalizing file with
  | nil => exact hsettled
  | cons call rest ih =>
      exact ih (hsettled.performAt (hspares call List.mem_cons_self))
        fun other hmem => hspares other (List.mem_cons_of_mem _ hmem)

theorem SettledIn.answer_lookup {siphashKey : List UInt8} {entity : Entity} {answer : Answer}
    {file : Option EntityTable} (hsettled : SettledIn siphashKey entity answer file) :
    (Pheromone.performAt (ownKey file) file (.lookup entity)).2 = answer := by
  cases file with
  | none => exact hsettled.symm
  | some table =>
      obtain ⟨rfl, confidence, rfl, hkey⟩ := hsettled
      exact congrArg Answer.confidence hkey.lookup

theorem SettledIn.keyHash_insert {siphashKey : List UInt8} {answer : Answer}
    {before after : EntityTable} {deposit : Deposit Entity}
    (hsettled : SettledIn siphashKey deposit.entity answer (some before))
    (hafter : (Pheromone.performAt (ownKey (some before)) (some before) (.insert deposit)).1 =
      some after) (idx : ℕ) : (after.entries idx).keyHash = (before.entries idx).keyHash := by
  obtain ⟨rfl, confidence, -, hkey⟩ := hsettled
  obtain rfl := Option.some.inj hafter
  exact hkey.keyHash_phtInsert idx

theorem length_alone (file : Option EntityTable) (calls : List FileCall) :
    (alone file calls).2.length = calls.length := by
  induction calls generalizing file with
  | nil => rfl
  | cons call rest ih => rw [alone, List.length_cons, List.length_cons, ih]

/-- Under its own key a table gives the answers, and ends with the content, of the run of its own
calls alone.  In particular a lookup behind a deposit of the entity answers what the deposit
answered, and a second deposit of it claims no slot, if the calls on the table in between only
open it, look up, note reasons and deposit under other key hashes, and whatever tables were
created, opened and used under the other paths in between. -/
theorem own_key_independent {start final : Process} {requests : List PathCall} {path : ℕ}
    (hrun : processes.run start requests = some final)
    (hkey : processes.RunMeets (UnderOwnKey path) start requests) :
    final.files path = (alone (start.files path) (callsAt path requests)).1 ∧
      final.answersAt path =
        start.answersAt path ++ (alone (start.files path) (callsAt path requests)).2 ∧
      (∀ earlier deposit between,
        callsAt path requests =
          earlier ++ .insert deposit :: (between ++ [.lookup deposit.entity]) →
        (∀ call ∈ between,
          call.Spares (ownKey (alone (start.files path) earlier).1) deposit.entity) →
        ∃ front answer back, back.length = between.length ∧
          final.answersAt path = front ++ answer :: (back ++ [answer])) ∧
      ∀ earlier first between second,
        callsAt path requests = earlier ++ .insert first :: (between ++ [.insert second]) →
        (∀ call ∈ between,
          call.Spares (ownKey (alone (start.files path) earlier).1) first.entity) →
        first.entity = second.entity →
        ∀ before after,
          (alone (start.files path) (earlier ++ .insert first :: between)).1 = some before →
          final.files path = some after →
          ∀ idx, (after.entries idx).keyHash = (before.entries idx).keyHash := by
  obtain ⟨hfile, hanswers⟩ := run_alone hrun hkey
  refine ⟨hfile, hanswers, ?_, ?_⟩
  · intro earlier deposit between hcalls hspares
    have hsettled := (settledIn_insert (alone (start.files path) earlier).1 deposit).alone hspares
    rw [hanswers, hcalls, alone_append]
    simp only [alone, alone_append, hsettled.answer_lookup]
    rw [← List.append_assoc]
    exact ⟨_, _, _, length_alone _ between, rfl⟩
  · intro earlier first between second hcalls hspares hentity before after hbefore hafter
    have hsettled := (settledIn_insert (alone (start.files path) earlier).1 first).alone hspares
    rw [hfile, hcalls] at hafter
    simp only [alone_append, alone] at hbefore hafter
    rw [hbefore] at hsettled hafter
    rw [hentity] at hsettled
    exact hsettled.keyHash_insert hafter

/-- A user whose name is the byte `n`. -/
def userEntity (n : UInt8) : Entity := initStr [] 0 0x20 [n]

/-- Two tables with different keys in a process without files: a deposit into table 0, the
creation of table 1, and a lookup and a second deposit in table 0.  `reopened` says whether table
0 is opened again before it is used. -/
def twoTables (reopened : Bool) : List PathCall :=
  [⟨0, .create (some { capacity := 2 }) 0 (List.replicate 16 0)⟩,
    ⟨0, .insert ⟨userEntity 7, 0, 0, 0, 40, false, 0, 0⟩⟩,
    ⟨1, .create (some { capacity := 2 }) 0 (List.replicate 16 1)⟩] ++
  (if reopened then [⟨0, .openTable⟩] else []) ++
  [⟨0, .lookup (userEntity 7)⟩,
    ⟨0, .insert ⟨userEntity 7, 0, 0, 0, 40, false, 0, 0⟩⟩]

def emptyProcess : Process := ⟨[], fun _ => none, []⟩

theorem own_key_independent_reopened :
    ∃ final, processes.run emptyProcess (twoTables true) = some final ∧
      final.answersAt 0 = emptyProcess.answersAt 0 ++
        (alone (emptyProcess.files 0) (callsAt 0 (twoTables true))).2 ∧
      final.answersAt 0 =
        [.opened true, .confidence 40, .opened true, .confidence 40, .confidence 80] ∧
      ∃ before after,
        (alone none [.create (some { capacity := 2 }) 0 (List.replicate 16 0),
          .insert ⟨userEntity 7, 0, 0, 0, 40, false, 0, 0⟩, .openTable,
          .lookup (userEntity 7)]).1 = some before ∧
        final.files 0 = some after ∧
        ∀ idx, (after.entries idx).keyHash = (before.entries idx).keyHash := by
  have hindependent := @own_key_independent emptyProcess _ (twoTables true) 0 rfl
    (by decide +kernel)
  have hclaimed := hindependent.2.2.2 [.create (some { capacity := 2 }) 0 (List.replicate 16 0)]
    ⟨userEntity 7, 0, 0, 0, 40, false, 0, 0⟩ [.openTable, .lookup (userEntity 7)]
    ⟨userEntity 7, 0, 0, 0, 40, false, 0, 0⟩ rfl (by simp [FileCall.Spares]) rfl
  exact ⟨_, rfl, hindependent.2.1, by decide +kernel, _, _, rfl, rfl, hclaimed _ _ rfl rfl⟩

/-- Without the reopening the lookup misses the deposit, and the second deposit claims the other
slot; without table 1 the same calls on table 0 are answered otherwise. -/
theorem created_table_hides_deposit :
    ∃ both single,
      processes.run emptyProcess (twoTables false) = some both ∧
      processes.run emptyProcess ((twoTables false).filter fun request => request.path = 0) =
        some single ∧
      both.answersAt 0 = [.opened true, .confidence 40, .confidence 0, .confidence 40] ∧
      single.answersAt 0 = [.opened true, .confidence 40, .confidence 40, .confidence 80] ∧
      ((both.files 0).map fun table =>
        decide ((table.entries 0).Live ∧ (table.entries 1).Live)) = some true := by
  refine ⟨_, _, rfl, rfl, ?_, ?_, ?_⟩
  · decide +kernel
  · decide +kernel
  · decide +kernel

end Pheromone
end LibWake
