import LibWake.PheromoneSeqlock

/-!
# What a cold-path read returns

While no two insertions write one slot at a time, the cold fields which a read returns are those
which the slot has when the read returns, and they all come from one deposit.  The key hash is not
among them: a slot which has just been claimed shows the new key over the old fields.
-/

namespace LibWake
namespace Pheromone

open Seqlock

variable {n : ℕ} {P : Type} [DecidableEq P] {entityHash : Memory n → UInt64}

/-! ## Orderly slots -/

/-- The cold fields of a slot are those of the start, or one deposit wrote all of them. -/
def Origin (start : Table (Memory n)) (Offered : Deposit (Memory n) → Prop) (idx : ℕ)
    (record : ColdField n → ℕ) : Prop :=
  record = (start.entries idx).coldWord ∨
    ∃ args, Offered args ∧ record = (coldOf start.header args).word

/-- The deposit which an event offers. -/
def FleetEvent.offer : FleetEvent P n → Option (Deposit (Memory n))
  | .start _ (.deposit args) => some args
  | _ => none

structure Ordered (start : Table (Memory n)) (Offered : Deposit (Memory n) → Prop)
    (s : Fleet P n) : Prop where
  header : s.table.header = start.header
  offered : ∀ p, ∀ args ∈ (s.job p).offer, Offered args
  orderly : ∀ idx, Orderly versionClock (Origin start Offered idx) (s.slot idx)

section Steps

variable {start : Table (Memory n)} {Offered : Deposit (Memory n) → Prop}
  {s next : Fleet P n} {event : FleetEvent P n} {p r : P}

omit [DecidableEq P] in
theorem arriveAt_offer {args other : Deposit (Memory n)} {phase : Phase}
    (hmem : other ∈ (arriveAt args phase).offer) : args = other := by
  cases phase <;> exact Option.some.inj hmem

omit [DecidableEq P] in
theorem stepJob_offer {h : Header} {entries : ℕ → Entry (Memory n)} {job : Job n}
    {after : (ℕ → Entry (Memory n)) × Job n}
    (hstep : stepJob entityHash h entries job = some after) {args : Deposit (Memory n)}
    (hmem : args ∈ after.2.offer) : args ∈ job.offer := by
  cases job with
  | idle => cases hstep
  | insert other phase =>
      simp only [stepJob] at hstep
      split_ifs at hstep
      obtain ⟨done, -, rfl⟩ := Option.map_eq_some_iff.mp hstep
      rw [arriveAt_offer hmem]
      rfl
  | cold other i writeVer todo =>
      cases todo with
      | nil =>
          cases hstep
          exact hmem
      | cons field rest => cases hstep
  | maintain phase =>
      obtain ⟨done, -, rfl⟩ := Option.map_eq_some_iff.mp hstep
      cases hmem
  | read reader =>
      obtain ⟨done, -, rfl⟩ := Option.map_eq_some_iff.mp hstep
      cases hmem

omit [DecidableEq P] in
theorem copyJob_offer {h : Header} {entries : ℕ → Entry (Memory n)} {field : Field n}
    {job : Job n} {after : (ℕ → Entry (Memory n)) × Job n}
    (hstep : copyJob entityHash h entries field job = some after) {args : Deposit (Memory n)}
    (hmem : args ∈ after.2.offer) : args ∈ job.offer := by
  cases job with
  | cold other i writeVer todo =>
      cases field with
      | hot field => cases hstep
      | cold field =>
          simp only [copyJob] at hstep
          split_ifs at hstep
          cases hstep
          exact hmem
  | read reader =>
      cases reader with
      | copying slot v1 todo out =>
          simp only [copyJob] at hstep
          split_ifs at hstep
          cases hstep
          cases hmem
      | _ => cases hstep
  | _ => cases hstep

theorem become_job_self (s : Fleet P n) (p : P) (after : (ℕ → Entry (Memory n)) × Job n) :
    (s.become p after).job p = after.2 := by
  simp only [Fleet.become, Function.update_self]

theorem become_job_of_ne (s : Fleet P n) {p q : P} (hne : q ≠ p)
    (after : (ℕ → Entry (Memory n)) × Job n) : (s.become p after).job q = s.job q := by
  simp only [Fleet.become, Function.update_of_ne hne]

/-- One event is a step of its process. -/
theorem exists_become_of_step (hstep : fleetStep entityHash s event = some next) :
    ∃ after, next = s.become event.process after ∧
      ((∃ request, event = .start event.process request ∧
          (s.job event.process).isOver = true ∧
          after = (s.table.entries, request.job entityHash s.table.header)) ∨
        (event = .work event.process ∧
          stepJob entityHash s.table.header s.table.entries (s.job event.process) =
            some after) ∨
        ∃ field, event = .copy event.process field ∧
          copyJob entityHash s.table.header s.table.entries field (s.job event.process) =
            some after) := by
  cases event with
  | start p request =>
      simp only [fleetStep] at hstep
      split_ifs at hstep with hover
      cases hstep
      exact ⟨_, rfl, .inl ⟨request, rfl, hover, rfl⟩⟩
  | work p =>
      obtain ⟨after, hafter, rfl⟩ := Option.map_eq_some_iff.mp hstep
      exact ⟨after, rfl, .inr (.inl ⟨rfl, hafter⟩)⟩
  | copy p field =>
      obtain ⟨after, hafter, rfl⟩ := Option.map_eq_some_iff.mp hstep
      exact ⟨after, rfl, .inr (.inr ⟨field, rfl, hafter⟩)⟩

theorem step_header (hstep : fleetStep entityHash s event = some next) :
    next.table.header = s.table.header := by
  obtain ⟨after, rfl, -⟩ := exists_become_of_step hstep
  rfl

theorem step_offer (hstep : fleetStep entityHash s event = some next)
    {args : Deposit (Memory n)} (hmem : args ∈ (next.job p).offer) :
    args ∈ (s.job p).offer ∨ args ∈ event.offer := by
  obtain ⟨after, rfl, hcase⟩ := exists_become_of_step hstep
  by_cases hp : p = event.process
  · subst hp
    rw [become_job_self] at hmem
    rcases hcase with ⟨request, hevent, -, rfl⟩ | ⟨-, hafter⟩ | ⟨field, -, hafter⟩
    · right
      rw [hevent]
      cases request with
      | deposit other => exact hmem
      | _ => cases hmem
    · exact .inl (stepJob_offer hafter hmem)
    · exact .inl (copyJob_offer hafter hmem)
  · rw [become_job_of_ne s hp] at hmem
    exact .inl hmem

omit [DecidableEq P] in
theorem Ordered.origin (hordered : Ordered start Offered s) (idx : ℕ) (p : P) :
    ∀ args ∈ (s.job p).offer, Origin start Offered idx (coldOf s.table.header args).word := by
  intro args hmem
  rw [hordered.header]
  exact .inr ⟨args, hordered.offered p args hmem, rfl⟩

theorem Ordered.step (hordered : Ordered start Offered s) (hapart : Apart s event)
    (hoffer : ∀ args ∈ event.offer, Offered args)
    (hstep : fleetStep entityHash s event = some next) : Ordered start Offered next where
  header := (step_header hstep).trans hordered.header
  offered p args hmem :=
    (step_offer hstep hmem).elim (hordered.offered p args) (hoffer args)
  orderly idx := (hordered.orderly idx).move hapart (slot_moves hstep (hordered.origin idx) idx)

/-! ## A read under way -/

/-- Wherever the process is copying, it loaded the version at most `bound` events ago. -/
def Watching (bound : ℕ) (s : Fleet P n) (r : P) : Prop :=
  ∀ slot v1 todo out, s.job r = .read (.copying slot v1 todo out) →
    Watch versionClock bound (s.table.entries slot).cell v1 (fun field => .cold field ∉ todo)
      out.coldWord

omit [DecidableEq P] in
theorem arriveAt_ne_read (args : Deposit (Memory n)) (phase : Phase) (reader : Reader n) :
    arriveAt args phase ≠ .read reader := by
  intro heq
  cases phase <;> cases heq

omit [DecidableEq P] in
/-- A call which goes on to a reader was one before. -/
theorem stepJob_read {h : Header} {entries : ℕ → Entry (Memory n)} {job : Job n}
    {after : (ℕ → Entry (Memory n)) × Job n} {reader : Reader n}
    (hstep : stepJob entityHash h entries job = some after) (hread : after.2 = .read reader) :
    ∃ before, job = .read before ∧ stepReader h entries before = some reader ∧
      after.1 = entries := by
  cases job with
  | idle => cases hstep
  | insert args phase =>
      simp only [stepJob] at hstep
      split_ifs at hstep
      obtain ⟨done, -, rfl⟩ := Option.map_eq_some_iff.mp hstep
      exact absurd hread (arriveAt_ne_read args done.2 reader)
  | cold args i writeVer todo =>
      cases todo with
      | nil =>
          cases hstep
          cases hread
      | cons field rest => cases hstep
  | maintain phase =>
      obtain ⟨done, -, rfl⟩ := Option.map_eq_some_iff.mp hstep
      cases hread
  | read before =>
      obtain ⟨done, hdone, rfl⟩ := Option.map_eq_some_iff.mp hstep
      exact ⟨before, rfl, Job.read.inj hread ▸ hdone, rfl⟩

omit [DecidableEq P] in
/-- The copy starts behind the load of a version which is not locked. -/
theorem stepReader_copying {h : Header} {entries : ℕ → Entry (Memory n)} {before : Reader n}
    {slot : ℕ} {v1 : UInt32} {todo : List (Field n)} {out : Entry (Memory n)}
    (hstep : stepReader h entries before = some (.copying slot v1 todo out)) :
    v1 = (entries slot).version ∧ v1 &&& 1 = 0 ∧ todo = readFields n := by
  cases before with
  | start i other =>
      simp only [stepReader] at hstep
      split_ifs at hstep <;> cases hstep
  | version i other =>
      simp only [stepReader] at hstep
      split_ifs at hstep with hlocked
      · cases hstep
      · cases hstep
        exact ⟨rfl, not_not.mp hlocked, rfl⟩
  | copying i v2 rest other =>
      cases rest with
      | nil =>
          simp only [stepReader] at hstep
          split_ifs at hstep <;> cases hstep
      | cons field rest => cases hstep
  | returned i result => cases hstep

omit [DecidableEq P] in
theorem copyJob_copying {h : Header} {entries : ℕ → Entry (Memory n)} {field : Field n}
    {job : Job n} {after : (ℕ → Entry (Memory n)) × Job n} {slot : ℕ} {v1 : UInt32}
    {todo : List (Field n)} {out : Entry (Memory n)}
    (hstep : copyJob entityHash h entries field job = some after)
    (hread : after.2 = .read (.copying slot v1 todo out)) :
    ∃ rest before, job = .read (.copying slot v1 rest before) ∧ todo = rest.erase field ∧
      out = field.copy (entries slot) before ∧ after.1 = entries := by
  cases job with
  | cold args i writeVer rest =>
      cases field with
      | hot field => cases hstep
      | cold field =>
          simp only [copyJob] at hstep
          split_ifs at hstep
          cases hstep
          cases hread
  | read reader =>
      cases reader with
      | copying i v2 rest before =>
          simp only [copyJob] at hstep
          split_ifs at hstep
          cases hstep
          cases hread
          exact ⟨rest, before, rfl, rfl, rfl, rfl⟩
      | _ => cases hstep
  | _ => cases hstep

omit [DecidableEq P] in
theorem Watch.copyField {bound : ℕ} {entry out : Entry (Memory n)} {v1 : UInt32}
    {todo : List (Field n)}
    (hwatch : Watch versionClock bound entry.cell v1 (fun field => .cold field ∉ todo)
      out.coldWord) (field : Field n) :
    Watch versionClock (bound + 1) entry.cell v1 (fun other => .cold other ∉ todo.erase field)
      (field.copy entry out).coldWord := by
  cases field with
  | hot field =>
      have hsame : (Field.copy entry out (.hot field)).coldWord = out.coldWord :=
        hotCopy_coldWord entry out field
      rw [hsame]
      refine (hwatch.step .rest).mono fun other hout hmem => hout ?_
      exact (List.mem_erase_of_ne (by simp)).mpr hmem
  | cold field =>
      have hcopied : (Field.copy entry out (.cold field)).coldWord =
          Function.update out.coldWord field (entry.cell.words field) :=
        coldCopy_coldWord entry out field
      rw [hcopied]
      refine (hwatch.copy field).mono fun other hout => ?_
      by_cases hsame : other = field
      · exact .inl hsame
      · refine .inr fun hmem => hout ?_
        exact (List.mem_erase_of_ne fun heq => hsame (Field.cold.inj heq)).mpr hmem

theorem Watching.step {bound : ℕ} (hwatching : Watching bound s r)
    (hordered : Ordered start Offered s) (hstep : fleetStep entityHash s event = some next) :
    Watching (bound + 1) next r := by
  intro slot v1 todo out hread
  have hcell := (hordered.orderly slot).cell_step (slot_moves hstep (hordered.origin slot) slot)
  obtain ⟨after, rfl, hcase⟩ := exists_become_of_step hstep
  by_cases hr : r = event.process
  · subst hr
    rw [become_job_self] at hread
    rcases hcase with ⟨request, -, -, rfl⟩ | ⟨-, hafter⟩ | ⟨field, -, hafter⟩
    · cases request <;> cases hread
    · obtain ⟨before, -, hreader, hentries⟩ := stepJob_read hafter hread
      obtain ⟨hver, hfree, rfl⟩ := stepReader_copying hreader
      have hzero : (s.table.entries slot).version &&& 1 = 0 := hver ▸ hfree
      change Watch versionClock (bound + 1) (after.1 slot).cell v1 _ _
      rw [hentries, hver]
      exact watch_load (not_not.mpr hzero) fun field => not_not.mpr (mem_readFields (.cold field))
    · obtain ⟨rest, before, hjob, rfl, rfl, hentries⟩ := copyJob_copying hafter hread
      change Watch versionClock (bound + 1) (after.1 slot).cell v1 _ _
      rw [hentries]
      exact Watch.copyField (hwatching slot v1 rest before hjob) field
  · rw [become_job_of_ne s hr] at hread
    exact (hwatching slot v1 todo out hread).step hcell

end Steps

/-! ## Whole runs -/

section Runs

variable {start before after final : Fleet P n} {front back : List (FleetEvent P n)}

theorem ordered_of_initial (hinitial : (fleet (P := P) entityHash).Initial start)
    (Offered : Deposit (Memory n) → Prop) : Ordered start.table Offered start := by
  obtain ⟨hidle, heven⟩ := hinitial
  have hnone : ∀ idx p, (start.slot idx).seat p = none := by
    intro idx p
    change (start.job p).seatAt start.table.header idx = none
    rw [hidle p]
    rfl
  refine ⟨rfl, fun p args hmem => ?_, fun idx => ⟨fun p q hp => absurd (hnone idx p) hp,
    fun _ => ⟨not_not.mpr (heven idx), .inl rfl⟩, fun p ver hp => ?_,
    fun p ver todo record hp => ?_⟩⟩
  · rw [hidle p] at hmem
    cases hmem
  · rw [hnone idx p] at hp
    cases hp
  · rw [hnone idx p] at hp
    cases hp

theorem Ordered.run {table : Table (Memory n)} {Offered : Deposit (Memory n) → Prop}
    {events : List (FleetEvent P n)} (hordered : Ordered table Offered before)
    (hapart : (fleet entityHash).RunMeets Apart before events)
    (hoffer : ∀ event ∈ events, ∀ args ∈ event.offer, Offered args)
    (hrun : (fleet entityHash).run before events = some after) :
    Ordered table Offered after := by
  induction events generalizing before with
  | nil =>
      obtain rfl := Option.some.inj hrun
      exact hordered
  | cons event rest ih =>
      obtain ⟨middle, hstep, hrest⟩ := (fleet entityHash).run_cons_eq_some.mp hrun
      exact ih (hordered.step hapart.1 (hoffer event List.mem_cons_self) hstep)
        (hapart.2 middle hstep)
        (fun other hmem => hoffer other (List.mem_cons_of_mem event hmem)) hrest

theorem Watching.run {table : Table (Memory n)} {Offered : Deposit (Memory n) → Prop}
    {events : List (FleetEvent P n)} {r : P} {bound : ℕ} (hwatching : Watching bound before r)
    (hordered : Ordered table Offered before)
    (hapart : (fleet entityHash).RunMeets Apart before events)
    (hoffer : ∀ event ∈ events, ∀ args ∈ event.offer, Offered args)
    (hrun : (fleet entityHash).run before events = some after) :
    Watching (bound + events.length) after r := by
  induction events generalizing before bound with
  | nil =>
      obtain rfl := Option.some.inj hrun
      exact hwatching
  | cons event rest ih =>
      obtain ⟨middle, hstep, hrest⟩ := (fleet entityHash).run_cons_eq_some.mp hrun
      have hnext := ih (hwatching.step hordered hstep)
        (hordered.step hapart.1 (hoffer event List.mem_cons_self) hstep) (hapart.2 middle hstep)
        (fun other hmem => hoffer other (List.mem_cons_of_mem event hmem)) hrest
      have hlength : bound + (event :: rest).length = bound + 1 + rest.length := by
        rw [List.length_cons]
        omega
      rw [hlength]
      exact hnext

omit [DecidableEq P] in
/-- A read returns an entry when it finds the version again with which it started. -/
theorem stepReader_returned {h : Header} {entries : ℕ → Entry (Memory n)} {reader : Reader n}
    {slot : ℕ} {snap : Entry (Memory n)}
    (hstep : stepReader h entries reader = some (.returned slot (some snap))) :
    ∃ v1 out, reader = .copying slot v1 [] out ∧ v1 = (entries slot).version ∧
      snap = { out with version := v1 } := by
  cases reader with
  | start i other =>
      simp only [stepReader] at hstep
      split_ifs at hstep <;> cases hstep
  | version i other =>
      simp only [stepReader] at hstep
      split_ifs at hstep <;> cases hstep
  | copying i v2 rest other =>
      cases rest with
      | nil =>
          simp only [stepReader] at hstep
          split_ifs at hstep with hsame
          · cases hstep
            exact ⟨v2, other, rfl, hsame, rfl⟩
          · cases hstep
      | cons field rest => cases hstep
  | returned i result => cases hstep

/-- While the insertions into one slot keep apart and a read takes fewer than 2^32 steps of all
processes, the entity, action, outcome, first-seen time and tenant which it returns are those of
the slot at that moment, at which nobody is writing them; and they are those of the start or all
of one deposit. -/
theorem read_entry_consistent {r : P} {slot : ℕ} {snap : Entry (Memory n)}
    (hinitial : (fleet entityHash).Initial start)
    (hfront : (fleet entityHash).run start front = some before)
    (hback : (fleet entityHash).run before back = some after)
    (hapart : (fleet entityHash).RunMeets Apart start (front ++ back))
    (houtside : ∀ slot v1 todo out, before.job r ≠ .read (.copying slot v1 todo out))
    (hlength : back.length < 2 ^ 32)
    (hstep : (fleet entityHash).step after (.work r) = some final)
    (hreturned : final.job r = .read (.returned slot (some snap))) :
    snap.cold = (final.table.entries slot).cold ∧
      (∀ q args writeVer todo, final.job q ≠ .cold args slot writeVer todo) ∧
      (snap.cold = (start.table.entries slot).cold ∨
        ∃ q args, FleetEvent.start q (.deposit args) ∈ front ++ back ∧
          snap.cold = coldOf start.table.header args) := by
  let Offered : Deposit (Memory n) → Prop :=
    fun args => ∃ q, FleetEvent.start q (.deposit args) ∈ front ++ back
  have hoffer : ∀ event ∈ front ++ back, ∀ args ∈ event.offer, Offered args := by
    intro event hmem args hargs
    cases event with
    | start q request =>
        cases request with
        | deposit other =>
            obtain rfl := Option.some.inj hargs
            exact ⟨q, hmem⟩
        | _ => cases hargs
    | _ => cases hargs
  have hfrontOffer : ∀ event ∈ front, ∀ args ∈ event.offer, Offered args :=
    fun event hmem => hoffer event (List.mem_append_left back hmem)
  have hbackOffer : ∀ event ∈ back, ∀ args ∈ event.offer, Offered args :=
    fun event hmem => hoffer event (List.mem_append_right front hmem)
  have hbackApart := hapart.of_append_right hfront
  have hbefore := (ordered_of_initial hinitial Offered).run hapart.of_append hfrontOffer hfront
  have hafter := hbefore.run hbackApart hbackOffer hback
  have hwatching : Watching 0 before r :=
    fun slot v1 todo out hread => absurd hread (houtside slot v1 todo out)
  have hwatched := hwatching.run hbefore hbackApart hbackOffer hback
  obtain ⟨done, hdone, rfl⟩ := Option.map_eq_some_iff.mp hstep
  rw [become_job_self] at hreturned
  obtain ⟨reader, hreader, hread, hentries⟩ := stepJob_read hdone hreturned
  obtain ⟨v1, out, rfl, hsame, rfl⟩ := stepReader_returned hread
  have hwatch := hwatched slot v1 [] out hreader
  have hbound : 0 + back.length < versionClock.period := by
    rw [Nat.zero_add]
    exact hlength
  have hcopied := hwatch.check hbound hsame.symm
  have hwords : out.coldWord = (after.table.entries slot).coldWord :=
    funext fun field => hcopied field List.not_mem_nil
  have hcold : out.cold = (after.table.entries slot).cold := by
    refine Cold.word_injective ?_
    rw [cold_word, cold_word, hwords]
  have hfree : ¬ versionClock.locked (after.slot slot).cell.version := by
    change ¬ versionClock.locked (after.table.entries slot).version
    rw [← hsame]
    exact hwatch.1
  have hsnap : ({ out with version := v1 } : Entry (Memory n)).cold =
      (after.table.entries slot).cold := hcold
  have hlast : (after.become r done).table.entries = after.table.entries := hentries
  rw [hlast, hsnap]
  refine ⟨rfl, fun q args writeVer todo hq => ?_, ?_⟩
  · by_cases hqr : q = r
    · rw [hqr, become_job_self, hreturned] at hq
      cases hq
    · rw [become_job_of_ne after hqr] at hq
      have hseat : (after.slot slot).seat q =
          some (.writing writeVer todo (coldOf after.table.header args).word) := by
        change (after.job q).seatAt after.table.header slot = _
        rw [hq]
        exact if_pos rfl
      obtain ⟨hver, hlocked, -⟩ := (hafter.orderly slot).writing q _ _ _ hseat
      exact hfree (hver ▸ hlocked)
  · rcases (hafter.orderly slot).origin_of_free hfree with hstart | ⟨args, ⟨q, hq⟩, hrecord⟩
    · left
      refine Cold.word_injective ?_
      rw [cold_word, cold_word]
      exact hstart
    · refine .inr ⟨q, args, hq, Cold.word_injective ?_⟩
      rw [cold_word]
      exact hrecord

/-- An empty table and two processes; entities have one byte. -/
def unused : Fleet Bool 1 where
  table :=
    { header := ⟨magicWord, version, 8, 7, [], 0, defaultDecayFp16, defaultNoiseFloor⟩
      entries := fun _ => Entry.zero }
  job _ := .idle

theorem initial_unused : (fleet (P := Bool) fun _ => 5).Initial unused :=
  ⟨fun _ => rfl, fun _ => (by decide : (0 : UInt32) &&& 1 = 0)⟩

def tip : Deposit (Memory 1) := ⟨fun _ => 9, 1, 2, 3, 40, true, 0, 100⟩

instance [Fintype P] (s : Fleet P n) (event : FleetEvent P n) : Decidable (Apart s event) :=
  match event with
  | .work p => inferInstanceAs (Decidable (∀ idx ∈ (s.job p).loadsVersion, ∀ _, _))
  | .start _ _ | .copy _ _ => .isTrue trivial

/-- What a process has read. -/
def Job.found : Job n → Option (ℕ × Entry (Memory n))
  | .read (.returned slot (some snap)) => some (slot, snap)
  | _ => none

/-- The first process deposits up to the byte of the entity. -/
def depositing : List (FleetEvent Bool 1) :=
  .start false (.deposit tip) :: List.replicate 5 (.work false) ++
    [.copy false (.cold .action), .copy false (.cold .outcome), .copy false (.cold .firstSeen),
      .copy false (.cold .tenantId)]

/-- It writes the byte and unlocks while the other one starts to read. -/
def overlapping : List (FleetEvent Bool 1) :=
  [.start true (.readEntry 5 Entry.zero), .work true, .work true,
      .copy false (.cold (.byte ⟨0, Nat.one_pos⟩)), .work false, .work true] ++
    (readFields 1).map (.copy true)

theorem read_entry_consistent_unused :
    ∃ after final snap,
      (fleet fun _ => 5).run unused (depositing ++ overlapping) = some after ∧
        (fleet fun _ => 5).step after (.work true) = some final ∧
        final.job true = .read (.returned 5 (some snap)) ∧
        snap.cold = (final.table.entries 5).cold := by
  have hreads : (((fleet fun _ => 5).run unused depositing).any fun before =>
      (before.job true).isOver && (((fleet fun _ => 5).run before overlapping).any fun after =>
        ((fleet fun _ => 5).step after (.work true)).any fun final =>
          (final.job true).found.any fun found => found.1 = 5)) = true := by decide +kernel
  have hapart : (fleet fun _ => 5).RunMeets Apart unused (depositing ++ overlapping) := by
    decide +kernel
  obtain ⟨before, hfront, hreads⟩ := (Option.any_eq_true _ _).mp hreads
  obtain ⟨hover, hreads⟩ := Bool.and_eq_true_iff.mp hreads
  obtain ⟨after, hback, hreads⟩ := (Option.any_eq_true _ _).mp hreads
  obtain ⟨final, hstep, hreads⟩ := (Option.any_eq_true _ _).mp hreads
  obtain ⟨⟨slot, snap⟩, hfound, hslot⟩ := (Option.any_eq_true _ _).mp hreads
  obtain rfl : slot = 5 := of_decide_eq_true hslot
  have hreturned : final.job true = .read (.returned 5 (some snap)) := by
    cases hjob : final.job true with
    | read reader =>
        rw [hjob] at hfound
        cases reader with
        | returned i result =>
            cases result with
            | none => cases hfound
            | some other =>
                obtain ⟨rfl, rfl⟩ := Prod.mk.inj (Option.some.inj hfound)
                rfl
        | _ => cases hfound
    | _ =>
        rw [hjob] at hfound
        cases hfound
  have houtside : ∀ slot v1 todo out, before.job true ≠ .read (.copying slot v1 todo out) := by
    intro slot v1 todo out hcopying
    rw [hcopying] at hover
    cases hover
  have hrun : (fleet fun _ => 5).run unused (depositing ++ overlapping) = some after :=
    (fleet fun _ => 5).run_append_eq_some.mpr ⟨before, hfront, hback⟩
  exact ⟨after, final, snap, hrun, hstep, hreturned,
    (read_entry_consistent initial_unused hfront hback hapart houtside (by decide) hstep
      hreturned).1⟩

end Runs

end Pheromone
end LibWake
