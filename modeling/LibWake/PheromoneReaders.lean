import LibWake.PheromoneSnapshots

/-!
# Readers on their own

However insertions, removals and decay overlap, the version of a slot is odd only while some
insertion writes there.  A read which nobody disturbs on a slot with an even version returns the
whole entry as it stands; right behind a claim this is the new key over the old cold fields.
-/

namespace LibWake
namespace Pheromone

open Seqlock

variable {n : ℕ} {P : Type} [DecidableEq P] {entityHash : Memory n → UInt64}

/-! ## The version -/

section Versions

variable {start s next : Fleet P n} {events : List (FleetEvent P n)} {event : FleetEvent P n}

omit [DecidableEq P] in
theorem held_of_initial (hinitial : (∀ p, start.job p = .idle) ∧
      ∀ idx, (start.table.entries idx).version &&& 1 = 0) (idx : ℕ) :
    Held versionClock (start.slot idx) := by
  refine ⟨fun hlocked => absurd (hinitial.2 idx) hlocked, fun p ver todo record hp => ?_⟩
  change (start.job p).seatAt start.table.header idx = _ at hp
  rw [hinitial.1 p] at hp
  cases hp

theorem held_step {idx : ℕ} (hheld : Held versionClock (s.slot idx))
    (hstep : fleetStep entityHash s event = some next) : Held versionClock (next.slot idx) := by
  have hmove : Move versionClock (fun _ => True) (Apart s event) event.process (s.slot idx)
      (next.slot idx) := slot_moves hstep (fun _ _ _ => trivial) idx
  exact hheld.move hmove

omit [DecidableEq P] in
theorem seat_writing {idx : ℕ} {p : P} {ver : UInt32} {todo : List (ColdField n)}
    {record : ColdField n → ℕ} (hseat : (s.slot idx).seat p = some (.writing ver todo record)) :
    ∃ args, s.job p = .cold args idx ver todo := by
  change (s.job p).seatAt s.table.header idx = _ at hseat
  cases hjob : s.job p with
  | insert args phase =>
      rw [hjob] at hseat
      cases phase with
      | lockVersion i value =>
          simp only [Job.seatAt] at hseat
          split_ifs at hseat
          cases hseat
      | _ => cases hseat
  | cold args i writeVer rest =>
      rw [hjob] at hseat
      simp only [Job.seatAt] at hseat
      split_ifs at hseat with hi
      obtain ⟨rfl, rfl, -⟩ := Seat.writing.inj (Option.some.inj hseat)
      exact ⟨args, by rw [hi]⟩
  | _ =>
      rw [hjob] at hseat
      cases hseat

/-- An odd version is that of an insertion which is writing there, in every run. -/
theorem written_of_version_odd (hinitial : (fleet entityHash).Initial start)
    (hrun : (fleet entityHash).run start events = some s) {idx : ℕ}
    (hodd : (s.table.entries idx).version &&& 1 ≠ 0) :
    ∃ p args writeVer todo, s.job p = .cold args idx writeVer todo := by
  have hheld := (fleet entityHash).run_invariant
    (motive := fun s => Held versionClock (s.slot idx))
    (fun _ _ _ hheld hstep => held_step hheld hstep) (held_of_initial hinitial idx) hrun
  obtain ⟨p, ver, todo, record, hseat⟩ := hheld.held hodd
  obtain ⟨args, hjob⟩ := seat_writing hseat
  exact ⟨p, args, ver, todo, hjob⟩

end Versions

/-! ## Copying all fields -/

/-- The value of a hot field as a number. -/
def Entry.hotWord (entry : Entry (Memory n)) : HotField → ℕ
  | .keyHash => entry.keyHash.toNat
  | .confidence => entry.confidence.toNat
  | .hitCount => entry.hitCount.toNat
  | .lastUpdate => entry.lastUpdate.toNat
  | .srcCount => entry.srcCount.toNat
  | .phaseFlags => entry.phaseFlags.toNat
  | .reason i => (entry.reasons i).toNat

def Entry.word (entry : Entry (Memory n)) : Field n → ℕ
  | .hot field => entry.hotWord field
  | .cold field => entry.coldWord field

theorem hotCopy_hotWord (source target : Entry (Memory n)) (field : HotField) :
    (field.copy source target).hotWord =
      Function.update target.hotWord field (source.hotWord field) := by
  funext other
  by_cases hsame : other = field
  · subst hsame
    rw [Function.update_self]
    cases other with
    | reason i => simp only [HotField.copy, Entry.hotWord, Function.update_self]
    | _ => rfl
  · rw [Function.update_of_ne hsame]
    cases field with
    | reason i =>
        cases other with
        | reason j =>
            have hne : j ≠ i := fun hji => hsame (congrArg _ hji)
            simp only [HotField.copy, Entry.hotWord, Function.update_of_ne hne]
        | _ => rfl
    | _ => cases other <;> first | rfl | exact absurd rfl hsame

theorem coldCopy_hotWord (source target : Entry (Memory n)) (field : ColdField n) :
    (field.copy source target).hotWord = target.hotWord := by
  funext other
  cases field <;> cases other <;> rfl

theorem copy_word (source target : Entry (Memory n)) (field : Field n) :
    (field.copy source target).word = Function.update target.word field (source.word field) := by
  funext other
  by_cases hsame : other = field
  · subst hsame
    rw [Function.update_self]
    cases other with
    | hot field =>
        exact (congrFun (hotCopy_hotWord source target field) field).trans
          (Function.update_self ..)
    | cold field =>
        exact (congrFun (coldCopy_coldWord source target field) field).trans
          (Function.update_self ..)
  · rw [Function.update_of_ne hsame]
    cases field with
    | hot field =>
        cases other with
        | hot other =>
            have hne : other ≠ field := fun heq => hsame (congrArg _ heq)
            exact (congrFun (hotCopy_hotWord source target field) other).trans
              (Function.update_of_ne hne ..)
        | cold other => exact congrFun (hotCopy_coldWord source target field) other
    | cold field =>
        cases other with
        | hot other => exact congrFun (coldCopy_hotWord source target field) other
        | cold other =>
            have hne : other ≠ field := fun heq => hsame (congrArg _ heq)
            exact (congrFun (coldCopy_coldWord source target field) other).trans
              (Function.update_of_ne hne ..)

/-- An entry is its fields and its version. -/
theorem entry_eq_of_word {a b : Entry (Memory n)} (hversion : a.version = b.version)
    (hword : a.word = b.word) : a = b := by
  have hhot : ∀ field, a.hotWord field = b.hotWord field := fun field => congrFun hword (.hot field)
  have hcold : a.cold = b.cold := by
    refine Cold.word_injective ?_
    rw [cold_word, cold_word]
    exact funext fun field => congrFun hword (.cold field)
  obtain ⟨hentity, haction, houtcome, hfirst, htenant⟩ := Cold.mk.inj hcold
  obtain ⟨keyHash, confidence, hitCount, lastUpdate, srcCount, action, outcome, firstSeen,
    tenantId, version, phaseFlags, reasons, entity⟩ := a
  have hkey : keyHash = b.keyHash := UInt64.toNat_inj.mp (hhot .keyHash)
  have hconfidence : confidence = b.confidence := UInt32.toNat_inj.mp (hhot .confidence)
  have hhits : hitCount = b.hitCount := UInt32.toNat_inj.mp (hhot .hitCount)
  have hupdate : lastUpdate = b.lastUpdate := UInt32.toNat_inj.mp (hhot .lastUpdate)
  have hsrc : srcCount = b.srcCount := UInt16.toNat_inj.mp (hhot .srcCount)
  have hflags : phaseFlags = b.phaseFlags := UInt32.toNat_inj.mp (hhot .phaseFlags)
  have hreasons : reasons = b.reasons :=
    funext fun i => UInt64.toNat_inj.mp (hhot (.reason i))
  simp only at hversion hentity haction houtcome hfirst htenant
  rw [hkey, hconfidence, hhits, hupdate, hsrc, hflags, hreasons, hversion, hentity, haction,
    houtcome, hfirst, htenant]

theorem word_of_version (entry : Entry (Memory n)) (version : UInt32) :
    ({ entry with version := version } : Entry (Memory n)).word = entry.word := by
  funext field
  cases field with
  | hot field => cases field <;> rfl
  | cold field => cases field <;> rfl

/-! ## A read which nobody disturbs -/

section Alone

variable {s : Fleet P n} {r : P} {slot : ℕ}

def Fleet.reads (s : Fleet P n) (r : P) (reader : Reader n) : Fleet P n :=
  s.become r (s.table.entries, .read reader)

/-- What `wake_pheromone_read_entry` returns of a table at rest. -/
def presentEntry (table : Table (Memory n)) (slot : ℕ) : Option (Entry (Memory n)) :=
  if slot < table.header.capacity.toNat ∧ (table.entries slot).Live then
    some (table.entries slot)
  else none

/-- The event is a step of the call which the process runs. -/
def FleetEvent.Continues (r : P) : FleetEvent P n → Prop
  | .start _ _ => False
  | .work p => p = r
  | .copy p _ => p = r

omit [DecidableEq P] in
theorem FleetEvent.Continues.process {event : FleetEvent P n} (hcontinues : event.Continues r) :
    event.process = r := by
  cases event with
  | start p request => exact hcontinues.elim
  | work p => exact hcontinues
  | copy p field => exact hcontinues

/-- A read of the slot which has taken `steps` steps behind its start on a table at rest. -/
inductive Underway (table : Table (Memory n)) (slot : ℕ) : Reader n → ℕ → Prop
  | start (out : Entry (Memory n)) : Underway table slot (.start slot out) 0
  | version (hpresent : slot < table.header.capacity.toNat ∧ (table.entries slot).Live)
      (out : Entry (Memory n)) : Underway table slot (.version slot out) 1
  | copying (hpresent : slot < table.header.capacity.toNat ∧ (table.entries slot).Live)
      {todo : List (Field n)} {out : Entry (Memory n)} {steps : ℕ}
      (hcopied : ∀ field, field ∉ todo → out.word field = (table.entries slot).word field)
      (hsteps : steps + todo.length = n + 15) :
      Underway table slot (.copying slot (table.entries slot).version todo out) steps
  | returned {steps : ℕ} (hsteps : steps ≤ n + 16) :
      Underway table slot (.returned slot (presentEntry table slot)) steps

omit [DecidableEq P] in
theorem length_readFields (n : ℕ) : (readFields n).length = n + 13 := by
  simp only [readFields, hotFields, coldFields, List.length_append, List.length_map,
    List.length_finRange, List.length_cons, List.length_nil]
  omega

section Steps

variable {table : Table (Memory n)} {reader : Reader n} {steps : ℕ}

theorem Underway.steps_le (hunderway : Underway table slot reader steps) : steps ≤ n + 16 := by
  cases hunderway with
  | start out => exact Nat.zero_le _
  | version hpresent out => omega
  | copying hpresent hcopied hsteps => omega
  | returned hsteps => exact hsteps

theorem Underway.load (heven : (table.entries slot).version &&& 1 = 0) {next : Reader n}
    (hunderway : Underway table slot reader steps)
    (hstep : stepReader table.header table.entries reader = some next) :
    Underway table slot next (steps + 1) := by
  cases hunderway with
  | start out =>
      simp only [stepReader] at hstep
      split_ifs at hstep with hout hlive
      · have habsent : presentEntry table slot = none :=
          if_neg fun hpresent => Nat.not_lt.mpr hout hpresent.1
        cases hstep
        exact habsent ▸ .returned (by omega)
      · cases hstep
        exact .version ⟨Nat.not_le.mp hout, hlive⟩ out
      · have habsent : presentEntry table slot = none :=
          if_neg fun hpresent => hlive hpresent.2
        cases hstep
        exact habsent ▸ .returned (by omega)
  | version hpresent out =>
      simp only [stepReader, if_neg (not_not.mpr heven)] at hstep
      cases hstep
      refine .copying hpresent (fun field hout => absurd (mem_readFields field) hout) ?_
      rw [length_readFields]
      omega
  | @copying hpresent todo out _ hcopied hsteps =>
      cases todo with
      | nil =>
          simp only [stepReader, if_true] at hstep
          cases hstep
          have hwhole : { out with version := (table.entries slot).version } =
              table.entries slot := by
            refine entry_eq_of_word rfl ?_
            rw [word_of_version]
            exact funext fun field => hcopied field List.not_mem_nil
          have hfound : presentEntry table slot = some (table.entries slot) := if_pos hpresent
          rw [hwhole, ← hfound]
          exact .returned (by simpa using hsteps.le)
      | cons field rest => cases hstep
  | returned hsteps => cases hstep

theorem Underway.copy {v1 : UInt32} {todo : List (Field n)} {out : Entry (Memory n)}
    (hunderway : Underway table slot (.copying slot v1 todo out) steps) {field : Field n}
    (hmem : field ∈ todo) :
    Underway table slot (.copying slot v1 (todo.erase field)
      (field.copy (table.entries slot) out)) (steps + 1) := by
  cases hunderway with
  | copying hpresent hcopied hsteps =>
      refine .copying hpresent (fun other hout => ?_) ?_
      · rw [copy_word]
        by_cases hsame : other = field
        · rw [hsame, Function.update_self]
        · rw [Function.update_of_ne hsame]
          exact hcopied other fun hother => hout ((List.mem_erase_of_ne hsame).mpr hother)
      · have hlength := List.length_erase_of_mem hmem
        have hpos := List.length_pos_of_mem hmem
        omega

end Steps

/-- One step of a read on its own. -/
theorem underway_step (heven : (s.table.entries slot).version &&& 1 = 0) {reader : Reader n}
    {steps : ℕ} (hunderway : Underway s.table slot reader steps) {event : FleetEvent P n}
    (hcontinues : event.Continues r) {next : Fleet P n}
    (hstep : (fleet entityHash).step (s.reads r reader) event = some next) :
    ∃ reader', next = s.reads r reader' ∧ Underway s.table slot reader' (steps + 1) := by
  have hjob : (s.reads r reader).job r = .read reader := Function.update_self ..
  cases event with
  | start p request => exact hcontinues.elim
  | work p =>
      obtain rfl : p = r := hcontinues
      obtain ⟨after, hafter, rfl⟩ := Option.map_eq_some_iff.mp hstep
      rw [hjob] at hafter
      obtain ⟨reader', hreader, rfl⟩ := Option.map_eq_some_iff.mp hafter
      refine ⟨reader', ?_, hunderway.load heven hreader⟩
      simp only [Fleet.reads, Fleet.become, Function.update_idem]
  | copy p field =>
      obtain rfl : p = r := hcontinues
      obtain ⟨after, hafter, rfl⟩ := Option.map_eq_some_iff.mp hstep
      rw [hjob] at hafter
      cases hunderway with
      | @copying hpresent todo out _ hcopied hsteps =>
          simp only [copyJob] at hafter
          split_ifs at hafter with hmem
          cases hafter
          refine ⟨_, ?_, (Underway.copying hpresent hcopied hsteps).copy hmem⟩
          simp only [Fleet.reads, Fleet.become, Function.update_idem]
      | _ => cases hafter

/-- A read on its own which has not returned has a step to take. -/
theorem underway_progress (entityHash : Memory n → UInt64)
    (heven : (s.table.entries slot).version &&& 1 = 0) {reader : Reader n}
    {steps : ℕ} (hunderway : Underway s.table slot reader steps) :
    reader = .returned slot (presentEntry s.table slot) ∨
      ∃ event next, FleetEvent.Continues r event ∧
        (fleet entityHash).step (s.reads r reader) event = some next := by
  have hjob : (s.reads r reader).job r = .read reader := Function.update_self ..
  have hload : ∀ {next}, stepReader s.table.header s.table.entries reader = some next →
      ∃ event after, FleetEvent.Continues r event ∧
        (fleet entityHash).step (s.reads r reader) event = some after := by
    intro next hnext
    have hstep : (fleet entityHash).step (s.reads r reader) (.work r) =
        some ((s.reads r reader).become r (s.table.entries, .read next)) := by
      simp only [fleet, fleetStep, hjob, stepJob]
      exact congrArg _ (congrArg _ hnext)
    exact ⟨.work r, _, rfl, hstep⟩
  cases hunderway with
  | start out =>
      right
      by_cases hout : slot ≥ s.table.header.capacity.toNat
      · exact hload (if_pos hout)
      · by_cases hlive : (s.table.entries slot).Live
        · exact hload ((if_neg hout).trans (if_pos hlive))
        · exact hload ((if_neg hout).trans (if_neg hlive))
  | version hpresent out => exact .inr (hload (if_neg (not_not.mpr heven)))
  | @copying hpresent todo out _ hcopied hsteps =>
      right
      cases todo with
      | nil => exact hload (if_pos rfl)
      | cons field rest =>
          have hcopied : (copyJob entityHash s.table.header s.table.entries field
              (.read (.copying slot (s.table.entries slot).version (field :: rest)
                out))).isSome := by
            simp only [copyJob, List.mem_cons_self, if_true, Option.isSome_some]
          obtain ⟨after, hafter⟩ := Option.isSome_iff_exists.mp hcopied
          rw [← hjob] at hafter
          exact ⟨.copy r field, _, rfl, congrArg (Option.map _) hafter⟩
  | returned hsteps => exact .inl rfl

theorem underway_run (heven : (s.table.entries slot).version &&& 1 = 0) {reader : Reader n}
    {steps : ℕ} (hunderway : Underway s.table slot reader steps)
    {reading : List (FleetEvent P n)} (hcontinue : ∀ event ∈ reading, event.Continues r)
    {final : Fleet P n} (hrun : (fleet entityHash).run (s.reads r reader) reading = some final) :
    ∃ reader', final = s.reads r reader' ∧
      Underway s.table slot reader' (steps + reading.length) := by
  induction reading generalizing reader steps with
  | nil =>
      obtain rfl := Option.some.inj hrun
      exact ⟨reader, rfl, hunderway⟩
  | cons event rest ih =>
      obtain ⟨next, hstep, hrest⟩ := (fleet entityHash).run_cons_eq_some.mp hrun
      obtain ⟨reader', rfl, hlater⟩ :=
        underway_step heven hunderway (hcontinue event List.mem_cons_self) hstep
      obtain ⟨last, hfinal, hlast⟩ :=
        ih hlater (fun other hmem => hcontinue other (List.mem_cons_of_mem event hmem)) hrest
      refine ⟨last, hfinal, ?_⟩
      rw [List.length_cons, Nat.add_comm rest.length 1, ← Nat.add_assoc]
      exact hlast

/-- Some schedule of a read on its own returns. -/
theorem underway_returns (heven : (s.table.entries slot).version &&& 1 = 0) (remaining : ℕ)
    {reader : Reader n} {steps : ℕ} (hunderway : Underway s.table slot reader steps)
    (hremaining : steps + remaining = n + 17) :
    ∃ reading, (∀ event ∈ reading, FleetEvent.Continues r event) ∧
      (fleet entityHash).run (s.reads r reader) reading =
        some (s.reads r (.returned slot (presentEntry s.table slot))) := by
  induction remaining generalizing reader steps with
  | zero =>
      have hle := hunderway.steps_le
      omega
  | succ remaining ih =>
      rcases underway_progress entityHash heven hunderway with
        rfl | ⟨event, next, hcontinues, hstep⟩
      · exact ⟨[], fun _ hmem => absurd hmem List.not_mem_nil, rfl⟩
      · obtain ⟨reader', rfl, hlater⟩ := underway_step heven hunderway hcontinues hstep
        obtain ⟨rest, hrest, hreturns⟩ := ih hlater (by omega)
        refine ⟨event :: rest, ?_, (fleet entityHash).run_cons_eq_some.mpr ⟨_, hstep, hreturns⟩⟩
        rintro other (_ | ⟨_, hmem⟩)
        · exact hcontinues
        · exact hrest other hmem

/-- Every schedule in which a read of the slot runs on its own returns the result within `bound`
steps: it never gets stuck before, and does not touch the table. -/
structure ReturnsAlone (entityHash : Memory n → UInt64) (s : Fleet P n) (r : P) (slot : ℕ)
    (out : Entry (Memory n)) (result : Option (Entry (Memory n))) (bound : ℕ) : Prop where
  within : ∀ reading final, (∀ event ∈ reading, FleetEvent.Continues r event) →
    (fleet entityHash).run s (.start r (.readEntry slot out) :: reading) = some final →
    reading.length + 1 ≤ bound ∧ final.table = s.table ∧
      (final.job r = .read (.returned slot result) ∨
        ∃ event next, FleetEvent.Continues r event ∧
          (fleet entityHash).step final event = some next)
  returns : ∃ reading final, (∀ event ∈ reading, FleetEvent.Continues r event) ∧
    (fleet entityHash).run s (.start r (.readEntry slot out) :: reading) = some final ∧
      final.job r = .read (.returned slot result)

theorem returnsAlone (entityHash : Memory n → UInt64) (hover : (s.job r).isOver = true)
    (heven : (s.table.entries slot).version &&& 1 = 0) (out : Entry (Memory n)) :
    ReturnsAlone entityHash s r slot out (presentEntry s.table slot) (n + 17) := by
  have hstart : (fleet entityHash).step s (.start r (.readEntry slot out)) =
      some (s.reads r (.start slot out)) := if_pos hover
  constructor
  · intro reading final hcontinue hrun
    obtain ⟨next, hstep, hrest⟩ := (fleet entityHash).run_cons_eq_some.mp hrun
    obtain rfl := Option.some.inj (hstart.symm.trans hstep)
    obtain ⟨reader, rfl, hunderway⟩ := underway_run heven (.start out) hcontinue hrest
    have hsteps := hunderway.steps_le
    refine ⟨by omega, rfl, ?_⟩
    rcases underway_progress entityHash heven hunderway with rfl | hprogress
    · exact .inl (become_job_self s r _)
    · exact .inr hprogress
  · obtain ⟨reading, hcontinue, hreturns⟩ :=
      underway_returns heven (n + 17) (.start out) (Nat.zero_add _)
    exact ⟨reading, _, hcontinue,
      (fleet entityHash).run_cons_eq_some.mpr ⟨_, hstart, hreturns⟩, become_job_self s r _⟩

/-- In every run, however insertions, removals and decay overlap, the version of a slot is odd
only while an insertion is between its two version stores there; and when none is, a read of the
slot which runs on its own, whatever the order in which it copies the fields, returns within a
fixed number of steps, with the entry as it stands. -/
theorem readers_are_released {start : Fleet P n} {events : List (FleetEvent P n)}
    (hinitial : (fleet entityHash).Initial start)
    (hrun : (fleet entityHash).run start events = some s) :
    ((s.table.entries slot).version &&& 1 ≠ 0 →
      ∃ p args writeVer todo, s.job p = .cold args slot writeVer todo) ∧
    ((∀ p args writeVer todo, s.job p ≠ .cold args slot writeVer todo) →
      (s.job r).isOver = true → ∀ out,
        ReturnsAlone entityHash s r slot out (presentEntry s.table slot) (n + 17)) := by
  have hwritten := @written_of_version_odd _ _ _ entityHash _ _ _ hinitial hrun slot
  refine ⟨hwritten, fun hunwritten hover out => returnsAlone entityHash hover ?_ out⟩
  by_contra hodd
  obtain ⟨p, args, writeVer, todo, hjob⟩ := hwritten hodd
  exact hunwritten p args writeVer todo hjob

/-- A deposit from its start to its return. -/
def wholeDeposit : List (FleetEvent Bool 1) :=
  depositing ++ .copy false (.cold (.byte ⟨0, Nat.one_pos⟩)) :: List.replicate 9 (.work false)

theorem readers_are_released_deposited :
    ∃ s, (fleet fun _ => 5).run unused wholeDeposit = some s ∧ (s.table.entries 5).Live ∧
      ReturnsAlone (fun _ => 5) s true 5 Entry.zero (some (s.table.entries 5)) 18 := by
  have hdone : ((fleet fun _ => 5).run unused wholeDeposit).any (fun s =>
      decide (5 < s.table.header.capacity.toNat ∧ (s.table.entries 5).Live) &&
        ((s.job true).isOver && (s.job false).isOver)) = true := by
    decide +kernel
  obtain ⟨s, hrun, hdone⟩ := (Option.any_eq_true _ _).mp hdone
  obtain ⟨hpresent, hover⟩ := Bool.and_eq_true_iff.mp hdone
  have hpresent := of_decide_eq_true hpresent
  have hover : ∀ p, (s.job p).isOver = true := by
    obtain ⟨htrue, hfalse⟩ := Bool.and_eq_true_iff.mp hover
    rintro (_ | _)
    · exact hfalse
    · exact htrue
  have hunwritten : ∀ p args writeVer todo, s.job p ≠ .cold args 5 writeVer todo := by
    intro p args writeVer todo hjob
    have hwriting := hover p
    rw [hjob] at hwriting
    cases hwriting
  have hreturns := (readers_are_released initial_unused hrun).2 hunwritten (hover true) Entry.zero
  rw [presentEntry, if_pos hpresent] at hreturns
  exact ⟨s, hrun, hpresent.2, hreturns⟩

/-- Right behind the swap which claims a slot, a read of the slot returns the new key hash over
the entity and the evidence of the previous owner: the version does not cover the claim. -/
theorem read_behind_swap {p : P} {args : Deposit (Memory n)} {expected : UInt64}
    (hjob : s.job p = .insert args (.swap slot expected))
    (hsame : (s.table.entries slot).keyHash = expected)
    (heven : (s.table.entries slot).version &&& 1 = 0)
    (hlt : slot < s.table.header.capacity.toNat) (hover : (s.job r).isOver = true)
    (out : Entry (Memory n)) :
    ∃ claimed reading final snap, (fleet entityHash).step s (.work p) = some claimed ∧
      (∀ event ∈ reading, FleetEvent.process event = r) ∧
      (fleet entityHash).run claimed reading = some final ∧
      final.job r = .read (.returned slot (some snap)) ∧
      snap.keyHash = entityKeyHash entityHash args.entity ∧
      snap.cold = (s.table.entries slot).cold ∧
      snap.confidence = (s.table.entries slot).confidence := by
  have hne : r ≠ p := by
    rintro rfl
    rw [hjob] at hover
    cases hover
  let entry : Entry (Memory n) :=
    { s.table.entries slot with keyHash := entityKeyHash entityHash args.entity }
  let claimed : Fleet P n :=
    s.become p (Function.update s.table.entries slot entry, .insert args (.loadVersion slot))
  have hclaims : (fleet entityHash).step s (.work p) = some claimed := by
    simp only [fleet, fleetStep, hjob, stepJob, Phase.isCold, Bool.false_eq_true, if_false,
      stepPhase, hsame, if_true, Option.map_some]
    rfl
  have hentry : claimed.table.entries slot = entry := Function.update_self ..
  have hevenClaimed : (claimed.table.entries slot).version &&& 1 = 0 := by
    rw [hentry]
    exact heven
  have hoverClaimed : (claimed.job r).isOver = true := by
    rw [become_job_of_ne s hne]
    exact hover
  obtain ⟨reading, final, hcontinue, hread, hreturned⟩ :=
    (returnsAlone entityHash hoverClaimed hevenClaimed out).returns
  have hpresent : presentEntry claimed.table slot = some entry := by
    unfold presentEntry
    rw [hentry]
    exact if_pos ⟨hlt, entityKeyHash_ne_sentinel entityHash args.entity⟩
  rw [hpresent] at hreturned
  refine ⟨claimed, _, final, entry, hclaims, ?_, hread, hreturned, rfl, rfl, rfl⟩
  rintro event (_ | ⟨_, hmem⟩)
  · rfl
  · exact (hcontinue event hmem).process

/-- A slot whose entry was removed; the first process is about to claim it. -/
def recycling : Fleet Bool 1 where
  table :=
    { unused.table with
      entries := fun _ => { Entry.zero with keyHash := slotTombstone, confidence := 70 } }
  job p := if p then .idle else .insert tip (.swap 5 slotTombstone)

theorem read_behind_swap_recycling :
    ∃ claimed reading final snap,
      (fleet fun _ => 5).step recycling (.work false) = some claimed ∧
        (∀ event ∈ reading, FleetEvent.process event = true) ∧
        (fleet fun _ => 5).run claimed reading = some final ∧
        final.job true = .read (.returned 5 (some snap)) ∧ snap.keyHash = 5 ∧
        snap.cold = (recycling.table.entries 5).cold ∧ snap.confidence = 70 :=
  read_behind_swap (s := recycling) (p := false) rfl rfl rfl (by decide) rfl Entry.zero

end Alone

end Pheromone
end LibWake
