import LibWake.PheromoneMaintenance
import LibWake.PheromoneTermination
import LibWake.Seqlock

/-!
# Cold-path reads beside writers

Any number of processes deposit, remove, decay and read entries.  The atomic operations are steps
of their own, as in `Phase` and `Maintenance`; the plain accesses between two of them, the bytes
of an entity included, happen one field at a time in any order.  Seen from one slot this is a cell
under its version counter with its writers.
-/

namespace LibWake
namespace Pheromone

open Seqlock

/-! ## Fields -/

/-- The memory of a `wake_entity_t`. -/
abbrev Memory (n : ℕ) := Fin n → UInt8

/-- The fields which are accessed atomically. -/
inductive HotField where
  | keyHash | confidence | hitCount | lastUpdate | srcCount | phaseFlags
  | reason (i : Fin 3)
  deriving DecidableEq, Repr

/-- The fields which are written under the seqlock. -/
inductive ColdField (n : ℕ) where
  | action | outcome | firstSeen | tenantId
  | byte (i : Fin n)
  deriving DecidableEq, Repr

inductive Field (n : ℕ) where
  | hot (field : HotField)
  | cold (field : ColdField n)
  deriving DecidableEq, Repr

variable {n : ℕ}

def coldFields (n : ℕ) : List (ColdField n) :=
  [.action, .outcome, .firstSeen, .tenantId] ++ (List.finRange n).map .byte

def hotFields : List HotField :=
  [.keyHash, .confidence, .hitCount, .lastUpdate, .srcCount, .phaseFlags] ++
    (List.finRange 3).map .reason

/-- The fields which `wake_pheromone_read_entry` copies between its two version loads. -/
def readFields (n : ℕ) : List (Field n) :=
  hotFields.map .hot ++ (coldFields n).map .cold

theorem mem_coldFields (field : ColdField n) : field ∈ coldFields n := by
  cases field with
  | byte i => exact List.mem_append_right _ (List.mem_map_of_mem (List.mem_finRange i))
  | _ => exact List.mem_append_left _ (by simp)

theorem mem_readFields (field : Field n) : field ∈ readFields n := by
  cases field with
  | hot field =>
      refine List.mem_append_left _ (List.mem_map_of_mem ?_)
      cases field with
      | reason i => exact List.mem_append_right _ (List.mem_map_of_mem (List.mem_finRange i))
      | _ => exact List.mem_append_left _ (by simp)
  | cold field => exact List.mem_append_right _ (List.mem_map_of_mem (mem_coldFields field))

/-- The value of a cold field as a number. -/
def Entry.coldWord (entry : Entry (Memory n)) : ColdField n → ℕ
  | .action => entry.action.toNat
  | .outcome => entry.outcome.toNat
  | .firstSeen => entry.firstSeen.toNat
  | .tenantId => entry.tenantId.toNat
  | .byte i => (entry.entity i).toNat

/-- Copy one hot field of `source` into `target`. -/
def HotField.copy (source target : Entry (Memory n)) : HotField → Entry (Memory n)
  | .keyHash => { target with keyHash := source.keyHash }
  | .confidence => { target with confidence := source.confidence }
  | .hitCount => { target with hitCount := source.hitCount }
  | .lastUpdate => { target with lastUpdate := source.lastUpdate }
  | .srcCount => { target with srcCount := source.srcCount }
  | .phaseFlags => { target with phaseFlags := source.phaseFlags }
  | .reason i =>
      { target with reasons := Function.update target.reasons i (source.reasons i) }

/-- Copy one cold field of `source` into `target`. -/
def ColdField.copy (source target : Entry (Memory n)) : ColdField n → Entry (Memory n)
  | .action => { target with action := source.action }
  | .outcome => { target with outcome := source.outcome }
  | .firstSeen => { target with firstSeen := source.firstSeen }
  | .tenantId => { target with tenantId := source.tenantId }
  | .byte i => { target with entity := Function.update target.entity i (source.entity i) }

def Field.copy (source target : Entry (Memory n)) : Field n → Entry (Memory n)
  | .hot field => field.copy source target
  | .cold field => field.copy source target

/-- The cold fields together. -/
structure Cold (n : ℕ) where
  entity : Memory n
  action : UInt8
  outcome : UInt8
  firstSeen : UInt32
  tenantId : UInt32
  deriving DecidableEq

def Entry.cold (entry : Entry (Memory n)) : Cold n :=
  ⟨entry.entity, entry.action, entry.outcome, entry.firstSeen, entry.tenantId⟩

/-- The cold fields which an insertion writes. -/
def coldOf (h : Header) (args : Deposit (Memory n)) : Cold n :=
  ⟨args.entity, args.action, args.outcome, relativeTime h args.clock, args.tenantId⟩

def Cold.word (cold : Cold n) : ColdField n → ℕ
  | .action => cold.action.toNat
  | .outcome => cold.outcome.toNat
  | .firstSeen => cold.firstSeen.toNat
  | .tenantId => cold.tenantId.toNat
  | .byte i => (cold.entity i).toNat

theorem cold_word (entry : Entry (Memory n)) : entry.cold.word = entry.coldWord := by
  funext field
  cases field <;> rfl

theorem Cold.word_injective {a b : Cold n} (hword : a.word = b.word) : a = b := by
  obtain ⟨entity, action, outcome, firstSeen, tenantId⟩ := a
  have hentity : entity = b.entity :=
    funext fun i => UInt8.toNat_inj.mp (congrFun hword (.byte i))
  have haction : action = b.action := UInt8.toNat_inj.mp (congrFun hword .action)
  have houtcome : outcome = b.outcome := UInt8.toNat_inj.mp (congrFun hword .outcome)
  have hfirst : firstSeen = b.firstSeen := UInt32.toNat_inj.mp (congrFun hword .firstSeen)
  have htenant : tenantId = b.tenantId := UInt32.toNat_inj.mp (congrFun hword .tenantId)
  rw [hentity, haction, houtcome, hfirst, htenant]

@[simp] theorem hotCopy_coldWord (source target : Entry (Memory n)) (field : HotField) :
    (field.copy source target).coldWord = target.coldWord := by
  funext other
  cases field <;> cases other <;> rfl

@[simp] theorem coldCopy_version (source target : Entry (Memory n)) (field : ColdField n) :
    (field.copy source target).version = target.version := by
  cases field <;> rfl

@[simp] theorem coldCopy_coldWord (source target : Entry (Memory n)) (field : ColdField n) :
    (field.copy source target).coldWord =
      Function.update target.coldWord field (source.coldWord field) := by
  funext other
  by_cases hsame : other = field
  · subst hsame
    rw [Function.update_self]
    cases other with
    | byte i => simp only [ColdField.copy, Entry.coldWord, Function.update_self]
    | _ => rfl
  · rw [Function.update_of_ne hsame]
    cases field with
    | byte i =>
        cases other with
        | byte j =>
            have hne : j ≠ i := fun hji => hsame (congrArg _ hji)
            simp only [ColdField.copy, Entry.coldWord, Function.update_of_ne hne]
        | _ => rfl
    | _ => cases other <;> first | rfl | exact absurd rfl hsame

/-! ## Processes -/

/-- `wake_pheromone_read_entry`: the key is loaded next, the first version, a field or, once all
are copied, the second version. -/
inductive Reader (n : ℕ) where
  | start (slot : ℕ) (out : Entry (Memory n))
  | version (slot : ℕ) (out : Entry (Memory n))
  | copying (slot : ℕ) (v1 : UInt32) (todo : List (Field n)) (out : Entry (Memory n))
  | returned (slot : ℕ) (result : Option (Entry (Memory n)))

/-- The call which a process runs.  While an insertion writes the cold fields it is `cold`. -/
inductive Job (n : ℕ) where
  | idle
  | insert (args : Deposit (Memory n)) (phase : Phase)
  | cold (args : Deposit (Memory n)) (idx : ℕ) (writeVer : UInt32) (todo : List (ColdField n))
  | maintain (phase : Maintenance)
  | read (reader : Reader n)

/-- The call has returned, or none has been made. -/
def Job.isOver : Job n → Bool
  | .idle | .insert _ (.returned _) | .read (.returned _ _) => true
  | .maintain phase => phase.isIdle
  | _ => false

/-- The insertion which arrives at a phase. -/
def arriveAt (args : Deposit (Memory n)) : Phase → Job n
  | .writeCold idx writeVer => .cold args idx writeVer (coldFields n)
  | phase => .insert args phase

/-- These phases are the job `cold`. -/
def Phase.isCold : Phase → Bool
  | .writeCold _ _ | .unlockVersion _ _ => true
  | _ => false

/-- One load of `wake_pheromone_read_entry` outside the copy. -/
def stepReader (h : Header) (entries : ℕ → Entry (Memory n)) : Reader n → Option (Reader n)
  | .start slot out =>
      if slot ≥ h.capacity.toNat then some (.returned slot none)
      else if (entries slot).Live then some (.version slot out)
      else some (.returned slot none)
  | .version slot out =>
      if (entries slot).version &&& 1 ≠ 0 then some (.version slot out)
      else some (.copying slot (entries slot).version (readFields n) out)
  | .copying slot v1 [] out =>
      if v1 = (entries slot).version then some (.returned slot (some { out with version := v1 }))
      else some (.version slot out)
  | _ => none

/-- The next atomic operation of a call. -/
def stepJob (entityHash : Memory n → UInt64) (h : Header) (entries : ℕ → Entry (Memory n)) :
    Job n → Option ((ℕ → Entry (Memory n)) × Job n)
  | .insert args phase =>
      if phase.isCold then none
      else (stepPhase h (entityKeyHash entityHash args.entity) args entries phase).map
        fun next => (next.1, arriveAt args next.2)
  | .cold args idx writeVer [] =>
      (stepPhase h (entityKeyHash entityHash args.entity) args entries
        (.unlockVersion idx writeVer)).map fun next => (next.1, arriveAt args next.2)
  | .maintain phase =>
      (stepMaintenance h entries phase).map fun next => (next.1, .maintain next.2)
  | .read reader => (stepReader h entries reader).map fun next => (entries, .read next)
  | _ => none

/-- The access of a call to one field, between two atomic operations. -/
def copyJob (entityHash : Memory n → UInt64) (h : Header) (entries : ℕ → Entry (Memory n))
    (field : Field n) : Job n → Option ((ℕ → Entry (Memory n)) × Job n)
  | .cold args idx writeVer todo =>
      match field with
      | .cold field =>
          if field ∈ todo then
            some (Function.update entries idx (field.copy
                (claimedEntry (entries idx) (entityKeyHash entityHash args.entity) args
                  (relativeTime h args.clock))
                (entries idx)),
              .cold args idx writeVer (todo.erase field))
          else none
      | .hot _ => none
  | .read (.copying slot v1 todo out) =>
      if field ∈ todo then
        some (entries,
          .read (.copying slot v1 (todo.erase field) (field.copy (entries slot) out)))
      else none
  | _ => none

/-- A call as the caller makes it; `out` is what the memory of the snapshot holds. -/
inductive Request (n : ℕ) where
  | deposit (args : Deposit (Memory n))
  | remove (entity : Memory n)
  | decay
  | readEntry (slot : ℕ) (out : Entry (Memory n))

def Request.job (entityHash : Memory n → UInt64) (h : Header) : Request n → Job n
  | .deposit args => .insert args (.probing 0 none)
  | .remove entity => .maintain (.removeProbing (entityKeyHash entityHash entity) 0)
  | .decay => .maintain (nextDecay h 0 0)
  | .readEntry slot out => .read (.start slot out)

/-- The shared table and the call of every process. -/
structure Fleet (P : Type) (n : ℕ) where
  table : Table (Memory n)
  job : P → Job n

inductive FleetEvent (P : Type) (n : ℕ) where
  | start (p : P) (request : Request n)
  | work (p : P)
  | copy (p : P) (field : Field n)

def FleetEvent.process {P : Type} : FleetEvent P n → P
  | .start p _ | .work p | .copy p _ => p

section System

variable {P : Type} [DecidableEq P] (entityHash : Memory n → UInt64)

def Fleet.become (s : Fleet P n) (p : P) (next : (ℕ → Entry (Memory n)) × Job n) :
    Fleet P n where
  table := { s.table with entries := next.1 }
  job := Function.update s.job p next.2

def fleetStep (s : Fleet P n) : FleetEvent P n → Option (Fleet P n)
  | .start p request =>
      if (s.job p).isOver then
        some (s.become p (s.table.entries, request.job entityHash s.table.header))
      else none
  | .work p =>
      (stepJob entityHash s.table.header s.table.entries (s.job p)).map (s.become p)
  | .copy p field =>
      (copyJob entityHash s.table.header s.table.entries field (s.job p)).map (s.become p)

/-- Processes on a table on which nobody is at work. -/
def fleet : TransitionSystem (Fleet P n) (FleetEvent P n) where
  Initial s := (∀ p, s.job p = .idle) ∧ ∀ idx, (s.table.entries idx).version &&& 1 = 0
  step := fleetStep entityHash

end System

/-! ## One slot -/

theorem toNat_and_one_eq_zero_iff (v : UInt32) : v &&& 1 = 0 ↔ v.toNat % 2 = 0 := by
  rw [← UInt32.toNat_inj, UInt32.toNat_and, show (1 : UInt32).toNat = 1 from rfl,
    Nat.and_one_is_mod]
  rfl

theorem toNat_succ_mod_two (v : UInt32) : (v + 1).toNat % 2 = (v.toNat + 1) % 2 := by
  rw [UInt32.toNat_add, show (1 : UInt32).toNat = 1 from rfl]
  omega

theorem or_one_eq_self {m : ℕ} (hodd : m % 2 = 1) : m ||| 1 = m := by
  have hhalf : (m ||| 1) / 2 = m / 2 := by
    rw [Nat.or_div_two]
    exact Nat.or_zero (m / 2)
  have hrest : (m ||| 1) % 2 = 1 := Nat.or_mod_two_eq_one.mpr (.inl hodd)
  omega

theorem iterate_succ_eq (v : UInt32) (d : ℕ) : (· + 1)^[d] v = v + UInt32.ofNat d := by
  induction d with
  | zero => exact (UInt32.add_zero v).symm
  | succ d ih =>
      rw [Function.iterate_succ_apply', ih, UInt32.add_assoc]
      exact congrArg (v + ·) (UInt32.ofNat_add d 1).symm

/-- The version field: odd while the cold fields are written. -/
def versionClock : Clock UInt32 where
  next v := v + 1
  lock v := (v + 1) ||| 1
  locked v := v &&& 1 ≠ 0
  period := 2 ^ 32
  lock_eq_next v hfree := by
    rw [not_not, toNat_and_one_eq_zero_iff] at hfree
    have hodd := toNat_succ_mod_two v
    refine UInt32.toNat_inj.mp ?_
    rw [UInt32.toNat_or]
    exact or_one_eq_self (by omega)
  locked_lock v := lockVersion_odd v
  not_locked_next v hlocked := by
    rw [ne_eq, toNat_and_one_eq_zero_iff] at hlocked
    rw [not_not, toNat_and_one_eq_zero_iff, toNat_succ_mod_two]
    omega
  iterate_next_ne v d hpos hlt := by
    rw [iterate_succ_eq]
    intro heq
    have hzero : UInt32.ofNat d = 0 := by
      exact UInt32.add_eq_left.mp heq
    have hnat := congrArg UInt32.toNat hzero
    rw [UInt32.toNat_ofNat_of_lt' hlt] at hnat
    exact absurd hnat (Nat.pos_iff_ne_zero.mp hpos)

def Entry.cell (entry : Entry (Memory n)) : Cell UInt32 (ColdField n) ℕ :=
  ⟨entry.version, entry.coldWord⟩

/-- The process is between its load of the version of a slot and its last store of it. -/
def Job.writesAt (idx : ℕ) : Job n → Bool
  | .insert _ (.lockVersion i _) => i = idx
  | .cold _ i _ _ => i = idx
  | _ => false

/-- How far a process has got as a writer of a slot. -/
def Job.seatAt (h : Header) (idx : ℕ) : Job n → Option (Seat UInt32 (ColdField n) ℕ)
  | .insert _ (.lockVersion i ver) => if i = idx then some (.loaded ver) else none
  | .cold args i writeVer todo =>
      if i = idx then some (.writing writeVer todo (coldOf h args).word) else none
  | _ => none

/-- The slot whose version the next operation loads to write under it. -/
def Job.loadsVersion : Job n → Option ℕ
  | .insert _ (.loadVersion idx) => some idx
  | _ => none

/-- The deposit of an insertion. -/
def Job.offer : Job n → Option (Deposit (Memory n))
  | .insert args _ | .cold args _ _ _ => some args
  | _ => none

theorem seatAt_eq_none_iff {h : Header} {idx : ℕ} {job : Job n} :
    job.seatAt h idx = none ↔ job.writesAt idx = false := by
  cases job with
  | insert args phase => cases phase <;> simp [Job.seatAt, Job.writesAt]
  | cold args i writeVer todo => simp [Job.seatAt, Job.writesAt]
  | _ => simp [Job.seatAt, Job.writesAt]

section Slots

variable {P : Type} {entityHash : Memory n → UInt64} {s next : Fleet P n}
  {event : FleetEvent P n} {h : Header} {key : UInt64} {args : Deposit (Memory n)}
  {entries : ℕ → Entry (Memory n)} {idx : ℕ}

/-- A slot with the processes as its writers. -/
def Fleet.slot (s : Fleet P n) (idx : ℕ) : Seqlock.State P UInt32 (ColdField n) ℕ where
  cell := (s.table.entries idx).cell
  seat p := (s.job p).seatAt s.table.header idx

/-- An insertion loads the version of a slot only when nobody else writes there. -/
def Apart (s : Fleet P n) : FleetEvent P n → Prop
  | .work p => ∀ idx ∈ (s.job p).loadsVersion, ∀ q, (s.job q).writesAt idx = false
  | _ => True

theorem cell_update {i : ℕ} {entry : Entry (Memory n)} (hcell : entry.cell = (entries i).cell)
    (idx : ℕ) : (Function.update entries i entry idx).cell = (entries idx).cell := by
  by_cases heq : idx = i
  · rw [heq, Function.update_self, hcell]
  · rw [Function.update_of_ne heq]

theorem cell_update_of_ne {i : ℕ} (entry : Entry (Memory n)) (hne : i ≠ idx) :
    (Function.update entries i entry idx).cell = (entries idx).cell := by
  rw [Function.update_of_ne (Ne.symm hne)]

/-- The phases which neither load nor store the version, nor write cold fields. -/
def Phase.isPlain : Phase → Bool
  | .loadVersion _ | .lockVersion _ _ | .writeCold _ _ | .unlockVersion _ _ => false
  | _ => true

theorem arriveAt_seat {phase : Phase} (hplain : phase.isPlain = true) (idx : ℕ) :
    (arriveAt args phase).seatAt h idx = none := by
  cases phase <;> first | rfl | cases hplain

theorem nextProbe_isPlain (probe : ℕ) (first : Option ℕ) :
    (nextProbe probe first).isPlain = true := by
  unfold nextProbe
  split_ifs
  · rfl
  · cases first <;> rfl

theorem afterUpdate_isPlain (idx : ℕ) (newConf : UInt32) :
    (afterUpdate args idx newConf).isPlain = true := by
  unfold afterUpdate afterSrc
  split_ifs <;> rfl

/-- Outside its seqlock an insertion leaves every cell as it is and writes at no slot. -/
theorem stepPhase_plain {phase : Phase} {after : (ℕ → Entry (Memory n)) × Phase}
    (hplain : phase.isPlain = true) (hstep : stepPhase h key args entries phase = some after)
    (idx : ℕ) :
    (after.1 idx).cell = (entries idx).cell ∧ (arriveAt args after.2).seatAt h idx = none := by
  cases phase with
  | loadVersion i => cases hplain
  | lockVersion i ver => cases hplain
  | writeCold i writeVer => cases hplain
  | unlockVersion i writeVer => cases hplain
  | returned value => cases hstep
  | probing probe first =>
      simp only [stepPhase] at hstep
      split_ifs at hstep <;> cases hstep
      · exact ⟨rfl, rfl⟩
      · refine ⟨rfl, ?_⟩
        cases hfirst : first.or (some (probeIdx h key probe)) <;> rfl
      · exact ⟨rfl, arriveAt_seat (nextProbe_isPlain probe _) idx⟩
      · exact ⟨rfl, arriveAt_seat (nextProbe_isPlain probe first) idx⟩
  | storeUpdate i newConf =>
      cases hstep
      exact ⟨cell_update (by rfl) idx, arriveAt_seat (afterUpdate_isPlain i newConf) idx⟩
  | addSrc i newConf =>
      cases hstep
      refine ⟨cell_update (by rfl) idx, arriveAt_seat ?_ idx⟩
      unfold afterSrc
      split_ifs <;> rfl
  | recheck i =>
      simp only [stepPhase] at hstep
      split_ifs at hstep <;> cases hstep <;> exact ⟨rfl, rfl⟩
  | swap i expected =>
      simp only [stepPhase] at hstep
      split_ifs at hstep <;> cases hstep
      · exact ⟨cell_update (by rfl) idx, rfl⟩
      · exact ⟨rfl, rfl⟩
      · exact ⟨rfl, rfl⟩
  | clearReason i j =>
      cases hstep
      refine ⟨cell_update (by rfl) idx, ?_⟩
      fin_cases j <;> rfl
  | _ =>
      cases hstep
      exact ⟨cell_update (by rfl) idx, rfl⟩

/-- Maintenance changes no cell. -/
theorem stepMaintenance_cell {phase : Maintenance}
    {after : (ℕ → Entry (Memory n)) × Maintenance}
    (hstep : stepMaintenance h entries phase = some after) (idx : ℕ) :
    (after.1 idx).cell = (entries idx).cell := by
  cases phase with
  | idle => cases hstep
  | removed found => cases hstep
  | decayed evicted => cases hstep
  | _ =>
      simp only [stepMaintenance] at hstep
      split_ifs at hstep <;> cases hstep <;> first | rfl | exact cell_update (by rfl) idx

variable [DecidableEq P] {Origin : (ColdField n → ℕ) → Prop} {p : P}
  {after : (ℕ → Entry (Memory n)) × Job n}

theorem become_slot (s : Fleet P n) (p : P) (after : (ℕ → Entry (Memory n)) × Job n)
    (idx : ℕ) :
    (s.become p after).slot idx =
      ⟨(after.1 idx).cell,
        Function.update (s.slot idx).seat p (after.2.seatAt s.table.header idx)⟩ := by
  unfold Fleet.slot Fleet.become
  congr 1
  funext q
  by_cases hqp : q = p
  · subst hqp
    simp only [Function.update_self]
  · simp only [Function.update_of_ne hqp]

/-- A step which leaves the cell and the seat of its process. -/
theorem moves_of_quiet {Apart : Prop}
    (hcell : (after.1 idx).cell = (s.table.entries idx).cell)
    (hseat : after.2.seatAt s.table.header idx = (s.job p).seatAt s.table.header idx) :
    Move versionClock Origin Apart p (s.slot idx) ((s.become p after).slot idx) := by
  have hsame : (s.become p after).slot idx = s.slot idx := by
    rw [become_slot, hcell, hseat]
    exact congrArg (State.mk _) (Function.update_eq_self p (s.slot idx).seat)
  rw [hsame]
  exact .rest

theorem work_moves (hoffer : ∀ args ∈ (s.job p).offer,
      Origin (coldOf s.table.header args).word)
    (hstep : stepJob entityHash s.table.header s.table.entries (s.job p) = some after) :
    Move versionClock Origin (Apart s (.work p)) p (s.slot idx)
      ((s.become p after).slot idx) := by
  cases hjob : s.job p with
  | idle =>
      rw [hjob] at hstep
      cases hstep
  | maintain phase =>
      rw [hjob] at hstep
      obtain ⟨done, hdone, rfl⟩ := Option.map_eq_some_iff.mp hstep
      exact moves_of_quiet (stepMaintenance_cell hdone idx) (by rw [hjob]; rfl)
  | read reader =>
      rw [hjob] at hstep
      obtain ⟨done, -, rfl⟩ := Option.map_eq_some_iff.mp hstep
      exact moves_of_quiet rfl (by rw [hjob]; rfl)
  | cold args i writeVer todo =>
      rw [hjob] at hstep
      cases todo with
      | cons field rest => cases hstep
      | nil =>
          cases hstep
          by_cases hi : i = idx
          · subst hi
            have hseat : (s.slot i).seat p =
                some (.writing writeVer [] (coldOf s.table.header args).word) := by
              change (s.job p).seatAt s.table.header i = _
              rw [hjob]
              exact if_pos rfl
            have hmove : Move versionClock Origin (Apart s (.work p)) p (s.slot i) _ :=
              .unlock hseat
            rw [become_slot]
            simp only [Function.update_self]
            exact hmove
          · exact moves_of_quiet (cell_update_of_ne _ hi) (by
              rw [hjob]
              exact (if_neg hi).symm)
  | insert args phase =>
      rw [hjob] at hstep hoffer
      simp only [stepJob] at hstep
      split_ifs at hstep with hcold
      obtain ⟨done, hdone, rfl⟩ := Option.map_eq_some_iff.mp hstep
      cases phase with
      | writeCold i writeVer => exact absurd rfl hcold
      | unlockVersion i writeVer => exact absurd rfl hcold
      | loadVersion i =>
          cases hdone
          by_cases hi : i = idx
          · subst hi
            have hout : (s.slot i).seat p = none := by
              change (s.job p).seatAt s.table.header i = none
              rw [hjob]
              rfl
            have hapart : Apart s (.work p) → ∀ q, (s.slot i).seat q = none := by
              intro hapart q
              refine seatAt_eq_none_iff.mpr (hapart i ?_ q)
              rw [hjob]
              rfl
            have hmove : Move versionClock Origin (Apart s (.work p)) p (s.slot i) _ :=
              .load hout hapart
            rw [become_slot]
            simp only [arriveAt, Job.seatAt, if_true]
            exact hmove
          · exact moves_of_quiet rfl (by
              rw [hjob]
              exact if_neg hi)
      | lockVersion i ver =>
          cases hdone
          by_cases hi : i = idx
          · subst hi
            have hseat : (s.slot i).seat p = some (.loaded ver) := by
              change (s.job p).seatAt s.table.header i = _
              rw [hjob]
              exact if_pos rfl
            have hmove : Move versionClock Origin (Apart s (.work p)) p (s.slot i) _ :=
              .lock hseat mem_coldFields (hoffer args rfl)
            rw [become_slot]
            simp only [arriveAt, Job.seatAt, if_true, Function.update_self]
            exact hmove
          · exact moves_of_quiet (cell_update_of_ne _ hi) (by
              rw [hjob]
              exact (if_neg hi).trans (if_neg hi).symm)
      | _ =>
          obtain ⟨hcell, hseat⟩ := stepPhase_plain rfl hdone idx
          refine moves_of_quiet hcell ?_
          rw [hjob]
          exact hseat

theorem copy_moves {field : Field n} {Apart : Prop}
    (hstep : copyJob entityHash s.table.header s.table.entries field (s.job p) = some after) :
    Move versionClock Origin Apart p (s.slot idx) ((s.become p after).slot idx) := by
  cases hjob : s.job p with
  | idle =>
      rw [hjob] at hstep
      cases hstep
  | insert args phase =>
      rw [hjob] at hstep
      cases hstep
  | maintain phase =>
      rw [hjob] at hstep
      cases hstep
  | read reader =>
      rw [hjob] at hstep
      cases reader with
      | copying slot v1 todo out =>
          simp only [copyJob] at hstep
          split_ifs at hstep
          cases hstep
          exact moves_of_quiet rfl (by rw [hjob]; rfl)
      | _ => cases hstep
  | cold args i writeVer todo =>
      rw [hjob] at hstep
      cases field with
      | hot field => cases hstep
      | cold field =>
          simp only [copyJob] at hstep
          split_ifs at hstep with hmem
          cases hstep
          by_cases hi : i = idx
          · subst hi
            have hseat : (s.slot i).seat p =
                some (.writing writeVer todo (coldOf s.table.header args).word) := by
              change (s.job p).seatAt s.table.header i = _
              rw [hjob]
              exact if_pos rfl
            have hmove : Move versionClock Origin Apart p (s.slot i) _ := .write hseat field
            rw [become_slot]
            simp only [Function.update_self, Entry.cell, coldCopy_version, coldCopy_coldWord,
              Job.seatAt, if_true]
            exact hmove
          · exact moves_of_quiet (cell_update_of_ne _ hi) (by
              rw [hjob]
              exact (if_neg hi).trans (if_neg hi).symm)

theorem request_seat (request : Request n) (h : Header) (idx : ℕ) :
    (request.job entityHash h).seatAt h idx = none := by
  cases request <;> rfl

theorem isOver_seat {job : Job n} (hover : job.isOver = true) (h : Header) (idx : ℕ) :
    job.seatAt h idx = none := by
  cases job with
  | insert args phase => cases phase <;> first | rfl | cases hover
  | cold args i writeVer todo => cases hover
  | _ => rfl

/-- One event is, at every slot, a move of its process as a writer there. -/
theorem slot_moves (hstep : fleetStep entityHash s event = some next)
    (hoffer : ∀ p, ∀ args ∈ (s.job p).offer, Origin (coldOf s.table.header args).word)
    (idx : ℕ) :
    Move versionClock Origin (Apart s event) event.process (s.slot idx) (next.slot idx) := by
  cases event with
  | start p request =>
      simp only [fleetStep] at hstep
      split_ifs at hstep with hover
      cases hstep
      refine moves_of_quiet rfl ?_
      exact (request_seat request _ idx).trans (isOver_seat hover _ idx).symm
  | work p =>
      obtain ⟨after, hafter, rfl⟩ := Option.map_eq_some_iff.mp hstep
      exact work_moves (hoffer p) hafter
  | copy p field =>
      obtain ⟨after, hafter, rfl⟩ := Option.map_eq_some_iff.mp hstep
      exact copy_moves hafter

end Slots

end Pheromone
end LibWake
