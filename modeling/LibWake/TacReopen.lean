import LibWake.TacWitness
import LibWake.TacIndexRuns

/-!
# Reopening a table

`wake_tac_create` checks a configuration after its defaults have been filled in;
`wake_tac_open` checks the header which it finds in the file.  No call writes the header,
so what `open` says about a table is decided when the table is created.  The two lists of
checks differ in one place: `open` refuses a noise floor which the budget slots of an edge
cannot exceed together, and `create` does not compare the two.
-/

namespace LibWake
namespace Tac

/-! ## The file -/

def headerSize : ℕ := 256
def entrySize : ℕ := 128
def occSize : ℕ := 144

def computeMapSize (capacity occSlots : ℕ) : ℕ :=
  headerSize + capacity * entrySize + occSlots * occSize

/-- A file with its length and the table which its bytes hold. -/
structure File where
  size : ℕ
  content : Table

/-- `wake_tac_create`: the truncated file is extended to the size of the map. -/
def createFile (cfg : Option Config) (epoch : UInt32) (hashKey : List UInt8) :
    Option File :=
  (create cfg epoch hashKey).map fun table =>
    ⟨computeMapSize table.header.capacity table.header.occSlots, table⟩

/-- `wake_tac_open`: the header is read and checked, and the file must be as long as the
map which the header asks for. -/
def openFile (file : File) : Option Table :=
  if file.size < headerSize then none
  else if openAccepts file.content.header = false then none
  else if file.size <
      computeMapSize file.content.header.capacity file.content.header.occSlots then none
  else some file.content

/-- A call on an open table, or `wake_tac_close` followed by `wake_tac_open`.
`wake_tac_iterate` is a sequence of `readEntry` calls. -/
inductive FileCall where
  | call (call : OpenedCall)
  | reopen

/-- The life of a file after `wake_tac_create`; a file which is refused stays closed. -/
def lifecycle (keyedHash : KeyedHash) : TransitionSystem File FileCall where
  Initial file := ∃ cfg epoch hashKey, createFile cfg epoch hashKey = some file
  step file
    | .call call => some { file with content := performOpened keyedHash file.content call }
    | .reopen => (openFile file).map fun table => { file with content := table }

/-! ## The checks of `create` and of `open` -/

/-- The noise floor which `create` stores, compared with what the budget slots of an edge
can hold together. -/
def FloorFits (cfg : Option Config) : Prop :=
  orDefault cfg Config.noiseFloor defaultNoiseFloor <
    orDefault cfg Config.budgetPerSource defaultBudgetPerSource * budgetSlots

instance (cfg : Option Config) : Decidable (FloorFits cfg) := by
  unfold FloorFits
  infer_instance

/-- Every default passes the checks of `open`. -/
example : FloorFits none := by decide

theorem create_noiseFloor_lt_iff {cfg : Option Config} {epoch : UInt32}
    {hashKey : List UInt8} {table : Table} (hcreate : create cfg epoch hashKey = some table) :
    table.header.noiseFloor < table.header.budgetPerSource * budgetSlots ↔ FloorFits cfg := by
  unfold create at hcreate
  simp only at hcreate
  split_ifs at hcreate
  simp only [Option.some.injEq] at hcreate
  subst hcreate
  exact Iff.rfl

theorem create_openAccepts_iff {cfg : Option Config} {epoch : UInt32}
    {hashKey : List UInt8} {table : Table} (hcreate : create cfg epoch hashKey = some table) :
    openAccepts table.header = true ↔ FloorFits cfg := by
  rw [openAccepts_iff, create_noiseFloor_lt_iff hcreate]
  exact ⟨And.right, fun hfits => ⟨create_wellFormed hcreate, hfits⟩⟩

/-! ## Along a run -/

/-- The file has the header and the length which it got at its creation. -/
def CreatedAs (start file : File) : Prop :=
  file.content.header = start.content.header ∧ file.size = start.size

theorem openFile_eq_some {file : File} {table : Table} (hopen : openFile file = some table) :
    table = file.content := by
  unfold openFile at hopen
  split_ifs at hopen
  exact (Option.some.inj hopen).symm

theorem CreatedAs.step {keyedHash : KeyedHash} {start file next : File} {call : FileCall}
    (hcreated : CreatedAs start file)
    (hstep : (lifecycle keyedHash).step file call = some next) : CreatedAs start next := by
  cases call with
  | call call =>
      simp only [lifecycle, Option.some.injEq] at hstep
      subst hstep
      exact ⟨(performOpened_header keyedHash file.content call).trans hcreated.1, hcreated.2⟩
  | reopen =>
      simp only [lifecycle, Option.map_eq_some_iff] at hstep
      obtain ⟨table, hopen, rfl⟩ := hstep
      rw [openFile_eq_some hopen]
      exact hcreated

theorem run_createdAs {keyedHash : KeyedHash} {start final : File} {calls : List FileCall}
    (hrun : (lifecycle keyedHash).run start calls = some final) : CreatedAs start final :=
  (lifecycle keyedHash).run_invariant (motive := CreatedAs start)
    (fun _ _ _ hcreated hstep => hcreated.step hstep) ⟨rfl, rfl⟩ hrun

theorem headerSize_le_computeMapSize (capacity occSlots : ℕ) :
    headerSize ≤ computeMapSize capacity occSlots := by
  unfold computeMapSize
  omega

theorem openFile_eq_content_iff {file : File}
    (hsize : file.size =
      computeMapSize file.content.header.capacity file.content.header.occSlots) :
    openFile file = some file.content ↔ openAccepts file.content.header = true := by
  have hheader := headerSize_le_computeMapSize file.content.header.capacity
    file.content.header.occSlots
  rw [← hsize] at hheader
  unfold openFile
  rw [if_neg (Nat.not_lt.mpr hheader), ← hsize, if_neg (lt_irrefl _)]
  cases openAccepts file.content.header with
  | true => simp
  | false => simp

/-- After every run of a created table `open` gives the table back if and only if the
configured noise floor is below what the budget slots hold together. -/
theorem created_reopens_iff (keyedHash : KeyedHash) {cfg : Option Config} {epoch : UInt32}
    {hashKey : List UInt8} {file final : File} {calls : List FileCall}
    (hcreate : createFile cfg epoch hashKey = some file)
    (hrun : (lifecycle keyedHash).run file calls = some final) :
    openFile final = some final.content ↔ FloorFits cfg := by
  obtain ⟨table, htable, rfl⟩ := Option.map_eq_some_iff.mp hcreate
  obtain ⟨hheader, hsize⟩ := run_createdAs hrun
  rw [openFile_eq_content_iff (by rw [hsize, hheader]), hheader]
  exact create_openAccepts_iff htable

/-- A file with the default configuration. -/
def defaultFile : File :=
  ⟨computeMapSize smallTable.header.capacity smallTable.header.occSlots, smallTable⟩

/-- Reinforced, decayed and reopened. -/
def dailyCalls : List FileCall :=
  [.call (.write (.reinforce [1] 10 20 0xFFFF 1 0)), .call (.write .decay), .reopen,
    .call (.query [1])]

theorem created_reopens_iff_daily :
    ∃ final, (lifecycle fun _ _ => 7).run defaultFile dailyCalls = some final ∧
      openFile final = some final.content := by
  have hrun : ∃ final, (lifecycle fun _ _ => 7).run defaultFile dailyCalls = some final :=
    ⟨_, rfl⟩
  obtain ⟨final, hfinal⟩ := hrun
  refine ⟨final, hfinal, ?_⟩
  have hcreate : createFile (some { capacity := 4 }) 0 [] = some defaultFile := rfl
  exact (created_reopens_iff (fun _ _ => 7) hcreate hfinal).mpr (by decide)

/-- A noise floor of five default budgets: `create` accepts it, and `open` refuses the file
as soon as it is closed. -/
theorem floor_of_five_budgets_refused :
    ∃ file, createFile (some { capacity := 4, noiseFloor := 100000 }) 0 [] = some file ∧
      openFile file = none ∧ (lifecycle fun _ _ => 7).run file [.reopen] = none :=
  ⟨_, rfl, rfl, rfl⟩

/-! ## What the missing check is about -/

theorem decayedWeight_lt {h : Header} (hsound : h.Sound) {entry : Entry}
    (hpos : 1 ≤ entry.weight) : decayedWeight h entry < entry.weight := by
  have hfactor : decayFactor h entry < 65536 := by
    have hnovel := hsound.decayNovel_lt
    have hcorr := hsound.decayCorr_lt
    unfold decayFactor
    split_ifs
    · exact hcorr
    · exact hnovel
  have hshift : entry.weight * decayFactor h entry / 2 ^ 16 < entry.weight := by
    apply Nat.div_lt_of_lt_mul
    rw [Nat.mul_comm]
    exact Nat.mul_lt_mul_of_pos_right hfactor hpos
  unfold decayedWeight
  rw [Nat.shiftRight_eq_div_pow]
  exact (Nat.mod_le _ _).trans_lt hshift

/-- In a table whose noise floor does not fit, no edge outlives a decay pass. -/
theorem decay_clears_of_floor {keyedHash : KeyedHash} {history : History}
    (hreach : (writer keyedHash).Reachable history)
    (hfloor : history.table.header.budgetPerSource * budgetSlots ≤
      history.table.header.noiseFloor) {idx : ℕ} (hlt : idx < history.table.header.capacity) :
    ¬ ((decay history.table).1.entries idx).Live := by
  intro hlive
  have hgood := audited_rule.reachable hreach
  rw [decay_entries, if_pos hlt] at hlive
  obtain ⟨hold, hkept, _⟩ := live_of_decayedEntry hlive
  have haudited := hgood.live idx hlt hold
  have hcount : (history.table.entries idx).srcCount ≤ budgetSlots := by
    rw [haudited.srcCount_eq_min]
    exact Nat.min_le_right _ _
  have hfull := calc
    (history.table.entries idx).weight
        ≤ totalSpent (history.table.entries idx).budget := haudited.weight_le
    _ ≤ (history.table.entries idx).srcCount * history.table.header.budgetPerSource :=
      haudited.totalSpent_le
    _ ≤ budgetSlots * history.table.header.budgetPerSource :=
      Nat.mul_le_mul_right _ hcount
    _ = history.table.header.budgetPerSource * budgetSlots := Nat.mul_comm _ _
  have hlowered := decayedWeight_lt hgood.sound haudited.weight_pos
  omega

end Tac
end LibWake
