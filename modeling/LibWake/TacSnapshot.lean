import LibWake.TacGenerations
import LibWake.TacRead

/-!
# Entries read while the writer runs

`wake_tac_read_entry` as a sequence of atomic loads, interleaved with the stores of the
updates which the single writer performs; by `run_edgeCalls` every call of the writer is
a run of such updates.  A snapshot belongs to one generation of its slot unless the
weight was loaded between a claim and the zeroing of the slot, or the slot was claimed
again with the same key behind that load.
-/

namespace LibWake
namespace Tac

/-! ## The reader -/

/-- The loads of `wake_tac_read_entry` behind the key and the weight. -/
def readOrder : List Field :=
  [.reinfCount, .lastReinf, .tLo, .tHi, .etaMaxFp16, .srcCount, .quarantine, .firstSeen,
    .entityHash]

/-- The next load of the reader; `loading slot out []` is the final re-check of the key. -/
inductive Reader where
  | idle
  | key (slot : ℕ)
  | weight (slot : ℕ) (kh : UInt64)
  | loading (slot : ℕ) (out : Entry) (rest : List Field)
  | returned (slot : ℕ) (result : Option Entry)

/-- One load of `wake_tac_read_entry`. -/
def stepReader (table : Table) : Reader → Option Reader
  | .key slot =>
      if (table.entries slot).Live then some (.weight slot (table.entries slot).keyHash)
      else some (.returned slot none)
  | .weight slot kh =>
      if (table.entries slot).weight = 0 then some (.returned slot none)
      else
        some (.loading slot
          { Entry.zero with keyHash := kh, weight := (table.entries slot).weight } readOrder)
  | .loading slot out (field :: rest) =>
      some (.loading slot (field.copy (table.entries slot) out) rest)
  | .loading slot out [] =>
      if (table.entries slot).keyHash ≠ out.keyHash then some (.returned slot none)
      else some (.returned slot (some out))
  | .idle | .returned _ _ => none

/-- The range check before the first load. -/
def startRead (table : Table) (slot : ℕ) : Reader :=
  if slot ≥ table.header.capacity then .returned slot none else .key slot

/-- Some number of loads lead from one state of the reader to another. -/
def Reads (table : Table) (before after : Reader) : Prop :=
  Relation.ReflTransGen (fun x y => stepReader table x = some y) before after

theorem reads_fields (table : Table) (slot : ℕ) (out : Entry) (fields : List Field) :
    Reads table (.loading slot out fields)
      (.loading slot
        (fields.foldl (fun target field => field.copy (table.entries slot) target) out)
        []) := by
  induction fields generalizing out with
  | nil => exact Relation.ReflTransGen.refl
  | cons field rest ih => exact Relation.ReflTransGen.head rfl (ih _)

/-- A read during which the writer stands still is `readEntry`. -/
theorem reads_readEntry (table : Table) (slot : ℕ) :
    Reads table (startRead table slot) (.returned slot (readEntry table slot)) := by
  unfold startRead readEntry
  split_ifs with hrange hlive hweight
  · exact Relation.ReflTransGen.refl
  · refine .head (if_pos hlive) (Relation.ReflTransGen.single ?_)
    exact if_pos hweight
  · refine .head (if_pos hlive) (.head (if_neg hweight) ?_)
    have hfields := reads_fields table slot { Entry.zero with
      keyHash := (table.entries slot).keyHash, weight := (table.entries slot).weight } readOrder
    have hcopied : readOrder.foldl
        (fun target field => field.copy (table.entries slot) target)
        { Entry.zero with
          keyHash := (table.entries slot).keyHash
          weight := (table.entries slot).weight } = entrySnapshot (table.entries slot) := by
      simp only [readOrder, List.foldl_cons, List.foldl_nil, Field.copy, entrySnapshot]
    rw [hcopied] at hfields
    refine hfields.tail ?_
    simp only [stepReader, entrySnapshot, ne_eq, not_true_eq_false, if_false]
  · exact Relation.ReflTransGen.single (if_neg hlive)

/-! ## Interleavings -/

/-- The table, the stores which the running update has still to make, the stores made so
far (newest first), and the reader. -/
structure Observed where
  table : Table
  pending : List Store
  log : List Store
  reader : Reader

/-- What the scheduler picks: the writer starts an update or makes its next store, the
reader starts a read or makes its next load. -/
inductive Turn where
  | update (call : EdgeCall)
  | store
  | startRead (slot : ℕ)
  | load

/-- The stores of one update; a reset is not among the calls which readers may overlap. -/
def EdgeCall.stores (keyedHash : KeyedHash) (table : Table) : EdgeCall → Option (List Store)
  | .edge ehash key tLo tHi w => some (edgeStores keyedHash table ehash key tLo tHi w)
  | .decay => some (decayStores table)
  | .reset => none

def Reader.isIdle : Reader → Bool
  | .idle | .returned _ _ => true
  | _ => false

def observedStep (keyedHash : KeyedHash) (state : Observed) : Turn → Option Observed
  | .update call =>
      if state.pending = [] ∧ call.Checked then
        (call.stores keyedHash state.table).map fun stores => { state with pending := stores }
      else none
  | .store =>
      match state.pending with
      | [] => none
      | next :: rest =>
          some { state with
            table := next.perform state.table
            pending := rest
            log := next :: state.log }
  | .startRead slot =>
      if state.reader.isIdle then
        some { state with reader := Tac.startRead state.table slot }
      else none
  | .load => (stepReader state.table state.reader).map fun next => { state with reader := next }

/-- One writer and one reader on a table fresh from `create`. -/
def observed (keyedHash : KeyedHash) : TransitionSystem Observed Turn where
  Initial state := (∃ cfg epoch hashKey, create cfg epoch hashKey = some state.table) ∧
    state.pending = [] ∧ state.log = [] ∧ state.reader = .idle
  step := observedStep keyedHash

/-! ## Generations in the log -/

/-- The weights stored into a slot since it was last claimed, newest first. -/
def weightsSinceClaim (slot : ℕ) : List Store → List ℕ
  | [] => []
  | .sidecar _ :: older => weightsSinceClaim slot older
  | .entry idx field source :: older =>
      if idx = slot then
        match field with
        | .keyHash => if source.Live then [] else weightsSinceClaim slot older
        | .weight => source.weight :: weightsSinceClaim slot older
        | _ => weightsSinceClaim slot older
      else weightsSinceClaim slot older

/-- The snapshot belongs to one edge: its key is the slot hash of its triple, and its
weight was stored since the slot was last claimed. -/
structure Unspliced (keyedHash : KeyedHash) (state : Observed) (slot : ℕ)
    (snapshot : Entry) : Prop where
  keyed : snapshot.keyHash =
    slotHashOf keyedHash state.table snapshot.entityHash snapshot.tLo snapshot.tHi
  current : snapshot.weight ∈ weightsSinceClaim slot state.log

/-- The reader loads no weight which a claim with its key has left behind, and the writer
claims no slot again with the key of a snapshot whose weight has been loaded. -/
def Orderly (state : Observed) : Turn → Prop
  | .load =>
      match state.reader with
      | .weight slot kh =>
          (state.table.entries slot).keyHash = kh →
            (state.table.entries slot).weight ≠ 0 → weightsSinceClaim slot state.log ≠ []
      | _ => True
  | .store =>
      match state.pending, state.reader with
      | .entry idx .keyHash source :: _, .loading slot out _ =>
          idx = slot → source.keyHash ≠ out.keyHash
      | _, _ => True
  | _ => True

instance (state : Observed) (turn : Turn) : Decidable (Orderly state turn) := by
  cases turn with
  | load =>
      dsimp only [Orderly]
      split <;> infer_instance
  | store =>
      dsimp only [Orderly]
      split <;> infer_instance
  | _ => exact .isTrue trivial

/-! ## What a stage says about its slot -/

def Stage.Describes (keyedHash : KeyedHash) (root : Table) (log : List Store) (slot : ℕ)
    (entry : Entry) : Stage → Prop
  | .free => ¬ entry.Live
  | .claimed => entry.Live ∧ weightsSinceClaim slot log = []
  | .zeroed => entry.Live ∧ entry.weight = 0
  | .published =>
      entry.Live ∧ KeyedAs keyedHash root entry ∧ entry.weight ∈ weightsSinceClaim slot log

theorem weightsSinceClaim_other {slot : ℕ} {store : Store} {log : List Store}
    (hother : store.at slot = none) :
    weightsSinceClaim slot (store :: log) = weightsSinceClaim slot log := by
  cases store with
  | sidecar occ => rfl
  | entry idx field source =>
      have hne : idx ≠ slot := by
        rintro rfl
        simp [Store.at] at hother
      exact if_neg hne

section Own

variable {keyedHash : KeyedHash} {root : Table} {log : List Store} {slot : ℕ}
  {entry source : Entry} {stage : Stage} {field : Field}

theorem weightsSinceClaim_field (hkey : field ≠ .keyHash) (hweight : field ≠ .weight) :
    weightsSinceClaim slot (.entry slot field source :: log) = weightsSinceClaim slot log := by
  cases field <;> first | contradiction | exact if_pos rfl

theorem copy_live (hkey : field ≠ .keyHash) (hlive : entry.Live) :
    (field.copy source entry).Live := by
  cases field <;> first | contradiction | exact hlive

theorem copy_weight (hweight : field ≠ .weight) :
    (field.copy source entry).weight = entry.weight := by
  cases field <;> first | contradiction | rfl

theorem Stage.Describes.store (hdescribed : stage.Describes keyedHash root log slot entry)
    (hallowed : stage.Allows keyedHash root entry source field) :
    (stage.after source field).Describes keyedHash root (.entry slot field source :: log) slot
      (field.copy source entry) := by
  cases stage with
  | free =>
      cases field with
      | keyHash =>
          have hlive : source.Live := hallowed
          rw [Stage.after, if_pos hlive]
          exact ⟨hlive, by simp [weightsSinceClaim, hlive]⟩
      | _ => exact hallowed.elim
  | claimed =>
      cases field with
      | weight => exact ⟨hdescribed.1, hallowed⟩
      | _ => exact hallowed.elim
  | zeroed =>
      by_cases hweight : field = .weight
      · subst hweight
        refine ⟨hdescribed.1, ⟨hallowed.key_eq, hallowed.ordered⟩, ?_⟩
        simp [weightsSinceClaim, Field.copy]
      · by_cases hkey : field = .keyHash
        · subst hkey
          rw [Stage.after, if_neg hallowed]
          exact hallowed
        · have hstage : Stage.zeroed.after source field = .zeroed := by
            cases field <;> first | contradiction | rfl
          rw [hstage]
          exact ⟨copy_live hkey hdescribed.1, (copy_weight hweight).trans hdescribed.2⟩
  | published =>
      obtain ⟨hlive, hkeyed, hcurrent⟩ := hdescribed
      by_cases hkey : field = .keyHash
      · subst hkey
        rw [Stage.after, if_neg hallowed]
        exact hallowed
      · have hstage : Stage.published.after source field = .published := by
          cases field <;> first | contradiction | rfl
        have hkept : KeyedAs keyedHash root (field.copy source entry) := by
          cases field <;>
            first | contradiction | exact hallowed.elim | exact ⟨hkeyed.key_eq, hkeyed.ordered⟩
        rw [hstage]
        refine ⟨copy_live hkey hlive, hkept, ?_⟩
        by_cases hweight : field = .weight
        · subst hweight
          simp [weightsSinceClaim, Field.copy]
        · rwa [weightsSinceClaim_field hkey hweight, copy_weight hweight]

end Own

/-- The header is all that lawfulness reads of the root table. -/
theorem Lawful.congr_root {keyedHash : KeyedHash} {root root' : Table}
    (hheader : root'.header = root.header) {stage : Stage} {entry : Entry}
    {stores : List (Field × Entry)} (hlawful : Lawful keyedHash root stage entry stores) :
    Lawful keyedHash root' stage entry stores := by
  induction stores generalizing stage entry with
  | nil => exact hlawful
  | cons store rest ih =>
      obtain ⟨field, source⟩ := store
      refine ⟨?_, ih hlawful.2⟩
      have hallowed := hlawful.1
      cases stage with
      | zeroed =>
          cases field with
          | weight => exact keyedAs_congr hheader hallowed
          | _ => exact hallowed
      | _ => cases field <;> exact hallowed

/-! ## The invariant -/

/-- What the reader knows.  While the slot shows the key of the snapshot it is published,
and shows what has been loaded of the triple. -/
def Reader.Sound (table : Table) (log : List Store) (stage : ℕ → Stage) : Reader → Prop
  | .weight _ kh => kh ≠ slotEmpty ∧ kh ≠ slotTombstone
  | .loading slot out rest => rest <:+ readOrder ∧ out.Live ∧
      ((table.entries slot).keyHash = out.keyHash →
        stage slot = .published ∧ out.weight ∈ weightsSinceClaim slot log ∧
          (.tLo ∉ rest → out.tLo = (table.entries slot).tLo) ∧
          (.tHi ∉ rest → out.tHi = (table.entries slot).tHi) ∧
          (.entityHash ∉ rest → out.entityHash = (table.entries slot).entityHash))
  | _ => True

/-- Every slot is in a stage, the stores to come follow the stages, and lead to a linked
table. -/
structure Generational (keyedHash : KeyedHash) (root : Table) (stage : ℕ → Stage)
    (state : Observed) : Prop where
  header : state.table.header = root.header
  linked : Linked keyedHash (performAll state.table state.pending)
  described : ∀ slot, (stage slot).Describes keyedHash root state.log slot
    (state.table.entries slot)
  lawful : ∀ slot, Lawful keyedHash root (stage slot) (state.table.entries slot)
    (slotStores state.pending slot)
  reading : state.reader.Sound state.table state.log stage

theorem perform_header (table : Table) (store : Store) :
    (store.perform table).header = table.header := by
  cases store <;> rfl

theorem perform_entries_other {table : Table} {store : Store} {slot : ℕ}
    (hother : store.at slot = none) :
    (store.perform table).entries slot = table.entries slot := by
  cases store with
  | sidecar occ => rfl
  | entry idx field source =>
      have hne : slot ≠ idx := by
        rintro rfl
        simp [Store.at] at hother
      exact Function.update_of_ne hne _ _

/-- The stage of every slot behind a store. -/
def stagesAfter (stage : ℕ → Stage) : Store → ℕ → Stage
  | .entry idx field source => Function.update stage idx ((stage idx).after source field)
  | .sidecar _ => stage

theorem stagesAfter_other {stage : ℕ → Stage} {store : Store} {slot : ℕ}
    (hother : store.at slot = none) : stagesAfter stage store slot = stage slot := by
  cases store with
  | sidecar occ => rfl
  | entry idx field source =>
      have hne : slot ≠ idx := by
        rintro rfl
        simp [Store.at] at hother
      exact Function.update_of_ne hne _ _

theorem Store.at_cases (store : Store) (slot : ℕ) :
    store.at slot = none ∨ ∃ field source, store = .entry slot field source := by
  cases store with
  | sidecar occ => exact .inl rfl
  | entry idx field source =>
      by_cases hslot : idx = slot
      · exact .inr ⟨field, source, by rw [hslot]⟩
      · exact .inl (if_neg hslot)

namespace Generational

variable {keyedHash : KeyedHash} {root : Table} {stage : ℕ → Stage} {state next : Observed}

/-! ### A store -/

/-- The reader keeps its knowledge when the writer does not claim the slot again with the
key of the snapshot. -/
theorem reading_store (hgood : Generational keyedHash root stage state) {store : Store}
    {rest : List Store} (hpending : state.pending = store :: rest)
    (horderly : Orderly state .store) :
    state.reader.Sound (store.perform state.table) (store :: state.log)
      (stagesAfter stage store) := by
  have hreading := hgood.reading
  cases hreader : state.reader with
  | loading slot out fields =>
      rw [hreader] at hreading
      obtain ⟨hsuffix, hlive, hknown⟩ := hreading
      refine ⟨hsuffix, hlive, ?_⟩
      rcases store.at_cases slot with hother | ⟨field, source, rfl⟩
      · rw [perform_entries_other hother, stagesAfter_other hother,
          weightsSinceClaim_other hother]
        exact hknown
      · have hentry : ((Store.entry slot field source).perform state.table).entries slot =
            field.copy source (state.table.entries slot) := Function.update_self _ _ _
        have hstage : stagesAfter stage (.entry slot field source) slot =
            (stage slot).after source field := Function.update_self _ _ _
        have hallowed := hgood.lawful slot
        rw [hpending, slotStores_cons_same] at hallowed
        rw [hentry, hstage]
        by_cases hkey : field = .keyHash
        · subst hkey
          intro hsame
          simp only [Orderly, hpending, hreader] at horderly
          exact absurd hsame (horderly trivial)
        · intro hsame
          have hcopied : (field.copy source (state.table.entries slot)).keyHash =
              (state.table.entries slot).keyHash := by
            cases field <;> first | contradiction | rfl
          obtain ⟨hpublished, hcurrent, htriple⟩ := hknown (hcopied ▸ hsame)
          have hallowed := hallowed.1
          rw [hpublished] at hallowed ⊢
          refine ⟨?_, ?_, ?_⟩
          · cases field <;> first | contradiction | rfl
          · by_cases hweight : field = .weight
            · subst hweight
              simp [weightsSinceClaim, hcurrent]
            · rwa [weightsSinceClaim_field hkey hweight]
          · cases field <;> first | exact hallowed.elim | exact htriple
  | weight slot kh =>
      rw [hreader] at hreading
      exact hreading
  | idle => trivial
  | key slot => trivial
  | returned slot result => trivial

theorem store (hgood : Generational keyedHash root stage state)
    (horderly : Orderly state .store)
    (hstep : observedStep keyedHash state .store = some next) :
    ∃ stage', Generational keyedHash root stage' next := by
  simp only [observedStep] at hstep
  cases hpending : state.pending with
  | nil =>
      rw [hpending] at hstep
      cases hstep
  | cons store rest =>
      rw [hpending] at hstep
      cases hstep
      refine ⟨stagesAfter stage store, ?_, ?_, ?_, ?_, ?_⟩
      · exact (perform_header _ _).trans hgood.header
      · have hlinked := hgood.linked
        rwa [hpending] at hlinked
      · intro slot
        rcases store.at_cases slot with hother | ⟨field, source, rfl⟩
        · have hdescribed := hgood.described slot
          rw [perform_entries_other hother, stagesAfter_other hother]
          unfold Stage.Describes at hdescribed ⊢
          rwa [weightsSinceClaim_other hother]
        · have hlawful := hgood.lawful slot
          rw [hpending, slotStores_cons_same] at hlawful
          have hdescribed := (hgood.described slot).store hlawful.1
          simpa [Store.perform, stagesAfter] using hdescribed
      · intro slot
        have hlawful := hgood.lawful slot
        rw [hpending] at hlawful
        rcases store.at_cases slot with hother | ⟨field, source, rfl⟩
        · rw [perform_entries_other hother, stagesAfter_other hother]
          rwa [slotStores, List.filterMap_cons_none hother] at hlawful
        · rw [slotStores_cons_same] at hlawful
          simpa [Store.perform, stagesAfter] using hlawful.2
      · exact hgood.reading_store hpending horderly

/-! ### A load -/

/-- A weight which an orderly reader loads beside its key is the weight of a published
slot. -/
theorem published_of_load (hgood : Generational keyedHash root stage state) {slot : ℕ}
    {kh : UInt64} (hreader : state.reader = .weight slot kh)
    (horderly : Orderly state .load)
    (hweight : (state.table.entries slot).weight ≠ 0)
    (hkey : (state.table.entries slot).keyHash = kh) :
    stage slot = .published ∧
      (state.table.entries slot).weight ∈ weightsSinceClaim slot state.log := by
  have hreading := hgood.reading
  rw [hreader] at hreading
  simp only [Orderly, hreader] at horderly
  have hdescribed := hgood.described slot
  cases hstage : stage slot with
  | free =>
      rw [hstage] at hdescribed
      refine absurd ?_ hdescribed
      rw [Entry.Live, hkey]
      exact hreading
  | claimed =>
      rw [hstage] at hdescribed
      exact absurd hdescribed.2 (horderly hkey hweight)
  | zeroed =>
      rw [hstage] at hdescribed
      exact absurd hdescribed.2 hweight
  | published =>
      rw [hstage] at hdescribed
      exact ⟨rfl, hdescribed.2.2⟩

/-- The copy shows the entry in every part which is no longer among the fields to load. -/
theorem copied_agrees {α : Type} {part : Entry → α} {wanted field : Field} {rest : List Field}
    {source out : Entry} (hself : ∀ source out, part (wanted.copy source out) = part source)
    (hother : ∀ field source out, field ≠ wanted → part (field.copy source out) = part out)
    (hold : wanted ∉ field :: rest → part out = part source) (hnot : wanted ∉ rest) :
    part (field.copy source out) = part source := by
  by_cases hfield : field = wanted
  · rw [hfield]
    exact hself source out
  · rw [hother field source out hfield]
    exact hold fun hmem => (List.mem_cons.mp hmem).elim (Ne.symm hfield) hnot

theorem reading_load (hgood : Generational keyedHash root stage state) {reader : Reader}
    (horderly : Orderly state .load)
    (hstep : stepReader state.table state.reader = some reader) :
    reader.Sound state.table state.log stage := by
  have hreading := hgood.reading
  cases hreader : state.reader with
  | idle =>
      rw [hreader] at hstep
      cases hstep
  | returned slot result =>
      rw [hreader] at hstep
      cases hstep
  | key slot =>
      rw [hreader] at hstep
      simp only [stepReader] at hstep
      split_ifs at hstep with hlive <;> cases hstep
      · exact hlive
      · trivial
  | weight slot kh =>
      rw [hreader] at hstep hreading
      simp only [stepReader] at hstep
      split_ifs at hstep with hweight <;> cases hstep
      · trivial
      · refine ⟨List.suffix_rfl, hreading, fun hkey => ?_⟩
        obtain ⟨hpublished, hcurrent⟩ := hgood.published_of_load hreader horderly hweight hkey
        exact ⟨hpublished, hcurrent, fun hnot => absurd (by decide) hnot,
          fun hnot => absurd (by decide) hnot, fun hnot => absurd (by decide) hnot⟩
  | loading slot out fields =>
      rw [hreader] at hstep hreading
      obtain ⟨hsuffix, hlive, hknown⟩ := hreading
      cases fields with
      | nil =>
          simp only [stepReader] at hstep
          split_ifs at hstep <;> cases hstep <;> trivial
      | cons field rest =>
          cases hstep
          have hmem : field ∈ readOrder := hsuffix.subset List.mem_cons_self
          have hkey : field ≠ .keyHash := by
            rintro rfl
            exact absurd hmem (by decide)
          have hweight : field ≠ .weight := by
            rintro rfl
            exact absurd hmem (by decide)
          have hsame : (field.copy (state.table.entries slot) out).keyHash = out.keyHash := by
            cases field <;> first | contradiction | rfl
          refine ⟨(List.suffix_cons field rest).trans hsuffix, copy_live hkey hlive, ?_⟩
          rw [hsame, copy_weight hweight]
          intro hcurrent
          obtain ⟨hpublished, hmember, hlo, hhi, hentity⟩ := hknown hcurrent
          refine ⟨hpublished, hmember, ?_, ?_, ?_⟩
          · exact copied_agrees (fun _ _ => rfl)
              (by intro other _ _ hne; cases other <;> first | contradiction | rfl) hlo
          · exact copied_agrees (fun _ _ => rfl)
              (by intro other _ _ hne; cases other <;> first | contradiction | rfl) hhi
          · exact copied_agrees (fun _ _ => rfl)
              (by intro other _ _ hne; cases other <;> first | contradiction | rfl) hentity

/-! ### The start of an update -/

theorem update (hgood : Generational keyedHash root stage state) {call : EdgeCall}
    (hstep : observedStep keyedHash state (.update call) = some next) :
    Generational keyedHash root stage next := by
  simp only [observedStep] at hstep
  split_ifs at hstep with hready
  obtain ⟨stores, hstores, rfl⟩ := Option.map_eq_some_iff.mp hstep
  obtain ⟨hpending, hchecked⟩ := hready
  have hlinked := hgood.linked
  rw [hpending, performAll_nil] at hlinked
  have hsettled : ∀ slot, stage slot = .settled (state.table.entries slot) := by
    intro slot
    have hlawful := hgood.lawful slot
    rwa [hpending] at hlawful
  cases call with
  | edge ehash key tLo tHi w =>
      cases hstores
      refine ⟨hgood.header, ?_, hgood.described, fun slot => ?_, hgood.reading⟩
      · simp only [performAll_edgeStores]
        exact applyEdge_linked hlinked ehash key hchecked.2.1 w
      · rw [hsettled slot]
        exact (lawful_edgeStores hlinked ehash key hchecked.2.1 w slot).congr_root
          hgood.header.symm
  | decay =>
      cases hstores
      refine ⟨hgood.header, ?_, hgood.described, fun slot => ?_, hgood.reading⟩
      · simp only [performAll_decayStores]
        exact decay_linked hlinked
      · rw [hsettled slot]
        exact (lawful_decayStores slot).congr_root hgood.header.symm
  | reset => cases hstores

theorem step (hgood : Generational keyedHash root stage state) {turn : Turn}
    (horderly : Orderly state turn)
    (hstep : observedStep keyedHash state turn = some next) :
    ∃ stage', Generational keyedHash root stage' next := by
  cases turn with
  | update call => exact ⟨stage, hgood.update hstep⟩
  | store => exact hgood.store horderly hstep
  | startRead slot =>
      simp only [observedStep] at hstep
      split_ifs at hstep
      cases hstep
      refine ⟨stage, hgood.header, hgood.linked, hgood.described, hgood.lawful, ?_⟩
      simp only [startRead]
      split_ifs <;> trivial
  | load =>
      obtain ⟨reader, hreader, rfl⟩ := Option.map_eq_some_iff.mp hstep
      exact ⟨stage, hgood.header, hgood.linked, hgood.described, hgood.lawful,
        hgood.reading_load horderly hreader⟩

end Generational

theorem create_generational {keyedHash : KeyedHash} {state : Observed}
    (hstart : (observed keyedHash).Initial state) :
    Generational keyedHash state.table (fun _ => .free) state := by
  obtain ⟨⟨cfg, epoch, hashKey, hcreate⟩, hpending, _, hreader⟩ := hstart
  obtain ⟨-, hentries, -⟩ := create_eq_some hcreate
  have hdead : ∀ slot, ¬ (state.table.entries slot).Live := by
    intro slot hlive
    rw [hentries] at hlive
    exact hlive.1 rfl
  refine ⟨rfl, ?_, hdead, fun slot => ?_, ?_⟩
  · rw [hpending]
    exact create_linked hcreate
  · rw [hpending]
    exact (if_neg (hdead slot)).symm
  · rw [hreader]
    trivial

/-- The call returns true from its re-check only, and with the key still in place. -/
theorem stepReader_returned {table : Table} {reader : Reader} {slot : ℕ} {snapshot : Entry}
    (hstep : stepReader table reader = some (.returned slot (some snapshot))) :
    reader = .loading slot snapshot [] ∧
      (table.entries slot).keyHash = snapshot.keyHash := by
  cases reader with
  | idle => cases hstep
  | returned slot' result => cases hstep
  | key slot' =>
      simp only [stepReader] at hstep
      split_ifs at hstep <;> cases hstep
  | weight slot' kh =>
      simp only [stepReader] at hstep
      split_ifs at hstep <;> cases hstep
  | loading slot' out fields =>
      cases fields with
      | cons field rest => cases hstep
      | nil =>
          simp only [stepReader] at hstep
          split_ifs at hstep with hkey <;> cases hstep
          exact ⟨rfl, not_not.mp hkey⟩

/-- In an orderly interleaving every snapshot which the reader returns belongs to one
edge. -/
theorem orderly_read_unspliced (keyedHash : KeyedHash) {start state next : Observed}
    {schedule : List Turn} (hstart : (observed keyedHash).Initial start)
    (horderly : (observed keyedHash).RunMeets Orderly start schedule)
    (hrun : (observed keyedHash).run start schedule = some state)
    (hload : (observed keyedHash).step state .load = some next) {slot : ℕ}
    {snapshot : Entry} (hreturned : next.reader = .returned slot (some snapshot)) :
    Unspliced keyedHash next slot snapshot := by
  have hgood : ∃ stage, Generational keyedHash start.table stage state := by
    refine (observed keyedHash).run_invariant_of_runMeets
      (motive := fun state => ∃ stage, Generational keyedHash start.table stage state) ?_
      ⟨_, create_generational hstart⟩ horderly hrun
    rintro before turn after ⟨stage, hgood⟩ hguard hstep
    exact hgood.step hguard hstep
  obtain ⟨stage, hgood⟩ := hgood
  obtain ⟨reader, hreader, rfl⟩ := Option.map_eq_some_iff.mp hload
  simp only at hreturned
  subst hreturned
  obtain ⟨hcase, hsame⟩ := stepReader_returned hreader
  have hreading := hgood.reading
  rw [hcase] at hreading
  obtain ⟨-, hlive, hknown⟩ := hreading
  obtain ⟨hpublished, hcurrent, hlo, hhi, hentity⟩ := hknown hsame
  have hdescribed := hgood.described slot
  rw [hpublished] at hdescribed
  have hkeyed := keyedAs_congr hgood.header hdescribed.2.1
  refine ⟨?_, hcurrent⟩
  rw [← hsame, hkeyed.key_eq, hlo List.not_mem_nil, hhi List.not_mem_nil,
    hentity List.not_mem_nil]

/-! ## Reads around a claim -/

/-- A fresh table of four slots, in all of which `hashOfTLo` has its home 3. -/
def unread : Observed := ⟨smallTable, [], [], .idle⟩

theorem unread_initial : (observed hashOfTLo).Initial unread :=
  ⟨⟨_, _, _, create_smallTable⟩, rfl, rfl, rfl⟩

/-- A weak edge of entity 3 on the techniques `tLo` and 9. -/
def weakEdge (tLo : UInt32) : EdgeCall := .edge 3 [1] tLo 9 ⟨16, 1, 0, srcNone, 0⟩

/-- Slot 3 is read when the first edge has been stored. -/
def readBehindStores : List Turn :=
  .update (weakEdge 1) :: List.replicate 17 .store ++
    .startRead 3 :: List.replicate 11 .load

/-- The first edge is stored and evicted by a decay pass; slot 3 is read right behind
its claim for the second edge. -/
def readBehindClaim : List Turn :=
  .update (weakEdge 1) :: List.replicate 17 .store ++
    .update .decay :: List.replicate 2 .store ++
    .update (weakEdge 2) :: .store :: .startRead 3 :: List.replicate 11 .load

theorem orderly_read_unspliced_readBehindStores :
    ∃ state next snapshot, (observed hashOfTLo).run unread readBehindStores = some state ∧
      (observed hashOfTLo).step state .load = some next ∧
      next.reader = .returned 3 (some snapshot) ∧ snapshot.keyHash = 7 ∧
      Unspliced hashOfTLo next 3 snapshot := by
  have horderly : (observed hashOfTLo).RunMeets Orderly unread readBehindStores := by
    decide +kernel
  refine ⟨_, _, _, rfl, rfl, rfl, by decide +kernel, ?_⟩
  exact orderly_read_unspliced hashOfTLo unread_initial horderly rfl rfl rfl

/-- The snapshot has the key of the second edge beside the triple and the weight of the
first. -/
theorem read_behind_claim_spliced :
    (observed hashOfTLo).Initial unread ∧
    ∃ state next snapshot, (observed hashOfTLo).run unread readBehindClaim = some state ∧
      (observed hashOfTLo).step state .load = some next ∧
      next.reader = .returned 3 (some snapshot) ∧
      snapshot.keyHash = 11 ∧ snapshot.tLo = 1 ∧ snapshot.weight = 1 ∧
      slotHashOf hashOfTLo next.table snapshot.entityHash snapshot.tLo snapshot.tHi = 7 ∧
      weightsSinceClaim 3 next.log = [] ∧
      ¬ Unspliced hashOfTLo next 3 snapshot := by
  refine ⟨unread_initial, _, _, _, rfl, rfl, rfl, by decide +kernel, by decide +kernel,
    by decide +kernel, by decide +kernel, by decide +kernel, ?_⟩
  intro hunspliced
  have hcurrent := hunspliced.current
  revert hcurrent
  decide +kernel

end Tac
end LibWake
