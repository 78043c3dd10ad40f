import LibWake.OpenAddressing
import LibWake.TacInvariant

/-!
# Edges are found exactly when they are live

The entry array is an open-addressed table whose windows are the probe
sequences of the header.  A new edge claims its slot while its cap victim is
still live, and a claim which the sidecar cannot track is buried again; both
are compositions of the two moves `claim` and `bury` of such tables.  The
window of a table of less than `probeMax` slots wraps around and repeats its
indices, which the rules do not forbid.
-/

namespace LibWake
namespace Tac

open OpenAddressing

/-! ## The slots -/

/-- The entries as an open-addressed table. -/
def edgeSlots (entries : ℕ → Entry) (idx : ℕ) : Slot UInt64 :=
  Slot.ofTag slotEmpty slotTombstone (entries idx).keyHash

theorem edgeSlots_eq_live_iff {entries : ℕ → Entry} {idx : ℕ} {slotKey : UInt64} :
    edgeSlots entries idx = .live slotKey ↔
      (entries idx).keyHash = slotKey ∧ (entries idx).Live := by
  unfold edgeSlots
  rw [Slot.ofTag_eq_live_iff]
  exact Iff.rfl

theorem edgeSlots_isFree_iff {entries : ℕ → Entry} {idx : ℕ} :
    (edgeSlots entries idx).isFree = true ↔ ¬ (entries idx).Live := by
  unfold edgeSlots Entry.Live
  rw [Slot.isFree_ofTag]
  tauto

theorem edgeSlots_update (entries : ℕ → Entry) (idx : ℕ) (entry : Entry) :
    edgeSlots (Function.update entries idx entry) =
      Function.update (edgeSlots entries) idx
        (Slot.ofTag slotEmpty slotTombstone entry.keyHash) :=
  Function.comp_update (fun stored : Entry =>
    Slot.ofTag slotEmpty slotTombstone stored.keyHash) entries idx entry

theorem edgeSlots_tombstone {entries : ℕ → Entry} {idx : ℕ}
    (htomb : (entries idx).keyHash = slotTombstone) :
    edgeSlots entries idx = .tombstone := by
  unfold edgeSlots
  rw [htomb]
  rfl

/-! ## The probe loops -/

theorem findSlotIn_eq_probeTag (table : Table) (slotKey : UInt64) (window : List ℕ) :
    findSlotIn table slotKey window =
      probeTag slotEmpty (fun idx => (table.entries idx).keyHash) slotKey window := by
  induction window with
  | nil => rfl
  | cons idx rest ih => simp only [findSlotIn, probeTag, ih]

theorem findSlot_eq (table : Table) {slotKey : UInt64}
    (hempty : slotKey ≠ slotEmpty) (htomb : slotKey ≠ slotTombstone) :
    findSlot table slotKey =
      probeFind (edgeSlots table.entries) slotKey (probeWindow table.header slotKey) := by
  rw [findSlot, findSlotIn_eq_probeTag]
  exact probeTag_eq_probeFind hempty htomb _ _

theorem claimSlot_eq (table : Table) (slotKey : UInt64) :
    claimSlot table slotKey =
      probeFree (edgeSlots table.entries) (probeWindow table.header slotKey) := by
  unfold claimSlot probeFree
  congr 1
  funext idx
  rw [Bool.eq_iff_iff, decide_eq_true_eq, edgeSlots_isFree_iff]

/-! ## The invariant -/

/-- The stored key of an entry is the slot hash of its own triple. -/
structure KeyedAs (keyedHash : KeyedHash) (table : Table) (entry : Entry) :
    Prop where
  key_eq : entry.keyHash =
    slotHashOf keyedHash table entry.entityHash entry.tLo entry.tHi
  ordered : entry.tLo < entry.tHi

/-- Live keys are well probed and every live entry is keyed by its triple. -/
structure Linked (keyedHash : KeyedHash) (table : Table) : Prop where
  sound : table.header.Sound
  wellProbed : WellProbed (probeWindow table.header) (edgeSlots table.entries)
  keyed : ∀ idx, (table.entries idx).Live →
    KeyedAs keyedHash table (table.entries idx)

/-- The slot hash reads nothing of the table but its hash key. -/
theorem keyedAs_congr {keyedHash : KeyedHash} {table table' : Table} {entry : Entry}
    (hheader : table'.header = table.header)
    (hkeyed : KeyedAs keyedHash table entry) :
    KeyedAs keyedHash table' entry := by
  refine ⟨?_, hkeyed.ordered⟩
  rw [hkeyed.key_eq, slotHashOf, slotHashOf, hheader]

/-- Two states of one edge: the key and the triple are the same. -/
structure SameEdge (entry entry' : Entry) : Prop where
  keyHash : entry'.keyHash = entry.keyHash
  entityHash : entry'.entityHash = entry.entityHash
  tLo : entry'.tLo = entry.tLo
  tHi : entry'.tHi = entry.tHi

theorem SameEdge.refl (entry : Entry) : SameEdge entry entry := ⟨rfl, rfl, rfl, rfl⟩

theorem SameEdge.keyedAs {keyedHash : KeyedHash} {table : Table}
    {entry entry' : Entry} (hsame : SameEdge entry entry')
    (hkeyed : KeyedAs keyedHash table entry) : KeyedAs keyedHash table entry' := by
  constructor
  · rw [hsame.keyHash, hsame.entityHash, hsame.tLo, hsame.tHi, hkeyed.key_eq]
  · rw [hsame.tLo, hsame.tHi]
    exact hkeyed.ordered

namespace Linked

variable {keyedHash : KeyedHash} {table : Table}

theorem findSlot_eq_some_iff (hlinked : Linked keyedHash table)
    {slotKey : UInt64} (hempty : slotKey ≠ slotEmpty)
    (htomb : slotKey ≠ slotTombstone) {idx : ℕ} :
    findSlot table slotKey = some idx ↔ (table.entries idx).keyHash = slotKey := by
  rw [findSlot_eq table hempty htomb,
    hlinked.wellProbed.probeFind_eq_some_iff, edgeSlots_eq_live_iff]
  constructor
  · exact fun hlive => hlive.1
  · intro heq
    exact ⟨heq, by rw [Entry.Live, heq]; exact ⟨hempty, htomb⟩⟩

theorem findSlot_eq_none_iff (hlinked : Linked keyedHash table)
    {slotKey : UInt64} (hempty : slotKey ≠ slotEmpty)
    (htomb : slotKey ≠ slotTombstone) :
    findSlot table slotKey = none ↔
      ∀ idx, (table.entries idx).keyHash ≠ slotKey := by
  constructor
  · intro hnone idx heq
    rw [(hlinked.findSlot_eq_some_iff hempty htomb).mpr heq] at hnone
    contradiction
  · intro habsent
    cases hfind : findSlot table slotKey with
    | none => rfl
    | some idx =>
        exact absurd ((hlinked.findSlot_eq_some_iff hempty htomb).mp hfind)
          (habsent idx)

theorem mem_probeWindow (hlinked : Linked keyedHash table) {idx : ℕ}
    (hlive : (table.entries idx).Live) :
    idx ∈ probeWindow table.header (table.entries idx).keyHash :=
  (hlinked.wellProbed.chained idx _
    (edgeSlots_eq_live_iff.mpr ⟨rfl, hlive⟩)).mem

theorem lt_of_live (hlinked : Linked keyedHash table) {idx : ℕ}
    (hlive : (table.entries idx).Live) : idx < table.header.capacity :=
  lt_of_mem_probeWindow hlinked.sound (hlinked.mem_probeWindow hlive)

/-! ## The moves -/

/-- Every entry either keeps its key and triple or dies, and leaves its slot
as a tombstone. -/
theorem bury (hlinked : Linked keyedHash table) {table' : Table}
    (hheader : table'.header = table.header)
    (hentries : ∀ idx, SameEdge (table.entries idx) (table'.entries idx) ∨
      (table'.entries idx).keyHash = slotTombstone) :
    Linked keyedHash table' := by
  refine ⟨by rw [hheader]; exact hlinked.sound, ?_, ?_⟩
  · rw [hheader]
    apply hlinked.wellProbed.bury
    intro idx
    rcases hentries idx with hsame | htomb
    · left
      rw [edgeSlots, edgeSlots, hsame.keyHash]
    · right
      exact edgeSlots_tombstone htomb
  · intro idx hlive
    rcases hentries idx with hsame | htomb
    · have hold : (table.entries idx).Live := by rwa [Entry.Live, ← hsame.keyHash]
      exact keyedAs_congr hheader (hsame.keyedAs (hlinked.keyed idx hold))
    · exact absurd htomb hlive.2

/-- An entry keyed by an absent triple takes the first free slot of its
window. -/
theorem claim (hlinked : Linked keyedHash table) {idx : ℕ} {entry : Entry}
    (hkeyed : KeyedAs keyedHash table entry)
    (hfind : findSlot table entry.keyHash = none)
    (hclaim : claimSlot table entry.keyHash = some idx) :
    Linked keyedHash (table.setEntry idx entry) := by
  have hnew : entry.keyHash ≠ slotEmpty ∧ entry.keyHash ≠ slotTombstone := by
    rw [hkeyed.key_eq]
    exact slotHashOf_ne_sentinel _ _ _ _ _
  refine ⟨hlinked.sound, ?_, ?_⟩
  · rw [setEntry_entries, edgeSlots_update,
      Slot.ofTag_eq_live_iff.mpr ⟨rfl, hnew⟩]
    apply hlinked.wellProbed.claim
    · intro other hother
      exact (hlinked.findSlot_eq_none_iff hnew.1 hnew.2).mp hfind other
        (edgeSlots_eq_live_iff.mp hother).1
    · rwa [← claimSlot_eq]
  · intro other hlive
    suffices hold : KeyedAs keyedHash table
        ((table.setEntry idx entry).entries other) from
      keyedAs_congr (setEntry_header _ _ _) hold
    by_cases heq : other = idx
    · subst heq
      simpa using hkeyed
    · rw [setEntry_entries, Function.update_of_ne heq] at hlive ⊢
      exact hlinked.keyed other hlive

end Linked

/-! ## The calls of the writer -/

theorem create_linked {keyedHash : KeyedHash} {cfg : Option Config}
    {epoch : UInt32} {hashKey : List UInt8} {table : Table}
    (hcreate : create cfg epoch hashKey = some table) :
    Linked keyedHash table := by
  obtain ⟨hsound, hentries, -⟩ := create_eq_some hcreate
  have hdead : ∀ idx, ¬ (table.entries idx).Live := by
    intro idx hlive
    rw [hentries] at hlive
    exact hlive.1 rfl
  refine ⟨hsound, .of_no_live fun idx slotKey hslot => ?_, ?_⟩
  · exact hdead idx (edgeSlots_eq_live_iff.mp hslot).2
  · exact fun idx hlive => absurd hlive (hdead idx)

theorem reset_linked {keyedHash : KeyedHash} {table : Table}
    (hlinked : Linked keyedHash table) : Linked keyedHash (reset table) := by
  have hdead : ∀ idx, ¬ ((reset table).entries idx).Live := by
    intro idx hlive
    simp only [reset] at hlive
    split_ifs at hlive with hlt
    · exact hlive.1 rfl
    · exact hlt (hlinked.lt_of_live hlive)
  refine ⟨hlinked.sound, .of_no_live fun idx slotKey hslot => ?_, ?_⟩
  · exact hdead idx (edgeSlots_eq_live_iff.mp hslot).2
  · exact fun idx hlive => absurd hlive (hdead idx)

theorem decay_linked {keyedHash : KeyedHash} {table : Table}
    (hlinked : Linked keyedHash table) : Linked keyedHash (decay table).1 := by
  apply hlinked.bury (decay_header table)
  intro idx
  rw [decay_entries]
  split_ifs
  · unfold decayedEntry
    split_ifs
    · exact .inr rfl
    · exact .inl ⟨rfl, rfl, rfl, rfl⟩
    · exact .inl (.refl _)
  · exact .inl (.refl _)

theorem sameEdge_reinforced (h : Header) (entry : Entry) (w : Witnesses)
    (budget : Fin 5 → Budget) (bump : ℕ) :
    SameEdge entry (reinforcedEntry h entry w budget bump) := by
  constructor <;> simp [reinforcedEntry]

/-- Retiring the victim after the claim leaves the entries which a burial of
the claimed table leaves. -/
theorem linked_retired {keyedHash : KeyedHash} {table after : Table}
    {slotKey ehash : UInt64} {delta idx : ℕ} {victim : Option ℕ}
    {fresh final : Entry} (hclaim : claimSlot table slotKey = some idx)
    (hcap : capDecision table ehash delta = some victim)
    (hclaimed : Linked keyedHash (table.setEntry idx fresh))
    (hheader : after.header = table.header)
    (hentries : after.entries =
      Function.update (retiredEntries table victim) idx final)
    (hfinal : SameEdge fresh final ∨ final.keyHash = slotTombstone) :
    Linked keyedHash after := by
  apply hclaimed.bury (by rw [hheader, setEntry_header])
  intro other
  rw [hentries, setEntry_entries]
  by_cases heq : other = idx
  · subst heq
    simpa using hfinal
  · rw [Function.update_of_ne heq, Function.update_of_ne heq]
    cases victim with
    | none => exact .inl (.refl _)
    | some victim =>
        simp only [retiredEntries]
        by_cases hvictim : other = victim
        · subst hvictim
          right
          rw [Function.update_self]
        · rw [Function.update_of_ne hvictim]
          exact .inl (.refl _)

theorem applyEdge_linked {keyedHash : KeyedHash} {table : Table}
    (hlinked : Linked keyedHash table) (ehash : UInt64) (key : List UInt8)
    {tLo tHi : UInt32} (hordered : tLo < tHi) (w : Witnesses) :
    Linked keyedHash (applyEdge keyedHash table ehash key tLo tHi w).table := by
  have hstep := applyEdge_edgeStep keyedHash table ehash key tLo tHi w
  generalize applyEdge keyedHash table ehash key tLo tHi w = outcome at hstep
  have hclaimed : ∀ idx,
      findSlot table (slotHashOf keyedHash table ehash tLo tHi) = none →
      claimSlot table (slotHashOf keyedHash table ehash tLo tHi) = some idx →
      Linked keyedHash (table.setEntry idx
        (claimedEntry table.header (table.entries idx)
          (slotHashOf keyedHash table ehash tLo tHi) ehash key tLo tHi w)) :=
    fun idx hfind hclaim => hlinked.claim ⟨rfl, hordered⟩ hfind hclaim
  cases hstep with
  | refused => exact hlinked
  | reinforced idx budget bump =>
      apply hlinked.bury (setEntry_header _ _ _)
      intro other
      rw [setEntry_entries]
      left
      by_cases heq : other = idx
      · subst heq
        rw [Function.update_self]
        exact sameEdge_reinforced _ _ _ _ _
      · rw [Function.update_of_ne heq]
        exact .refl _
  | undone idx victim fresh tracked hfind hcap hclaim hfresh hadd =>
      subst hfresh
      obtain ⟨hheader, hentries⟩ := tracked_setEntry hclaim hcap hadd _
      exact linked_retired hclaim hcap (hclaimed idx hfind hclaim) hheader
        hentries (.inr rfl)
  | inserted idx victim fresh tracked hfind hcap hclaim hfresh hadd =>
      subst hfresh
      obtain ⟨hheader, hentries⟩ := tracked_setEntry hclaim hcap hadd _
      exact linked_retired hclaim hcap (hclaimed idx hfind hclaim) hheader
        hentries (.inl ⟨rfl, rfl, rfl, rfl⟩)

/-! ## Every reachable table -/

theorem reachable_linked {keyedHash : KeyedHash} {history : History}
    (hreach : (writer keyedHash).Reachable history) :
    Linked keyedHash history.table :=
  reachable_induction (motive := fun table _ => Linked keyedHash table)
    (fun _ _ _ _ hcreate => create_linked hcreate)
    (fun _ _ ehash key _ _ w hlinked _ hordered _ =>
      applyEdge_linked hlinked ehash key hordered w)
    (fun _ _ hlinked => decay_linked hlinked)
    (fun _ _ hlinked => reset_linked hlinked) hreach

/-- In every reachable state a live entry is stored under the slot hash of its
triple within the probe limit of its home, live keys are distinct, and
`findSlot` returns the index of the live entry with a given key, or nothing
when there is none.  No slot hash is one of the two sentinels. -/
theorem findSlot_iff_live (keyedHash : KeyedHash) (history : History)
    (hreach : (writer keyedHash).Reachable history) :
    (∀ idx, (history.table.entries idx).Live →
      idx < history.table.header.capacity ∧
      (history.table.entries idx).keyHash =
        slotHashOf keyedHash history.table
          (history.table.entries idx).entityHash
          (history.table.entries idx).tLo (history.table.entries idx).tHi ∧
      (history.table.entries idx).tLo < (history.table.entries idx).tHi ∧
      ∃ p < probeMax, probeIdx history.table.header
        (history.table.entries idx).keyHash p = idx) ∧
    (∀ idx other, (history.table.entries idx).Live →
      (history.table.entries other).Live →
      (history.table.entries idx).keyHash =
        (history.table.entries other).keyHash → idx = other) ∧
    (∀ ehash tLo tHi,
      slotHashOf keyedHash history.table ehash tLo tHi ≠ slotEmpty ∧
      slotHashOf keyedHash history.table ehash tLo tHi ≠ slotTombstone) ∧
    (∀ slotKey, slotKey ≠ slotEmpty → slotKey ≠ slotTombstone →
      (∀ idx, findSlot history.table slotKey = some idx ↔
        idx < history.table.header.capacity ∧
        (history.table.entries idx).Live ∧
        (history.table.entries idx).keyHash = slotKey) ∧
      (findSlot history.table slotKey = none ↔
        ∀ idx < history.table.header.capacity,
          (history.table.entries idx).Live →
          (history.table.entries idx).keyHash ≠ slotKey)) := by
  have hlinked := reachable_linked hreach
  refine ⟨?_, ?_, fun _ _ _ => slotHashOf_ne_sentinel _ _ _ _ _, ?_⟩
  · intro idx hlive
    obtain ⟨p, hp, hidx⟩ := List.mem_map.mp (hlinked.mem_probeWindow hlive)
    exact ⟨hlinked.lt_of_live hlive, (hlinked.keyed idx hlive).key_eq,
      (hlinked.keyed idx hlive).ordered, p, List.mem_range.mp hp, hidx⟩
  · intro idx other hlive hother hsame
    exact hlinked.wellProbed.unique idx other _
      (edgeSlots_eq_live_iff.mpr ⟨rfl, hlive⟩)
      (edgeSlots_eq_live_iff.mpr ⟨hsame.symm, hother⟩)
  · intro slotKey hempty htomb
    have hlive : ∀ idx, (history.table.entries idx).keyHash = slotKey →
        (history.table.entries idx).Live := by
      intro idx heq
      rw [Entry.Live, heq]
      exact ⟨hempty, htomb⟩
    constructor
    · intro idx
      rw [hlinked.findSlot_eq_some_iff hempty htomb]
      exact ⟨fun heq => ⟨hlinked.lt_of_live (hlive idx heq), hlive idx heq, heq⟩,
        fun hall => hall.2.2⟩
    · rw [hlinked.findSlot_eq_none_iff hempty htomb]
      constructor
      · exact fun habsent idx _ _ => habsent idx
      · intro habsent idx heq
        exact habsent idx (hlinked.lt_of_live (hlive idx heq)) (hlive idx heq) heq

/-- A hash by the ninth byte, which is the low byte of `tLo` in a slot hash;
in four slots every home is 3. -/
def hashOfTLo : KeyedHash := fun bytes _ =>
  UInt64.ofNat (4 * (bytes.getD 8 0).toNat + 3)

/-- A weak edge and a strong one behind it; decay buries the weak one. -/
def behindTombstone : History :=
  replay hashOfTLo ⟨smallTable, []⟩
    [.reinforce [1] 1 9 16 1 0, .reinforce [1] 2 9 0xFFFF 1 0, .decay]

theorem findSlot_iff_live_behindTombstone :
    (behindTombstone.table.entries 3).keyHash = slotTombstone ∧
      findSlot behindTombstone.table 11 = some 0 ∧
      findSlot behindTombstone.table 7 = none := by
  obtain ⟨-, -, -, hfind⟩ :=
    findSlot_iff_live hashOfTLo behindTombstone (reachable_replay _ _)
  refine ⟨by decide, ?_, ?_⟩
  · exact ((hfind 11 (by decide) (by decide)).1 0).mpr
      ⟨by decide, by decide, by decide⟩
  · exact (hfind 7 (by decide) (by decide)).2.mpr (by decide)

end Tac
end LibWake
