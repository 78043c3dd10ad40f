import Mathlib.Data.List.Basic
import Mathlib.Logic.Function.Iterate

/-!
# Records under a version counter

A writer loads the version, stores a locked one, writes the words of the record in any order and
stores the next version.  A reader loads a version which is not locked, copies the words in any
order and keeps the copy when it finds the same version again.  Every access is one step of its
own, and the steps of all writers and readers interleave.

While the writers keep apart, what a reader keeps is the record as it stands at its last step.
-/

namespace LibWake
namespace Seqlock

/-- Every store of a version stores the next one.  They alternate between free and locked and
come back only after `period` stores. -/
structure Clock (V : Type*) where
  next : V → V
  lock : V → V
  locked : V → Prop
  period : ℕ
  lock_eq_next : ∀ v, ¬ locked v → lock v = next v
  locked_lock : ∀ v, locked (lock v)
  not_locked_next : ∀ v, locked v → ¬ locked (next v)
  iterate_next_ne : ∀ v d, 0 < d → d < period → next^[d] v ≠ v

structure Cell (V ι W : Type*) where
  version : V
  words : ι → W

/-- How far a writer has got: it has loaded the version, or it has stored the locked version and
some words of its record are still to be written. -/
inductive Seat (V ι W : Type*) where
  | loaded (version : V)
  | writing (version : V) (todo : List ι) (record : ι → W)

/-- A cell and its writers. -/
structure State (P V ι W : Type*) where
  cell : Cell V ι W
  seat : P → Option (Seat V ι W)

variable {P V ι W : Type*} [DecidableEq P] [DecidableEq ι]

/-- One step of the writer `p`.  The records are as `Origin` says, and a writer which loads the
version finds no other there if `Apart` holds. -/
inductive Move (clock : Clock V) (Origin : (ι → W) → Prop) (Apart : Prop) (p : P)
    (s : State P V ι W) : State P V ι W → Prop
  | rest : Move clock Origin Apart p s s
  | load (hout : s.seat p = none) (hapart : Apart → ∀ q, s.seat q = none) :
      Move clock Origin Apart p s
        { s with seat := Function.update s.seat p (some (.loaded s.cell.version)) }
  | lock {ver : V} (hseat : s.seat p = some (.loaded ver)) {todo : List ι}
      (htodo : ∀ i, i ∈ todo) {record : ι → W} (horigin : Origin record) :
      Move clock Origin Apart p s
        { cell := { s.cell with version := clock.lock ver }
          seat := Function.update s.seat p (some (.writing (clock.lock ver) todo record)) }
  | write {ver : V} {todo : List ι} {record : ι → W}
      (hseat : s.seat p = some (.writing ver todo record)) (i : ι) :
      Move clock Origin Apart p s
        { cell := { s.cell with words := Function.update s.cell.words i (record i) }
          seat := Function.update s.seat p (some (.writing ver (todo.erase i) record)) }
  | unlock {ver : V} {record : ι → W} (hseat : s.seat p = some (.writing ver [] record)) :
      Move clock Origin Apart p s
        { cell := { s.cell with version := clock.next ver }
          seat := Function.update s.seat p none }

variable {clock : Clock V} {Origin : (ι → W) → Prop} {Apart : Prop} {p : P}
  {s next : State P V ι W}

/-! ## Writers -/

/-- One writer at a time, and the record is whole unless it is locked. -/
structure Orderly (clock : Clock V) (Origin : (ι → W) → Prop) (s : State P V ι W) : Prop where
  sole : ∀ p q, s.seat p ≠ none → s.seat q ≠ none → p = q
  vacant : (∀ p, s.seat p = none) → ¬ clock.locked s.cell.version ∧ Origin s.cell.words
  loaded : ∀ p ver, s.seat p = some (.loaded ver) →
    s.cell.version = ver ∧ ¬ clock.locked ver ∧ Origin s.cell.words
  writing : ∀ p ver todo record, s.seat p = some (.writing ver todo record) →
    s.cell.version = ver ∧ clock.locked ver ∧ Origin record ∧
      ∀ i, i ∉ todo → s.cell.words i = record i

omit [DecidableEq P] [DecidableEq ι] in
theorem Orderly.origin_of_free (horderly : Orderly clock Origin s)
    (hfree : ¬ clock.locked s.cell.version) : Origin s.cell.words := by
  by_cases hvacant : ∀ p, s.seat p = none
  · exact (horderly.vacant hvacant).2
  · push Not at hvacant
    obtain ⟨p, hp⟩ := hvacant
    obtain ⟨seat, hseat⟩ := Option.ne_none_iff_exists'.mp hp
    cases seat with
    | loaded ver => exact (horderly.loaded p ver hseat).2.2
    | writing ver todo record =>
        obtain ⟨hver, hlocked, -⟩ := horderly.writing p ver todo record hseat
        exact absurd (hver ▸ hlocked) hfree

omit [DecidableEq P] [DecidableEq ι] in
theorem Orderly.others (horderly : Orderly clock Origin s) (hseat : s.seat p ≠ none) {q : P}
    (hne : q ≠ p) : s.seat q = none := by
  by_contra hq
  exact hne (horderly.sole q p hq hseat)

omit [DecidableEq ι] in
/-- The writer at the cell takes its next seat; the others have none. -/
theorem orderly_of_seat {cell : Cell V ι W} {seat : Seat V ι W}
    (hothers : ∀ q, q ≠ p → s.seat q = none)
    (hloaded : ∀ ver, seat = .loaded ver →
      cell.version = ver ∧ ¬ clock.locked ver ∧ Origin cell.words)
    (hwriting : ∀ ver todo record, seat = .writing ver todo record →
      cell.version = ver ∧ clock.locked ver ∧ Origin record ∧
        ∀ i, i ∉ todo → cell.words i = record i) :
    Orderly clock Origin ⟨cell, Function.update s.seat p (some seat)⟩ := by
  have hsole : ∀ q, Function.update s.seat p (some seat) q ≠ none → q = p := by
    intro q hq
    by_contra hne
    rw [Function.update_of_ne hne] at hq
    exact hq (hothers q hne)
  have hself : ∀ q other, Function.update s.seat p (some seat) q = some other →
      seat = other := by
    intro q other hq
    have hsome : Function.update s.seat p (some seat) q ≠ none := by
      rw [hq]
      exact Option.some_ne_none other
    obtain rfl := hsole q hsome
    rw [Function.update_self] at hq
    exact Option.some.inj hq
  refine ⟨fun q r hq hr => (hsole q hq).trans (hsole r hr).symm, fun hvacant => ?_,
    fun q ver hq => hloaded ver (hself q _ hq),
    fun q ver todo record hq => hwriting ver todo record (hself q _ hq)⟩
  have hp := hvacant p
  change Function.update s.seat p (some seat) p = none at hp
  rw [Function.update_self] at hp
  cases hp

theorem Orderly.move (horderly : Orderly clock Origin s) (hapart : Apart)
    (hmove : Move clock Origin Apart p s next) : Orderly clock Origin next := by
  cases hmove with
  | rest => exact horderly
  | load hout halone =>
      obtain ⟨hfree, horigin⟩ := horderly.vacant (halone hapart)
      refine orderly_of_seat (fun q _ => halone hapart q) (fun ver hver => ?_) ?_
      · obtain rfl := Seat.loaded.inj hver
        exact ⟨rfl, hfree, horigin⟩
      · intro ver todo record hfalse
        cases hfalse
  | lock hseat htodo horigin =>
      have hsome := Option.ne_none_iff_exists'.mpr ⟨_, hseat⟩
      refine orderly_of_seat (fun q => horderly.others hsome) ?_ ?_
      · intro ver hfalse
        cases hfalse
      · intro ver todo record hwriting
        obtain ⟨rfl, rfl, rfl⟩ := Seat.writing.inj hwriting
        exact ⟨rfl, clock.locked_lock _, horigin, fun i hi => absurd (htodo i) hi⟩
  | @write ver todo record hseat i =>
      have hsome := Option.ne_none_iff_exists'.mpr ⟨_, hseat⟩
      obtain ⟨hver, hlocked, horigin, hwritten⟩ := horderly.writing p ver todo record hseat
      refine orderly_of_seat (fun q => horderly.others hsome) ?_ ?_
      · intro ver hfalse
        cases hfalse
      · intro ver' todo' record' hwriting
        obtain ⟨rfl, rfl, rfl⟩ := Seat.writing.inj hwriting
        refine ⟨hver, hlocked, horigin, fun j hj => ?_⟩
        by_cases hji : j = i
        · subst hji
          exact Function.update_self j _ _
        · have hkept : j ∉ todo := fun hmem => hj ((List.mem_erase_of_ne hji).mpr hmem)
          exact (Function.update_of_ne hji _ _).trans (hwritten j hkept)
  | @unlock ver record hseat =>
      have hsome := Option.ne_none_iff_exists'.mpr ⟨_, hseat⟩
      obtain ⟨-, hlocked, horigin, hwritten⟩ := horderly.writing p ver [] record hseat
      have hwords : s.cell.words = record := funext fun i => hwritten i List.not_mem_nil
      have hnone : ∀ q, Function.update s.seat p none q = none := by
        intro q
        by_cases hqp : q = p
        · subst hqp
          exact Function.update_self q _ _
        · rw [Function.update_of_ne hqp]
          exact horderly.others hsome hqp
      refine ⟨fun q _ hq => absurd (hnone q) hq,
        fun _ => ⟨clock.not_locked_next ver hlocked, hwords ▸ horigin⟩,
        fun q ver hq => absurd (hq.symm.trans (hnone q)) (Option.some_ne_none _),
        fun q ver todo record hq => absurd (hq.symm.trans (hnone q)) (Option.some_ne_none _)⟩

/-! ## Readers -/

/-- What may happen to a cell in one step of its writers. -/
inductive Cell.Step (clock : Clock V) (cell : Cell V ι W) : Cell V ι W → Prop
  | rest : Cell.Step clock cell cell
  | store : Cell.Step clock cell { cell with version := clock.next cell.version }
  | write (hlocked : clock.locked cell.version) (words : ι → W) :
      Cell.Step clock cell { cell with words := words }

theorem Orderly.cell_step (horderly : Orderly clock Origin s)
    (hmove : Move clock Origin Apart p s next) : Cell.Step clock s.cell next.cell := by
  cases hmove with
  | rest => exact .rest
  | load => exact .rest
  | @lock ver hseat =>
      obtain ⟨hver, hfree, -⟩ := horderly.loaded p ver hseat
      rw [clock.lock_eq_next ver hfree, ← hver]
      exact .store
  | @write ver todo record hseat i =>
      obtain ⟨hver, hlocked, -⟩ := horderly.writing p ver todo record hseat
      exact .write (hver ▸ hlocked) _
  | @unlock ver record hseat =>
      obtain ⟨hver, -⟩ := horderly.writing p ver [] record hseat
      rw [← hver]
      exact .store

/-- A reader loaded the version `v1` at most `bound` steps ago and has copied some words since.
Unless a version was stored in between the copies are the words of the cell. -/
def Watch (clock : Clock V) (bound : ℕ) (cell : Cell V ι W) (v1 : V) (copied : ι → Prop)
    (out : ι → W) : Prop :=
  ¬ clock.locked v1 ∧ ∃ d ≤ bound, cell.version = clock.next^[d] v1 ∧
    (d = 0 → ∀ i, copied i → out i = cell.words i)

variable {bound : ℕ} {cell cell' : Cell V ι W} {v1 : V} {copied : ι → Prop} {out : ι → W}

omit [DecidableEq ι] in
theorem watch_load (hfree : ¬ clock.locked cell.version) (hnone : ∀ i, ¬ copied i) :
    Watch clock bound cell cell.version copied out :=
  ⟨hfree, 0, Nat.zero_le bound, rfl, fun _ i hi => absurd hi (hnone i)⟩

omit [DecidableEq ι] in
theorem Watch.step (hwatch : Watch clock bound cell v1 copied out)
    (hstep : Cell.Step clock cell cell') : Watch clock (bound + 1) cell' v1 copied out := by
  obtain ⟨hfree, d, hd, hver, hcopied⟩ := hwatch
  cases hstep with
  | rest => exact ⟨hfree, d, Nat.le_succ_of_le hd, hver, hcopied⟩
  | store =>
      refine ⟨hfree, d + 1, Nat.succ_le_succ hd, ?_, fun hzero => absurd hzero d.succ_ne_zero⟩
      rw [Function.iterate_succ_apply', ← hver]
  | write hlocked words =>
      refine ⟨hfree, d, Nat.le_succ_of_le hd, hver, fun hzero => ?_⟩
      rw [hver, hzero] at hlocked
      exact absurd hlocked hfree

theorem Watch.copy (hwatch : Watch clock bound cell v1 copied out) (i : ι) :
    Watch clock (bound + 1) cell v1 (fun j => j = i ∨ copied j)
      (Function.update out i (cell.words i)) := by
  obtain ⟨hfree, d, hd, hver, hcopied⟩ := hwatch
  refine ⟨hfree, d, Nat.le_succ_of_le hd, hver, fun hzero j hj => ?_⟩
  by_cases hji : j = i
  · rw [hji, Function.update_self]
  · rw [Function.update_of_ne hji]
    exact hcopied hzero j (hj.resolve_left hji)

omit [DecidableEq ι] in
theorem Watch.mono (hwatch : Watch clock bound cell v1 copied out) {copied' : ι → Prop}
    (hsubset : ∀ i, copied' i → copied i) : Watch clock bound cell v1 copied' out := by
  obtain ⟨hfree, d, hd, hver, hcopied⟩ := hwatch
  exact ⟨hfree, d, hd, hver, fun hzero i hi => hcopied hzero i (hsubset i hi)⟩

omit [DecidableEq ι] in
/-- The version is the same again: no word which the reader copied has changed. -/
theorem Watch.check (hwatch : Watch clock bound cell v1 copied out)
    (hbound : bound < clock.period) (hsame : cell.version = v1) :
    ∀ i, copied i → out i = cell.words i := by
  obtain ⟨-, d, hd, hver, hcopied⟩ := hwatch
  rcases Nat.eq_zero_or_pos d with hzero | hpos
  · exact hcopied hzero
  · exact absurd (hver.symm.trans hsame)
      (clock.iterate_next_ne v1 d hpos (Nat.lt_of_le_of_lt hd hbound))

/-! ## Writers which do not keep apart -/

/-- A locked version is that of a writer which will unlock it. -/
structure Held (clock : Clock V) (s : State P V ι W) : Prop where
  held : clock.locked s.cell.version →
    ∃ p ver todo record, s.seat p = some (.writing ver todo record)
  locked : ∀ p ver todo record, s.seat p = some (.writing ver todo record) → clock.locked ver

omit [DecidableEq ι] in
theorem Held.become (hheld : Held clock s) {cell : Cell V ι W} {seat : Option (Seat V ι W)}
    (hlocked : ∀ ver todo record, seat = some (.writing ver todo record) → clock.locked ver)
    (hkept : clock.locked cell.version →
      (∃ ver todo record, seat = some (.writing ver todo record)) ∨
        clock.locked s.cell.version ∧
          ∀ ver todo record, s.seat p ≠ some (.writing ver todo record)) :
    Held clock ⟨cell, Function.update s.seat p seat⟩ := by
  refine ⟨fun hcell => ?_, fun q ver todo record hq => ?_⟩
  · rcases hkept hcell with ⟨ver, todo, record, hseat⟩ | ⟨hbefore, hother⟩
    · exact ⟨p, ver, todo, record, (Function.update_self p _ _).trans hseat⟩
    · obtain ⟨q, ver, todo, record, hq⟩ := hheld.held hbefore
      have hne : q ≠ p := by
        rintro rfl
        exact hother ver todo record hq
      exact ⟨q, ver, todo, record, (Function.update_of_ne hne _ _).trans hq⟩
  · change Function.update s.seat p seat q = _ at hq
    by_cases hqp : q = p
    · rw [hqp, Function.update_self] at hq
      exact hlocked ver todo record hq
    · rw [Function.update_of_ne hqp] at hq
      exact hheld.locked q ver todo record hq

theorem Held.move (hheld : Held clock s) (hmove : Move clock Origin Apart p s next) :
    Held clock next := by
  cases hmove with
  | rest => exact hheld
  | load hout =>
      refine hheld.become ?_ fun hlocked => .inr ⟨hlocked, ?_⟩
      · intro ver todo record hfalse
        cases hfalse
      · intro ver todo record hfalse
        rw [hout] at hfalse
        cases hfalse
  | lock =>
      refine hheld.become (fun ver todo record hseat => ?_) fun _ => .inl ⟨_, _, _, rfl⟩
      obtain ⟨rfl, -⟩ := Seat.writing.inj (Option.some.inj hseat)
      exact clock.locked_lock _
  | write hseat i =>
      refine hheld.become (fun ver todo record hnew => ?_) fun _ => .inl ⟨_, _, _, rfl⟩
      obtain ⟨rfl, -⟩ := Seat.writing.inj (Option.some.inj hnew)
      exact hheld.locked p _ _ _ hseat
  | unlock hseat =>
      refine hheld.become ?_ fun hlocked => ?_
      · intro ver todo record hfalse
        cases hfalse
      · exact absurd hlocked (clock.not_locked_next _ (hheld.locked p _ _ _ hseat))

end Seqlock
end LibWake
