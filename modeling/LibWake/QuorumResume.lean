import Mathlib.Data.List.Basic
import LibWake.QuorumCollect

/-!
# Sweeps which are stopped

A sweep makes a call for each slot with a crossing, slot by slot.  A callback which answers with
false stops it: it has done what a sweep over fewer slots does, and the slots behind are as they
were.  So a later sweep makes the calls which are missing.
-/

namespace LibWake
namespace Quorum

variable {Entity : Type}

/-! ## Crossings -/

/-- The emission of slot `j`, if a sweep which comes to it makes one. -/
def crossing (q : Evaluator) (read : ℕ → Option (Pheromone.Entry Entity)) (j : ℕ) :
    Option (Hit Entity) :=
  q.slots[j]?.bind fun slot => hitOf j (visit q.config slot (read j)).2 (read j)

/-- The emissions of the `n` slots from slot `i`. -/
def crossings (q : Evaluator) (read : ℕ → Option (Pheromone.Entry Entity)) (i n : ℕ) :
    List (Hit Entity) :=
  (List.range' i n).filterMap (crossing q read)

section Crossings

variable {q : Evaluator} {read : ℕ → Option (Pheromone.Entry Entity)} {i n : ℕ}

theorem slotIdx_of_hitOf {j : ℕ} {decision : Decision}
    {reading : Option (Pheromone.Entry Entity)} {hit : Hit Entity}
    (hhit : hitOf j decision reading = some hit) : hit.slotIdx = j := by
  unfold hitOf at hhit
  split at hhit
  · obtain rfl := Option.some.inj hhit
    rfl
  · cases hhit

theorem slotIdx_of_crossing {j : ℕ} {hit : Hit Entity} (hhit : crossing q read j = some hit) :
    hit.slotIdx = j := by
  obtain ⟨slot, -, hslot⟩ := Option.bind_eq_some_iff.mp hhit
  exact slotIdx_of_hitOf hslot

theorem slotIdx_of_mem_crossings {hit : Hit Entity} (hmem : hit ∈ crossings q read i n) :
    i ≤ hit.slotIdx ∧ hit.slotIdx < i + n := by
  obtain ⟨j, hj, hhit⟩ := List.mem_filterMap.mp hmem
  rw [slotIdx_of_crossing hhit]
  exact List.mem_range'_1.mp hj

theorem crossings_succ (q : Evaluator) (read : ℕ → Option (Pheromone.Entry Entity))
    (i n : ℕ) :
    crossings q read i (n + 1) =
      (crossing q read i).toList ++ crossings q read (i + 1) n := by
  rw [crossings, List.range'_succ]
  cases hhit : crossing q read i with
  | none => rw [List.filterMap_cons_none hhit, Option.toList_none, List.nil_append, crossings]
  | some hit =>
      rw [List.filterMap_cons_some hhit]
      rfl

theorem crossings_add (q : Evaluator) (read : ℕ → Option (Pheromone.Entry Entity))
    (i m n : ℕ) :
    crossings q read i (m + n) = crossings q read i m ++ crossings q read (i + m) n := by
  rw [crossings, ← List.range'_append_1, List.filterMap_append, crossings, crossings]

theorem crossings_snoc (q : Evaluator) (read : ℕ → Option (Pheromone.Entry Entity))
    (i m : ℕ) :
    crossings q read i (m + 1) =
      crossings q read i m ++ (crossing q read (i + m)).toList := by
  rw [crossings_add, crossings_succ]
  exact congrArg _ (List.append_nil _)

/-- Only the configuration and the slots which are visited matter. -/
theorem crossings_congr {q' : Evaluator} (hconfig : q'.config = q.config)
    (hslots : ∀ j, i ≤ j → j < i + n → q'.slots[j]? = q.slots[j]?) :
    crossings q' read i n = crossings q read i n := by
  refine List.filterMap_congr fun j hj => ?_
  obtain ⟨hle, hlt⟩ := List.mem_range'_1.mp hj
  rw [crossing, crossing, hconfig, hslots j hle hlt]

end Crossings

/-! ## The loop -/

section Loop

variable {read : ℕ → Option (Pheromone.Entry Entity)} {continues : Hit Entity → Bool}
  {n i : ℕ} {slot : Slot} {s : Sweep Entity}

theorem crossing_of_slot (hget : s.quorum.slots[i]? = some slot) :
    crossing s.quorum read i = hitOf i (visit s.quorum.config slot (read i)).2 (read i) := by
  rw [crossing, hget, Option.bind_some]

/-- The slots behind are still as they were. -/
theorem crossings_sweepAt (hget : s.quorum.slots[i]? = some slot) (n : ℕ) :
    crossings (sweepAt read i slot s).quorum read (i + 1) n =
      crossings s.quorum read (i + 1) n := by
  have hfirst : Swept read i 1 s (sweepAt read i slot s) := Swept.first hget
  exact crossings_congr hfirst.config fun j hle _ => (hfirst.untouched j (.inr hle)).1

theorem hits_sweepAt (hget : s.quorum.slots[i]? = some slot) :
    (sweepAt read i slot s).hits = s.hits ++ (crossing s.quorum read i).toList := by
  rw [crossing_of_slot hget]
  rfl

theorem sweepLoop_succ_of_true (hget : s.quorum.slots[i]? = some slot)
    (hgo : (crossing s.quorum read i).all continues = true) :
    sweepLoop read continues (n + 1) i s =
      sweepLoop read continues n (i + 1) (sweepAt read i slot s) := by
  rw [crossing_of_slot hget] at hgo
  rw [sweepLoop, hget]
  exact if_pos hgo

theorem sweepLoop_succ_of_false (hget : s.quorum.slots[i]? = some slot)
    (hstop : (crossing s.quorum read i).all continues = false) :
    sweepLoop read continues (n + 1) i s = sweepAt read i slot s := by
  rw [crossing_of_slot hget] at hstop
  rw [sweepLoop, hget]
  exact if_neg (Bool.eq_false_iff.mp hstop)

/-- The loop goes through the first `m` slots, and is stopped by the emission of the next. -/
structure Stops (continues : Hit Entity → Bool) (q : Evaluator)
    (read : ℕ → Option (Pheromone.Entry Entity)) (i n m : ℕ) (hit : Hit Entity) : Prop where
  lt : m < n
  before : ∀ other ∈ crossings q read i m, continues other = true
  last : crossing q read (i + m) = some hit
  answer : continues hit = false

/-- The loop of a sweep which nothing stops. -/
abbrev wholeLoop (read : ℕ → Option (Pheromone.Entry Entity)) (n i : ℕ) (s : Sweep Entity) :
    Sweep Entity :=
  sweepLoop read (fun _ => true) n i s

theorem wholeLoop_succ (hget : s.quorum.slots[i]? = some slot) :
    wholeLoop read (n + 1) i s = wholeLoop read n (i + 1) (sweepAt read i slot s) :=
  sweepLoop_succ_of_true hget Option.all_true

/-- A loop does what one does which nothing stops, over the same slots or over fewer. -/
theorem sweepLoop_cases (read : ℕ → Option (Pheromone.Entry Entity))
    (continues : Hit Entity → Bool) (hrange : i + n ≤ s.quorum.slots.length) :
    ((∀ hit ∈ crossings s.quorum read i n, continues hit = true) ∧
        sweepLoop read continues n i s = wholeLoop read n i s) ∨
      ∃ m hit, Stops continues s.quorum read i n m hit ∧
        sweepLoop read continues n i s = wholeLoop read (m + 1) i s := by
  induction n generalizing i s with
  | zero => exact .inl ⟨fun hit hmem => absurd hmem List.not_mem_nil, rfl⟩
  | succ n ih =>
      obtain ⟨slot, hget⟩ := exists_slot hrange
      cases hgo : (crossing s.quorum read i).all continues with
      | false =>
          obtain ⟨hit, hhit, hanswer⟩ : ∃ hit, crossing s.quorum read i = some hit ∧
              continues hit = false := by
            cases hhit : crossing s.quorum read i with
            | none =>
                rw [hhit] at hgo
                cases hgo
            | some hit => exact ⟨hit, rfl, by rwa [hhit] at hgo⟩
          refine .inr ⟨0, hit, ⟨Nat.succ_pos n, ?_, hhit, hanswer⟩, ?_⟩
          · exact fun other hmem => absurd hmem List.not_mem_nil
          · rw [sweepLoop_succ_of_false hget hgo, wholeLoop_succ hget]
            rfl
      | true =>
          have hfirst : ∀ m, (∀ hit ∈ crossings s.quorum read (i + 1) m, continues hit = true) →
              ∀ hit ∈ crossings s.quorum read i (m + 1), continues hit = true := by
            intro m hrest hit hmem
            rw [crossings_succ, List.mem_append, Option.mem_toList] at hmem
            rcases hmem with hhit | hlater
            · rw [hhit] at hgo
              exact hgo
            · exact hrest hit hlater
          rw [sweepLoop_succ_of_true hget hgo]
          rcases @ih (i + 1) (sweepAt read i slot s) (range_behind hrange) with
            ⟨hall, hloop⟩ | ⟨m, hit, hstops, hloop⟩
          · rw [crossings_sweepAt hget] at hall
            exact .inl ⟨hfirst n hall, hloop.trans (wholeLoop_succ hget).symm⟩
          · obtain ⟨hlt, hbefore, hlast, hanswer⟩ := hstops
            rw [crossings_sweepAt hget] at hbefore
            refine .inr ⟨m + 1, hit, ⟨by omega, hfirst m hbefore, ?_, hanswer⟩,
              hloop.trans (wholeLoop_succ hget).symm⟩
            have huntouched : SlotUntouched s (sweepAt read i slot s) (i + 1 + m) :=
              sweepAt_untouched (by omega)
            rw [crossing, (sweepAt_frame read i slot s).1, huntouched.1] at hlast
            rw [← hlast, crossing, Nat.add_right_comm, Nat.add_assoc]

theorem wholeLoop_hits (hrange : i + n ≤ s.quorum.slots.length) :
    (wholeLoop read n i s).hits = s.hits ++ crossings s.quorum read i n := by
  induction n generalizing i s with
  | zero => exact (List.append_nil _).symm
  | succ n ih =>
      obtain ⟨slot, hget⟩ := exists_slot hrange
      rw [wholeLoop_succ hget, ih (range_behind hrange), hits_sweepAt hget,
        crossings_sweepAt hget, crossings_succ, List.append_assoc]

theorem wholeLoop_swept (read : ℕ → Option (Pheromone.Entry Entity))
    (hrange : i + n ≤ s.quorum.slots.length) :
    Swept read i n s (wholeLoop read n i s) := by
  induction n generalizing i s with
  | zero => exact .nothing read i s
  | succ n ih =>
      obtain ⟨slot, hget⟩ := exists_slot hrange
      rw [wholeLoop_succ hget, Nat.add_comm n 1]
      exact (Swept.first hget).trans (ih (range_behind hrange))

theorem wholeLoop_length (hrange : i + n ≤ s.quorum.slots.length) :
    (wholeLoop read n i s).quorum.slots.length = s.quorum.slots.length := by
  induction n generalizing i s with
  | zero => rfl
  | succ n ih =>
      obtain ⟨slot, hget⟩ := exists_slot hrange
      rw [wholeLoop_succ hget, ih (range_behind hrange), length_sweepAt]

end Loop

/-! ## Sweeps -/

/-- The sweep with a callback which always goes on. -/
def uninterrupted (q : Evaluator) (pt : View Entity) : Sweep Entity :=
  sweep q pt (some fun _ _ _ => true)

/-- The number of slots which both sides have. -/
def common (q : Evaluator) (pt : View Entity) : ℕ := min q.slots.length pt.capacity

theorem common_le (q : Evaluator) (pt : View Entity) : 0 + common q pt ≤ q.slots.length := by
  rw [Nat.zero_add]
  exact Nat.min_le_left _ _

theorem uninterrupted_eq (q : Evaluator) (pt : View Entity) :
    uninterrupted q pt = wholeLoop pt.read (common q pt) 0 ⟨q, .zero, []⟩ := rfl

theorem uninterrupted_hits (q : Evaluator) (pt : View Entity) :
    (uninterrupted q pt).hits = crossings q pt.read 0 (common q pt) := by
  rw [uninterrupted_eq, wholeLoop_hits (common_le q pt), List.nil_append]

/-- A sweep which is stopped has visited the slots up to the one whose emission is its last. -/
theorem sweepWith_cases (continues : Hit Entity → Bool) (q : Evaluator) (pt : View Entity) :
    ((∀ hit ∈ (uninterrupted q pt).hits, continues hit = true) ∧
        sweepWith continues q pt = uninterrupted q pt) ∨
      ∃ m hit, Stops continues q pt.read 0 (common q pt) m hit ∧
        0 + (m + 1) ≤ q.slots.length ∧
        sweepWith continues q pt = wholeLoop pt.read (m + 1) 0 ⟨q, .zero, []⟩ ∧
        (sweepWith continues q pt).hits = crossings q pt.read 0 m ++ [hit] := by
  have hrange := common_le q pt
  rw [uninterrupted_hits]
  rcases @sweepLoop_cases Entity _ 0 ⟨q, .zero, []⟩ pt.read continues hrange with
    ⟨hall, hloop⟩ | ⟨m, hit, hstops, hloop⟩
  · exact .inl ⟨hall, hloop⟩
  · have hfront : 0 + (m + 1) ≤ q.slots.length := by
      have hlt := hstops.lt
      omega
    have hsweep : sweepWith continues q pt = wholeLoop pt.read (m + 1) 0 ⟨q, .zero, []⟩ := hloop
    refine .inr ⟨m, hit, hstops, hfront, hsweep, ?_⟩
    rw [hsweep, wholeLoop_hits hfront, crossings_snoc, hstops.last]
    rfl

/-- Of the calls of an uninterrupted sweep, those for the slots behind slot `j`. -/
theorem filter_crossings (q : Evaluator) (read : ℕ → Option (Pheromone.Entry Entity))
    {j n : ℕ} (hj : j < n) :
    (crossings q read 0 n).filter (fun hit => j < hit.slotIdx) =
      crossings q read (j + 1) (n - (j + 1)) := by
  have hsplit : n = j + 1 + (n - (j + 1)) := by omega
  have hfront : (crossings q read 0 (j + 1)).filter (fun hit => j < hit.slotIdx) = [] := by
    refine List.filter_eq_nil_iff.mpr fun hit hmem => ?_
    have hbound := (slotIdx_of_mem_crossings hmem).2
    simpa using Nat.le_of_lt_succ (by omega)
  have hback : (crossings q read (j + 1) (n - (j + 1))).filter
      (fun hit => j < hit.slotIdx) = crossings q read (j + 1) (n - (j + 1)) :=
    List.filter_eq_self.mpr fun hit hmem =>
      decide_eq_true (slotIdx_of_mem_crossings hmem).1
  conv_lhs => rw [hsplit, crossings_add, List.filter_append, hfront, List.nil_append,
    Nat.zero_add, hback]

/-- A sweep whose callback answers call number `k + 1` with false has made the first `k + 1`
calls of an uninterrupted sweep; the slots behind are as they were; and an uninterrupted sweep
which follows makes for them the calls which are missing. -/
theorem stopped_sweep_resumes (q : Evaluator) (pt : View Entity)
    (f : Action → ℕ → Pheromone.Entry Entity → Bool) {k : ℕ} {hit : Hit Entity}
    (hcall : (sweep q pt (some f)).hits[k]? = some hit)
    (hstop : f hit.action hit.slotIdx hit.entry = false) :
    (sweep q pt (some f)).hits.length = k + 1 ∧
      (sweep q pt (some f)).hits = (uninterrupted q pt).hits.take (k + 1) ∧
      (∀ j, hit.slotIdx < j → (sweep q pt (some f)).quorum.slots[j]? = q.slots[j]?) ∧
      (uninterrupted (sweep q pt (some f)).quorum pt).hits.filter
          (fun other => hit.slotIdx < other.slotIdx) =
        (uninterrupted q pt).hits.drop (k + 1) := by
  set continues : Hit Entity → Bool := fun other => f other.action other.slotIdx other.entry
  have hsweep : sweep q pt (some f) = sweepWith continues q pt := rfl
  rcases sweepWith_cases continues q pt with
    ⟨hall, hloop⟩ | ⟨m, last, ⟨hlt, hbefore, hlast, hanswer⟩, hfront, hloop, hhits⟩
  · -- all calls are answered with true
    rw [hsweep, hloop] at hcall
    have hanswer := hall hit (List.mem_of_getElem? hcall)
    exact absurd (hanswer.symm.trans hstop) (by decide)
  · rw [← hsweep] at hloop hhits
    have hswept := @wholeLoop_swept Entity _ 0 ⟨q, .zero, []⟩ pt.read hfront
    rw [← hloop] at hswept
    have hidx : last.slotIdx = m := (slotIdx_of_crossing hlast).trans (Nat.zero_add m)
    -- the only call which is answered with false is the last one
    obtain ⟨rfl, rfl⟩ : k = (crossings q pt.read 0 m).length ∧ last = hit := by
      rw [hhits] at hcall
      rcases Nat.lt_trichotomy k (crossings q pt.read 0 m).length with hless | heq | hmore
      · rw [List.getElem?_append_left hless] at hcall
        have hgo := hbefore hit (List.mem_of_getElem? hcall)
        exact absurd (hgo.symm.trans hstop) (by decide)
      · rw [heq, List.getElem?_concat_length] at hcall
        exact ⟨heq, Option.some.inj hcall⟩
      · rw [List.getElem?_eq_none (by
          rw [List.length_append, List.length_singleton]
          omega)] at hcall
        cases hcall
    have hlength : (sweep q pt (some f)).hits.length =
        (crossings q pt.read 0 m).length + 1 := by
      rw [hhits, List.length_append, List.length_singleton]
    have hwhole : (uninterrupted q pt).hits = (sweep q pt (some f)).hits ++
        crossings q pt.read (m + 1) (common q pt - (m + 1)) := by
      have hsplit : common q pt = m + 1 + (common q pt - (m + 1)) := by omega
      have hsnoc := crossings_snoc q pt.read 0 m
      rw [hlast] at hsnoc
      rw [uninterrupted_hits, hhits, hsplit, crossings_add, hsnoc, Nat.zero_add, ← hsplit]
      rfl
    have hbehind : ∀ j, m < j → (sweep q pt (some f)).quorum.slots[j]? = q.slots[j]? :=
      fun j hj => (hswept.untouched j (.inr (by omega))).1
    have hcommon : common (sweep q pt (some f)).quorum pt = common q pt := by
      rw [common, hloop, wholeLoop_length hfront]
      rfl
    refine ⟨hlength, ?_, hidx ▸ hbehind, ?_⟩
    · rw [hwhole, List.take_left' hlength]
    · rw [hwhole, List.drop_left' hlength, uninterrupted_hits, hcommon, hidx,
        filter_crossings _ _ hlt]
      exact crossings_congr hswept.config fun j hle _ => hbehind j hle

/-- A table of two entries with one key, both above the threshold of ALERT. -/
def twoAlerts : View Unit := ⟨2, fun _ => some (witnessed 30000)⟩

theorem stopped_sweep_resumes_twoAlerts :
    (uninterrupted (sweep (create 2 none) twoAlerts (some fun _ _ _ => false)).quorum
        twoAlerts).hits.filter (fun other => 0 < other.slotIdx) =
      (uninterrupted (create 2 none) twoAlerts).hits.drop 1 :=
  (stopped_sweep_resumes (create 2 none) twoAlerts (fun _ _ _ => false) (k := 0)
    (show _ = some (⟨.alert, 0, witnessed 30000⟩ : Hit Unit) from rfl) rfl).2.2.2

/-! ## Callbacks with a state -/

section Callbacks

variable {Ctx : Type}

/-- The callback with a record of its calls and its answers. -/
def recorded (fn : Callback Entity Ctx) : Callback Entity (Ctx × List (Hit Entity × Bool)) :=
  fun action i snap state =>
    ((fn action i snap state.1).1, (fn action i snap state.1).2,
      state.2 ++ [(⟨action, i, snap⟩, (fn action i snap state.1).1)])

theorem sweepLoop_congr {read : ℕ → Option (Pheromone.Entry Entity)}
    {continues continues' : Hit Entity → Bool} {n i : ℕ} {s : Sweep Entity}
    (hsame : ∀ hit, i ≤ hit.slotIdx → continues hit = continues' hit) :
    sweepLoop read continues n i s = sweepLoop read continues' n i s := by
  induction n generalizing i s with
  | zero => rfl
  | succ n ih =>
      cases hget : s.quorum.slots[i]? with
      | none => rw [sweepLoop, sweepLoop, hget]
      | some slot =>
          have hall : (crossing s.quorum read i).all continues =
              (crossing s.quorum read i).all continues' := by
            cases hhit : crossing s.quorum read i with
            | none => rfl
            | some hit => exact hsame hit (slotIdx_of_crossing hhit).ge
          cases hgo : (crossing s.quorum read i).all continues with
          | false =>
              rw [sweepLoop_succ_of_false hget hgo, sweepLoop_succ_of_false hget (hall ▸ hgo)]
          | true =>
              rw [sweepLoop_succ_of_true hget hgo, sweepLoop_succ_of_true hget (hall ▸ hgo)]
              exact ih fun hit hle => hsame hit (Nat.le_of_succ_le hle)

/-- The slots behind are answered as before, and the hit of this one with true. -/
theorem exists_answers {read : ℕ → Option (Pheromone.Entry Entity)} {i : ℕ} {slot : Slot}
    {s : Sweep Entity} {hit : Hit Entity} (hget : s.quorum.slots[i]? = some slot)
    (hhit : crossing s.quorum read i = some hit) (continues : Hit Entity → Bool) (n : ℕ) :
    ∃ answers : Hit Entity → Bool, answers hit = true ∧
      (∀ other : Hit Entity, i + 1 ≤ other.slotIdx → answers other = continues other) ∧
      sweepLoop read answers (n + 1) i s =
        sweepLoop read continues n (i + 1) (sweepAt read i slot s) := by
  have hbehind : ∀ other : Hit Entity, i + 1 ≤ other.slotIdx →
      (if other.slotIdx = i then true else continues other) = continues other :=
    fun other hle => if_neg (by omega)
  have hhere : (if hit.slotIdx = i then true else continues hit) = true :=
    if_pos (slotIdx_of_crossing hhit)
  refine ⟨fun other => if other.slotIdx = i then true else continues other, hhere, hbehind, ?_⟩
  rw [sweepLoop_succ_of_true hget (by rw [hhit]; exact hhere)]
  exact sweepLoop_congr hbehind

/-- The loop with a callback which keeps a state is one with answers to the hits, since no two
of them are for one slot. -/
theorem callbackLoop_answers (fn : Callback Entity Ctx)
    (read : ℕ → Option (Pheromone.Entry Entity)) {n i : ℕ} {s : Sweep Entity}
    (hrange : i + n ≤ s.quorum.slots.length) (ctx : Ctx) (calls : List (Hit Entity × Bool)) :
    ∃ (continues : Hit Entity → Bool) (made : List (Hit Entity)),
      (callbackLoop read (some (recorded fn)) n i s.progress (ctx, calls)).1 =
          (sweepLoop read continues n i s).progress ∧
        (sweepLoop read continues n i s).hits = s.hits ++ made ∧
        (callbackLoop read (some (recorded fn)) n i s.progress (ctx, calls)).2.2 =
          calls ++ made.map (fun hit => (hit, continues hit)) ∧
        ∀ hit ∈ made, i ≤ hit.slotIdx := by
  induction n generalizing i s ctx calls with
  | zero =>
      exact ⟨fun _ => true, [], rfl, (List.append_nil _).symm, (List.append_nil _).symm,
        fun hit hmem => absurd hmem List.not_mem_nil⟩
  | succ n ih =>
      obtain ⟨slot, hget⟩ := exists_slot hrange
      have hhits := @hits_sweepAt Entity read i slot s hget
      rw [callbackLoop, callbackBody_stored read _ _ hget, ← crossing_of_slot hget]
      cases hhit : crossing s.quorum read i with
      | none =>
          obtain ⟨continues, made, hprogress, hmade, hcalls, hbound⟩ :=
            ih (range_behind hrange) ctx calls
          refine ⟨continues, made, ?_, ?_, hcalls, fun hit hmem => ?_⟩
          · rw [sweepLoop_succ_of_true hget (by rw [hhit]; rfl)]
            exact hprogress
          · rw [sweepLoop_succ_of_true hget (by rw [hhit]; rfl), hmade, hhits, hhit,
              Option.toList_none, List.append_nil]
          · exact Nat.le_of_succ_le (hbound hit hmem)
      | some hit =>
          have hidx := slotIdx_of_crossing hhit
          rw [hhit, Option.toList_some] at hhits
          simp only [callHit, callBack, recorded]
          cases hanswer : (fn hit.action hit.slotIdx hit.entry ctx).1 with
          | false =>
              have hloop : sweepLoop read (fun _ => false) (n + 1) i s = sweepAt read i slot s :=
                sweepLoop_succ_of_false hget (by rw [hhit]; rfl)
              refine ⟨fun _ => false, [hit], ?_, ?_, rfl, fun other hmem => ?_⟩
              · rw [hloop]
              · rw [hloop, hhits]
              · rw [List.mem_singleton.mp hmem, hidx]
          | true =>
              obtain ⟨continues, made, hprogress, hmade, hcalls, hbound⟩ :=
                ih (range_behind hrange) (fn hit.action hit.slotIdx hit.entry ctx).2
                  (calls ++ [(hit, true)])
              obtain ⟨answers, hhere, hbehind, hloop⟩ := exists_answers hget hhit continues n
              refine ⟨answers, hit :: made, ?_, ?_, ?_, fun other hmem => ?_⟩
              · rw [hloop, ← hprogress]
              · rw [hloop, hmade, hhits, List.append_assoc, List.singleton_append]
              · have hsame : made.map (fun other => (other, answers other)) =
                    made.map fun other => (other, continues other) :=
                  List.map_congr_left fun other hmem => by rw [hbehind other (hbound other hmem)]
                rw [hcalls, List.map_cons, hhere, hsame, List.append_assoc, List.singleton_append]
              · rcases List.mem_cons.mp hmem with rfl | hlater
                · exact hidx.ge
                · exact Nat.le_of_succ_le (hbound other hlater)

/-- A sweep with a callback which keeps a state is a sweep of the model, with the answers which
the callback gave. -/
theorem callbackSweep_answers (q : Evaluator) (pt : View Entity) (fn : Callback Entity Ctx)
    (ctx : Ctx) :
    ∃ f : Action → ℕ → Pheromone.Entry Entity → Bool,
      (callbackSweep q.stored pt (some (recorded fn)) (ctx, [])).1 =
          (sweep q pt (some f)).progress ∧
        (callbackSweep q.stored pt (some (recorded fn)) (ctx, [])).2.2 =
          (sweep q pt (some f)).hits.map
            fun hit => (hit, f hit.action hit.slotIdx hit.entry) := by
  obtain ⟨continues, made, hprogress, hmade, hcalls, -⟩ := callbackLoop_answers fn
    pt.read (show 0 + common q pt ≤ (⟨q, .zero, []⟩ : Sweep Entity).quorum.slots.length from
      common_le q pt) ctx []
  rw [List.nil_append] at hmade hcalls
  refine ⟨fun action idx entry => continues ⟨action, idx, entry⟩, hprogress, ?_⟩
  exact hcalls.trans (congrArg _ hmade.symm)

end Callbacks

end Quorum
end LibWake
