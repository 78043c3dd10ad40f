import Mathlib.Logic.Basic
import Mathlib.Data.List.Basic
import Mathlib.Order.Basic

/-!
# Guarded transition systems and their finite runs

A system is a predicate of initial states together with one executable,
guarded step function.  The label of a step carries every choice which the
environment makes (a call with its arguments, the process scheduled next, the
message delivered next), so a run is a finite list of labels.  The rules below
reduce a statement about runs to a statement about one step.
-/

namespace LibWake

/-- Initial states and a step function; `none` marks a disabled label. -/
structure TransitionSystem (σ ι : Type*) where
  Initial : σ → Prop
  step : σ → ι → Option σ

namespace TransitionSystem

variable {σ ι : Type*} (M : TransitionSystem σ ι)

/-- Replay a list of labels; `none` when one of them is disabled. -/
def run : σ → List ι → Option σ
  | state, [] => some state
  | state, label :: rest => (M.step state label).bind fun next => run next rest

/-- The states which some run from an initial state ends in. -/
def Reachable (state : σ) : Prop :=
  ∃ start labels, M.Initial start ∧ M.run start labels = some state

/-- Every step of the run is taken from a state which meets `guard`. -/
def RunMeets (guard : σ → ι → Prop) : σ → List ι → Prop
  | _, [] => True
  | state, label :: rest =>
      guard state label ∧
        ∀ next, M.step state label = some next → RunMeets guard next rest

instance decidableRunMeets {guard : σ → ι → Prop}
    [∀ state label, Decidable (guard state label)] :
    ∀ (state : σ) (labels : List ι), Decidable (M.RunMeets guard state labels)
  | _, [] => .isTrue trivial
  | state, label :: rest =>
      have : Decidable (∀ next, M.step state label = some next →
          M.RunMeets guard next rest) :=
        match M.step state label with
        | none => .isTrue fun _ hstep => nomatch hstep
        | some next =>
            have : Decidable (M.RunMeets guard next rest) :=
              decidableRunMeets next rest
            decidable_of_iff (M.RunMeets guard next rest)
              ⟨fun hrest _ hstep => Option.some.inj hstep ▸ hrest,
                fun hall => hall next rfl⟩
      inferInstanceAs (Decidable (_ ∧ _))

@[simp] theorem run_nil (state : σ) : M.run state [] = some state := rfl

theorem run_cons_eq_some {state final : σ} {label : ι} {rest : List ι} :
    M.run state (label :: rest) = some final ↔
      ∃ next, M.step state label = some next ∧ M.run next rest = some final := by
  simp [run, Option.bind_eq_some_iff]

theorem run_append_eq_some {state final : σ} {front back : List ι} :
    M.run state (front ++ back) = some final ↔
      ∃ middle, M.run state front = some middle ∧ M.run middle back = some final := by
  induction front generalizing state with
  | nil => simp
  | cons label rest ih =>
      rw [List.cons_append, run_cons_eq_some]
      constructor
      · rintro ⟨next, hstep, hrest⟩
        obtain ⟨middle, hfront, hback⟩ := ih.mp hrest
        exact ⟨middle, M.run_cons_eq_some.mpr ⟨next, hstep, hfront⟩, hback⟩
      · rintro ⟨middle, hfront, hback⟩
        obtain ⟨next, hstep, hnext⟩ := M.run_cons_eq_some.mp hfront
        exact ⟨next, hstep, ih.mpr ⟨middle, hnext, hback⟩⟩

theorem reachable_of_initial {state : σ} (hinitial : M.Initial state) :
    M.Reachable state :=
  ⟨state, [], hinitial, rfl⟩

theorem Reachable.step {M : TransitionSystem σ ι} {state next : σ} {label : ι}
    (hreach : M.Reachable state) (hstep : M.step state label = some next) :
    M.Reachable next := by
  obtain ⟨start, labels, hinitial, hrun⟩ := hreach
  refine ⟨start, labels ++ [label], hinitial, ?_⟩
  exact M.run_append_eq_some.mpr
    ⟨state, hrun, M.run_cons_eq_some.mpr ⟨next, hstep, rfl⟩⟩

/-- A property kept by every guarded step is kept by every guarded run. -/
theorem run_invariant_of_runMeets {guard : σ → ι → Prop} {motive : σ → Prop}
    (hkeep : ∀ state label next, motive state → guard state label →
      M.step state label = some next → motive next)
    {state final : σ} {labels : List ι}
    (hgood : motive state) (hmeets : M.RunMeets guard state labels)
    (hrun : M.run state labels = some final) : motive final := by
  induction labels generalizing state with
  | nil =>
      simp only [run_nil, Option.some.injEq] at hrun
      exact hrun ▸ hgood
  | cons label rest ih =>
      obtain ⟨next, hstep, hrest⟩ := M.run_cons_eq_some.mp hrun
      exact ih (hkeep state label next hgood hmeets.1 hstep)
        (hmeets.2 next hstep) hrest

theorem runMeets_trivial (state : σ) (labels : List ι) :
    M.RunMeets (fun _ _ => True) state labels := by
  induction labels generalizing state with
  | nil => trivial
  | cons label rest ih => exact ⟨trivial, fun next _ => ih next⟩

/-- A guard on labels alone holds along a run when it holds of every label. -/
theorem runMeets_of_forall_mem {guard : ι → Prop} (state : σ) {labels : List ι}
    (hlabels : ∀ label ∈ labels, guard label) :
    M.RunMeets (fun _ label => guard label) state labels := by
  induction labels generalizing state with
  | nil => trivial
  | cons label rest ih =>
      refine ⟨hlabels label List.mem_cons_self, fun next _ => ?_⟩
      exact ih next fun other hmem => hlabels other (List.mem_cons_of_mem _ hmem)

theorem runMeets_cons_of_step {guard : σ → ι → Prop} {state next : σ} {label : ι}
    (hstep : M.step state label = some next) (rest : List ι) :
    M.RunMeets guard state (label :: rest) ↔
      guard state label ∧ M.RunMeets guard next rest :=
  and_congr_right fun _ =>
    ⟨fun hall => hall next hstep, fun hrest _ hother =>
      Option.some.inj (hstep.symm.trans hother) ▸ hrest⟩

theorem RunMeets.of_append {M : TransitionSystem σ ι} {guard : σ → ι → Prop}
    {state : σ} {front back : List ι} (hmeets : M.RunMeets guard state (front ++ back)) :
    M.RunMeets guard state front := by
  induction front generalizing state with
  | nil => trivial
  | cons label rest ih =>
      exact ⟨hmeets.1, fun next hstep => ih (hmeets.2 next hstep)⟩

theorem RunMeets.of_append_right {M : TransitionSystem σ ι} {guard : σ → ι → Prop}
    {state middle : σ} {front back : List ι} (hmeets : M.RunMeets guard state (front ++ back))
    (hrun : M.run state front = some middle) : M.RunMeets guard middle back := by
  induction front generalizing state with
  | nil =>
      simp only [run_nil, Option.some.injEq] at hrun
      exact hrun ▸ hmeets
  | cons label rest ih =>
      obtain ⟨next, hstep, hrest⟩ := M.run_cons_eq_some.mp hrun
      exact ih (hmeets.2 next hstep) hrest

/-- A guarded run goes on with a guarded step. -/
theorem RunMeets.append_singleton {M : TransitionSystem σ ι} {guard : σ → ι → Prop}
    {state middle : σ} {front : List ι} {label : ι} (hmeets : M.RunMeets guard state front)
    (hrun : M.run state front = some middle) (hguard : guard middle label) :
    M.RunMeets guard state (front ++ [label]) := by
  induction front generalizing state with
  | nil =>
      simp only [run_nil, Option.some.injEq] at hrun
      exact ⟨hrun ▸ hguard, fun next _ => trivial⟩
  | cons first rest ih =>
      obtain ⟨next, hstep, hrest⟩ := M.run_cons_eq_some.mp hrun
      refine ⟨hmeets.1, fun other hother => ?_⟩
      obtain rfl : next = other := Option.some.inj (hstep.symm.trans hother)
      exact ih (hmeets.2 next hstep) hrest

/-- A run is guarded, or it is guarded behind the last of its steps which are not. -/
theorem runMeets_or_last {guard : σ → ι → Prop} {state final : σ} {labels : List ι}
    (hrun : M.run state labels = some final) :
    M.RunMeets guard state labels ∨
      ∃ front label back before after, labels = front ++ label :: back ∧
        M.run state front = some before ∧ M.step before label = some after ∧
        ¬ guard before label ∧ M.RunMeets guard after back := by
  induction labels generalizing state with
  | nil => exact .inl trivial
  | cons label rest ih =>
      obtain ⟨next, hstep, hrest⟩ := M.run_cons_eq_some.mp hrun
      rcases ih hrest with
        hmeets | ⟨front, other, back, before, after, hsplit, hfront, hother, hnot, hmeets⟩
      · by_cases hguard : guard state label
        · exact .inl ((M.runMeets_cons_of_step hstep rest).mpr ⟨hguard, hmeets⟩)
        · exact .inr ⟨[], label, rest, state, next, rfl, rfl, hstep, hguard, hmeets⟩
      · refine .inr ⟨label :: front, other, back, before, after, by rw [hsplit]; rfl, ?_, hother,
          hnot, hmeets⟩
        exact M.run_cons_eq_some.mpr ⟨next, hstep, hfront⟩

/-- The property holds in every state which the run passes through. -/
def Always (motive : σ → Prop) (state : σ) (labels : List ι) : Prop :=
  ∀ front back middle, front ++ back = labels →
    M.run state front = some middle → motive middle

/-- What the steps of a run yield, in their order. -/
def collect {α : Type*} (yield : σ → ι → List α) : σ → List ι → List α
  | _, [] => []
  | state, label :: rest =>
      yield state label ++
        ((M.step state label).map fun next => collect yield next rest).getD []

theorem collect_cons_of_step {α : Type*} (yield : σ → ι → List α) {state next : σ}
    {label : ι} (hstep : M.step state label = some next) (rest : List ι) :
    M.collect yield state (label :: rest) =
      yield state label ++ M.collect yield next rest := by
  rw [collect, hstep, Option.map_some, Option.getD_some]

/-- A property which guarded steps keep and every other step loses holds
throughout a run if and only if all its steps are guarded; `motive` is the
invariant of the guarded steps. -/
theorem always_iff_runMeets {guard : σ → ι → Prop} {motive Holds : σ → Prop}
    (hholds : ∀ state, motive state → Holds state)
    (hkeep : ∀ state label next, motive state → guard state label →
      M.step state label = some next → motive next)
    (hlose : ∀ state label next, motive state → ¬ guard state label →
      M.step state label = some next → ¬ Holds next)
    {state final : σ} {labels : List ι} (hstart : motive state)
    (hrun : M.run state labels = some final) :
    M.Always Holds state labels ↔ M.RunMeets guard state labels := by
  constructor
  · intro halways
    induction labels generalizing state with
    | nil => trivial
    | cons label rest ih =>
        obtain ⟨next, hstep, hrest⟩ := M.run_cons_eq_some.mp hrun
        have hguard : guard state label := by
          by_contra hnot
          exact hlose state label next hstart hnot hstep
            (halways [label] rest next rfl (M.run_cons_eq_some.mpr ⟨next, hstep, rfl⟩))
        refine ⟨hguard, fun other hother => ?_⟩
        rw [hstep, Option.some.injEq] at hother
        subst hother
        apply ih (hkeep state label next hstart hguard hstep) hrest
        intro front back middle hlabels hfront
        exact halways (label :: front) back middle (by rw [List.cons_append, hlabels])
          (M.run_cons_eq_some.mpr ⟨next, hstep, hfront⟩)
  · intro hmeets front back middle hlabels hfront
    rw [← hlabels] at hmeets
    exact hholds middle (M.run_invariant_of_runMeets hkeep hstart hmeets.of_append hfront)

/-- A property kept by every step is kept by every run. -/
theorem run_invariant {motive : σ → Prop}
    (hkeep : ∀ state label next, motive state →
      M.step state label = some next → motive next)
    {state final : σ} {labels : List ι}
    (hgood : motive state) (hrun : M.run state labels = some final) :
    motive final :=
  M.run_invariant_of_runMeets
    (fun state label next hstate _ hstep => hkeep state label next hstate hstep)
    hgood (M.runMeets_trivial state labels) hrun

/-- An inductive invariant holds in every reachable state. -/
theorem Reachable.invariant {M : TransitionSystem σ ι} {motive : σ → Prop}
    (hinitial : ∀ state, M.Initial state → motive state)
    (hkeep : ∀ state label next, motive state →
      M.step state label = some next → motive next)
    {state : σ} (hreach : M.Reachable state) : motive state := by
  obtain ⟨start, labels, hstart, hrun⟩ := hreach
  exact M.run_invariant hkeep (hinitial start hstart) hrun

/-- What only steps of one kind can lose is there at the end of a run, or such a
step was taken while it was there. -/
theorem run_keeps_or_loses {motive : σ → Prop} {Loses : σ → ι → Prop}
    (hstep : ∀ state label next, motive state → M.step state label = some next →
      motive next ∨ Loses state label)
    {state final : σ} {labels : List ι}
    (hgood : motive state) (hrun : M.run state labels = some final) :
    motive final ∨ ∃ front label back holder, labels = front ++ label :: back ∧
      M.run state front = some holder ∧ motive holder ∧ Loses holder label := by
  induction labels generalizing state with
  | nil =>
      simp only [run_nil, Option.some.injEq] at hrun
      exact .inl (hrun ▸ hgood)
  | cons label rest ih =>
      obtain ⟨next, hnext, hrest⟩ := M.run_cons_eq_some.mp hrun
      rcases hstep state label next hgood hnext with hkept | hlost
      · rcases ih hkept hrest with hfinal | ⟨front, other, back, holder, hsplit, hfront, hheld⟩
        · exact .inl hfinal
        · refine .inr ⟨label :: front, other, back, holder, by rw [hsplit]; rfl, ?_, hheld⟩
          exact M.run_cons_eq_some.mpr ⟨next, hnext, hfront⟩
      · exact .inr ⟨[], label, rest, state, rfl, rfl, hgood, hlost⟩

/-- A preorder which every guarded step respects is respected by every
guarded run; `Good` is whatever invariant the step argument needs. -/
theorem run_rel_of_runMeets {guard : σ → ι → Prop} {Good : σ → Prop}
    (rel : σ → σ → Prop) (hrefl : ∀ state, rel state state)
    (htrans : ∀ a b c, rel a b → rel b c → rel a c)
    (hkeep : ∀ state label next, Good state →
      M.step state label = some next → Good next)
    (hrel : ∀ state label next, Good state → guard state label →
      M.step state label = some next → rel state next)
    {state final : σ} {labels : List ι}
    (hgood : Good state) (hmeets : M.RunMeets guard state labels)
    (hrun : M.run state labels = some final) : rel state final := by
  induction labels generalizing state with
  | nil =>
      simp only [run_nil, Option.some.injEq] at hrun
      exact hrun ▸ hrefl state
  | cons label rest ih =>
      obtain ⟨next, hstep, hrest⟩ := M.run_cons_eq_some.mp hrun
      exact htrans _ _ _ (hrel state label next hgood hmeets.1 hstep)
        (ih (hkeep state label next hgood hstep) (hmeets.2 next hstep) hrest)

/-- When every step lowers a measure, the measure of the first state bounds
the number of steps. -/
theorem run_length_le_measure {Good : σ → Prop} {measure : σ → ℕ}
    (hkeep : ∀ state label next, Good state →
      M.step state label = some next → Good next)
    (hdrop : ∀ state label next, Good state →
      M.step state label = some next → measure next < measure state)
    {state final : σ} {labels : List ι}
    (hgood : Good state) (hrun : M.run state labels = some final) :
    labels.length + measure final ≤ measure state := by
  induction labels generalizing state with
  | nil =>
      simp only [run_nil, Option.some.injEq] at hrun
      simp [hrun]
  | cons label rest ih =>
      obtain ⟨next, hstep, hrest⟩ := M.run_cons_eq_some.mp hrun
      have htail := ih (hkeep state label next hgood hstep) hrest
      have hhead := hdrop state label next hgood hstep
      simp only [List.length_cons]
      omega

/-- A system simulates another one when related states stay related under the
labels which correspond to each other. -/
theorem run_simulated {σ' ι' : Type*} {N : TransitionSystem σ' ι'}
    {R : σ → σ' → Prop} {view : ι → ι'}
    (hsimulates : ∀ state state' label next, R state state' →
      M.step state label = some next →
      ∃ next', N.step state' (view label) = some next' ∧ R next next')
    {state final : σ} {state' : σ'} {labels : List ι}
    (hrel : R state state') (hrun : M.run state labels = some final) :
    ∃ final', N.run state' (labels.map view) = some final' ∧ R final final' := by
  induction labels generalizing state state' with
  | nil =>
      simp only [run_nil, Option.some.injEq] at hrun
      exact ⟨state', rfl, hrun ▸ hrel⟩
  | cons label rest ih =>
      obtain ⟨next, hstep, hrest⟩ := M.run_cons_eq_some.mp hrun
      obtain ⟨next', hstep', hnext⟩ := hsimulates state state' label next hrel hstep
      obtain ⟨final', hrun', hfinal⟩ := ih hnext hrest
      exact ⟨final', N.run_cons_eq_some.mpr ⟨next', hstep', hrun'⟩, hfinal⟩

end TransitionSystem

end LibWake
