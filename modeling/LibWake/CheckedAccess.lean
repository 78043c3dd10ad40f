import Mathlib.Data.List.Basic
import Mathlib.Logic.Function.Basic

/-!
# Arrays with checked indices

An array is a total function together with its length.  The checked accesses
fail with a fault when the index is not below the length, so a computation
which uses no other access returns a value exactly when every index which it
computed was in range.
-/

namespace LibWake
namespace Checked

variable {ε α β σ : Type}

@[simp] theorem ok_bind (x : α) (f : α → Except ε β) :
    (Except.ok x >>= f) = f x := rfl

@[simp] theorem error_bind (fault : ε) (f : α → Except ε β) :
    (Except.error fault >>= f) = .error fault := rfl

@[simp] theorem pure_eq_ok (x : α) : (pure x : Except ε α) = .ok x := rfl

theorem bind_eq_ok {x : Except ε α} {f : α → Except ε β} {b : β} :
    (x >>= f) = .ok b ↔ ∃ a, x = .ok a ∧ f a = .ok b := by
  cases x with
  | error fault => simp
  | ok a => simp

/-- The computation does not fail with a fault of a kind. -/
def Avoids (bad : ε → Prop) (x : Except ε α) : Prop :=
  ∀ fault, x = .error fault → ¬ bad fault

namespace Avoids

variable {bad : ε → Prop}

theorem ok (a : α) : Avoids bad (.ok a) := by
  intro fault hfault
  contradiction

theorem error {fault : ε} (hgood : ¬ bad fault) :
    Avoids bad (.error fault : Except ε α) := by
  intro other hother
  simp only [Except.error.injEq] at hother
  rwa [← hother]

theorem bind {x : Except ε α} {f : α → Except ε β} (hx : Avoids bad x)
    (hf : ∀ a, x = .ok a → Avoids bad (f a)) : Avoids bad (x >>= f) := by
  cases x with
  | error fault => exact error (hx fault rfl)
  | ok a => exact hf a rfl

theorem foldlM {body : σ → β → Except ε σ} {motive : σ → Prop} {items : List β}
    (hbody : ∀ item ∈ items, ∀ state, motive state → Avoids bad (body state item))
    (hkeep : ∀ item ∈ items, ∀ state next, motive state →
      body state item = .ok next → motive next)
    {state : σ} (hgood : motive state) : Avoids bad (items.foldlM body state) := by
  induction items generalizing state with
  | nil => exact ok state
  | cons item rest ih =>
      rw [List.foldlM_cons]
      apply (hbody item List.mem_cons_self state hgood).bind
      intro next hnext
      exact ih (fun other hmem => hbody other (List.mem_cons_of_mem _ hmem))
        (fun other hmem => hkeep other (List.mem_cons_of_mem _ hmem))
        (hkeep item List.mem_cons_self state next hgood hnext)

end Avoids

/-- Read `array[idx]`. -/
def read (length : ℕ) (array : ℕ → α) (fault : ℕ → ε) (idx : ℕ) : Except ε α :=
  if idx < length then .ok (array idx) else .error (fault idx)

/-- Write `array[idx]`. -/
def write (length : ℕ) (array : ℕ → α) (fault : ℕ → ε) (idx : ℕ) (value : α) :
    Except ε (ℕ → α) :=
  if idx < length then .ok (Function.update array idx value)
  else .error (fault idx)

theorem read_of_lt {length : ℕ} {array : ℕ → α} {fault : ℕ → ε} {idx : ℕ}
    (hlt : idx < length) : read length array fault idx = .ok (array idx) :=
  if_pos hlt

theorem read_of_le {length : ℕ} {array : ℕ → α} {fault : ℕ → ε} {idx : ℕ}
    (hle : length ≤ idx) : read length array fault idx = .error (fault idx) :=
  if_neg (Nat.not_lt.mpr hle)

theorem write_of_lt {length : ℕ} {array : ℕ → α} {fault : ℕ → ε} {idx : ℕ}
    {value : α} (hlt : idx < length) :
    write length array fault idx value = .ok (Function.update array idx value) :=
  if_pos hlt

/-- The first index of a list whose element satisfies `p`; nothing behind it
is read. -/
def find (access : ℕ → Except ε α) (p : α → Bool) :
    List ℕ → Except ε (Option ℕ)
  | [] => .ok none
  | idx :: rest => do
      let x ← access idx
      if p x then return some idx
      find access p rest

theorem find_eq_ok {access : ℕ → Except ε α} (array : ℕ → α) {p : α → Bool}
    {indices : List ℕ}
    (haccess : ∀ idx ∈ indices, access idx = .ok (array idx)) :
    find access p indices = .ok (indices.find? fun idx => p (array idx)) := by
  induction indices with
  | nil => rfl
  | cons idx rest ih =>
      rw [find, haccess idx List.mem_cons_self, List.find?_cons]
      cases hp : p (array idx) with
      | true => simp [hp]
      | false =>
          simpa [hp] using
            ih fun other hmem => haccess other (List.mem_cons_of_mem _ hmem)

/-- A loop whose body never faults is a pure loop; `motive` is the invariant
under which the body does not fault. -/
theorem foldlM_eq_ok {body : σ → β → Except ε σ} {step : σ → β → σ}
    {motive : σ → Prop} {items : List β}
    (hbody : ∀ item ∈ items, ∀ state, motive state →
      body state item = .ok (step state item))
    (hkeep : ∀ item ∈ items, ∀ state, motive state → motive (step state item))
    {state : σ} (hgood : motive state) :
    items.foldlM body state = .ok (items.foldl step state) := by
  induction items generalizing state with
  | nil => rfl
  | cons item rest ih =>
      rw [List.foldlM_cons, hbody item List.mem_cons_self state hgood,
        List.foldl_cons]
      exact ih (fun other hmem => hbody other (List.mem_cons_of_mem _ hmem))
        (fun other hmem => hkeep other (List.mem_cons_of_mem _ hmem))
        (hkeep item List.mem_cons_self state hgood)

end Checked
end LibWake
