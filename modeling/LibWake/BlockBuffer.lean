import Mathlib.Algebra.Order.Group.Nat
import Mathlib.Data.List.Basic

/-!
# Input in blocks

A function which takes its input in blocks of one size keeps what does not fill a block yet.  Fed
one element at a time it is the plain reading of the input; fed in pieces of any length, with
whole blocks taken from the input directly, it ends in the same state.
-/

namespace LibWake
namespace BlockBuffer

/-- The state behind the whole blocks and what has not filled a block yet. -/
structure Buffer (σ α : Type*) where
  state : σ
  pending : List α

variable {σ α : Type*} {size : ℕ} {compress : σ → List α → σ}

def feedOne (size : ℕ) (compress : σ → List α → σ) (buffer : Buffer σ α) (a : α) : Buffer σ α :=
  if buffer.pending.length + 1 = size then ⟨compress buffer.state (buffer.pending ++ [a]), []⟩
  else ⟨buffer.state, buffer.pending ++ [a]⟩

def feed (size : ℕ) (compress : σ → List α → σ) (buffer : Buffer σ α) (xs : List α) :
    Buffer σ α :=
  xs.foldl (feedOne size compress) buffer

/-- The first blocks of the input, taken directly. -/
def absorb (size : ℕ) (compress : σ → List α → σ) : ℕ → σ → List α → σ
  | 0, state, _ => state
  | count + 1, state, xs =>
      absorb size compress count (compress state (xs.take size)) (xs.drop size)

/-- The blocks of the input; the last one may be short. -/
def blocks (size : ℕ) (xs : List α) : List (List α) :=
  (List.range ((xs.length + (size - 1)) / size)).map fun i => (xs.drop (size * i)).take size

@[simp] theorem feed_nil (buffer : Buffer σ α) : feed size compress buffer [] = buffer := rfl

theorem feed_append (buffer : Buffer σ α) (xs ys : List α) :
    feed size compress buffer (xs ++ ys) =
      feed size compress (feed size compress buffer xs) ys :=
  List.foldl_append ..

theorem feed_within {buffer : Buffer σ α} {xs : List α}
    (hlt : buffer.pending.length + xs.length < size) :
    feed size compress buffer xs = ⟨buffer.state, buffer.pending ++ xs⟩ := by
  induction xs generalizing buffer with
  | nil => rw [feed_nil, List.append_nil]
  | cons a rest ih =>
      rw [List.length_cons] at hlt
      have hopen : ¬ buffer.pending.length + 1 = size := by omega
      have hstep : feedOne size compress buffer a = ⟨buffer.state, buffer.pending ++ [a]⟩ :=
        if_neg hopen
      change feed size compress (feedOne size compress buffer a) rest = _
      rw [hstep, ih]
      · rw [List.append_assoc, List.singleton_append]
      · rw [List.length_append, List.length_singleton]
        omega

theorem feed_fills {buffer : Buffer σ α} {xs : List α}
    (heq : buffer.pending.length + xs.length = size) (hne : xs ≠ []) :
    feed size compress buffer xs = ⟨compress buffer.state (buffer.pending ++ xs), []⟩ := by
  obtain ⟨front, last, rfl⟩ := (List.eq_nil_or_concat' xs).resolve_left hne
  rw [List.length_append, List.length_singleton] at heq
  have hfront : buffer.pending.length + front.length < size := by omega
  have hfull : (buffer.pending ++ front).length + 1 = size := by
    rw [List.length_append]
    omega
  rw [feed_append, feed_within hfront]
  change feedOne size compress ⟨buffer.state, buffer.pending ++ front⟩ last = _
  rw [feedOne, if_pos hfull, List.append_assoc]

theorem feed_block (state : σ) {xs : List α} (hsize : 0 < size) (hle : size ≤ xs.length) :
    feed size compress ⟨state, []⟩ (xs.take size) = ⟨compress state (xs.take size), []⟩ := by
  have hlength : (xs.take size).length = size := List.length_take_of_le hle
  refine feed_fills ?_ ?_
  · rw [hlength]
    exact Nat.zero_add size
  · intro hnil
    rw [hnil, List.length_nil] at hlength
    omega

/-- Whole blocks may be taken from the input directly. -/
theorem feed_eq_absorb (hsize : 0 < size) (count : ℕ) (state : σ) {xs : List α}
    (hle : size * count ≤ xs.length) :
    feed size compress ⟨state, []⟩ xs =
      feed size compress ⟨absorb size compress count state xs, []⟩ (xs.drop (size * count)) := by
  induction count generalizing state xs with
  | zero => rfl
  | succ count ih =>
      have hmul : size * (count + 1) = size * count + size := Nat.mul_succ size count
      have hfirst : size ≤ xs.length := by omega
      have hrest : size * count ≤ (xs.drop size).length := by
        rw [List.length_drop]
        omega
      have hsplit : feed size compress ⟨state, []⟩ xs =
          feed size compress (feed size compress ⟨state, []⟩ (xs.take size)) (xs.drop size) := by
        rw [← feed_append, List.take_append_drop]
      rw [hsplit, feed_block state hsize hfirst, ih _ hrest, List.drop_drop, hmul,
        Nat.add_comm size]
      rfl

/-- What a buffer of whole blocks and a rest has become of. -/
theorem feed_from_empty (hsize : 0 < size) (state : σ) (xs : List α) :
    feed size compress ⟨state, []⟩ xs =
      ⟨absorb size compress (xs.length / size) state xs,
        xs.drop (size * (xs.length / size))⟩ := by
  have hle := Nat.mul_div_le xs.length size
  have hmod := Nat.mod_lt xs.length hsize
  have hsum := Nat.div_add_mod xs.length size
  rw [feed_eq_absorb hsize (xs.length / size) state hle]
  refine feed_within ?_
  rw [List.length_drop, List.length_nil]
  omega

theorem feed_pending_lt (hsize : 0 < size) {buffer : Buffer σ α}
    (hlt : buffer.pending.length < size) (xs : List α) :
    (feed size compress buffer xs).pending.length < size := by
  induction xs generalizing buffer with
  | nil => exact hlt
  | cons a rest ih =>
      change (feed size compress (feedOne size compress buffer a) rest).pending.length < size
      refine ih ?_
      unfold feedOne
      split_ifs with hfull
      · exact hsize
      · rw [List.length_append, List.length_singleton]
        omega

/-- First what fills the open block, then whole blocks, then the rest: the order in which an
implementation takes a piece of its input. -/
theorem feed_in_three {buffer : Buffer σ α}
    (hlt : buffer.pending.length < size) {xs : List α} {first : ℕ}
    (hfirst : first = min ((size - buffer.pending.length) % size) xs.length) :
    feed size compress buffer xs =
      if buffer.pending.length + first = size then
        feed size compress ⟨compress buffer.state (buffer.pending ++ xs.take first), []⟩
          (xs.drop first)
      else if xs.length ≤ first then ⟨buffer.state, buffer.pending ++ xs.take first⟩
      else feed size compress ⟨buffer.state, []⟩ (xs.drop first) := by
  have hsplit : feed size compress buffer xs =
      feed size compress (feed size compress buffer (xs.take first)) (xs.drop first) := by
    rw [← feed_append, List.take_append_drop]
  have hle : first ≤ xs.length := hfirst ▸ Nat.min_le_right _ _
  have htake : (xs.take first).length = first := List.length_take_of_le hle
  have hsmall : first ≤ (size - buffer.pending.length) % size := hfirst ▸ Nat.min_le_left _ _
  have hmod : (size - buffer.pending.length) % size =
      if buffer.pending.length = 0 then 0 else size - buffer.pending.length := by
    split_ifs with hzero
    · rw [hzero, Nat.sub_zero, Nat.mod_self]
    · exact Nat.mod_eq_of_lt (by omega)
  rw [hmod] at hsmall hfirst
  split_ifs with hfull hshort
  · have hne : xs.take first ≠ [] := by
      intro hnil
      rw [hnil, List.length_nil] at htake
      omega
    rw [hsplit, feed_fills (htake.symm ▸ hfull) hne]
  · have hopen : buffer.pending.length + (xs.take first).length < size := by
      rw [htake]
      split_ifs at hsmall <;> omega
    have hdrop : xs.drop first = [] := List.drop_of_length_le hshort
    rw [hsplit, feed_within hopen, hdrop, feed_nil]
  · split_ifs at hfirst with hzero
    · rw [Nat.zero_min] at hfirst
      have hempty : buffer.pending = [] := List.eq_nil_of_length_eq_zero hzero
      rw [hfirst, List.drop_zero, ← hempty]
    · omega

theorem absorb_eq_foldl (count : ℕ) (state : σ) (xs : List α) :
    absorb size compress count state xs =
      ((List.range count).map fun i => (xs.drop (size * i)).take size).foldl compress state := by
  induction count generalizing state xs with
  | zero => rfl
  | succ count ih =>
      have htail : ∀ i, ((xs.drop size).drop (size * i)).take size =
          (xs.drop (size * (i + 1))).take size := fun i => by
        rw [List.drop_drop, Nat.mul_succ, Nat.add_comm size]
      rw [absorb, ih, List.range_succ_eq_map, List.map_cons, List.foldl_cons, List.map_map,
        Nat.mul_zero, List.drop_zero]
      simp only [htail]
      rfl

/-- Taking the open block last is taking all the blocks in turn. -/
theorem foldl_blocks (hsize : 0 < size) (state : σ) (xs : List α) :
    (blocks size xs).foldl compress state =
      if (feed size compress ⟨state, []⟩ xs).pending = [] then
        (feed size compress ⟨state, []⟩ xs).state
      else compress (feed size compress ⟨state, []⟩ xs).state
        (feed size compress ⟨state, []⟩ xs).pending := by
  have hmod := Nat.mod_lt xs.length hsize
  have hsum := Nat.div_add_mod xs.length size
  have hcount : (xs.length + (size - 1)) / size =
      (xs.length % size + (size - 1)) / size + xs.length / size := by
    conv_lhs => rw [← hsum, Nat.add_assoc, Nat.mul_add_div hsize, Nat.add_comm]
  rw [feed_from_empty hsize, blocks, hcount]
  simp only [absorb_eq_foldl]
  split_ifs with hnil
  · have hzero : xs.length % size = 0 := by
      have hlength := congrArg List.length hnil
      rw [List.length_drop, List.length_nil] at hlength
      omega
    have hnone : (xs.length % size + (size - 1)) / size = 0 := by
      rw [hzero, Nat.zero_add]
      exact Nat.div_eq_of_lt (by omega)
    rw [hnone, Nat.zero_add]
  · have hpos : 0 < xs.length % size := by
      refine Nat.pos_of_ne_zero fun hzero => hnil ?_
      exact List.drop_of_length_le (by omega)
    have hone : (xs.length % size + (size - 1)) / size = 1 := by
      refine Nat.div_eq_of_lt_le ?_ ?_ <;> omega
    have hlast : (xs.drop (size * (xs.length / size))).take size =
        xs.drop (size * (xs.length / size)) := by
      refine List.take_of_length_le ?_
      rw [List.length_drop]
      omega
    rw [hone, Nat.add_comm 1, List.range_succ, List.map_append, List.foldl_append,
      List.map_singleton, List.foldl_cons, List.foldl_nil, hlast]

/-- Two functions which agree on whole blocks agree on what has been fed. -/
theorem feed_related {τ : Type*} {other : τ → List α → τ} {R : σ → τ → Prop}
    (hstep : ∀ s t block, R s t → block.length = size → R (compress s block) (other t block))
    {s : σ} {t : τ} (hrel : R s t) (pending xs : List α) :
    (feed size compress ⟨s, pending⟩ xs).pending = (feed size other ⟨t, pending⟩ xs).pending ∧
      R (feed size compress ⟨s, pending⟩ xs).state (feed size other ⟨t, pending⟩ xs).state := by
  induction xs generalizing s t pending with
  | nil => exact ⟨rfl, hrel⟩
  | cons a rest ih =>
      change (feed size compress (feedOne size compress ⟨s, pending⟩ a) rest).pending =
          (feed size other (feedOne size other ⟨t, pending⟩ a) rest).pending ∧
        R (feed size compress (feedOne size compress ⟨s, pending⟩ a) rest).state
          (feed size other (feedOne size other ⟨t, pending⟩ a) rest).state
      unfold feedOne
      simp only
      split_ifs with hfull
      · refine ih (hstep s t _ hrel ?_) []
        rw [List.length_append, List.length_singleton]
        exact hfull
      · exact ih hrel _

end BlockBuffer
end LibWake
