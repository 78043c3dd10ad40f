import Mathlib.Data.Vector.Basic
import LibWake.CheckedAccess

/-!
# Byte buffers with checked offsets

Copies out of and into a buffer fail with a fault at the first offset which is
not below its length.  Consecutive writes are one write, and what a buffer
holds at an offset is what a copy from there returns.
-/

namespace LibWake
namespace ByteBuffer

open Checked

variable {ε : Type} (fault : ℕ → ε)

/-- Read one byte. -/
def readByte (buf : List UInt8) (off : ℕ) : Except ε UInt8 :=
  match buf[off]? with
  | some byte => .ok byte
  | none => .error (fault off)

/-- Copy `n` bytes out of the buffer. -/
def readBytes (buf : List UInt8) (off n : ℕ) : Except ε (List.Vector UInt8 n) :=
  if hroom : off + n ≤ buf.length then
    .ok ⟨(buf.drop off).take n, by
      rw [List.length_take, List.length_drop]
      omega⟩
  else .error (fault (max off buf.length))

/-- Copy bytes into the buffer. -/
def writeBytes (buf : List UInt8) (off : ℕ) (bytes : List UInt8) :
    Except ε (List UInt8) :=
  if off + bytes.length ≤ buf.length then
    .ok (buf.take off ++ bytes ++ buf.drop (off + bytes.length))
  else .error (fault (max off buf.length))

/-- The buffer holds these bytes at this offset. -/
def HoldsAt (buf : List UInt8) (off : ℕ) (bytes : List UInt8) : Prop :=
  ∃ back, buf.drop off = bytes ++ back

/-! ## Reading -/

variable {fault} {buf : List UInt8} {off : ℕ}

theorem holdsAt_append {front back : List UInt8} :
    HoldsAt buf off (front ++ back) ↔
      HoldsAt buf off front ∧ HoldsAt buf (off + front.length) back := by
  constructor
  · rintro ⟨rest, hrest⟩
    refine ⟨⟨back ++ rest, by rw [hrest, List.append_assoc]⟩, rest, ?_⟩
    rw [← List.drop_drop, hrest, List.append_assoc, List.drop_left]
  · rintro ⟨⟨rest, hrest⟩, tail, htail⟩
    rw [← List.drop_drop, hrest, List.drop_left] at htail
    exact ⟨tail, by rw [hrest, htail, List.append_assoc]⟩

theorem holdsAt_cons {byte : UInt8} {rest : List UInt8} :
    HoldsAt buf off (byte :: rest) ↔
      HoldsAt buf off [byte] ∧ HoldsAt buf (off + 1) rest := by
  rw [← List.singleton_append, holdsAt_append, List.length_singleton]

theorem holdsAt_zero (bytes back : List UInt8) : HoldsAt (bytes ++ back) 0 bytes :=
  ⟨back, rfl⟩

theorem HoldsAt.room {bytes : List UInt8} (hholds : HoldsAt buf off bytes)
    (hoff : off ≤ buf.length) : off + bytes.length ≤ buf.length := by
  obtain ⟨back, hback⟩ := hholds
  have hlength := congrArg List.length hback
  rw [List.length_drop, List.length_append] at hlength
  omega

theorem readByte_of_holdsAt {byte : UInt8} (hholds : HoldsAt buf off [byte]) :
    readByte fault buf off = .ok byte := by
  obtain ⟨back, hback⟩ := hholds
  have hget : buf[off]? = some byte := by
    have hhead := congrArg (fun rest => rest[0]?) hback
    simpa using hhead
  rw [readByte, hget]

theorem readBytes_of_holdsAt {n : ℕ} {bytes : List.Vector UInt8 n}
    (hholds : HoldsAt buf off bytes.toList) (hoff : off ≤ buf.length) :
    readBytes fault buf off n = .ok bytes := by
  have hroom := hholds.room hoff
  rw [List.Vector.toList_length] at hroom
  obtain ⟨back, hback⟩ := hholds
  rw [readBytes, dif_pos hroom]
  congr 1
  apply List.Vector.eq
  change (buf.drop off).take n = bytes.toList
  rw [hback]
  exact List.take_left' bytes.toList_length

/-! ## Writing -/

theorem writeBytes_writeBytes (front back : List UInt8) {next : ℕ}
    (hnext : next = off + front.length) :
    (writeBytes fault buf off front >>= fun out => writeBytes fault out next back) =
      writeBytes fault buf off (front ++ back) := by
  subst hnext
  unfold writeBytes
  by_cases hfront : off + front.length ≤ buf.length
  · have hlength : (buf.take off ++ front ++
        buf.drop (off + front.length)).length = buf.length := by
      simp only [List.length_append, List.length_take, List.length_drop]
      omega
    have hwritten : (buf.take off ++ front).length = off + front.length := by
      rw [List.length_append, List.length_take, Nat.min_eq_left (by omega)]
    rw [if_pos hfront, ok_bind, hlength, List.length_append, ← Nat.add_assoc]
    by_cases hback : off + front.length + back.length ≤ buf.length
    · rw [if_pos hback, if_pos hback]
      congr 1
      rw [← hwritten, List.take_left, List.drop_append, List.drop_eq_nil_of_le
        (by omega), List.nil_append, hwritten, List.drop_drop]
      simp [List.append_assoc, Nat.add_assoc]
    · rw [if_neg hback, if_neg hback]
      congr 2
      omega
  · have hboth : ¬ off + (front ++ back).length ≤ buf.length := by
      rw [List.length_append]
      omega
    rw [if_neg hfront, error_bind, if_neg hboth]

theorem writeBytes_bind {α : Type} (front back : List UInt8) {next : ℕ}
    (hnext : next = off + front.length) (rest : List UInt8 → Except ε α) :
    (writeBytes fault buf off front >>= fun out =>
        writeBytes fault out next back >>= rest) =
      writeBytes fault buf off (front ++ back) >>= rest := by
  rw [← writeBytes_writeBytes _ _ hnext]
  cases writeBytes fault buf off front <;> rfl

theorem writeBytes_append {front back bytes : List UInt8} (hoff : off = front.length)
    (hroom : bytes.length ≤ back.length) :
    ∃ rest, rest.length = back.length - bytes.length ∧
      writeBytes fault (front ++ back) off bytes = .ok (front ++ bytes ++ rest) := by
  refine ⟨back.drop bytes.length, List.length_drop, ?_⟩
  have hfits : front.length + bytes.length ≤ (front ++ back).length := by
    rw [List.length_append]
    omega
  rw [hoff, writeBytes, if_pos hfits, List.take_left, List.drop_append,
    List.drop_eq_nil_of_le (Nat.le_add_right _ _), Nat.add_sub_cancel_left,
    List.nil_append]

/-! ## Overlays -/

/-- The buffer with its first bytes replaced. -/
def overlay (buf bytes : List UInt8) : List UInt8 := bytes ++ buf.drop bytes.length

theorem overlay_length {bytes : List UInt8} (hroom : bytes.length ≤ buf.length) :
    (overlay buf bytes).length = buf.length := by
  rw [overlay, List.length_append, List.length_drop]
  omega

@[simp] theorem overlay_nil (buf : List UInt8) : overlay buf [] = buf := rfl

/-- A write behind the replaced bytes, or over the last of them, replaces more. -/
theorem writeBytes_overlay {front old more : List UInt8} (hoff : off = front.length)
    (hold : old.length ≤ more.length) (hroom : front.length + more.length ≤ buf.length) :
    writeBytes fault (overlay buf (front ++ old)) off more =
      .ok (overlay buf (front ++ more)) := by
  subst hoff
  have hlength : (overlay buf (front ++ old)).length = buf.length :=
    overlay_length (by rw [List.length_append]; omega)
  rw [writeBytes, hlength, if_pos hroom]
  congr 1
  have htake : (overlay buf (front ++ old)).take front.length = front := by
    rw [overlay, List.append_assoc, List.take_left]
  have hdrop : (overlay buf (front ++ old)).drop (front.length + more.length) =
      buf.drop (front.length + more.length) := by
    have hback : front.length + more.length =
        (front ++ old).length + (more.length - old.length) := by
      rw [List.length_append]
      omega
    rw [overlay, hback, List.drop_append, List.drop_eq_nil_of_le (Nat.le_add_right _ _),
      List.nil_append, Nat.add_sub_cancel_left, List.drop_drop]
  rw [htake, hdrop, overlay, List.length_append]

end ByteBuffer
end LibWake
