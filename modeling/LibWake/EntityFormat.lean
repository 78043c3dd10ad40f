import LibWake.ByteBuffer
import LibWake.EntityForms

/-!
# Entities as text

`wake_entity_format` over a buffer whose length is the `bufsz` argument, with every byte access
checked.  `snprintf` writes what fits and returns the length of the whole text, so a value which
it prints is reported with a length which may be beyond the buffer.

The text which `inet_ntop` makes of an IPv6 address is a parameter, `none` where it fails.
-/

namespace LibWake
namespace Entities

open ByteBuffer Checked

/-! ## Text -/

/-- A read beyond an array, or a write beyond the buffer. -/
inductive Fault where
  | read (off : ℕ)
  | write (off : ℕ)
  deriving DecidableEq, Repr

/-- The bytes of a string literal. -/
def text (s : String) : List UInt8 := s.toList.map fun c => UInt8.ofNat c.toNat

/-- The conversion `%u`, and `%llu`. -/
def decimal (n : ℕ) : List UInt8 := (Nat.toDigits 10 n).map fun c => UInt8.ofNat c.toNat

/-- `wake_eclass_name`. -/
def eclassName (ec : UInt8) : List UInt8 :=
  if ec = 0 then text "WHO"
  else if ec = 1 then text "WHOM"
  else if ec = 2 then text "WITH"
  else text "UNKNOWN_CLASS"

/-- `wake_etype_name`. -/
def etypeName (et : UInt8) : List UInt8 :=
  if et = 0x10 then text "IPV4"
  else if et = 0x11 then text "IPV6"
  else if et = 0x20 then text "USER"
  else if et = 0x21 then text "MACHINE"
  else if et = 0x22 then text "EMAIL"
  else if et = 0x30 then text "DOMAIN"
  else if et = 0x31 then text "SERVICE"
  else if et = 0x32 then text "PATH"
  else if et = 0x33 then text "URL"
  else if et = 0x40 then text "HASH_MD5"
  else if et = 0x41 then text "HASH_SHA1"
  else if et = 0x42 then text "HASH_SHA256"
  else if et = 0x50 then text "PORT"
  else if et = 0x51 then text "PROTO"
  else if et = 0x52 then text "SIZE"
  else if et = 0x53 then text "SIG_ID"
  else text "UNKNOWN_TYPE"

/-! ## Formatters

Each writes at an offset into the rest of the buffer, and returns the buffer and its result. -/

abbrev Formatted := Except Fault (List UInt8 × ℤ)

def put (buf : List UInt8) (off : ℕ) (bytes : List UInt8) : Except Fault (List UInt8) :=
  writeBytes .write buf off bytes

/-- `snprintf` of a text into `size` bytes. -/
def snprintf (buf : List UInt8) (off size : ℕ) (printed : List UInt8) : Formatted :=
  if size = 0 then return (buf, printed.length)
  else do
    let buf ← put buf off (printed.take (size - 1) ++ [0])
    return (buf, printed.length)

/-- `hex[n]`. -/
def hexDigit (n : UInt8) : UInt8 := (text "0123456789abcdef").getD n.toNat 0

/-- The loop of `format_hex` with `n` bytes of the value left, from byte `i`. -/
def hexLoop (value : List UInt8) (off bufsz : ℕ) :
    ℕ → ℕ → ℕ → List UInt8 → Except Fault (List UInt8 × ℕ)
  | 0, _, out, buf => return (buf, out)
  | n + 1, i, out, buf =>
      if out + 2 < bufsz then do
        let byte ← readByte .read value i
        let buf ← put buf (off + out) [hexDigit (byte >>> 4)]
        let buf ← put buf (off + out + 1) [hexDigit (byte &&& 0x0f)]
        hexLoop value off bufsz n (i + 1) (out + 2) buf
      else return (buf, out)

/-- `format_hex`. -/
def formatHex (value : List UInt8) (len : ℕ) (buf : List UInt8) (off bufsz : ℕ) : Formatted :=
  if bufsz = 0 then return (buf, len * 2)
  else do
    let (buf, out) ← hexLoop value off bufsz len 0 0 buf
    let buf ← put buf (off + out) [0]
    return (buf, out)

/-- `format_string`. -/
def formatString (value : List UInt8) (len : ℕ) (buf : List UInt8) (off bufsz : ℕ) :
    Formatted :=
  if bufsz = 0 then return (buf, len)
  else do
    let n := if len < bufsz - 1 then len else bufsz - 1
    let bytes ← readBytes .read value 0 n
    let buf ← put buf off bytes.toList
    let buf ← put buf (off + n) [0]
    return (buf, n)

/-- The text which `format_ipv4` prints. -/
def ipv4Text (value : Vector UInt8 valueMax) : List UInt8 :=
  decimal value[0].toNat ++ text "." ++ decimal value[1].toNat ++ text "." ++
    decimal value[2].toNat ++ text "." ++ decimal value[3].toNat

/-- The number which `format_uint16`, `format_uint32` and `format_uint64` print, in the byte
order of a little-endian host. -/
def uintText (value : Vector UInt8 valueMax) (size : ℕ) : List UInt8 :=
  decimal (leNat (value.toList.take size))

section Format

variable (inetNtop : List UInt8 → Option (List UInt8))

/-- The text which `format_ipv6` prints. -/
def ipv6Text (value : Vector UInt8 valueMax) : List UInt8 :=
  (inetNtop (value.toList.take 16)).getD (text "<invalid-ipv6>")

/-- The value of an entity which is not hashed. -/
def formatPlain (e : Entity) (buf : List UInt8) (off bufsz : ℕ) : Formatted :=
  if e.etype = 0x10 then snprintf buf off bufsz (ipv4Text e.value)
  else if e.etype = 0x11 then snprintf buf off bufsz (ipv6Text inetNtop e.value)
  else if e.etype = 0x20 ∨ e.etype = 0x21 ∨ e.etype = 0x22 ∨ e.etype = 0x30 ∨
      e.etype = 0x31 ∨ e.etype = 0x32 ∨ e.etype = 0x33 then
    formatString e.value.toList e.valueLen.toNat buf off bufsz
  else if e.etype = 0x40 ∨ e.etype = 0x41 ∨ e.etype = 0x42 then
    formatHex e.value.toList e.valueLen.toNat buf off bufsz
  else if e.etype = 0x50 then snprintf buf off bufsz (uintText e.value 2)
  else if e.etype = 0x51 then snprintf buf off bufsz (decimal e.value[0].toNat)
  else if e.etype = 0x52 then snprintf buf off bufsz (uintText e.value 8)
  else if e.etype = 0x53 then snprintf buf off bufsz (uintText e.value 4)
  else formatHex e.value.toList e.valueLen.toNat buf off bufsz

/-- The value of a hashed entity. -/
def formatHashed (e : Entity) (buf : List UInt8) (off bufsz : ℕ) : Formatted := do
  let (buf, vlen) ← snprintf buf off bufsz (text "H:")
  if vlen > 0 ∧ vlen.toNat < bufsz then do
    let (buf, hexLen) ←
      formatHex e.value.toList e.valueLen.toNat buf (off + vlen.toNat) (bufsz - vlen.toNat)
    return (buf, vlen + hexLen)
  else return (buf, vlen)

/-- The class and the type with their colons. -/
def prefixText (e : Entity) : List UInt8 :=
  eclassName e.eclass ++ text ":" ++ etypeName e.etype ++ text ":"

/-- `wake_entity_format`. -/
def format (e : Entity) (buf : List UInt8) : Formatted :=
  if buf.length = 0 then return (buf, -1)
  else do
    let (buf, off) ← snprintf buf 0 buf.length (prefixText e)
    if off < 0 ∨ off.toNat ≥ buf.length then do
      let buf ← put buf (buf.length - 1) [0]
      return (buf, -1)
    else do
      let (buf, vlen) ←
        if e.flags &&& flagHashed ≠ 0 then
          formatHashed e buf off.toNat (buf.length - off.toNat)
        else formatPlain inetNtop e buf off.toNat (buf.length - off.toNat)
      if vlen < 0 then return (buf, -1)
      else return (buf, off + vlen)

end Format

example : format (fun _ => none) (initPort 1 443) (List.replicate 32 1) =
    .ok (text "WHOM:PORT:443" ++ [0] ++ List.replicate 18 1, 13) := by
  decide

/-! ## What the formatters write -/

variable {buf front old : List UInt8} {off bufsz : ℕ}

theorem put_overlay (buf front old more : List UInt8) (hoff : off = front.length)
    (hold : old.length ≤ more.length) (hroom : front.length + more.length ≤ buf.length) :
    put (overlay buf (front ++ old)) off more = .ok (overlay buf (front ++ more)) :=
  writeBytes_overlay hoff hold hroom

/-- `snprintf` writes the front of the text which fits, and the NUL. -/
theorem snprintf_overlay (hold : old.length ≤ 1) (hroom : front.length < buf.length)
    (printed : List UInt8) :
    snprintf (overlay buf (front ++ old)) front.length (buf.length - front.length) printed =
      .ok (overlay buf (front ++ (printed.take (buf.length - front.length - 1) ++ [0])),
        printed.length) := by
  have hsize : buf.length - front.length ≠ 0 := by omega
  rw [snprintf, if_neg hsize, put_overlay _ _ _ _ rfl, ok_bind, pure_eq_ok]
  · rw [List.length_append, List.length_singleton]
    omega
  · rw [List.length_append, List.length_singleton, List.length_take]
    omega

/-- The formatter appends a text and its NUL, and returns the length of the text. -/
def Appends (buf front : List UInt8) (result : Formatted) : Prop :=
  ∃ more, result = .ok (overlay buf (front ++ (more ++ [0])), more.length) ∧
    (front ++ more).length < buf.length

theorem hexLoop_overlay (value : List UInt8) (n i out : ℕ) (buf front old : List UInt8)
    (hvalue : i + n ≤ value.length) (hold : old.length ≤ 1) (hfront : front.length = off + out)
    (hroom : off + bufsz = buf.length) (hout : out < bufsz) :
    ∃ hexes old', old'.length ≤ 1 ∧ out + hexes.length < bufsz ∧
      hexLoop value off bufsz n i out (overlay buf (front ++ old)) =
        .ok (overlay buf (front ++ hexes ++ old'), out + hexes.length) := by
  induction n generalizing i out front old with
  | zero => exact ⟨[], old, hold, hout, by simp [hexLoop]⟩
  | succ n ih =>
      rw [hexLoop]
      by_cases hfits : out + 2 < bufsz
      · have hbyte : readByte Fault.read value i = .ok value[i] := by
          rw [readByte, List.getElem?_eq_getElem (by omega)]
        have hfirst := put_overlay buf front old [hexDigit (value[i] >>> 4)] hfront.symm
          (show old.length ≤ 1 from hold) (show front.length + 1 ≤ buf.length by omega)
        have hsecond := put_overlay buf (front ++ [hexDigit (value[i] >>> 4)]) []
          [hexDigit (value[i] &&& 0x0f)]
          (show off + out + 1 = _ by rw [List.length_append, hfront]; rfl) (Nat.zero_le _)
          (by rw [List.length_append, List.length_singleton, List.length_singleton]; omega)
        rw [List.append_nil] at hsecond
        have hpair := ih (i + 1) (out + 2)
          (front ++ [hexDigit (value[i] >>> 4)] ++ [hexDigit (value[i] &&& 0x0f)]) []
          (by omega) (Nat.zero_le _)
          (by simp only [List.length_append, List.length_singleton]; omega) hfits
        obtain ⟨hexes, old', hold', hlength, hloop⟩ := hpair
        refine ⟨hexDigit (value[i] >>> 4) :: hexDigit (value[i] &&& 0x0f) :: hexes, old', hold',
          ?_, ?_⟩
        · simp only [List.length_cons]
          omega
        · rw [List.append_nil] at hloop
          rw [if_pos hfits, hbyte, ok_bind, hfirst, ok_bind, hsecond, ok_bind, hloop]
          simp only [List.append_assoc, List.cons_append, List.nil_append, List.length_cons]
          congr 2
          omega
      · rw [if_neg hfits]
        exact ⟨[], old, hold, hout, by simp⟩

theorem formatHex_appends (buf front old : List UInt8) {value : List UInt8} {len : ℕ}
    (hvalue : len ≤ value.length)
    (hold : old.length ≤ 1) (hroom : front.length < buf.length) :
    Appends buf front (formatHex value len (overlay buf (front ++ old)) front.length
      (buf.length - front.length)) := by
  have hsize : buf.length - front.length ≠ 0 := by omega
  obtain ⟨hexes, old', hold', hlength, hloop⟩ := hexLoop_overlay value len 0 0 buf front old
    (by omega) hold (Nat.add_zero front.length).symm
    (show front.length + (buf.length - front.length) = buf.length by omega) (by omega)
  rw [Nat.zero_add] at hlength hloop
  have hput := put_overlay buf (front ++ hexes) old' [0] List.length_append.symm hold'
    (by rw [List.length_append, List.length_singleton]; omega)
  refine ⟨hexes, ?_, by rw [List.length_append]; omega⟩
  rw [formatHex, if_neg hsize, hloop, ok_bind]
  simp only
  rw [hput, ok_bind, pure_eq_ok, List.append_assoc]

theorem formatString_appends {value : List UInt8} {len : ℕ} (hvalue : len ≤ value.length)
    (hold : old.length ≤ 1) (hroom : front.length < buf.length) :
    Appends buf front (formatString value len (overlay buf (front ++ old)) front.length
      (buf.length - front.length)) := by
  have hsize : buf.length - front.length ≠ 0 := by omega
  rw [formatString, if_neg hsize]
  simp only
  generalize hn : (if len < buf.length - front.length - 1 then len
    else buf.length - front.length - 1) = n
  have hle : n ≤ len ∧ front.length + n < buf.length := by
    rw [← hn]
    split_ifs
    · omega
    · omega
  obtain ⟨bytes, hread⟩ : ∃ bytes, readBytes Fault.read value 0 n = .ok bytes :=
    ⟨_, dif_pos (by omega)⟩
  have hlength : bytes.toList.length = n := bytes.toList_length
  have hput := put_overlay buf front old (bytes.toList ++ [0]) rfl
    (by rw [List.length_append, List.length_singleton]; omega)
    (by rw [List.length_append, List.length_singleton]; omega)
  refine ⟨bytes.toList, ?_, by rw [List.length_append]; omega⟩
  rw [hread, ok_bind]
  unfold put at hput ⊢
  rw [writeBytes_bind _ _ (by rw [hlength]), hput, ok_bind, pure_eq_ok, hlength]

/-! ## The value of an entity -/

/-- The text which `snprintf` prints for the value, if it prints one. -/
def printedText (inetNtop : List UInt8 → Option (List UInt8)) (e : Entity) :
    Option (List UInt8) :=
  if e.flags &&& flagHashed ≠ 0 then some (text "H:")
  else if e.etype = 0x10 then some (ipv4Text e.value)
  else if e.etype = 0x11 then some (ipv6Text inetNtop e.value)
  else if e.etype = 0x50 then some (uintText e.value 2)
  else if e.etype = 0x51 then some (decimal e.value[0].toNat)
  else if e.etype = 0x52 then some (uintText e.value 8)
  else if e.etype = 0x53 then some (uintText e.value 4)
  else none

/-- What is printed for the value is too long for the buffer. -/
def Truncated (inetNtop : List UInt8 → Option (List UInt8)) (e : Entity)
    (buf front : List UInt8) : Prop :=
  ∃ printed, printedText inetNtop e = some printed ∧
    buf.length ≤ front.length + printed.length

/-- The value is written behind the front and a NUL behind it; the result is its length, or one
which is beyond the buffer if what is printed is too long. -/
def WritesValue (inetNtop : List UInt8 → Option (List UInt8)) (e : Entity)
    (buf front : List UInt8) (result : Formatted) : Prop :=
  ∃ more : List UInt8, ∃ vlen : ℕ,
    result = .ok (overlay buf (front ++ (more ++ [0])), vlen) ∧
    (front ++ more).length < buf.length ∧
    (¬ Truncated inetNtop e buf front → vlen = more.length) ∧
    (Truncated inetNtop e buf front → buf.length ≤ front.length + vlen)

variable {inetNtop : List UInt8 → Option (List UInt8)} {e : Entity}

theorem Appends.writesValue {result : Formatted} (happends : Appends buf front result)
    (hfits : ¬ Truncated inetNtop e buf front) : WritesValue inetNtop e buf front result := by
  obtain ⟨more, hresult, hroom⟩ := happends
  exact ⟨more, more.length, hresult, hroom, fun _ => rfl, fun hlong => absurd hlong hfits⟩

theorem snprintf_writesValue {printed : List UInt8}
    (hprinted : printedText inetNtop e = some printed) (hold : old.length ≤ 1)
    (hroom : front.length < buf.length) :
    WritesValue inetNtop e buf front (snprintf (overlay buf (front ++ old)) front.length
      (buf.length - front.length) printed) := by
  refine ⟨_, _, snprintf_overlay hold hroom printed, ?_, fun hfits => ?_, ?_⟩
  · rw [List.length_append, List.length_take]
    omega
  · have hshort : printed.length < buf.length - front.length := by
      by_contra hlong
      exact hfits ⟨printed, hprinted, by omega⟩
    rw [List.length_take]
    omega
  · rintro ⟨other, hother, hlong⟩
    obtain rfl := Option.some.inj (hprinted.symm.trans hother)
    exact hlong

theorem formatHex_writesValue (hplain : printedText inetNtop e = none)
    (hlen : e.valueLen.toNat ≤ valueMax) (hold : old.length ≤ 1)
    (hroom : front.length < buf.length) :
    WritesValue inetNtop e buf front (formatHex e.value.toList e.valueLen.toNat
      (overlay buf (front ++ old)) front.length (buf.length - front.length)) := by
  refine (formatHex_appends _ _ _ (by rwa [Vector.length_toList]) hold hroom).writesValue ?_
  rintro ⟨printed, hprinted, -⟩
  rw [hplain] at hprinted
  cases hprinted

theorem formatString_writesValue (hplain : printedText inetNtop e = none)
    (hlen : e.valueLen.toNat ≤ valueMax) (hold : old.length ≤ 1)
    (hroom : front.length < buf.length) :
    WritesValue inetNtop e buf front (formatString e.value.toList e.valueLen.toNat
      (overlay buf (front ++ old)) front.length (buf.length - front.length)) := by
  refine (formatString_appends (by rwa [Vector.length_toList]) hold hroom).writesValue ?_
  rintro ⟨printed, hprinted, -⟩
  rw [hplain] at hprinted
  cases hprinted

theorem formatPlain_writesValue (hflag : ¬ e.flags &&& flagHashed ≠ 0)
    (hlen : e.valueLen.toNat ≤ valueMax) (hold : old.length ≤ 1)
    (hroom : front.length < buf.length) :
    WritesValue inetNtop e buf front (formatPlain inetNtop e (overlay buf (front ++ old))
      front.length (buf.length - front.length)) := by
  unfold formatPlain
  split_ifs with hipv4 hipv6 hstring hhash hport hproto hsize hsigId
  · exact snprintf_writesValue (by rw [printedText, if_neg hflag, if_pos hipv4]) hold hroom
  · exact snprintf_writesValue (by rw [printedText, if_neg hflag, if_neg hipv4, if_pos hipv6])
      hold hroom
  · refine formatString_writesValue ?_ hlen hold hroom
    rw [printedText, if_neg hflag]
    rcases hstring with htype | htype | htype | htype | htype | htype | htype
    all_goals
      rw [htype]
      rfl
  · refine formatHex_writesValue ?_ hlen hold hroom
    rw [printedText, if_neg hflag]
    rcases hhash with htype | htype | htype
    all_goals
      rw [htype]
      rfl
  · exact snprintf_writesValue (by
      rw [printedText, if_neg hflag, if_neg hipv4, if_neg hipv6, if_pos hport]) hold hroom
  · exact snprintf_writesValue (by
      rw [printedText, if_neg hflag, if_neg hipv4, if_neg hipv6, if_neg hport, if_pos hproto])
      hold hroom
  · exact snprintf_writesValue (by
      rw [printedText, if_neg hflag, if_neg hipv4, if_neg hipv6, if_neg hport, if_neg hproto,
        if_pos hsize]) hold hroom
  · exact snprintf_writesValue (by
      rw [printedText, if_neg hflag, if_neg hipv4, if_neg hipv6, if_neg hport, if_neg hproto,
        if_neg hsize, if_pos hsigId]) hold hroom
  · exact formatHex_writesValue (by
      rw [printedText, if_neg hflag, if_neg hipv4, if_neg hipv6, if_neg hport, if_neg hproto,
        if_neg hsize, if_neg hsigId]) hlen hold hroom

theorem formatHashed_writesValue (hflag : e.flags &&& flagHashed ≠ 0)
    (hlen : e.valueLen.toNat ≤ valueMax) (hold : old.length ≤ 1)
    (hroom : front.length < buf.length) :
    WritesValue inetNtop e buf front (formatHashed e (overlay buf (front ++ old))
      front.length (buf.length - front.length)) := by
  have hprinted : printedText inetNtop e = some (text "H:") := if_pos hflag
  have hmark := snprintf_overlay hold hroom (text "H:")
  have htwo : (text "H:").length = 2 := rfl
  rw [formatHashed, hmark, ok_bind, htwo]
  simp only
  by_cases hfits : front.length + 2 < buf.length
  · -- the mark fits, and the value is appended behind it
    have hwhole : (text "H:").take (buf.length - front.length - 1) = text "H:" :=
      List.take_of_length_le (by omega)
    obtain ⟨hexes, hhex, hlength⟩ := formatHex_appends buf
      (front ++ text "H:") [0]
      (show e.valueLen.toNat ≤ e.value.toList.length by rwa [Vector.length_toList]) le_rfl
      (by rw [List.length_append, htwo]; exact hfits)
    rw [List.length_append, htwo, ← Nat.sub_sub] at hhex
    have hcond : ((2 : ℕ) : ℤ) > 0 ∧ ((2 : ℕ) : ℤ).toNat < buf.length - front.length :=
      ⟨by decide, by omega⟩
    rw [hwhole, if_pos hcond, ← List.append_assoc]
    refine ⟨text "H:" ++ hexes, (text "H:" ++ hexes).length, ?_, ?_, fun _ => rfl, ?_⟩
    · have hback : ((2 : ℕ) : ℤ).toNat = 2 := rfl
      rw [hback, hhex, ok_bind, pure_eq_ok, List.append_assoc front,
        ← List.append_assoc (text "H:"), List.length_append, htwo, Nat.cast_add]
    · rwa [← List.append_assoc]
    · rintro ⟨printed, hother, hlong⟩
      obtain rfl := Option.some.inj (hprinted.symm.trans hother)
      rw [htwo] at hlong
      omega
  · have hcond : ¬ (((2 : ℕ) : ℤ) > 0 ∧ ((2 : ℕ) : ℤ).toNat < buf.length - front.length) := by
      rintro ⟨-, hlt⟩
      exact hfits (by omega)
    rw [if_neg hcond]
    refine ⟨_, 2, rfl, ?_, fun hshort => ?_, fun _ => Nat.le_of_not_lt hfits⟩
    · rw [List.length_append, List.length_take]
      omega
    · exact absurd ⟨_, hprinted, by rw [htwo]; exact Nat.le_of_not_lt hfits⟩ hshort

/-! ## The whole text -/

/-- The call writes a text and its NUL inside the buffer and nothing else, and returns -1 or the
length of the text. -/
def Reports (buf : List UInt8) (result : Formatted) : Prop :=
  ∃ written r, result = .ok (overlay buf (written ++ [0]), r) ∧ written.length < buf.length ∧
    (r = -1 ∨ r = written.length)

/-- The prefix is too long for the buffer, so that the call returns -1, or what `snprintf` prints
for the value fits behind it. -/
def PrintsWhole (inetNtop : List UInt8 → Option (List UInt8)) (e : Entity)
    (buf : List UInt8) : Prop :=
  buf.length ≤ (prefixText e).length ∨ ¬ Truncated inetNtop e buf (prefixText e)

/-- The text which the first `snprintf` leaves is the front of the prefix and a NUL. -/
theorem format_prefix (hpos : 0 < buf.length) :
    snprintf buf 0 buf.length (prefixText e) =
      .ok (overlay buf ((prefixText e).take (buf.length - 1) ++ [0]), (prefixText e).length) := by
  have hsize : buf.length ≠ 0 := hpos.ne'
  have hput := put_overlay buf [] [] ((prefixText e).take (buf.length - 1) ++ [0]) rfl
    (Nat.zero_le _) (by
      rw [List.length_append, List.length_take, List.length_singleton, List.length_nil]
      omega)
  rw [List.append_nil, overlay_nil, List.nil_append, List.length_nil] at hput
  rw [snprintf, if_neg hsize, hput, ok_bind, pure_eq_ok]

theorem format_of_long_prefix (hpos : 0 < buf.length)
    (hlong : buf.length ≤ (prefixText e).length) :
    format inetNtop e buf =
      .ok (overlay buf ((prefixText e).take (buf.length - 1) ++ [0]), -1) := by
  have htake : ((prefixText e).take (buf.length - 1)).length = buf.length - 1 := by
    rw [List.length_take]
    omega
  have hout : (overlay buf ((prefixText e).take (buf.length - 1) ++ [0])).length =
      buf.length := overlay_length (by
    rw [List.length_append, htake, List.length_singleton]
    omega)
  have hput := put_overlay buf _ [0] [0] htake.symm le_rfl (by
    rw [htake, List.length_singleton]
    omega)
  have hcond : ((prefixText e).length : ℤ) < 0 ∨
      ((prefixText e).length : ℤ).toNat ≥ buf.length := .inr (by omega)
  rw [format, if_neg hpos.ne', format_prefix hpos, ok_bind]
  simp only
  rw [hout, if_pos hcond, hput, ok_bind, pure_eq_ok]

theorem format_of_short_prefix (inetNtop : List UInt8 → Option (List UInt8))
    (hshort : (prefixText e).length < buf.length)
    (hlen : e.valueLen.toNat ≤ valueMax) :
    ∃ more : List UInt8, ∃ vlen : ℕ,
      format inetNtop e buf = .ok (overlay buf (prefixText e ++ (more ++ [0])),
        (((prefixText e).length + vlen : ℕ) : ℤ)) ∧
      (prefixText e ++ more).length < buf.length ∧
      (¬ Truncated inetNtop e buf (prefixText e) → vlen = more.length) ∧
      (Truncated inetNtop e buf (prefixText e) →
        buf.length ≤ (prefixText e).length + vlen) := by
  have hpos : 0 < buf.length := Nat.zero_lt_of_lt hshort
  have hwhole : (prefixText e).take (buf.length - 1) = prefixText e :=
    List.take_of_length_le (by omega)
  have hout : (overlay buf (prefixText e ++ [0])).length = buf.length := overlay_length (by
    rw [List.length_append, List.length_singleton]
    omega)
  have hcond : ¬ (((prefixText e).length : ℤ) < 0 ∨
      ((prefixText e).length : ℤ).toNat ≥ buf.length) := by
    omega
  have hvalue : WritesValue inetNtop e buf (prefixText e)
      (if e.flags &&& flagHashed ≠ 0 then
        formatHashed e (overlay buf (prefixText e ++ [0])) (prefixText e).length
          (buf.length - (prefixText e).length)
      else formatPlain inetNtop e (overlay buf (prefixText e ++ [0])) (prefixText e).length
        (buf.length - (prefixText e).length)) := by
    split_ifs with hflag
    · exact formatHashed_writesValue hflag hlen le_rfl hshort
    · exact formatPlain_writesValue hflag hlen le_rfl hshort
  obtain ⟨more, vlen, hresult, hroom, hfits, hbeyond⟩ := hvalue
  refine ⟨more, vlen, ?_, hroom, hfits, hbeyond⟩
  rw [format, if_neg hpos.ne', format_prefix hpos, ok_bind]
  simp only
  rw [hwhole, hout, if_neg hcond, Int.toNat_natCast, Nat.cast_add]
  split_ifs at hresult ⊢ with hflag
  all_goals
    rw [hresult, ok_bind]
    simp only
    rw [if_neg (by omega), pure_eq_ok]

/-- For a valid entity and a buffer of at least one byte, `wake_entity_format` reports what it
wrote exactly when the value fits or is not printed by `snprintf`, or the prefix does not fit. -/
theorem format_reports_iff (inetNtop : List UInt8 → Option (List UInt8)) {e : Entity}
    (hvalid : valid e = true) {buf : List UInt8} (hpos : 0 < buf.length) :
    Reports buf (format inetNtop e buf) ↔ PrintsWhole inetNtop e buf := by
  have hlen := ((valid_iff e).mp hvalid).value_len_le
  by_cases hlong : buf.length ≤ (prefixText e).length
  · refine iff_of_true ⟨_, _, format_of_long_prefix hpos hlong, ?_, .inl rfl⟩ (.inl hlong)
    rw [List.length_take]
    omega
  · obtain ⟨more, vlen, hformat, hroom, hwhole, hbeyond⟩ :=
      format_of_short_prefix inetNtop (Nat.lt_of_not_le hlong) hlen
    constructor
    · rintro ⟨written, r, hresult, hwritten, hr⟩
      obtain ⟨-, rfl⟩ := Prod.mk.inj (Except.ok.inj (hformat.symm.trans hresult))
      refine .inr fun htruncated => ?_
      have hlarge := hbeyond htruncated
      omega
    · intro hprints
      have hsame := hwhole (hprints.resolve_left hlong)
      refine ⟨prefixText e ++ more, (((prefixText e).length + vlen : ℕ) : ℤ), ?_, hroom, .inr ?_⟩
      · rw [hformat, List.append_assoc]
      · rw [hsame, List.length_append]

/-- A port in a buffer of 32 bytes. -/
theorem format_reports_iff_port :
    Reports (List.replicate 32 1) (format (fun _ => none) (initPort 1 443) (List.replicate 32 1)) ↔
      PrintsWhole (fun _ => none) (initPort 1 443) (List.replicate 32 1) :=
  format_reports_iff _ (by decide) (by decide)

/-- The address 10.0.0.1 in a buffer of 12 bytes: the call returns 17. -/
theorem truncated_address_misreported :
    valid (initIpv4 0 0x0100000A) = true ∧
      ¬ Reports (List.replicate 12 1)
        (format (fun _ => none) (initIpv4 0 0x0100000A) (List.replicate 12 1)) := by
  refine ⟨by decide, ?_⟩
  have hresult : format (fun _ => none) (initIpv4 0 0x0100000A) (List.replicate 12 1) =
      .ok (text "WHO:IPV4:10" ++ [0], 17) := by decide
  rintro ⟨written, r, hreport, hwritten, hr⟩
  obtain ⟨-, rfl⟩ := Prod.mk.inj (Except.ok.inj (hresult.symm.trans hreport))
  rw [List.length_replicate] at hwritten
  omega

end Entities
end LibWake
