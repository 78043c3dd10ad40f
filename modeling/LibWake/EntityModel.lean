import Mathlib.Data.List.Basic

/-!
# Entities

`wake_entity_t` and its validity.  An entity is 64 bytes: class, type, length, flags, a
reserved word, and a value which is padded with zero bytes.
-/

namespace LibWake
namespace Entities

def valueMax : ℕ := 56

/-- `WAKE_EC__COUNT`. -/
def eclassCount : UInt8 := 3

/-- `WAKE_EF_HASHED`. -/
def flagHashed : UInt8 := 1

structure Entity where
  eclass : UInt8
  etype : UInt8
  valueLen : UInt8
  flags : UInt8
  reserved : UInt32
  value : Vector UInt8 valueMax
  deriving DecidableEq, Repr

/-- `wake_etype_fixed_len`: 0 for a type of variable length. -/
def etypeFixedLen (etype : UInt8) : UInt8 :=
  if etype = 0x10 then 4
  else if etype = 0x11 then 16
  else if etype = 0x40 then 16
  else if etype = 0x41 then 20
  else if etype = 0x42 then 32
  else if etype = 0x50 then 2
  else if etype = 0x51 then 1
  else if etype = 0x52 then 8
  else if etype = 0x53 then 4
  else 0

/-- `wake_entity_valid`. -/
def valid (e : Entity) : Bool :=
  if e.eclass ≥ eclassCount then false
  else if e.valueLen.toNat > valueMax then false
  else if e.reserved ≠ 0 then false
  else if (e.value.toList.drop e.valueLen.toNat).any (· ≠ 0) then false
  else if e.flags &&& flagHashed = 0 then
    let expected := etypeFixedLen e.etype
    !(expected > 0 && e.valueLen ≠ expected)
  else true

end Entities
end LibWake
