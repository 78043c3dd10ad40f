import Mathlib.Data.Fintype.Pigeonhole
import LibWake.EntityHash

/-!
# The canonical form of an entity

The constructors of `wake_entity`, and why validity, comparison and hashing agree: a valid
entity is determined by the bytes which are hashed.
-/

namespace LibWake
namespace Entities

open Signals (entityBytes)

/-! ## Constructors -/

/-- `WAKE_EC_WITH`. -/
def eclassWith : UInt8 := 2

/-- An entity whose value is stored as it is. -/
def inlineEntity (eclass etype : UInt8) (bytes : List UInt8) : Entity where
  eclass := eclass
  etype := etype
  valueLen := UInt8.ofNat bytes.length
  flags := 0
  reserved := 0
  value := valueOf bytes

/-- `wake_entity_init_ipv4`. -/
def initIpv4 (ec addrNbo : UInt32) : Entity :=
  inlineEntity ec.toUInt8 0x10 (leBytes 4 addrNbo.toNat)

/-- `wake_entity_init_ipv6`. -/
def initIpv6 (ec : UInt32) (addr : Vector UInt8 16) : Entity :=
  inlineEntity ec.toUInt8 0x11 addr.toList

/-- `wake_entity_init_md5`. -/
def initMd5 (hash : Vector UInt8 16) : Entity := inlineEntity eclassWith 0x40 hash.toList

/-- `wake_entity_init_sha1`. -/
def initSha1 (hash : Vector UInt8 20) : Entity := inlineEntity eclassWith 0x41 hash.toList

/-- `wake_entity_init_sha256`. -/
def initSha256 (hash : Vector UInt8 32) : Entity := inlineEntity eclassWith 0x42 hash.toList

/-- `wake_entity_init_port`. -/
def initPort (ec : UInt32) (port : UInt16) : Entity :=
  inlineEntity ec.toUInt8 0x50 (leBytes 2 port.toNat)

/-- `wake_entity_init_proto`. -/
def initProto (ianaProto : UInt8) : Entity := inlineEntity eclassWith 0x51 [ianaProto]

/-- `wake_entity_init_size`. -/
def initSize (bytes : UInt64) : Entity :=
  inlineEntity eclassWith 0x52 (leBytes 8 bytes.toNat)

/-- `wake_entity_init_sig_id`. -/
def initSigId (sigId : UInt32) : Entity :=
  inlineEntity eclassWith 0x53 (leBytes 4 sigId.toNat)

section Strings

variable (siphashKey : List UInt8) (ec : UInt32) (val : List UInt8)

/-- `wake_entity_init_user`. -/
def initUser : Entity := initStr siphashKey ec 0x20 val

/-- `wake_entity_init_machine`. -/
def initMachine : Entity := initStr siphashKey ec 0x21 val

/-- `wake_entity_init_email`. -/
def initEmail : Entity := initStr siphashKey ec 0x22 val

/-- `wake_entity_init_domain`. -/
def initDomain : Entity := initStr siphashKey ec 0x30 val

/-- `wake_entity_init_service`. -/
def initService : Entity := initStr siphashKey ec 0x31 val

/-- `wake_entity_init_path`. -/
def initPath : Entity := initStr siphashKey ec 0x32 val

/-- `wake_entity_init_url`. -/
def initUrl : Entity := initStr siphashKey ec 0x33 val

end Strings

/-- `wake_etype_is_string`. -/
def etypeIsString (et : UInt32) : Bool := et &&& 0xF0 == 0x20 || et &&& 0xF0 == 0x30

/-- What the public constructors make, called with a class below `WAKE_EC__COUNT`, and for
`wake_entity_init_str` with a string type. -/
inductive Constructed (siphashKey : List UInt8) : Entity → Prop
  | ipv4 {ec : UInt32} (hec : ec < 3) (addrNbo : UInt32) : Constructed _ (initIpv4 ec addrNbo)
  | ipv6 {ec : UInt32} (hec : ec < 3) (addr : Vector UInt8 16) :
      Constructed _ (initIpv6 ec addr)
  | str {ec et : UInt32} (hec : ec < 3) (het : etypeIsString et = true) (val : List UInt8) :
      Constructed _ (initStr siphashKey ec et val)
  | user {ec : UInt32} (hec : ec < 3) (val : List UInt8) :
      Constructed _ (initUser siphashKey ec val)
  | machine {ec : UInt32} (hec : ec < 3) (val : List UInt8) :
      Constructed _ (initMachine siphashKey ec val)
  | email {ec : UInt32} (hec : ec < 3) (val : List UInt8) :
      Constructed _ (initEmail siphashKey ec val)
  | domain {ec : UInt32} (hec : ec < 3) (val : List UInt8) :
      Constructed _ (initDomain siphashKey ec val)
  | service {ec : UInt32} (hec : ec < 3) (val : List UInt8) :
      Constructed _ (initService siphashKey ec val)
  | path {ec : UInt32} (hec : ec < 3) (val : List UInt8) :
      Constructed _ (initPath siphashKey ec val)
  | url {ec : UInt32} (hec : ec < 3) (val : List UInt8) :
      Constructed _ (initUrl siphashKey ec val)
  | md5 (hash : Vector UInt8 16) : Constructed _ (initMd5 hash)
  | sha1 (hash : Vector UInt8 20) : Constructed _ (initSha1 hash)
  | sha256 (hash : Vector UInt8 32) : Constructed _ (initSha256 hash)
  | port {ec : UInt32} (hec : ec < 3) (port : UInt16) : Constructed _ (initPort ec port)
  | proto (ianaProto : UInt8) : Constructed _ (initProto ianaProto)
  | size (bytes : UInt64) : Constructed _ (initSize bytes)
  | sigId (sigId : UInt32) : Constructed _ (initSigId sigId)

/-! ## Validity -/

/-- What `wake_entity_valid` checks. -/
structure WellFormed (e : Entity) : Prop where
  eclass_lt : e.eclass < eclassCount
  value_len_le : e.valueLen.toNat ≤ valueMax
  reserved_eq : e.reserved = 0
  padding : ∀ i (hi : i < valueMax), e.valueLen.toNat ≤ i → e.value[i] = 0
  fixed_len : e.flags &&& flagHashed = 0 →
    etypeFixedLen e.etype = 0 ∨ e.valueLen = etypeFixedLen e.etype

theorem padding_iff (e : Entity) :
    (e.value.toList.drop e.valueLen.toNat).any (· ≠ 0) = false ↔
      ∀ i (hi : i < valueMax), e.valueLen.toNat ≤ i → e.value[i] = 0 := by
  rw [List.any_eq_false]
  constructor
  · intro hall i hi hle
    have hmem : e.value[i] ∈ e.value.toList.drop e.valueLen.toNat := by
      refine List.mem_iff_getElem.mpr ⟨i - e.valueLen.toNat, ?_, ?_⟩
      · rw [List.length_drop, Vector.length_toList]
        omega
      · rw [List.getElem_drop, Vector.getElem_toList]
        congr 1
        omega
    simpa using hall _ hmem
  · intro hzero byte hmem
    obtain ⟨k, hk, rfl⟩ := List.mem_iff_getElem.mp hmem
    rw [List.length_drop, Vector.length_toList] at hk
    rw [List.getElem_drop, Vector.getElem_toList]
    simpa using hzero (e.valueLen.toNat + k) (by omega) (Nat.le_add_right _ _)

theorem valid_iff (e : Entity) : valid e = true ↔ WellFormed e := by
  have hpad := padding_iff e
  unfold valid
  constructor
  · intro hvalid
    split_ifs at hvalid with hclass hlen hreserved hany hflag
    · refine ⟨UInt8.not_le.mp hclass, Nat.le_of_not_lt hlen, not_not.mp hreserved,
        hpad.mp (Bool.eq_false_iff.mpr hany), fun _ => ?_⟩
      by_cases hpos : etypeFixedLen e.etype = 0
      · exact .inl hpos
      · refine .inr ?_
        have hpos' : etypeFixedLen e.etype > 0 := UInt8.pos_iff_ne_zero.mpr hpos
        simpa [hpos'] using hvalid
    · exact ⟨UInt8.not_le.mp hclass, Nat.le_of_not_lt hlen, not_not.mp hreserved,
        hpad.mp (Bool.eq_false_iff.mpr hany), fun hclear => absurd hclear hflag⟩
  · rintro ⟨hclass, hlen, hreserved, hzero, hfixed⟩
    rw [if_neg (UInt8.not_le.mpr hclass), if_neg (Nat.not_lt.mpr hlen),
      if_neg (not_not.mpr hreserved), if_neg (Bool.eq_false_iff.mp (hpad.mpr hzero))]
    split_ifs with hflag
    · rcases hfixed hflag with hfree | hsame
      · simp [hfree]
      · simp [hsame]
    · rfl

/-- A value of the right length for its type is stored in a valid entity. -/
theorem wellFormed_inlineEntity {eclass etype : UInt8} {bytes : List UInt8}
    (hclass : eclass < eclassCount) (hlen : bytes.length ≤ valueMax)
    (hfixed : etypeFixedLen etype = 0 ∨ UInt8.ofNat bytes.length = etypeFixedLen etype) :
    WellFormed (inlineEntity eclass etype bytes) where
  eclass_lt := hclass
  value_len_le := by
    rw [inlineEntity, UInt8.toNat_ofNat']
    exact (Nat.mod_le _ _).trans hlen
  reserved_eq := rfl
  padding i hi hle := by
    have hlt : bytes.length < 2 ^ 8 := lt_of_le_of_lt hlen (by decide)
    rw [inlineEntity, UInt8.toNat_ofNat', Nat.mod_eq_of_lt hlt] at hle
    simp [inlineEntity, valueOf, List.getElem?_eq_none hle]
  fixed_len _ := hfixed

theorem eclass_lt_of_lt {ec : UInt32} (hec : ec < 3) : ec.toUInt8 < eclassCount := by
  have hnat : ec.toNat < 3 := hec
  rw [UInt8.lt_iff_toNat_lt, UInt32.toNat_toUInt8]
  exact (Nat.mod_le _ _).trans_lt hnat

/-- A string type has no fixed length. -/
theorem etypeFixedLen_of_isString {et : UInt32} (het : etypeIsString et = true) :
    etypeFixedLen et.toUInt8 = 0 := by
  have hlow : et.toUInt8 &&& 0xF0 = 0x20 ∨ et.toUInt8 &&& 0xF0 = 0x30 := by
    rw [etypeIsString, Bool.or_eq_true, beq_iff_eq, beq_iff_eq] at het
    rcases het with hidentity | hservice
    · exact .inl (UInt32.toUInt8_and et 0xF0 ▸ congrArg UInt32.toUInt8 hidentity)
    · exact .inr (UInt32.toUInt8_and et 0xF0 ▸ congrArg UInt32.toUInt8 hservice)
  have hother : ∀ fixed : UInt8, ¬ (fixed &&& 0xF0 = 0x20 ∨ fixed &&& 0xF0 = 0x30) →
      et.toUInt8 ≠ fixed := by
    rintro _ hnot rfl
    exact hnot hlow
  rw [etypeFixedLen, if_neg (hother 0x10 (by decide)), if_neg (hother 0x11 (by decide)),
    if_neg (hother 0x40 (by decide)), if_neg (hother 0x41 (by decide)),
    if_neg (hother 0x42 (by decide)), if_neg (hother 0x50 (by decide)),
    if_neg (hother 0x51 (by decide)), if_neg (hother 0x52 (by decide)),
    if_neg (hother 0x53 (by decide))]

theorem wellFormed_initStr (siphashKey : List UInt8) {ec et : UInt32} (hec : ec < 3)
    (het : etypeIsString et = true) (val : List UInt8) :
    WellFormed (initStr siphashKey ec et val) := by
  rw [initStr]
  split_ifs with hinline
  · exact wellFormed_inlineEntity (eclass_lt_of_lt hec) hinline
      (.inl (etypeFixedLen_of_isString het))
  · have hpadded := wellFormed_inlineEntity (eclass_lt_of_lt hec)
      (show (leBytes 8 (siphash24 val siphashKey).toNat).length ≤ valueMax by
        rw [leBytes_length]
        decide) (.inl (etypeFixedLen_of_isString het))
    have hhashed : ¬ flagHashed &&& flagHashed = 0 := by decide
    exact ⟨hpadded.eclass_lt, show (8 : UInt8).toNat ≤ valueMax by decide, rfl,
      hpadded.padding, fun hclear => absurd hclear hhashed⟩

theorem Constructed.wellFormed {siphashKey : List UInt8} {e : Entity}
    (hmade : Constructed siphashKey e) : WellFormed e := by
  cases hmade with
  | ipv4 hec addrNbo =>
      exact wellFormed_inlineEntity (eclass_lt_of_lt hec) (by simp [valueMax]) (.inr (by simp; rfl))
  | ipv6 hec addr =>
      exact wellFormed_inlineEntity (eclass_lt_of_lt hec) (by simp [valueMax]) (.inr (by simp; rfl))
  | str hec het val => exact wellFormed_initStr siphashKey hec het val
  | user hec val => exact wellFormed_initStr siphashKey hec (by decide) val
  | machine hec val => exact wellFormed_initStr siphashKey hec (by decide) val
  | email hec val => exact wellFormed_initStr siphashKey hec (by decide) val
  | domain hec val => exact wellFormed_initStr siphashKey hec (by decide) val
  | service hec val => exact wellFormed_initStr siphashKey hec (by decide) val
  | path hec val => exact wellFormed_initStr siphashKey hec (by decide) val
  | url hec val => exact wellFormed_initStr siphashKey hec (by decide) val
  | md5 hash =>
      exact wellFormed_inlineEntity (by decide) (by simp [valueMax]) (.inr (by simp; rfl))
  | sha1 hash =>
      exact wellFormed_inlineEntity (by decide) (by simp [valueMax]) (.inr (by simp; rfl))
  | sha256 hash =>
      exact wellFormed_inlineEntity (by decide) (by simp [valueMax]) (.inr (by simp; rfl))
  | port hec port =>
      exact wellFormed_inlineEntity (eclass_lt_of_lt hec) (by simp [valueMax]) (.inr (by simp; rfl))
  | proto ianaProto =>
      exact wellFormed_inlineEntity (by decide) (by simp [valueMax]) (.inr rfl)
  | size bytes =>
      exact wellFormed_inlineEntity (by decide) (by simp [valueMax]) (.inr (by simp; rfl))
  | sigId sigId =>
      exact wellFormed_inlineEntity (by decide) (by simp [valueMax]) (.inr (by simp; rfl))

/-! ## The hashed bytes -/

/-- The bytes which `wake_entity_hash` passes to SipHash. -/
def hashedBytes (e : Entity) : List UInt8 := (entityBytes e).take (8 + e.valueLen.toNat)

theorem entityBytes_length (e : Entity) : (entityBytes e).length = 64 := by
  have hvalue : e.value.toList.length = 56 := Vector.length_toList
  simp [entityBytes, hvalue]

theorem hashedBytes_eq (e : Entity) :
    hashedBytes e = [e.eclass, e.etype, e.valueLen, e.flags] ++ leBytes 4 e.reserved.toNat ++
      e.value.toList.take e.valueLen.toNat := by
  have hfront : 8 = ([e.eclass, e.etype, e.valueLen, e.flags] ++
      leBytes 4 e.reserved.toNat).length := rfl
  rw [hashedBytes, entityBytes, hfront, List.take_length_add_append]

/-- A valid entity is determined by the bytes which are hashed. -/
theorem WellFormed.eq_of_hashedBytes {a b : Entity} (ha : WellFormed a) (hb : WellFormed b)
    (hbytes : hashedBytes a = hashedBytes b) : a = b := by
  rw [hashedBytes_eq, hashedBytes_eq] at hbytes
  obtain ⟨hfront, hvalue⟩ := List.append_inj hbytes rfl
  obtain ⟨hhead, -⟩ := List.append_inj hfront rfl
  simp only [List.cons.injEq, and_true] at hhead
  obtain ⟨hclass, htype, hlen, hflags⟩ := hhead
  have hsame : a.value = b.value := by
    apply Vector.ext
    intro i hi
    by_cases hused : i < a.valueLen.toNat
    · have hget := congrArg (fun l => l[i]?) hvalue
      simpa [hused, hlen ▸ hused, hi] using hget
    · rw [ha.padding i hi (Nat.le_of_not_lt hused),
        hb.padding i hi (hlen ▸ Nat.le_of_not_lt hused)]
  have hreserved : a.reserved = b.reserved := ha.reserved_eq.trans hb.reserved_eq.symm
  cases a
  cases b
  simp only at hclass htype hlen hflags hreserved hsame
  subst hclass htype hlen hflags hreserved hsame
  rfl

/-- A user whose name is the number `n` in nine bytes. -/
def numberedUser (siphashKey : List UInt8) (n : ℕ) : Entity := initUser siphashKey 0 (leBytes 9 n)

theorem numberedUser_injective {siphashKey : List UInt8} {m n : ℕ} (hm : m < 256 ^ 9)
    (hn : n < 256 ^ 9) (heq : numberedUser siphashKey m = numberedUser siphashKey n) : m = n := by
  have hinline : ∀ k : ℕ, (leBytes 9 k).length ≤ valueMax := fun k => by
    rw [leBytes_length]
    decide
  rw [numberedUser, numberedUser, initUser, initUser, initStr, initStr, if_pos (hinline m),
    if_pos (hinline n), Entity.mk.injEq] at heq
  obtain ⟨-, -, -, -, -, hvalue⟩ := heq
  apply leBytes_injective hm hn
  apply List.ext_getElem (by simp)
  intro i hi hi'
  have hlt : i < valueMax := hi.trans_le (hinline m)
  have hbyte : (leBytes 9 m).getD i 0 = (leBytes 9 n).getD i 0 := by
    simpa [valueOf] using congrArg (fun value : Vector UInt8 valueMax => value[i]) hvalue
  rwa [List.getD_eq_getElem _ _ hi, List.getD_eq_getElem _ _ hi'] at hbyte

/-- There are more valid entities than hashes, so two of them share one under every key. -/
theorem exists_same_entityHash (siphashKey : List UInt8) :
    ∃ a b, valid a = true ∧ valid b = true ∧ a ≠ b ∧
      entityHash siphashKey a = entityHash siphashKey b := by
  obtain ⟨x, y, hne, heq⟩ := Fintype.exists_ne_map_eq_of_card_lt
    (fun n : Fin (2 ^ 64 + 1) => (entityHash siphashKey (numberedUser siphashKey n)).toFin)
    (by simp only [Fintype.card_fin]; decide)
  have hvalid : ∀ n, valid (numberedUser siphashKey n) = true := by
    intro n
    have hmade : Constructed siphashKey (numberedUser siphashKey n) := .user (by decide) _
    exact (valid_iff _).mpr hmade.wellFormed
  have hbound : ∀ n : Fin (2 ^ 64 + 1), n.val < 256 ^ 9 := fun n => n.isLt.trans (by decide)
  refine ⟨_, _, hvalid x, hvalid y, fun hsame => hne (Fin.ext ?_), UInt64.toFin_inj.mp heq⟩
  exact numberedUser_injective (hbound x) (hbound y) hsame

/-- Every public constructor makes a valid entity; the hashed bytes of a valid entity lie
inside its 64 bytes; and two valid entities are equal exactly when the bytes which are hashed
for them are. -/
theorem entities_canonical (siphashKey : List UInt8) :
    (∀ e, Constructed siphashKey e → valid e = true) ∧
      (∀ e, entityHash siphashKey e = siphash24 (hashedBytes e) siphashKey ∧
        (valid e = true → (hashedBytes e).length = 8 + e.valueLen.toNat ∧
          8 + e.valueLen.toNat ≤ (entityBytes e).length ∧ (entityBytes e).length = 64)) ∧
      ∀ a b, valid a = true → valid b = true →
        (entityEq a b = true ↔ hashedBytes a = hashedBytes b) := by
  refine ⟨fun e hmade => (valid_iff e).mpr hmade.wellFormed, fun e => ⟨rfl, fun hvalid => ?_⟩,
    fun a b ha hb => ?_⟩
  · have hlen : e.valueLen.toNat ≤ 56 := ((valid_iff e).mp hvalid).value_len_le
    have hbytes := entityBytes_length e
    refine ⟨?_, by omega, hbytes⟩
    rw [hashedBytes, List.length_take]
    omega
  · rw [entityEq_iff]
    exact ⟨congrArg hashedBytes, ((valid_iff a).mp ha).eq_of_hashedBytes ((valid_iff b).mp hb)⟩

/-- A port, and the string of 57 bytes which is stored as its hash. -/
theorem entities_canonical_portAndUrl :
    valid (initPort 1 443) = true ∧
      (entityEq (initPort 1 443) (initUrl [] 1 (List.replicate 57 97)) = true ↔
        hashedBytes (initPort 1 443) = hashedBytes (initUrl [] 1 (List.replicate 57 97))) := by
  obtain ⟨hmade, -, heq⟩ := entities_canonical []
  have hport := hmade _ (.port (show (1 : UInt32) < 3 by decide) 443)
  exact ⟨hport, heq _ _ hport (hmade _ (.url (show (1 : UInt32) < 3 by decide) _))⟩

end Entities
end LibWake
