import Mathlib.Order.Bounds.Defs
import NexusRv.Address
import NexusRv.Checked
import NexusRv.Recode
/-!
# X-ADDR with sign extension

With VAO an address is sent in the fewest groups from which its sign extension restores it,
and read back as the sign extension of the groups that are there, if these have less than
2 ^ 32 bits.
-/

namespace nexusrv

/-! ## Sign extension -/

theorem sign_extended_toNat {b : Nat} (h0 : 0 < b) (h64 : b < 64) (x : UInt64) :
    (sign_extended b x).toNat = sign_extend b (x.toNat % 2 ^ b) := by
  have hhigh : ∀ i, (2 ^ 64 - 2 ^ b).testBit i = (decide (b ≤ i) && decide (i < 64)) := by
    intro i
    have hlt : 2 ^ 64 - 2 ^ b < 2 ^ 64 := Nat.sub_lt (Nat.two_pow_pos 64) (Nat.two_pow_pos b)
    rw [← high_bits h64 i, UInt64.toNat_ofNat_of_lt' hlt]
  have hsign : (x.toNat % 2 ^ b).testBit (b - 1) = x.toNat.testBit (b - 1) := by
    rw [Nat.testBit_mod_two_pow, decide_eq_true (by omega), Bool.true_and]
  apply Nat.eq_of_testBit_eq
  intro i
  rw [sign_extended_bit h0, sign_extend, hsign]
  by_cases hs : x.toNat.testBit (b - 1) = true
  · rw [if_pos hs, Nat.testBit_or, hhigh, Nat.testBit_mod_two_pow]
    by_cases hi : i < b
    · simp [hi, show i < 64 by omega, show ¬ b ≤ i by omega]
    · simp [hi, hs, show b ≤ i by omega]
  · rw [if_neg hs, Nat.testBit_mod_two_pow]
    by_cases hi : i < b
    · simp [hi, show i < 64 by omega]
    · simp [hi, hs]

theorem sign_extended_full (x : UInt64) : sign_extended 64 x = x := by
  unfold sign_extended
  rw [BitVec.setWidth_eq, BitVec.signExtend_eq]

/-- The low bits give the address back exactly when the bits above them are copies of their top bit. -/
theorem sign_extended_eq_iff {b : Nat} (h0 : 0 < b) (h64 : b < 64) (x : UInt64) :
    sign_extended b x = x ↔ x.toNat < 2 ^ (b - 1) ∨ 2 ^ 64 - 1 - x.toNat < 2 ^ (b - 1) := by
  rw [← UInt64.toNat_inj, sign_extended_toNat h0 h64]
  constructor
  · intro h
    have hrange := (sign_extend_range h0 h64 (Nat.mod_lt x.toNat (Nat.two_pow_pos b))).2
    rwa [h] at hrange
  · intro h
    exact sign_extend_spec x.toNat_lt h0 h64 h

/-! ## How many groups are sent -/

/-- The number of groups that `PACK_XADDR_VAO` sends. -/
def vao_groups (x : UInt64) : Nat := (xaddr_vao_bits 0 x.toNat + 5) / 6

theorem vao_bits_eq (x : UInt64) : 0 < vao_groups x ∧ xaddr_vao_bits 0 x.toNat = min (6 * vao_groups x) 64 := by
  have hspec := xaddr_vao_bits_spec x.toNat_lt
  unfold vao_groups
  omega

theorem vao_groups_restore (x : UInt64) : sign_extended (min (6 * vao_groups x) 64) x = x := by
  rw [← (vao_bits_eq x).2]
  rcases xaddr_vao_bits_spec x.toNat_lt with h | ⟨h0, h64, -, h⟩
  · rw [h]
    exact sign_extended_full x
  · exact (sign_extended_eq_iff h0 h64 x).2 h

theorem vao_groups_least (x : UInt64) : IsLeast {k | 0 < k ∧ sign_extended (min (6 * k) 64) x = x} (vao_groups x) := by
  refine ⟨⟨(vao_bits_eq x).1, vao_groups_restore x⟩, ?_⟩
  rintro k ⟨h0, hk⟩
  have hle : xaddr_vao_bits 0 x.toNat ≤ 6 * k := by
    apply xaddr_vao_bits_le (by omega) (by omega) x.toNat_lt
    intro h64
    rw [Nat.min_eq_left (by omega)] at hk
    exact (sign_extended_eq_iff (by omega) h64 x).1 hk
  unfold vao_groups
  omega

/-! ## The groups -/

/-- The `k` bytes of a group that ends with them, for the low `min (6 * k) 64` bits of `x`; the
padding above bit 63 is zero. -/
def vao_bytes (k : Nat) (x : UInt64) : List UInt8 := endMark 1 (bitBytes (6 * k) (x.toNat % 2 ^ min (6 * k) 64))

theorem bitBytes_congr {n m : Nat} (N : Nat) (h : Fields.digitCount 6 n = Fields.digitCount 6 m) : bitBytes n N = bitBytes m N := by
  unfold bitBytes
  rw [h]

section Encoder
variable {limit : Nat} {st : EncState}

/-- `END_FIELD` behind bytes that end the field. -/
theorem end_field_bytes {P bs R : List UInt8} {off : Nat} (h0 : bs ≠ []) (hoff : (off + 5) / 6 = P.length + bs.length) :
    END_FIELD 1 ⟨P ++ bs ++ R, off⟩ = some (.ok (), ⟨P ++ endMark 1 bs ++ R, 6 * (P.length + bs.length)⟩) := by
  have hl : 0 < bs.length := List.length_pos_iff.2 h0
  have hbyte : (off + MDO_BITS - 1) / MDO_BITS = (P ++ bs).length := by
    rw [List.length_append, ← hoff]
    rfl
  have hlt : (P ++ bs).length - 1 < (P ++ bs).length := by
    rw [List.length_append]
    omega
  simp only [END_FIELD, Proc.modify_apply, hbyte]
  rw [List.getD_append _ _ _ _ hlt, List.set_append_left _ _ hlt, ← endMark_append _ _ _ h0, ← List.length_append, Nat.mul_comm]
  rfl

/-- The state after the groups of `x`. -/
def EncState.with_groups (st : EncState) (x : UInt64) : EncState where
  buffer := st.buffer.take (st.bit_offset / 6) ++ vao_bytes (vao_groups x) x ++ st.buffer.drop (st.bit_offset / 6 + vao_groups x)
  bit_offset := st.bit_offset + 6 * vao_groups x

theorem pack_xaddr_vao (x : UInt64) (hlim : limit ≤ st.buffer.length) (halign : st.bit_offset % 6 = 0) :
    PACK_XADDR_VAO limit x.toNat st =
      if st.bit_offset + 6 * vao_groups x ≤ 6 * limit then some (.ok (), st.with_groups x)
      else some (.error .stream_truncate, st) := by
  obtain ⟨h0, hbits⟩ := vao_bits_eq x
  obtain ⟨p, hp⟩ : ∃ p, st.bit_offset = 6 * p := ⟨st.bit_offset / 6, by omega⟩
  have hup : (min (6 * vao_groups x) 64 + 5) / 6 = vao_groups x := by
    rw [← hbits]
    rfl
  have hcount : Fields.digitCount 6 (min (6 * vao_groups x) 64) = vao_groups x := hup
  unfold PACK_XADDR_VAO
  rw [Proc.get_bind_apply, xaddr_vao_bits_aligned _ halign, hbits]
  by_cases hroom : st.bit_offset + 6 * vao_groups x ≤ 6 * limit
  · have hfit : ¬ st.bit_offset + min (6 * vao_groups x) 64 > limit * MDO_BITS := by
      simp only [MDO_BITS]
      omega
    have hlen : (st.buffer.take p).length = p := by
      rw [List.length_take]
      omega
    have hpack : pack_bits st.buffer st.bit_offset x.toNat (min (6 * vao_groups x) 64) =
        st.buffer.take p ++ bitBytes (min (6 * vao_groups x) 64) (x.toNat % 2 ^ min (6 * vao_groups x) 64) ++
          st.buffer.drop (p + vao_groups x) := by
      have hempty : st.buffer = st.buffer.take p ++ bitBytes 0 0 ++ st.buffer.drop p := by
        rw [show bitBytes 0 0 = [] from rfl, List.append_nil, List.take_append_drop]
      have hzero : Fields.digitCount 6 0 = 0 := rfl
      have hoff : st.bit_offset = 6 * (st.buffer.take p).length + 0 := by rw [hlen, hp, Nat.add_zero]
      conv_lhs => rw [hempty, hoff]
      rw [pack_bits_spec Nat.one_pos (by rw [Nat.zero_add, hcount, hzero, List.length_drop]; omega), Nat.zero_add, hcount,
        hzero, Nat.sub_zero, List.drop_drop, Nat.pow_zero, Nat.one_mul, Nat.zero_add]
    have hne : bitBytes (min (6 * vao_groups x) 64) (x.toNat % 2 ^ min (6 * vao_groups x) 64) ≠ [] := by
      rw [← List.length_pos_iff, bitBytes_length, hcount]
      exact h0
    have hend := @end_field_bytes (st.buffer.take p) _ (st.buffer.drop (p + vao_groups x))
      (st.bit_offset + min (6 * vao_groups x) 64) hne (by rw [hlen, bitBytes_length, hcount]; omega)
    have hfield : PACK_FIELD limit (min (6 * vao_groups x) 64) x.toNat st = some (.ok (),
        ⟨pack_bits st.buffer st.bit_offset x.toNat (min (6 * vao_groups x) 64), st.bit_offset + min (6 * vao_groups x) 64⟩) := by
      simp only [PACK_FIELD, Proc.get_bind_apply, Proc.ite_apply, if_neg hfit, Proc.modify_apply]
    rw [if_pos hroom, Proc.bind_ok hfield, hpack, hend, bitBytes_length, hcount, hlen]
    have hdiv : st.bit_offset / 6 = p := by omega
    have hfull : Fields.digitCount 6 (6 * vao_groups x) = vao_groups x := Fields.digitCount_mul 6 _ (by decide)
    rw [EncState.with_groups, hdiv, vao_bytes, bitBytes_congr _ (hfull.trans hcount.symm), hp, Nat.mul_add]
  · have hfit : st.bit_offset + min (6 * vao_groups x) 64 > limit * MDO_BITS := by
      simp only [MDO_BITS]
      omega
    have hfield : PACK_FIELD limit (min (6 * vao_groups x) 64) x.toNat st = some (.error .stream_truncate, st) := by
      simp only [PACK_FIELD, Proc.get_bind_apply, Proc.ite_apply, if_pos hfit, Proc.fail_apply]
    rw [if_neg hroom, Proc.bind_error hfield]

end Encoder

/-! ## What the groups are read as -/

theorem payload_drop (bs : List UInt8) (p : Nat) : payload bs / 2 ^ (6 * p) = payload (bs.drop p) := by
  induction p generalizing bs with
  | zero => simp
  | succ p ih =>
    cases bs with
    | nil => simp [payload]
    | cons b bs =>
      have hb : mdo b < 2 ^ 6 := mdo_lt b
      rw [List.drop_succ_cons, ← ih bs, payload, Nat.mul_succ, Nat.add_comm (6 * p), Nat.pow_add, ← Nat.div_div_eq_div_mul,
        Nat.add_mul_div_left _ _ (Nat.two_pow_pos 6), Nat.div_eq_of_lt hb, Nat.zero_add]

/-- The state behind `k` groups that were read as the address `v`. -/
def DecState.with_xaddr (s : DecState) (k v : Nat) : DecState := { s with msg := s.msg.set_xaddr v, bit_offset := s.bit_offset + 6 * k }

/-- Addresses of 64 bits that are stored alike are the same. -/
theorem with_xaddr_inj {s : DecState} {k v w : Nat} : s.with_xaddr k v = s.with_xaddr k w ↔ v % 2 ^ 64 = w % 2 ^ 64 := by
  constructor
  · intro h
    have hx : UInt64.ofNat v = UInt64.ofNat w := congrArg (fun t : DecState => t.msg.xaddr) h
    simpa using congrArg UInt64.toNat hx
  · intro h
    have hx : UInt64.ofNat v = UInt64.ofNat w := by
      rw [← UInt64.toNat_inj]
      simpa using h
    simp only [DecState.with_xaddr, Msg.set_xaddr, hx]

section Decoder
variable {s : DecState} {p k : Nat}

theorem groups_left (hoff : s.bit_offset = 6 * p) (hlen : s.group.length = p + k) : s.group.length * MDO_BITS - s.bit_offset = 6 * k := by
  rw [hlen, hoff, show MDO_BITS = 6 from rfl]
  omega

/-- `UNPACK_VAR` of `k` groups. -/
theorem unpack_groups (hoff : s.bit_offset = 6 * p) (hlen : s.group.length = p + k) (hk : 0 < k) :
    UNPACK_VAR_REQ Msg.set_xaddr s = some (.ok (6 * k), s.with_xaddr k (payload (s.group.drop p) % 2 ^ min (6 * k % 2 ^ 32) 64)) := by
  have hvalue : unpack_bits s.group s.bit_offset (6 * k % 2 ^ 32) = payload (s.group.drop p) % 2 ^ min (6 * k % 2 ^ 32) 64 := by
    rw [unpack_bits_spec (spells_payload _), hoff, payload_drop]
  unfold UNPACK_VAR_REQ UNPACK_VAR
  simp only [Proc.bind_assoc_apply, Proc.get_bind_apply, groups_left hoff hlen, if_neg (show ¬ 6 * k = 0 by omega), hvalue,
    Proc.modify_bind_apply, Proc.pure_bind_apply, Proc.pure_apply]
  rfl

/-- Groups of less than 2 ^ 32 bits are read as their sign extension. -/
theorem unpack_xaddr_vao (hoff : s.bit_offset = 6 * p) (hlen : s.group.length = p + k) (hk : 0 < k) (hshort : 6 * k < 2 ^ 32) :
    UNPACK_XADDR_VAO s = some (.ok (), s.with_xaddr k (sign_extended (min (6 * k) 64) (.ofNat (payload (s.group.drop p)))).toNat) := by
  unfold UNPACK_XADDR_VAO
  rw [Proc.bind_ok (unpack_groups hoff hlen hk), Nat.mod_eq_of_lt hshort]
  by_cases h64 : 6 * k < 64
  · have hlow : payload (s.group.drop p) % 2 ^ (6 * k) < 2 ^ 64 :=
      Nat.lt_trans (Nat.mod_lt _ (Nat.two_pow_pos _)) (Nat.pow_lt_pow_right (by decide) h64)
    have hcut : (UInt64.ofNat (payload (s.group.drop p))).toNat % 2 ^ (6 * k) = payload (s.group.drop p) % 2 ^ (6 * k) :=
      Nat.mod_mod_of_dvd _ (Nat.pow_dvd_pow 2 (by omega))
    rw [Nat.min_eq_left (by omega), decide_eq_true h64, Proc.when_true, Proc.modify_apply,
      sign_extended_toNat (by omega) h64, hcut]
    simp only [DecState.with_xaddr, Msg.set_xaddr, UInt64.toNat_ofNat_of_lt' hlow]
  · -- the two bits above bit 63 of eleven groups are cut off here
    rw [Nat.min_eq_right (by omega), decide_eq_false h64, Proc.when_false, Proc.pure_apply, sign_extended_full]
    rfl

/-- Of longer groups, as many bits are read as their length has modulo 2 ^ 32, and none of these is extended. -/
theorem unpack_xaddr_long (hoff : s.bit_offset = 6 * p) (hlen : s.group.length = p + k) (hlong : 2 ^ 32 ≤ 6 * k) :
    UNPACK_XADDR_VAO s = some (.ok (), s.with_xaddr k (payload (s.group.drop p) % 2 ^ min (6 * k % 2 ^ 32) 64)) := by
  unfold UNPACK_XADDR_VAO
  rw [Proc.bind_ok (unpack_groups hoff hlen (by omega)), decide_eq_false (show ¬ 6 * k < 64 by omega), Proc.when_false, Proc.pure_apply]

end Decoder

/-! ## The macros -/

namespace Checked

/-- A value that may be undefined. -/
def value {σ ε α : Type} (x : Option α) : Proc σ ε α := fun s => x.map fun a => (.ok a, s)

def PACK_FIELD (limit bits value : Nat) : Enc Unit := do
  let s ← Proc.get
  if s.bit_offset + bits > limit * MDO_BITS then Proc.fail .stream_truncate
  else do
    let buffer ← Checked.value (pack_bits s.buffer s.bit_offset value bits)
    Proc.modify fun s => ⟨buffer, s.bit_offset + bits⟩

def PACK_XADDR_VAO (limit xaddr : Nat) : Enc Unit := do
  let s ← Proc.get
  PACK_FIELD limit (xaddr_vao_bits s.bit_offset xaddr) xaddr
  END_FIELD 1

def UNPACK_VAR_REQ (field : Nat → Msg → Msg) : Dec Nat := do
  let s ← Proc.get
  let bits_left := s.group.length * MDO_BITS - s.bit_offset
  let v ← Checked.value (if bits_left = 0 then some 0 else unpack_bits s.group s.bit_offset (bits_left % 2 ^ 32))
  Proc.modify fun s => { s with msg := field v s.msg, bit_offset := s.bit_offset + bits_left }
  if bits_left = 0 then Proc.fail .msg_missing_field else pure bits_left

def UNPACK_XADDR_VAO : Dec Unit := do
  let bits ← UNPACK_VAR_REQ Msg.set_xaddr
  if bits ≥ 64 then pure ()
  else do
    let s ← Proc.get
    let v ← Checked.value (sign_extend bits s.msg.xaddr.toNat)
    Proc.modify fun s => { s with msg := s.msg.set_xaddr v }

theorem value_bind_apply {σ ε α β : Type} (a : α) (f : α → Proc σ ε β) (s : σ) : (Checked.value (some a) >>= f) s = f a s := rfl

/-- Nothing is shifted by 64 or more. -/
theorem PACK_XADDR_VAO_eq (limit xaddr : Nat) (st : EncState) : PACK_XADDR_VAO limit xaddr st = nexusrv.PACK_XADDR_VAO limit xaddr st := by
  have hcut : ∀ b : Nat, (if b > 64 then 64 else b) ≤ 64 := by
    intro b
    split <;> omega
  have hle : xaddr_vao_bits st.bit_offset xaddr ≤ 64 := hcut _
  have hfield : PACK_FIELD limit (xaddr_vao_bits st.bit_offset xaddr) xaddr st =
      nexusrv.PACK_FIELD limit (xaddr_vao_bits st.bit_offset xaddr) xaddr st := by
    simp only [PACK_FIELD, nexusrv.PACK_FIELD, Proc.get_bind_apply, Proc.ite_apply, pack_bits_eq hle, value_bind_apply,
      Proc.modify_apply]
  unfold PACK_XADDR_VAO nexusrv.PACK_XADDR_VAO
  rw [Proc.get_bind_apply, Proc.get_bind_apply, Proc.bind_apply, Proc.bind_apply, hfield]

section Unpack
variable {s : DecState} {p k : Nat}

theorem value_none {σ ε α β : Type} (f : α → Proc σ ε β) (s : σ) : (Checked.value none >>= f) s = none := rfl

theorem unpack_var_req_apply {n v : Nat} (hleft : s.group.length * MDO_BITS - s.bit_offset = n) (h0 : n ≠ 0)
    (hv : unpack_bits s.group s.bit_offset (n % 2 ^ 32) = some v) (field : Nat → Msg → Msg) :
    UNPACK_VAR_REQ field s = some (.ok n, { s with msg := field v s.msg, bit_offset := s.bit_offset + n }) := by
  unfold UNPACK_VAR_REQ
  rw [Proc.get_bind_apply, hleft, if_neg h0, hv, if_neg h0]
  rfl

/-- A length that is 0 modulo 2 ^ 32 makes a shift by 64. -/
theorem UNPACK_XADDR_VAO_none (hoff : s.bit_offset = 6 * p) (hlen : s.group.length = p + k) (hk : 0 < k) (hzero : 6 * k % 2 ^ 32 = 0) :
    UNPACK_XADDR_VAO s = none := by
  have h0 : 6 * k ≠ 0 := Nat.mul_ne_zero (by decide) (Nat.ne_of_gt hk)
  have hvar : UNPACK_VAR_REQ Msg.set_xaddr s = none := by
    unfold UNPACK_VAR_REQ
    rw [Proc.get_bind_apply, groups_left hoff hlen, if_neg h0, hzero, unpack_bits_zero]
    exact value_none _ _
  unfold UNPACK_XADDR_VAO
  rw [Proc.bind_apply, hvar]

/-- Else nothing is shifted by 64 or more. -/
theorem UNPACK_XADDR_VAO_eq (hoff : s.bit_offset = 6 * p) (hlen : s.group.length = p + k) (hk : 0 < k) (hzero : 6 * k % 2 ^ 32 ≠ 0) :
    UNPACK_XADDR_VAO s = nexusrv.UNPACK_XADDR_VAO s := by
  have h0 : 6 * k ≠ 0 := Nat.mul_ne_zero (by decide) (Nat.ne_of_gt hk)
  have hvar : UNPACK_VAR_REQ Msg.set_xaddr s = nexusrv.UNPACK_VAR_REQ Msg.set_xaddr s := by
    rw [unpack_var_req_apply (groups_left hoff hlen) h0 (unpack_bits_eq (Nat.pos_of_ne_zero hzero) _ _),
      unpack_groups hoff hlen hk, unpack_bits_spec (spells_payload _), hoff, payload_drop, DecState.with_xaddr, hoff]
  unfold UNPACK_XADDR_VAO nexusrv.UNPACK_XADDR_VAO
  rw [Proc.bind_apply, Proc.bind_apply, hvar, unpack_groups hoff hlen hk]
  dsimp only
  by_cases h64 : 6 * k < 64
  · rw [if_neg (Nat.not_le.2 h64), Proc.get_bind_apply, sign_extend_eq (Nat.pos_of_ne_zero h0) h64, decide_eq_true h64]
    rfl
  · rw [if_pos (Nat.not_lt.1 h64), decide_eq_false h64]
    rfl

/-- The groups are read as their sign extension if they have less than 2 ^ 32 bits, or if the bits that are read of them by
mistake are all that is set. -/
theorem unpack_xaddr_iff (hoff : s.bit_offset = 6 * p) (hlen : s.group.length = p + k) (hk : 0 < k) :
    UNPACK_XADDR_VAO s = some (.ok (), s.with_xaddr k (sign_extended (min (6 * k) 64) (.ofNat (payload (s.group.drop p)))).toNat) ↔
      6 * k < 2 ^ 32 ∨ 6 * k % 2 ^ 32 ≠ 0 ∧ payload (s.group.drop p) % 2 ^ 64 < 2 ^ (6 * k % 2 ^ 32) := by
  have h0 : 6 * k ≠ 0 := Nat.mul_ne_zero (by decide) (Nat.ne_of_gt hk)
  by_cases hshort : 6 * k < 2 ^ 32
  · rw [UNPACK_XADDR_VAO_eq hoff hlen hk (by rwa [Nat.mod_eq_of_lt hshort])]
    exact iff_of_true (unpack_xaddr_vao hoff hlen hk hshort) (.inl hshort)
  by_cases hzero : 6 * k % 2 ^ 32 = 0
  · rw [UNPACK_XADDR_VAO_none hoff hlen hk hzero]
    exact iff_of_false (fun h => by cases h) fun h => h.elim hshort fun h => h.1 hzero
  have hfull : (sign_extended (min (6 * k) 64) (.ofNat (payload (s.group.drop p)))).toNat = payload (s.group.drop p) % 2 ^ 64 := by
    rw [Nat.min_eq_right (Nat.le_trans (by decide) (Nat.not_lt.1 hshort)), sign_extended_full]
    exact UInt64.toNat_ofNat'
  rw [UNPACK_XADDR_VAO_eq hoff hlen hk hzero, unpack_xaddr_long hoff hlen (Nat.not_lt.1 hshort), hfull]
  simp only [Option.some.injEq, Prod.mk.injEq, true_and, with_xaddr_inj]
  -- the low bits are all of the number
  generalize payload (s.group.drop p) = N
  generalize 6 * k % 2 ^ 32 = r at hzero ⊢
  have hcut : N % 2 ^ min r 64 % 2 ^ 64 = N % 2 ^ 64 % 2 ^ min r 64 := by
    rw [Nat.mod_mod_of_dvd _ (Nat.pow_dvd_pow 2 (Nat.min_le_right r 64))]
    exact Nat.mod_eq_of_lt (Nat.lt_of_lt_of_le (Nat.mod_lt _ (Nat.two_pow_pos _)) (Nat.pow_le_pow_right (by decide) (Nat.min_le_right r 64)))
  have hlt : N % 2 ^ 64 < 2 ^ 64 := Nat.mod_lt _ (Nat.two_pow_pos 64)
  rw [hcut, Nat.mod_mod]
  constructor
  · intro heq
    refine .inr ⟨hzero, ?_⟩
    rw [← heq]
    exact Nat.lt_of_lt_of_le (Nat.mod_lt _ (Nat.two_pow_pos _)) (Nat.pow_le_pow_right (by decide) (Nat.min_le_left r 64))
  · rintro (h | ⟨-, h⟩)
    · exact absurd h hshort
    · apply Nat.mod_eq_of_lt
      by_cases hr : r ≤ 64
      · rwa [Nat.min_eq_left hr]
      · rwa [Nat.min_eq_right (by omega)]

end Unpack

end Checked

/-- X-ADDR with VAO: the encoder sends the fewest groups that restore the address, the decoder
reads groups as their sign extension unless their length in bits does not fit an `unsigned`, and then
just where it is not 0 modulo 2 ^ 32 and its remainder has all bits that are set. -/
theorem xaddr_vao_minimal (x : UInt64) {limit : Nat} {st : EncState} (hlim : limit ≤ st.buffer.length) (halign : st.bit_offset % 6 = 0)
    {s : DecState} {p k : Nat} (hoff : s.bit_offset = 6 * p) (hlen : s.group.length = p + k) (hk : 0 < k) :
    (IsLeast {k | 0 < k ∧ sign_extended (min (6 * k) 64) x = x} (vao_groups x) ∧
      Checked.PACK_XADDR_VAO limit x.toNat st =
        if st.bit_offset + 6 * vao_groups x ≤ 6 * limit then some (.ok (), st.with_groups x)
        else some (.error .stream_truncate, st)) ∧
    (Checked.UNPACK_XADDR_VAO s =
        some (.ok (), s.with_xaddr k (sign_extended (min (6 * k) 64) (.ofNat (payload (s.group.drop p)))).toNat) ↔
      6 * k < 2 ^ 32 ∨ 6 * k % 2 ^ 32 ≠ 0 ∧ payload (s.group.drop p) % 2 ^ 64 < 2 ^ (6 * k % 2 ^ 32)) := by
  refine ⟨⟨vao_groups_least x, ?_⟩, Checked.unpack_xaddr_iff hoff hlen hk⟩
  rw [Checked.PACK_XADDR_VAO_eq]
  exact pack_xaddr_vao x hlim halign

/-- Eleven groups, with ones in the padding. -/
def eleven_groups : DecState := { msg := Msg.zero, buffer := [], group := List.replicate 11 0xfc, bit_offset := 0, eom := false }

theorem xaddr_vao_minimal_eleven : IsLeast {k | 0 < k ∧ sign_extended (min (6 * k) 64) 0x20 = 0x20} (vao_groups 0x20) ∧ vao_groups 0x20 = 2 ∧
    ∃ t, Checked.UNPACK_XADDR_VAO eleven_groups = some (.ok (), t) ∧ t.msg.xaddr = 0xffffffffffffffff := by
  have hlim : 4 ≤ (EncState.mk (List.replicate 4 0) 6).buffer.length := by decide
  have hoff : eleven_groups.bit_offset = 6 * 0 := rfl
  have hlen : eleven_groups.group.length = 0 + 11 := rfl
  have h := xaddr_vao_minimal 0x20 hlim rfl hoff hlen (by decide)
  exact ⟨h.1.1, by decide +kernel, _, h.2.2 (.inl (by decide)), by decide +kernel⟩

/-- Groups of 2 ^ 32 + 2 bits that spell 5. -/
def long_groups : DecState := { msg := Msg.zero, buffer := [], group := 0x14 :: List.replicate 715827882 0, bit_offset := 0, eom := false }

theorem payload_zeros (n : Nat) : payload (List.replicate n 0) = 0 := by
  induction n with
  | zero => rfl
  | succ n ih => rw [List.replicate_succ, payload, ih]; rfl

/-- Of the groups of 2 ^ 32 + 2 bits, two bits are read. -/
theorem long_xaddr_cut : ¬ ∀ (s : DecState) (p k : Nat), s.bit_offset = 6 * p → s.group.length = p + k → 0 < k →
    Checked.UNPACK_XADDR_VAO s =
      some (.ok (), s.with_xaddr k (sign_extended (min (6 * k) 64) (.ofNat (payload (s.group.drop p)))).toNat) := by
  intro hall
  have hlen : long_groups.group.length = 0 + 715827883 := by
    rw [long_groups, List.length_cons, List.length_replicate]
  have hiff := Checked.unpack_xaddr_iff (s := long_groups) (p := 0) rfl hlen (by decide)
  have hpay : payload (long_groups.group.drop 0) = 5 := by
    rw [List.drop_zero, long_groups, payload, payload_zeros]
    rfl
  rw [hpay] at hiff
  exact absurd (hiff.1 (hpay ▸ hall _ _ _ rfl hlen (by decide))) (by decide)

end nexusrv
