import Mathlib.Data.Nat.Bitwise
import NexusRv.Trace
/-!
# Shifts

The loops and masks of the code with the rule of C that a 64-bit value is shifted by less than 64: what shifts by more is undefined, which
is `none`. The amounts are `unsigned`, or a `size_t` where they are the length of a group.
-/

namespace nexusrv

namespace Checked

/-! ## The code -/

/-- `<<` and `>>` of a 64-bit value. -/
def shl (x n : Nat) : Option Nat := if n < 64 then some (x <<< n % 2 ^ 64) else none
def shr (x n : Nat) : Option Nat := if n < 64 then some (x >>> n) else none

/-- `a - b` of an `unsigned`. -/
def unsigned_sub (a b : Nat) : Nat := (a + (2 ^ 32 - b)) % 2 ^ 32

def pack_bits_loop : Nat → List UInt8 → Nat → Nat → Nat → Option (List UInt8)
  | 0, buffer, _, _, _ => some buffer
  | fuel + 1, buffer, bit_offset, value, bits =>
    let byte := bit_offset / MDO_BITS
    let shift := bit_offset % MDO_BITS
    let available := MDO_BITS - shift
    let b := if shift = 0 then msg_byte 0 value else buffer.getD byte 0
    match shl value shift with
    | none => none
    | some shifted =>
      let written := buffer.set byte (msg_byte (mseo b) (mdo b ||| shifted))
      if available ≥ bits then some written
      else match shr value available with
        | none => none
        | some rest => pack_bits_loop fuel written (bit_offset + available) rest (bits - available)

def pack_bits (buffer : List UInt8) (bit_offset value bits : Nat) : Option (List UInt8) :=
  if bits = 0 then some buffer
  else match shr (2 ^ 64 - 1) (unsigned_sub 64 bits) with
    | none => none
    | some mask => pack_bits_loop bits buffer bit_offset (value &&& mask) bits

def unpack_bits_loop (buffer : List UInt8) (start_byte shift : Nat) : Nat → Nat → Option Nat
  | 0, value =>
    match shl value (MDO_BITS - shift), shr (mdo (buffer.getD start_byte 0)) shift with
    | some high, some low => some (high ||| low)
    | _, _ => none
  | n + 1, value =>
    match shl value MDO_BITS with
    | none => none
    | some high => unpack_bits_loop buffer start_byte shift n (high ||| mdo (buffer.getD (start_byte + (n + 1)) 0))

def unpack_bits (buffer : List UInt8) (bit_offset bits : Nat) : Option Nat :=
  let start_byte := bit_offset / MDO_BITS
  let last_byte := (bit_offset + bits - 1) / MDO_BITS
  match unpack_bits_loop buffer start_byte (bit_offset % MDO_BITS) (last_byte - start_byte) 0 with
  | none => none
  | some value =>
    if bits < 64 then
      match shr (2 ^ 64 - 1) (unsigned_sub 64 bits) with
      | none => none
      | some mask => some (value &&& mask)
    else some value

/-- The value of `FIELD` behind `UNPACK_XADDR_VAO`, with the value before. -/
def sign_extend (bits value : Nat) : Option Nat :=
  match shl 1 (bits - 1) with
  | none => none
  | some sign =>
    if value &&& sign ≠ 0 then
      match shl (2 ^ 64 - 1) bits with
      | none => none
      | some high => some (value ||| high)
    else some value

def extend_addr_bits (addr : UInt64) (bits : Nat) : Option UInt64 :=
  if bits ≥ 64 then some addr
  else match shl 1 (unsigned_sub bits 1) with
    | none => none
    | some sign =>
      if addr &&& .ofNat sign ≠ 0 then
        match shl (2 ^ 64 - 1) bits with
        | none => none
        | some high => some (addr ||| .ofNat high)
      else some addr

/-- The timestamp, as `nexusrv_trace_time` masks it. -/
def trace_time_mask (timestamp : UInt64) (ts_bits : Nat) : Option UInt64 :=
  if ts_bits < 64 then
    match shl 1 ts_bits with
    | none => none
    | some bit => some (timestamp &&& (.ofNat bit - 1))
  else some timestamp

/-- `1 << n` of an `int`, the number of files of `split`. -/
def file_count (n : Nat) : Option Nat := if n < 31 then some (1 <<< n) else none

/-! ## Where nothing is undefined -/

theorem shl_one_eq {n : Nat} (h : n < 64) : shl 1 n = some (2 ^ n) := by
  unfold shl
  rw [if_pos h, Nat.shiftLeft_eq, Nat.one_mul, Nat.mod_eq_of_lt (Nat.pow_lt_pow_right (by decide) h)]

theorem shl_ones_eq {bits : Nat} (h : bits < 64) : shl (2 ^ 64 - 1) bits = some (2 ^ 64 - 2 ^ bits) := by
  have hle : 2 ^ bits < 2 ^ 64 := Nat.pow_lt_pow_right (by decide) h
  have hpos : 0 < 2 ^ bits := Nat.two_pow_pos bits
  unfold shl
  rw [if_pos h, Nat.shiftLeft_eq, Nat.sub_mul, Nat.one_mul,
    show 2 ^ 64 * 2 ^ bits - 2 ^ bits = 2 ^ 64 - 2 ^ bits + 2 ^ 64 * (2 ^ bits - 1) by rw [Nat.mul_sub, Nat.mul_one]; omega,
    Nat.add_mul_mod_self_left, Nat.mod_eq_of_lt (by omega)]

theorem mask_eq {bits : Nat} (h0 : 0 < bits) (h64 : bits ≤ 64) : shr (2 ^ 64 - 1) (unsigned_sub 64 bits) = some (2 ^ bits - 1) := by
  have hsub : unsigned_sub 64 bits = 64 - bits := by
    unfold unsigned_sub
    omega
  have hpow : 2 ^ 64 = 2 ^ (64 - bits) * 2 ^ bits := by rw [← Nat.pow_add, Nat.sub_add_cancel h64]
  have hone : 2 ^ (64 - bits) * 2 ^ bits - 1 = 2 ^ (64 - bits) - 1 + 2 ^ (64 - bits) * (2 ^ bits - 1) := by
    have h1 : 1 ≤ 2 ^ (64 - bits) := Nat.two_pow_pos _
    have h2 : 2 ^ (64 - bits) ≤ 2 ^ (64 - bits) * 2 ^ bits := Nat.le_mul_of_pos_right _ (Nat.two_pow_pos _)
    rw [Nat.mul_sub, Nat.mul_one]
    omega
  unfold shr
  rw [hsub, if_pos (by omega), Nat.shiftRight_eq_div_pow, hpow, hone, Nat.add_mul_div_left _ _ (Nat.two_pow_pos _),
    Nat.div_eq_of_lt (Nat.sub_lt (Nat.two_pow_pos _) Nat.one_pos), Nat.zero_add]

/-- A bit field of six bits takes nothing from the bits above. -/
theorem msg_byte_low (a d x : Nat) : msg_byte a (d ||| x % 2 ^ 64) = msg_byte a (d ||| x) := by
  rw [← msg_byte_mod, ← msg_byte_mod a (d ||| x), show 64 = 2 ^ 6 from rfl, Nat.or_mod_two_pow, Nat.or_mod_two_pow,
    Nat.mod_mod_of_dvd _ (Nat.pow_dvd_pow 2 (by decide))]

theorem pack_bits_loop_eq (fuel : Nat) : ∀ (buffer : List UInt8) (bit_offset value bits : Nat),
    pack_bits_loop fuel buffer bit_offset value bits = some (nexusrv.pack_bits_loop fuel buffer bit_offset value bits) := by
  induction fuel with
  | zero => exact fun _ _ _ _ => rfl
  | succ fuel ih =>
    intro buffer bit_offset value bits
    have hshift : bit_offset % MDO_BITS < 6 := Nat.mod_lt _ (by decide)
    have hshl : shl value (bit_offset % MDO_BITS) = some (value <<< (bit_offset % MDO_BITS) % 2 ^ 64) := if_pos (by omega)
    have hshr : shr value (MDO_BITS - bit_offset % MDO_BITS) = some (value >>> (MDO_BITS - bit_offset % MDO_BITS)) := by
      apply if_pos
      simp only [MDO_BITS]
      omega
    simp only [pack_bits_loop, nexusrv.pack_bits_loop, hshl, hshr, ih, msg_byte_low]
    split <;> rfl

theorem pack_bits_eq {bits : Nat} (h : bits ≤ 64) (buffer : List UInt8) (bit_offset value : Nat) :
    pack_bits buffer bit_offset value bits = some (nexusrv.pack_bits buffer bit_offset value bits) := by
  unfold pack_bits nexusrv.pack_bits
  by_cases h0 : bits = 0
  · rw [if_pos h0, if_pos h0]
  · rw [if_neg h0, if_neg h0, mask_eq (by omega) h]
    simp only [Nat.and_two_pow_sub_one_eq_mod]
    exact pack_bits_loop_eq bits buffer bit_offset _ bits

theorem unpack_bits_loop_eq {buffer : List UInt8} {start_byte shift : Nat} (hs : shift < 6) (n : Nat) : ∀ value,
    unpack_bits_loop buffer start_byte shift n value = some (nexusrv.unpack_bits_loop buffer start_byte shift n value) := by
  induction n with
  | zero =>
    intro value
    have hshl : shl value (MDO_BITS - shift) = some (value <<< (MDO_BITS - shift) % 2 ^ 64) := by
      apply if_pos
      simp only [MDO_BITS]
      omega
    have hshr : shr (mdo (buffer.getD start_byte 0)) shift = some (mdo (buffer.getD start_byte 0) >>> shift) := if_pos (by omega)
    simp only [unpack_bits_loop, nexusrv.unpack_bits_loop, hshl, hshr]
  | succ n ih =>
    intro value
    have hshl : shl value MDO_BITS = some (value <<< MDO_BITS % 2 ^ 64) := if_pos (by decide)
    simp only [unpack_bits_loop, nexusrv.unpack_bits_loop, hshl, ih]

theorem unpack_bits_eq {bits : Nat} (h0 : 0 < bits) (buffer : List UInt8) (bit_offset : Nat) :
    unpack_bits buffer bit_offset bits = some (nexusrv.unpack_bits buffer bit_offset bits) := by
  simp only [unpack_bits, nexusrv.unpack_bits, unpack_bits_loop_eq (Nat.mod_lt bit_offset (show 0 < 6 by decide))]
  split
  · rename_i h
    rw [mask_eq h0 (by omega)]
    simp only [Nat.and_two_pow_sub_one_eq_mod]
  · rfl

/-- A mask of no bits needs a shift by 64. -/
theorem unpack_bits_zero (buffer : List UInt8) (bit_offset : Nat) : unpack_bits buffer bit_offset 0 = none := by
  simp only [unpack_bits, unpack_bits_loop_eq (Nat.mod_lt bit_offset (show 0 < 6 by decide))]
  rfl

theorem sign_extend_eq {bits : Nat} (h0 : 0 < bits) (h64 : bits < 64) (value : Nat) :
    sign_extend bits value = some (nexusrv.sign_extend bits value) := by
  have hsign : shl 1 (bits - 1) = some (2 ^ (bits - 1)) := shl_one_eq (by omega)
  have htest : (value &&& 2 ^ (bits - 1) ≠ 0) ↔ value.testBit (bits - 1) = true := by
    rw [Nat.and_two_pow]
    cases value.testBit (bits - 1) <;> simp
  unfold sign_extend nexusrv.sign_extend
  simp only [hsign, shl_ones_eq h64, htest]
  split <;> rfl

theorem extend_addr_bits_eq {bits : Nat} (h0 : 0 < bits) (addr : UInt64) :
    extend_addr_bits addr bits = some (nexusrv.extend_addr_bits addr bits) := by
  unfold extend_addr_bits nexusrv.extend_addr_bits
  by_cases h64 : bits ≥ 64
  · rw [if_pos h64, if_pos h64]
  have hsub : unsigned_sub bits 1 = bits - 1 := by
    unfold unsigned_sub
    omega
  have hlt : 2 ^ (bits - 1) < 2 ^ 64 := Nat.pow_lt_pow_right (by decide) (by omega)
  have hand : (addr &&& .ofNat (2 ^ (bits - 1))).toNat = addr.toNat &&& 2 ^ (bits - 1) := by
    rw [UInt64.toNat_and, UInt64.toNat_ofNat_of_lt' hlt]
  have htest : (addr &&& .ofNat (2 ^ (bits - 1)) ≠ 0) ↔ addr.toNat.testBit (bits - 1) = true := by
    rw [ne_eq, ← UInt64.toNat_inj, hand, Nat.and_two_pow]
    cases addr.toNat.testBit (bits - 1) <;> simp
  rw [if_neg h64, if_neg h64, hsub, shl_one_eq (by omega), shl_ones_eq (by omega)]
  simp only [htest]
  split <;> rfl

/-- A sign bit below bit 0 needs a shift by `0 - 1`. -/
theorem extend_addr_bits_zero (addr : UInt64) : extend_addr_bits addr 0 = none := rfl

theorem trace_time_mask_eq (timestamp : UInt64) (ts_bits : Nat) : trace_time_mask timestamp ts_bits =
    some (.ofNat (if ts_bits < 64 then timestamp.toNat % 2 ^ ts_bits else timestamp.toNat)) := by
  unfold trace_time_mask
  split
  · rename_i h
    have hpow : 2 ^ ts_bits < 2 ^ 64 := Nat.pow_lt_pow_right (by decide) h
    have hpos : 0 < 2 ^ ts_bits := Nat.two_pow_pos ts_bits
    have hle : (1 : UInt64) ≤ .ofNat (2 ^ ts_bits) := by
      rw [UInt64.le_iff_toNat_le, UInt64.toNat_ofNat_of_lt' hpow]
      exact hpos
    have hmod : timestamp.toNat % 2 ^ ts_bits < 2 ^ 64 := Nat.lt_of_le_of_lt (Nat.mod_le _ _) timestamp.toNat_lt
    simp only [shl_one_eq h]
    rw [Option.some.injEq, ← UInt64.toNat_inj, UInt64.toNat_and, UInt64.toNat_sub_of_le _ _ hle, UInt64.toNat_ofNat_of_lt' hpow,
      UInt64.toNat_ofNat_of_lt' hmod]
    exact Nat.and_two_pow_sub_one_eq_mod _ _
  · rw [UInt64.ofNat_toNat]

end Checked

end nexusrv
