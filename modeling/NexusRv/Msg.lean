import Mathlib.Algebra.Group.Nat.Defs
import Mathlib.Tactic.Basic
/-!
# Messages

The decoded message of `msg-types.h`, its predicates, the error codes and the
hardware configuration. The members of a C union share one storage field here
too, so writing one member changes the others exactly as in the source.
-/

namespace nexusrv

/-- `enum nexus_error`; a function that returns `-nexus_x` fails with `x`. -/
inductive NexusError where
  | no_mem
  | buffer_too_small
  | hwcfg_invalid
  | stream_bad_mseo
  | stream_truncate
  | stream_read_failed
  | msg_invalid
  | msg_missing_field
  | msg_unsupported
  | trace_eof
  | trace_not_synced
  | trace_hist_overflow
  | trace_icnt_overflow
  | trace_retstack_empty
  | trace_mismatch
  deriving DecidableEq, Repr

/-- `nexusrv_hw_cfg`. -/
structure HwCfg where
  src_bits : Nat
  ts_bits : Nat
  addr_bits : Nat
  max_stack : Nat
  timer_freq : UInt64
  HTM : Bool
  VAO : Bool
  quirk_sifive : Bool
  deriving DecidableEq, Repr

/-! ## TCODEs -/

/-- The codes `enum nexusrv_tcodes` names. -/
def namedCodes : List Nat := [2, 3, 4, 7, 8, 9, 11, 12, 27, 28, 29, 30, 33, 34, 63]

/-- A `uint8_t` TCODE: one of the named codes, or a number without a name. -/
inductive Tcode where
  | Ownership
  | DirectBranch
  | IndirectBranch
  | DataAcquisition
  | Error
  | ProgTraceSync
  | DirectBranchSync
  | IndirectBranchSync
  | ResourceFull
  | IndirectBranchHist
  | IndirectBranchHistSync
  | RepeatBranch
  | ProgTraceCorrelation
  | ICT
  | Idle
  | other (code : Nat) (lt : code < 256) (unnamed : code ∉ namedCodes)
  deriving DecidableEq, Repr

namespace Tcode

def code : Tcode → Nat
  | Ownership => 2
  | DirectBranch => 3
  | IndirectBranch => 4
  | DataAcquisition => 7
  | Error => 8
  | ProgTraceSync => 9
  | DirectBranchSync => 11
  | IndirectBranchSync => 12
  | ResourceFull => 27
  | IndirectBranchHist => 28
  | IndirectBranchHistSync => 29
  | RepeatBranch => 30
  | ProgTraceCorrelation => 33
  | ICT => 34
  | Idle => 63
  | other c _ _ => c

/-- The name of a code in `namedCodes`. -/
def ofNamed : Nat → Tcode
  | 2 => Ownership
  | 3 => DirectBranch
  | 4 => IndirectBranch
  | 7 => DataAcquisition
  | 8 => Error
  | 9 => ProgTraceSync
  | 11 => DirectBranchSync
  | 12 => IndirectBranchSync
  | 27 => ResourceFull
  | 28 => IndirectBranchHist
  | 29 => IndirectBranchHistSync
  | 30 => RepeatBranch
  | 33 => ProgTraceCorrelation
  | 34 => ICT
  | _ => Idle

/-- Storing `v` in a `uint8_t` TCODE. -/
def ofNat (v : Nat) : Tcode :=
  if h : v % 256 ∈ namedCodes then ofNamed (v % 256) else other (v % 256) (Nat.mod_lt _ (by decide)) h

@[simp] theorem ofNat_code (t : Tcode) : ofNat t.code = t := by
  cases t with
  | other c lt h =>
    have hc : c % 256 = c := Nat.mod_eq_of_lt lt
    simp only [ofNat, code, hc, dif_neg h]
  | _ => rfl

theorem code_lt (t : Tcode) : t.code < 256 := by
  cases t with
  | other c lt h => exact lt
  | _ => decide

end Tcode

/-! ## The message -/

/-- `nexusrv_msg`. `bits` is the byte of the bit-field union; `icnt` is also
`error_code` and `res_data`, `hist` and `hrepeat` are the halves of `ckdata0`,
and `xaddr` is also `context`, `dqdata` and `ckdata1`. -/
structure Msg where
  timestamp : UInt64
  src : UInt16
  tcode : Tcode
  bits : UInt8
  icnt : UInt32
  hist : UInt32
  hrepeat : UInt32
  xaddr : UInt64
  deriving DecidableEq, Repr

/-- A bit field of `n` bits at bit `lo` of a byte. -/
def bitField (lo n : Nat) (b : UInt8) : Nat := b.toNat / 2 ^ lo % 2 ^ n

/-- Store the low `n` bits of `v` in the bit field. -/
def setBitField (lo n v : Nat) (b : UInt8) : UInt8 :=
  .ofNat (b.toNat % 2 ^ lo + v % 2 ^ n * 2 ^ lo + b.toNat / 2 ^ (lo + n) * 2 ^ (lo + n))

namespace Msg

/-- All bytes zero, as after `memset`. -/
def zero : Msg := ⟨0, 0, .ofNat 0, 0, 0, 0, 0, 0⟩

def sync_type (m : Msg) : Nat := bitField 0 4 m.bits
def branch_type (m : Msg) : Nat := bitField 4 2 m.bits
def error_type (m : Msg) : Nat := bitField 0 4 m.bits
def res_code (m : Msg) : Nat := bitField 0 4 m.bits
def stop_code (m : Msg) : Nat := bitField 0 4 m.bits
def cdf (m : Msg) : Nat := bitField 4 2 m.bits
def ownership_fmt (m : Msg) : Nat := bitField 0 2 m.bits
def ownership_priv (m : Msg) : Nat := bitField 2 2 m.bits
def ownership_v (m : Msg) : Nat := bitField 4 1 m.bits
def idtag (m : Msg) : Nat := bitField 0 3 m.bits
def cksrc (m : Msg) : Nat := bitField 0 4 m.bits
def ckdf (m : Msg) : Nat := bitField 4 2 m.bits
def error_code (m : Msg) : UInt32 := m.icnt
def res_data (m : Msg) : UInt32 := m.icnt
def ckdata0 (m : Msg) : Nat := m.hist.toNat + m.hrepeat.toNat * 2 ^ 32
def context (m : Msg) : UInt64 := m.xaddr
def dqdata (m : Msg) : UInt64 := m.xaddr
def ckdata1 (m : Msg) : UInt64 := m.xaddr

def set_bits (lo n : Nat) (v : Nat) (m : Msg) : Msg := { m with bits := setBitField lo n v m.bits }
def set_sync_type : Nat → Msg → Msg := set_bits 0 4
def set_branch_type : Nat → Msg → Msg := set_bits 4 2
def set_error_type : Nat → Msg → Msg := set_bits 0 4
def set_res_code : Nat → Msg → Msg := set_bits 0 4
def set_stop_code : Nat → Msg → Msg := set_bits 0 4
def set_cdf : Nat → Msg → Msg := set_bits 4 2
def set_ownership_fmt : Nat → Msg → Msg := set_bits 0 2
def set_ownership_priv : Nat → Msg → Msg := set_bits 2 2
def set_ownership_v : Nat → Msg → Msg := set_bits 4 1
def set_idtag : Nat → Msg → Msg := set_bits 0 3
def set_cksrc : Nat → Msg → Msg := set_bits 0 4
def set_ckdf : Nat → Msg → Msg := set_bits 4 2
def set_timestamp (v : Nat) (m : Msg) : Msg := { m with timestamp := .ofNat v }
def set_src (v : Nat) (m : Msg) : Msg := { m with src := .ofNat v }
def set_tcode (v : Nat) (m : Msg) : Msg := { m with tcode := .ofNat v }
def set_icnt (v : Nat) (m : Msg) : Msg := { m with icnt := .ofNat v }
def set_error_code : Nat → Msg → Msg := set_icnt
def set_res_data : Nat → Msg → Msg := set_icnt
def set_hist (v : Nat) (m : Msg) : Msg := { m with hist := .ofNat v }
def set_hrepeat (v : Nat) (m : Msg) : Msg := { m with hrepeat := .ofNat v }
def set_ckdata0 (v : Nat) (m : Msg) : Msg := { m with hist := .ofNat v, hrepeat := .ofNat (v / 2 ^ 32) }
def set_xaddr (v : Nat) (m : Msg) : Msg := { m with xaddr := .ofNat v }
def set_context : Nat → Msg → Msg := set_xaddr
def set_dqdata : Nat → Msg → Msg := set_xaddr
def set_ckdata1 : Nat → Msg → Msg := set_xaddr

end Msg

theorem ckdata0_lt (m : Msg) : m.ckdata0 < 2 ^ 64 := by
  have h1 := m.hist.toNat_lt
  have h2 := m.hrepeat.toNat_lt
  unfold Msg.ckdata0
  omega

theorem setBitField_toNat {lo n : Nat} (v : Nat) (b : UInt8) (h : lo + n ≤ 8) :
    (setBitField lo n v b).toNat =
      b.toNat % 2 ^ lo + 2 ^ lo * (v % 2 ^ n) + 2 ^ (lo + n) * (b.toNat / 2 ^ (lo + n)) ∧
      b.toNat % 2 ^ lo + 2 ^ lo * (v % 2 ^ n) < 2 ^ (lo + n) := by
  have h1 : b.toNat % 2 ^ lo < 2 ^ lo := Nat.mod_lt _ (Nat.two_pow_pos _)
  have h2 : v % 2 ^ n < 2 ^ n := Nat.mod_lt _ (Nat.two_pow_pos _)
  have h3 : 2 ^ lo * (v % 2 ^ n + 1) ≤ 2 ^ lo * 2 ^ n := Nat.mul_le_mul_left _ h2
  have h4 : 2 ^ (8 - (lo + n)) * 2 ^ (lo + n) = 256 := by
    rw [← Nat.pow_add, Nat.sub_add_cancel h]
  have h5 : b.toNat / 2 ^ (lo + n) < 2 ^ (8 - (lo + n)) :=
    Nat.div_lt_of_lt_mul (by rw [Nat.mul_comm, h4]; exact b.toNat_lt)
  have h6 : 2 ^ (lo + n) * (b.toNat / 2 ^ (lo + n) + 1) ≤ 2 ^ (lo + n) * 2 ^ (8 - (lo + n)) := Nat.mul_le_mul_left _ h5
  rw [Nat.mul_add, ← Nat.pow_add] at h3
  rw [Nat.mul_add, Nat.mul_comm _ (2 ^ (8 - (lo + n))), h4] at h6
  refine ⟨?_, by omega⟩
  rw [setBitField, UInt8.toNat_ofNat', Nat.mul_comm (v % 2 ^ n), Nat.mul_comm (b.toNat / 2 ^ (lo + n))]
  exact Nat.mod_eq_of_lt (by omega)

theorem bitField_setBitField {lo n : Nat} (v : Nat) (b : UInt8) (h : lo + n ≤ 8) :
    bitField lo n (setBitField lo n v b) = v % 2 ^ n := by
  have h1 : b.toNat % 2 ^ lo < 2 ^ lo := Nat.mod_lt _ (Nat.two_pow_pos _)
  rw [bitField, (setBitField_toNat v b h).1, Nat.pow_add, Nat.mul_assoc, Nat.add_assoc, ← Nat.mul_add,
    Nat.add_mul_div_left _ _ (Nat.two_pow_pos _), Nat.div_eq_of_lt h1, Nat.zero_add, Nat.add_mul_mod_self_left,
    Nat.mod_mod]

/-- Storing a bit field leaves the others alone. -/
theorem bitField_setBitField_of_le {lo n lo' n' : Nat} (v : Nat) (b : UInt8) (h : lo + n ≤ 8)
    (h' : lo + n ≤ lo' ∨ lo' + n' ≤ lo) : bitField lo' n' (setBitField lo n v b) = bitField lo' n' b := by
  obtain ⟨hv, hlt⟩ := setBitField_toNat v b h
  rcases h' with h' | h'
  · obtain ⟨k, rfl⟩ := Nat.exists_eq_add_of_le h'
    have hdiv : ∀ x, x / 2 ^ (lo + n + k) = x / 2 ^ (lo + n) / 2 ^ k := fun x => by
      rw [Nat.pow_add, Nat.div_div_eq_div_mul]
    rw [bitField, bitField, hdiv, hdiv, hv, Nat.add_mul_div_left _ _ (Nat.two_pow_pos _), Nat.div_eq_of_lt hlt,
      Nat.zero_add]
  · obtain ⟨k, rfl⟩ := Nat.exists_eq_add_of_le h'
    have hmod : ∀ x, x / 2 ^ lo' % 2 ^ n' = x % 2 ^ (lo' + n' + k) % 2 ^ (lo' + n') / 2 ^ lo' := fun x => by
      rw [Nat.mod_mod_of_dvd _ (Nat.pow_dvd_pow 2 (Nat.le_add_right _ k)), Nat.pow_add 2 lo' n', Nat.mod_mul_right_div_self]
    rw [bitField, bitField, hmod, hmod b.toNat, hv, Nat.pow_add 2 (lo' + n' + k) n, Nat.mul_assoc, Nat.add_assoc,
      ← Nat.mul_add, Nat.add_mul_mod_self_left, Nat.mod_mod]

/-! ## Predicates of `msg-types.h` -/

def msg_known (m : Msg) : Bool :=
  match m.tcode with
  | .Idle | .ResourceFull | .DirectBranch | .DirectBranchSync | .IndirectBranch | .IndirectBranchSync
  | .IndirectBranchHist | .IndirectBranchHistSync | .RepeatBranch | .Error | .DataAcquisition | .Ownership
  | .ProgTraceSync => true
  | .ProgTraceCorrelation => m.cdf < 2
  | .ICT => m.cksrc < 2
  | _ => false

def msg_idle (m : Msg) : Bool := m.tcode = .Idle

def msg_has_src (m : Msg) : Bool := !msg_idle m

def msg_is_branch (m : Msg) : Bool :=
  match m.tcode with
  | .DirectBranch | .DirectBranchSync | .IndirectBranch | .IndirectBranchSync | .IndirectBranchHist
  | .IndirectBranchHistSync => true
  | _ => false

def msg_is_indir_branch (m : Msg) : Bool :=
  match m.tcode with
  | .IndirectBranch | .IndirectBranchSync | .IndirectBranchHist | .IndirectBranchHistSync => true
  | _ => false

def msg_is_res (m : Msg) : Bool := m.tcode = .ResourceFull

def msg_is_sync (m : Msg) : Bool :=
  match m.tcode with
  | .DirectBranchSync | .IndirectBranchSync | .IndirectBranchHistSync | .ProgTraceSync => true
  | _ => false

def msg_is_error (m : Msg) : Bool := m.tcode = .Error

def msg_is_stop (m : Msg) : Bool := m.tcode = .ProgTraceCorrelation

def msg_is_data_acq (m : Msg) : Bool := m.tcode = .DataAcquisition

def msg_has_icnt (m : Msg) : Bool :=
  match m.tcode with
  | .ResourceFull => m.res_code = 0
  | .DirectBranch | .DirectBranchSync | .IndirectBranch | .IndirectBranchSync | .IndirectBranchHist
  | .IndirectBranchHistSync | .ProgTraceSync | .ProgTraceCorrelation => true
  | _ => false

def msg_has_xaddr (m : Msg) : Bool :=
  match m.tcode with
  | .IndirectBranch | .IndirectBranchSync | .IndirectBranchHist | .IndirectBranchHistSync | .DirectBranchSync
  | .ProgTraceSync => true
  | _ => false

def msg_has_hist (m : Msg) : Bool :=
  match m.tcode with
  | .ResourceFull => m.res_code = 1 || m.res_code = 2
  | .ProgTraceCorrelation => m.cdf = 1
  | .IndirectBranchHist | .IndirectBranchHistSync => true
  | _ => false

/-- The number of history bits below the stop bit, `63 - __builtin_clzl(hist)`. -/
def msg_hist_bits (hist : UInt32) : Nat := if hist = 0 then 0 else Nat.log2 hist.toNat

theorem msg_hist_bits_lt (hist : UInt32) : msg_hist_bits hist < 32 := by
  unfold msg_hist_bits
  split
  · decide
  · rename_i h
    have hne : hist.toNat ≠ 0 := fun e => h (UInt32.toNat_inj.1 (by simpa using e))
    exact (Nat.log2_lt hne).2 hist.toNat_lt

end nexusrv
