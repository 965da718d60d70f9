import NexusRv.Lib.Proc
import NexusRv.Lib.Fields
import NexusRv.Msg
/-!
# The message encoder

`msg-encoder.c`. The buffer is written in place, byte by byte; `Layout` says
which bit fields each message is made of, and `msg_encode_spec` that the
encoder writes exactly those fields, in frames.
-/

namespace nexusrv

open Fields

/-! ## Bytes of the protocol -/

/-- `NEXUS_RV_MDO_BITS`. -/
abbrev MDO_BITS : Nat := 6

/-- The two members of `nexusrv_msg_byte`. -/
def mseo (b : UInt8) : Nat := b.toNat % 4
def mdo (b : UInt8) : Nat := b.toNat / 4

/-- The byte with these two members, each truncated to its bit field. -/
def msg_byte (mseo mdo : Nat) : UInt8 := .ofNat (mseo % 4 + 4 * (mdo % 64))

@[simp] theorem mseo_msg_byte (a d : Nat) : mseo (msg_byte a d) = a % 4 := by
  simp [mseo, msg_byte]

@[simp] theorem mdo_msg_byte (a d : Nat) : mdo (msg_byte a d) = d % 64 := by
  simp [mdo, msg_byte]; omega

@[simp] theorem msg_byte_mod (a d : Nat) : msg_byte a (d % 64) = msg_byte a d := by
  rw [msg_byte, msg_byte, Nat.mod_mod]

theorem mdo_lt (b : UInt8) : mdo b < 64 := by
  have := b.toNat_lt
  unfold mdo
  omega

/-! ## The code -/

/-- The loop of `pack_bits`; every round uses up at least one of the `bits`,
so `fuel = bits` rounds are enough. -/
def pack_bits_loop : Nat → List UInt8 → Nat → Nat → Nat → List UInt8
  | 0, buffer, _, _, _ => buffer
  | fuel + 1, buffer, bit_offset, value, bits =>
    let byte := bit_offset / MDO_BITS
    let shift := bit_offset % MDO_BITS
    let available := MDO_BITS - shift
    let b := buffer.getD byte 0
    let b := if shift = 0 then msg_byte 0 value else b
    let b := msg_byte (mseo b) (mdo b ||| value <<< shift)
    let buffer := buffer.set byte b
    if available ≥ bits then buffer
    else pack_bits_loop fuel buffer (bit_offset + available) (value >>> available) (bits - available)

def pack_bits (buffer : List UInt8) (bit_offset value bits : Nat) : List UInt8 :=
  if bits = 0 then buffer else pack_bits_loop bits buffer bit_offset (value % 2 ^ bits) bits

/-- The buffer and `bit_offset` of `nexusrv_msg_encode`. -/
structure EncState where
  buffer : List UInt8
  bit_offset : Nat

abbrev Enc := Proc EncState NexusError

def PACK_FIELD (limit bits value : Nat) : Enc Unit := do
  let s ← Proc.get
  if s.bit_offset + bits > limit * MDO_BITS then Proc.fail .stream_truncate
  else Proc.modify fun s => ⟨pack_bits s.buffer s.bit_offset value bits, s.bit_offset + bits⟩

def END_FIELD (mseo : Nat) : Enc Unit :=
  Proc.modify fun s =>
    let byte := (s.bit_offset + MDO_BITS - 1) / MDO_BITS
    let b := s.buffer.getD (byte - 1) 0
    ⟨s.buffer.set (byte - 1) (msg_byte mseo (mdo b)), byte * MDO_BITS⟩

def PACK_FIXED (limit bits value : Nat) : Enc Unit := PACK_FIELD limit bits value

/-- `__builtin_clzg` on a 64-bit value, with its result for zero. -/
def clzg (value prec : Nat) : Nat := if value = 0 then prec else 63 - Nat.log2 value

def PACK_VAR (limit value : Nat) : Enc Unit := do
  PACK_FIELD limit (64 - clzg value 64) value
  END_FIELD 1

def PACK_VAR_REQ (limit value : Nat) : Enc Unit := do
  PACK_FIELD limit (64 - clzg value 63) value
  END_FIELD 1

/-- The number of bits `PACK_XADDR_VAO` sends at `bit_offset`. -/
def xaddr_vao_bits (bit_offset xaddr : Nat) : Nat :=
  let bits := 64 - clzg xaddr 64
  let bits := if bits < 64 then bits + 1 else 65 - clzg (2 ^ 64 - 1 - xaddr) 64
  let bytes := (bit_offset + bits + MDO_BITS - 1) / MDO_BITS
  let bits := bytes * MDO_BITS - bit_offset
  if bits > 64 then 64 else bits

def PACK_XADDR_VAO (limit xaddr : Nat) : Enc Unit := do
  let s ← Proc.get
  PACK_FIELD limit (xaddr_vao_bits s.bit_offset xaddr) xaddr
  END_FIELD 1

/-- The branch and sync messages, up to the timestamp. -/
def encode_common (hwcfg : HwCfg) (limit : Nat) (msg : Msg) : Enc Unit := do
  Proc.when (msg_is_sync msg) (PACK_FIXED limit 4 msg.sync_type)
  Proc.when (msg_is_indir_branch msg) (PACK_FIXED limit 2 msg.branch_type)
  Proc.assert (msg_has_icnt msg)
  PACK_VAR_REQ limit msg.icnt.toNat
  Proc.when (msg_has_xaddr msg)
    (if hwcfg.VAO then PACK_XADDR_VAO limit msg.xaddr.toNat else PACK_VAR_REQ limit msg.xaddr.toNat)
  Proc.when (msg_has_hist msg) (PACK_VAR_REQ limit msg.hist.toNat)

/-- `handle_rest`: the other messages, up to the timestamp. -/
def encode_rest (limit : Nat) (msg : Msg) : Enc Unit :=
  match msg.tcode with
  | .Ownership => do
    PACK_FIXED limit 2 msg.ownership_fmt
    PACK_FIXED limit 2 msg.ownership_priv
    PACK_FIXED limit 1 msg.ownership_v
    PACK_VAR limit msg.context.toNat
  | .Error => do
    PACK_FIXED limit 4 msg.error_type
    PACK_VAR limit msg.error_code.toNat
  | .ResourceFull => do
    PACK_FIXED limit 4 msg.res_code
    if msg.res_code > 2 then PACK_VAR limit msg.res_data.toNat
    else match msg.res_code with
      | 0 => PACK_VAR_REQ limit msg.icnt.toNat
      | 1 => PACK_VAR_REQ limit msg.hist.toNat
      | _ => do
        PACK_VAR_REQ limit msg.hist.toNat
        PACK_VAR_REQ limit msg.hrepeat.toNat
  | .RepeatBranch => PACK_VAR_REQ limit msg.hrepeat.toNat
  | .ProgTraceCorrelation => do
    PACK_FIXED limit 4 msg.stop_code
    PACK_FIXED limit 2 msg.cdf
    PACK_VAR_REQ limit msg.icnt.toNat
    if msg.cdf > 1 then Proc.fail .msg_unsupported
    else Proc.when (msg.cdf ≠ 0) (PACK_VAR_REQ limit msg.hist.toNat)
  | .ICT => do
    PACK_FIXED limit 4 msg.cksrc
    PACK_FIXED limit 2 msg.ckdf
    PACK_VAR_REQ limit msg.ckdata0
    if msg.ckdf > 1 then Proc.fail .msg_unsupported
    else PACK_VAR_REQ limit msg.ckdata1.toNat
  | _ => Proc.fail .msg_unsupported

/-- The TCODEs of the branch and sync messages. -/
def common_tcode (msg : Msg) : Bool :=
  match msg.tcode with
  | .DirectBranch | .DirectBranchSync | .IndirectBranch | .IndirectBranchSync | .IndirectBranchHist
  | .IndirectBranchHistSync | .ProgTraceSync => true
  | _ => false

def encode_body (hwcfg : HwCfg) (limit : Nat) (msg : Msg) : Enc Unit := do
  Proc.when (hwcfg.src_bits ≠ 0) (PACK_FIXED limit hwcfg.src_bits msg.src.toNat)
  (if common_tcode msg then encode_common hwcfg limit msg else encode_rest limit msg)
  Proc.when (hwcfg.ts_bits ≠ 0)
    (if msg_is_sync msg then PACK_VAR_REQ limit msg.timestamp.toNat else PACK_VAR limit msg.timestamp.toNat)

def encode_msg (hwcfg : HwCfg) (limit : Nat) (msg : Msg) : Enc Nat := do
  if !msg_known msg then Proc.fail .msg_unsupported
  else do
    PACK_FIXED limit 6 msg.tcode.code
    Proc.when (msg.tcode ≠ .Idle) (encode_body hwcfg limit msg)
    END_FIELD 3
    let s ← Proc.get
    pure (s.bit_offset / MDO_BITS)

/-- `nexusrv_msg_encode`: what it returns and the buffer it leaves. -/
def msg_encode (hwcfg : HwCfg) (buffer : List UInt8) (limit : Nat) (msg : Msg) :
    Option (Except NexusError Nat × List UInt8) :=
  (encode_msg hwcfg limit msg ⟨buffer, 0⟩).map fun r => (r.1, r.2.buffer)

end nexusrv
