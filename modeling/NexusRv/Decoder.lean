import NexusRv.Encoder
/-!
# The message decoder

`nexusrv_msg_decode` of `msg-decoder.c`. The message is written field by field
into the caller's storage: what a failed call has written so far stays there,
and a field the message does not carry keeps what it held before.
-/

namespace nexusrv

/-- The locals of `nexusrv_msg_decode`, and the message it writes. `group` is the
`consumed_bytes` bytes in front of `buffer`, and `buffer` has `limit` bytes. -/
structure DecState where
  group : List UInt8
  buffer : List UInt8
  bit_offset : Nat
  eom : Bool
  msg : Msg

abbrev Dec := Proc DecState NexusError

/-- The number of bytes up to the end of the group, and whether it is the end of
the message. -/
def consume_bytes : List UInt8 → Except NexusError (Nat × Bool)
  | [] => .error .stream_truncate
  | b :: rest =>
    if mseo b = 2 then .error .stream_bad_mseo
    else if mseo b = 0 then (consume_bytes rest).map fun r => (r.1 + 1, r.2)
    else .ok (1, mseo b = 3)

/-- The loop of `unpack_bits`, with `last_byte = start_byte + n`. -/
def unpack_bits_loop (buffer : List UInt8) (start_byte shift : Nat) : Nat → Nat → Nat
  | 0, value => value <<< (MDO_BITS - shift) % 2 ^ 64 ||| mdo (buffer.getD start_byte 0) >>> shift
  | n + 1, value =>
    unpack_bits_loop buffer start_byte shift n
      (value <<< MDO_BITS % 2 ^ 64 ||| mdo (buffer.getD (start_byte + (n + 1)) 0))

/-- `bits` is an `unsigned`, and not 0. -/
def unpack_bits (buffer : List UInt8) (bit_offset bits : Nat) : Nat :=
  let start_byte := bit_offset / MDO_BITS
  let last_byte := (bit_offset + bits - 1) / MDO_BITS
  let value := unpack_bits_loop buffer start_byte (bit_offset % MDO_BITS) (last_byte - start_byte) 0
  if bits < 64 then value % 2 ^ bits else value

def UNPACK_FIXED (bits : Nat) (field : Nat → Msg → Msg) : Dec Unit := do
  let s ← Proc.get
  let bits_left := s.group.length * MDO_BITS - s.bit_offset
  if bits_left < bits then Proc.fail .msg_missing_field
  else Proc.modify fun s =>
    { s with msg := field (unpack_bits s.group s.bit_offset bits) s.msg, bit_offset := s.bit_offset + bits }

def UNPACK_VAR (field : Nat → Msg → Msg) : Dec Nat := do
  let s ← Proc.get
  let bits_left := s.group.length * MDO_BITS - s.bit_offset
  -- `bits_left` is a `size_t`: of a longer field, `unpack_bits` gets the length modulo 2 ^ 32
  let value := if bits_left = 0 then 0 else unpack_bits s.group s.bit_offset (bits_left % 2 ^ 32)
  Proc.modify fun s => { s with msg := field value s.msg, bit_offset := s.bit_offset + bits_left }
  pure bits_left

def UNPACK_VAR_REQ (field : Nat → Msg → Msg) : Dec Nat := do
  let bits ← UNPACK_VAR field
  if bits = 0 then Proc.fail .msg_missing_field else pure bits

/-- Set the bits from `bits` on if bit `bits - 1` is set. -/
def sign_extend (bits value : Nat) : Nat :=
  if value.testBit (bits - 1) then value ||| (2 ^ 64 - 2 ^ bits) else value

def UNPACK_XADDR_VAO : Dec Unit := do
  let bits ← UNPACK_VAR_REQ Msg.set_xaddr
  Proc.when (bits < 64) (Proc.modify fun s => { s with msg := s.msg.set_xaddr (sign_extend bits s.msg.xaddr.toNat) })

def CONSUME_BYTES : Dec Unit := do
  let s ← Proc.get
  if s.eom then Proc.fail .msg_missing_field
  else match consume_bytes s.buffer with
    | .error e => Proc.fail e
    | .ok (n, eom) => Proc.modify fun s =>
      { s with group := s.buffer.take n, buffer := s.buffer.drop n, bit_offset := 0, eom := eom }

/-- `while (!eom) CONSUME_BYTES();`. Every round uses up at least one byte. -/
def consume_rest : Nat → Dec Unit
  | 0 => pure ()
  | fuel + 1 => do
    let s ← Proc.get
    Proc.when (!s.eom) (do CONSUME_BYTES; consume_rest fuel)

def CONSUME_REST : Dec Unit := do
  let s ← Proc.get
  consume_rest (s.buffer.length + 1)

/-- `finished_common`: the timestamp. -/
def finished_common (hwcfg : HwCfg) : Dec Unit := do
  let s ← Proc.get
  if hwcfg.ts_bits ≠ 0 && s.eom then
    if msg_is_sync s.msg then Proc.fail .msg_missing_field else pure ()
  else do
    CONSUME_REST
    Proc.when (hwcfg.ts_bits ≠ 0) (do let _ ← UNPACK_VAR_REQ Msg.set_timestamp)

/-- The branch and sync messages, up to the timestamp. -/
def decode_common (hwcfg : HwCfg) : Dec Unit := do
  let s ← Proc.get
  Proc.when (msg_is_sync s.msg) (UNPACK_FIXED 4 Msg.set_sync_type)
  Proc.when (msg_is_indir_branch s.msg) (UNPACK_FIXED 2 Msg.set_branch_type)
  Proc.assert (msg_has_icnt s.msg)
  Proc.modify fun s => { s with msg := s.msg.set_hrepeat 0 }
  let _ ← UNPACK_VAR_REQ Msg.set_icnt
  Proc.when (msg_has_xaddr s.msg) (do
    CONSUME_BYTES
    if hwcfg.VAO then UNPACK_XADDR_VAO else do let _ ← UNPACK_VAR_REQ Msg.set_xaddr)
  Proc.when (msg_has_hist s.msg) (do
    CONSUME_BYTES
    let _ ← UNPACK_VAR_REQ Msg.set_hist)

/-- Before a message that may carry I-CNT or HIST. -/
def reset_counts : Dec Unit :=
  Proc.modify fun s => { s with msg := ((s.msg.set_icnt 0).set_hist 0).set_hrepeat 0 }

/-- `handle_rest`: the other messages, with the timestamp where they have one. -/
def decode_rest (hwcfg : HwCfg) (tcode : Tcode) : Dec Unit :=
  match tcode with
  | .Ownership => do
    UNPACK_FIXED 2 Msg.set_ownership_fmt
    UNPACK_FIXED 2 Msg.set_ownership_priv
    UNPACK_FIXED 1 Msg.set_ownership_v
    let _ ← UNPACK_VAR Msg.set_context
    finished_common hwcfg
  | .Error => do
    UNPACK_FIXED 4 Msg.set_error_type
    let _ ← UNPACK_VAR Msg.set_error_code
    finished_common hwcfg
  | .DataAcquisition => do
    let _ ← UNPACK_VAR_REQ Msg.set_idtag
    CONSUME_BYTES
    let _ ← UNPACK_VAR_REQ Msg.set_dqdata
    finished_common hwcfg
  | .ResourceFull => do
    UNPACK_FIXED 4 Msg.set_res_code
    let s ← Proc.get
    (if s.msg.res_code > 2 then do let _ ← UNPACK_VAR Msg.set_res_data
    else do
      reset_counts
      match s.msg.res_code with
      | 0 => do let _ ← UNPACK_VAR_REQ Msg.set_icnt
      | 1 => do let _ ← UNPACK_VAR_REQ Msg.set_hist
      | _ => do
        let _ ← UNPACK_VAR_REQ Msg.set_hist
        CONSUME_BYTES
        let _ ← UNPACK_VAR_REQ Msg.set_hrepeat)
    finished_common hwcfg
  | .RepeatBranch => do
    let _ ← UNPACK_VAR_REQ Msg.set_hrepeat
    finished_common hwcfg
  | .ProgTraceCorrelation => do
    reset_counts
    UNPACK_FIXED 4 Msg.set_stop_code
    UNPACK_FIXED 2 Msg.set_cdf
    let _ ← UNPACK_VAR_REQ Msg.set_icnt
    let s ← Proc.get
    Proc.when (s.msg.cdf = 1) (do
      CONSUME_BYTES
      let _ ← UNPACK_VAR_REQ Msg.set_hist)
    finished_common hwcfg
  | .ICT => do
    UNPACK_FIXED 4 Msg.set_cksrc
    UNPACK_FIXED 2 Msg.set_ckdf
    let _ ← UNPACK_VAR_REQ Msg.set_ckdata0
    let s ← Proc.get
    Proc.when (s.msg.ckdf > 0) (do
      CONSUME_BYTES
      let _ ← UNPACK_VAR_REQ Msg.set_ckdata1)
    finished_common hwcfg
  | _ => CONSUME_REST

def decode_body (hwcfg : HwCfg) : Dec Unit := do
  Proc.modify fun s => { s with msg := s.msg.set_src 0 }
  Proc.when (hwcfg.src_bits ≠ 0) (UNPACK_FIXED hwcfg.src_bits Msg.set_src)
  let s ← Proc.get
  if common_tcode s.msg then do
    decode_common hwcfg
    finished_common hwcfg
  else decode_rest hwcfg s.msg.tcode

def decode_msg (hwcfg : HwCfg) : Dec Unit := do
  Proc.modify fun s => { s with msg := s.msg.set_timestamp 0 }
  CONSUME_BYTES
  UNPACK_FIXED 6 Msg.set_tcode
  let s ← Proc.get
  if s.msg.tcode = .Idle then
    if !s.eom then Proc.fail .msg_invalid else pure ()
  else decode_body hwcfg

/-- `nexusrv_msg_decode`: what it returns and the message it leaves. -/
def msg_decode (hwcfg : HwCfg) (buffer : List UInt8) (msg : Msg) : Option (Except NexusError Nat × Msg) :=
  (decode_msg hwcfg ⟨[], buffer, 0, false, msg⟩).map fun r =>
    (r.1.map fun _ => buffer.length - r.2.buffer.length, r.2.msg)

end nexusrv
