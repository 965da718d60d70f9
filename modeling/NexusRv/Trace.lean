import NexusRv.RetStack
import NexusRv.MsgDecoder
/-!
# The trace decoder

`trace-decoder.c`: the messages of the message decoder become instruction counts,
taken and not-taken branches and events. I-CNT and HIST of ResourceFull messages
are kept in `res_icnt` and the queue `res_hists`; the message behind them is
buffered until all of it is consumed.

The functions are written over any `Source` of messages; `msg_source` is the
message decoder.
-/

namespace nexusrv

def MSG_ICNT_MAX : Nat := 2 ^ 22 - 1
def MSG_HREPEAT_MAX : Nat := 2 ^ 18 - 1
def INT32_MAX : Nat := 2 ^ 31 - 1
def UINT32_MAX : Nat := 2 ^ 32 - 1

/-! ## The source of messages -/

/-- A message decoder, as the trace decoder uses it: `next` writes the message and
returns its length, or 0 at the end; `rewind_last` puts it back, and is `none` when
an assertion fails. `left` bounds the number of messages to come. -/
structure Source (σ : Type) where
  hw_cfg : σ → HwCfg
  next : Proc (σ × Msg) NexusError Nat
  rewind_last : σ → Option σ
  left : σ → Nat

def msg_source : Source MsgDecoder where
  hw_cfg := MsgDecoder.hw_cfg
  next := msg_decoder_next
  rewind_last := fun d => (msg_decoder_rewind_last d).map Prod.snd
  left := MsgDecoder.bytesLeft

/-! ## State -/

/-- `nexusrv_hist_arr_element`; without history bits it only keeps a timestamp. -/
structure HistElement where
  hist : UInt32
  repeat_ : Nat
  timestamp : UInt64
  deriving DecidableEq, Repr

/-- `nexusrv_trace_decoder`. The `uint32_t` counters and the `uint8_t`
`consumed_tnts` are numbers, and what wraps is written out. -/
structure TraceDecoder (σ : Type) where
  msg_decoder : σ
  res_hists : List HistElement
  res_icnt : Nat
  res_tnts : Nat
  consumed_icnt : Nat
  consumed_tnts : Nat
  synced : Bool
  msg_present : Bool
  msg : Msg
  full_addr : UInt64
  timestamp : UInt64
  return_stack : RetStack

/-- What one call finds outside the decoder: what its look-ahead messages hold
before they are written, whether an array of so many elements can grow, and the
allocator of the return stack. -/
structure Env where
  msg2 : Nat → Msg
  alloc : Nat → Bool
  mem : Heap

inductive TraceEvent where
  | None
  | Direct
  | DirectSync
  | Trap
  | Indirect
  | IndirectSync
  | Sync
  | Stop
  | Error
  deriving DecidableEq, Repr

/-- What an Ownership message behind an indirect branch adds to it. -/
structure TraceOwnership where
  fmt : Nat
  priv : Nat
  v : Nat
  context : UInt64
  deriving DecidableEq, Repr

/-- `nexusrv_trace_indirect`; `ownership` is `none` where the flag is 0. -/
structure TraceIndirect where
  target : UInt64
  interrupt : Bool
  exception : Bool
  ownership : Option TraceOwnership
  deriving DecidableEq, Repr

structure TraceSync where
  addr : UInt64
  sync : Nat
  deriving DecidableEq, Repr

structure TraceError where
  ecode : UInt32
  etype : Nat
  deriving DecidableEq, Repr

structure TraceStop where
  evcode : Nat
  deriving DecidableEq, Repr

abbrev Trace (σ α : Type) := Proc (TraceDecoder σ) NexusError α

def extend_addr_bits (addr : UInt64) (bits : Nat) : UInt64 :=
  if bits ≥ 64 then addr
  else if addr.toNat.testBit (bits - 1) then addr ||| .ofNat (2 ^ 64 - 2 ^ bits) else addr

section Code
variable {σ α : Type} (src : Source σ)

def trace_decoder_init (env : Env) (msg_decoder : σ) : Except NexusError (TraceDecoder σ) :=
  if !env.alloc 0 then .error .no_mem
  else (retstack_init env.mem (src.hw_cfg msg_decoder).max_stack).map fun stack =>
    ⟨msg_decoder, [], 0, 0, 0, 0, false, false, Msg.zero, 0, 0, stack⟩

/-! ## Fetching a message -/

def trace_check_msg (msg : Msg) : Bool :=
  if !msg_known msg then false
  else if msg_is_data_acq msg then false
  else if msg_has_icnt msg && msg.icnt.toNat > MSG_ICNT_MAX then false
  else if msg_has_hist msg && msg.hist = 0 then false
  else if msg_has_hist msg && msg.hrepeat.toNat > MSG_HREPEAT_MAX then false
  else true

/-- `nexusrv_msg_decoder_next` into the buffered message. -/
def next_msg : Trace σ Nat :=
  Proc.zoom (fun s => (s.msg_decoder, s.msg)) (fun t s => { s with msg_decoder := t.1, msg := t.2 }) src.next

/-- `nexusrv_msg_decoder_next` into a local message. -/
def next_msg2 (msg2 : Msg) : Trace σ (Nat × Msg) :=
  Proc.zoom (·.msg_decoder) (fun d s => { s with msg_decoder := d }) (Proc.withLocal msg2 src.next)

def rewind_msg : Trace σ Unit :=
  fun s => (src.rewind_last s.msg_decoder).map fun d => (.ok (), { s with msg_decoder := d })

/-- `nexusrv_trace_fetch_msg`: whether a message was fetched, or there was one. -/
def trace_fetch_msg (msg2 : Msg) : Trace σ Bool := do
  let s ← Proc.get
  if s.msg_present then pure false
  else do
    let rc ← next_msg src
    if rc = 0 then Proc.fail .trace_eof
    else do
      let s ← Proc.get
      if !trace_check_msg s.msg then do
        rewind_msg src
        Proc.fail .msg_unsupported
      else do
        Proc.modify fun s => { s with msg_present := true }
        if !msg_is_branch s.msg || msg_is_sync s.msg then pure true
        else do
          Proc.modify fun s => { s with msg := { s.msg with hrepeat := 0 } }
          -- a RepeatBranch may follow; `rc` may be 0 here too, and then `msg2` was not written
          let r ← next_msg2 src msg2
          if r.2.tcode ≠ .RepeatBranch then do
            rewind_msg src
            pure true
          else do
            Proc.modify fun s => { s with msg := { s.msg with hrepeat := r.2.hrepeat } }
            pure true

/-! ## Accounting -/

/-- `nexusrv_trace_retire_timestamp`: returns what is left in `*timestamp`. -/
def trace_retire_timestamp (timestamp : UInt64) : Trace σ UInt64 := do
  let s ← Proc.get
  if (src.hw_cfg s.msg_decoder).quirk_sifive then do
    Proc.modify fun s => { s with timestamp := s.timestamp ^^^ timestamp }
    pure 0
  else do
    Proc.modify fun s => { s with timestamp := s.timestamp + timestamp }
    pure timestamp

def trace_available_tnts : Trace σ Nat := do
  let s ← Proc.get
  if !s.msg_present then do
    Proc.assert (s.res_tnts ≥ s.consumed_tnts)
    pure (s.res_tnts - s.consumed_tnts)
  else do
    Proc.assert (!msg_is_res s.msg)
    let tnts := if msg_has_hist s.msg then (s.res_tnts + msg_hist_bits s.msg.hist) % 2 ^ 32 else s.res_tnts
    Proc.assert (tnts ≥ s.consumed_tnts)
    pure (tnts - s.consumed_tnts)

/-- The first loop of `nexusrv_trace_consume_tnt`: drop the elements that only keep a timestamp. -/
def drain_empty : List HistElement → Trace σ Unit
  | [] => pure ()
  | element :: rest =>
    if element.hist ≠ 0 then pure ()
    else do
      Proc.assert (element.repeat_ = 1)
      let _ ← trace_retire_timestamp src element.timestamp
      Proc.modify fun s => { s with res_hists := rest }
      drain_empty rest

/-- The bits of a HIST are consumed from the bit below the stop bit down. -/
def hist_bit (hist : UInt32) (bit : Nat) : Bool := hist.toNat.testBit bit

def trace_consume_tnt : Trace σ Bool := do
  let available ← trace_available_tnts
  Proc.assert (available ≠ 0)
  let s ← Proc.get
  drain_empty src s.res_hists
  let s ← Proc.get
  if s.res_tnts = 0 then do
    Proc.assert (s.msg_present && msg_has_hist s.msg)
    let hist_bits := msg_hist_bits s.msg.hist
    Proc.assert (hist_bits > s.consumed_tnts)
    let consumed := (s.consumed_tnts + 1) % 2 ^ 8
    Proc.modify fun s => { s with consumed_tnts := consumed }
    pure (hist_bit s.msg.hist (hist_bits - consumed))
  else match s.res_hists with
    | [] => Proc.assert false >>= fun _ => pure false
    | element :: rest => do
      let hist_bits := msg_hist_bits element.hist
      Proc.assert (hist_bits > s.consumed_tnts)
      let consumed := (s.consumed_tnts + 1) % 2 ^ 8
      Proc.modify fun s => { s with consumed_tnts := consumed }
      let tnt := hist_bit element.hist (hist_bits - consumed)
      if hist_bits ≠ consumed then pure tnt
      else do
        Proc.modify fun s => { s with consumed_tnts := 0 }
        let timestamp ← trace_retire_timestamp src element.timestamp
        Proc.assert (s.res_tnts ≥ hist_bits)
        Proc.modify fun s => { s with res_tnts := s.res_tnts - hist_bits }
        Proc.assert (element.repeat_ ≠ 0)
        let element := { element with repeat_ := element.repeat_ - 1, timestamp := timestamp }
        Proc.modify fun s => { s with res_hists := if element.repeat_ = 0 then rest else element :: rest }
        pure tnt

def trace_available_icnt : Trace σ Nat := do
  let s ← Proc.get
  if !s.msg_present then do
    Proc.assert (s.res_icnt ≥ s.consumed_icnt)
    pure (s.res_icnt - s.consumed_icnt)
  else do
    Proc.assert (!msg_is_res s.msg)
    let icnt := if msg_has_icnt s.msg then (s.res_icnt + s.msg.icnt.toNat) % 2 ^ 32 else s.res_icnt
    Proc.assert (icnt ≥ s.consumed_icnt)
    pure (icnt - s.consumed_icnt)

def trace_consume_icnt (icnt : Nat) : Trace σ Unit := do
  let available ← trace_available_icnt
  Proc.assert (available ≥ icnt)
  let s ← Proc.get
  Proc.assert (s.res_icnt = 0 || s.consumed_icnt = 0)
  if s.res_icnt ≥ icnt then Proc.modify fun s => { s with res_icnt := s.res_icnt - icnt }
  else do
    Proc.assert s.msg_present
    Proc.modify fun s => { s with consumed_icnt := (s.consumed_icnt + (icnt - s.res_icnt)) % 2 ^ 32, res_icnt := 0 }

/-- The last steps of `nexusrv_trace_pull_msg`. -/
def push_element (env : Env) (element : HistElement) : Trace σ Bool := do
  let s ← Proc.get
  if !env.alloc s.res_hists.length then Proc.fail .no_mem
  else do
    let tnts := element.repeat_ * msg_hist_bits element.hist % 2 ^ 32
    Proc.modify fun s => { s with
      res_hists := s.res_hists ++ [element]
      res_tnts := (s.res_tnts + tnts) % 2 ^ 32
      msg_present := false }
    pure true

/-- `nexusrv_trace_pull_msg`: whether a ResourceFull message was consumed. -/
def trace_pull_msg (env : Env) (k : Nat) : Trace σ Bool := do
  let _ ← trace_fetch_msg src (env.msg2 k)
  let s ← Proc.get
  if !msg_is_res s.msg then pure false
  else if s.res_hists.length ≥ MSG_ICNT_MAX then Proc.fail .trace_hist_overflow
  else
    let timestamp := s.msg.timestamp
    if msg_has_icnt s.msg then do
      let res_icnt := (s.res_icnt + s.msg.icnt.toNat) % 2 ^ 32
      Proc.modify fun s => { s with res_icnt := res_icnt }
      if res_icnt > UINT32_MAX - MSG_ICNT_MAX then Proc.fail .trace_icnt_overflow
      else push_element env ⟨0, 1, timestamp⟩
    else if msg_has_hist s.msg then
      push_element env ⟨s.msg.hist, if s.msg.hrepeat ≠ 0 then s.msg.hrepeat.toNat else 1, timestamp⟩
    else if (src.hw_cfg s.msg_decoder).quirk_sifive then
      match s.msg.res_code with
      | 8 => if s.msg.res_data = 0 then Proc.fail .msg_unsupported else push_element env ⟨2, s.msg.res_data.toNat, timestamp⟩
      | 9 => if s.msg.res_data = 0 then Proc.fail .msg_unsupported else push_element env ⟨3, s.msg.res_data.toNat, timestamp⟩
      | _ => Proc.fail .msg_unsupported
    else Proc.fail .msg_unsupported

def trace_retire_msg : Trace σ Unit := do
  let s ← Proc.get
  Proc.assert s.msg_present
  Proc.assert (s.msg.tcode ≠ .ResourceFull)
  Proc.assert (s.res_icnt = 0)
  Proc.assert s.res_hists.isEmpty
  Proc.assert (s.consumed_icnt = if msg_has_icnt s.msg then s.msg.icnt.toNat else 0)
  Proc.assert (s.consumed_tnts = if msg_has_hist s.msg then msg_hist_bits s.msg.hist else 0)
  Proc.modify fun s => { s with consumed_icnt := 0, consumed_tnts := 0 }
  if msg_is_branch s.msg then
    if msg_is_sync s.msg then do
      Proc.assert (s.msg.hrepeat = 0)
      -- it becomes a ProgTraceSync, which is not retired yet
      Proc.modify fun s => { s with
        timestamp := s.msg.timestamp
        msg := { s.msg with tcode := .ProgTraceSync, icnt := 0, hist := 0 } }
    else do
      let timestamp ← trace_retire_timestamp src s.msg.timestamp
      Proc.modify fun s => { s with msg := { s.msg with timestamp := timestamp } }
      if s.msg.hrepeat ≠ 0 then Proc.modify fun s => { s with msg := { s.msg with hrepeat := s.msg.hrepeat - 1 } }
      else Proc.modify fun s => { s with msg_present := false }
  else do
    if msg_is_sync s.msg then
      Proc.modify fun s => { s with
        timestamp := s.msg.timestamp
        full_addr := s.msg.xaddr
        return_stack := retstack_clear s.return_stack }
    else do
      let timestamp ← trace_retire_timestamp src s.msg.timestamp
      Proc.modify fun s => { s with msg := { s.msg with timestamp := timestamp } }
    Proc.modify fun s => { s with msg_present := false }

/-! ## Retiring instructions and branches -/

/-- The loop of `try_retire` and `next_tnt`: until `done` returns something, pull
ResourceFull messages, and stop at another message. -/
def pull_until (env : Env) (done : Trace σ (Option α)) : Nat → Nat → Bool → Trace σ (Option α)
  | 0, _, _ => Proc.assert false >>= fun _ => pure none
  | fuel + 1, k, rc => do
    match ← done with
    | some a => pure (some a)
    | none =>
      if !rc then pure none
      else do
        let rc ← trace_pull_msg src env k
        pull_until env done fuel (k + 1) rc

/-- All of `icnt` is available. -/
def retire_icnt (icnt : Nat) : Trace σ (Option Nat) := do
  let avail_icnt ← trace_available_icnt
  if icnt < avail_icnt then do
    trace_consume_icnt icnt
    pure (some icnt)
  else pure none

/-- The event of the buffered message, where no TNT is left. -/
def msg_event (msg : Msg) : TraceEvent :=
  if msg_is_branch msg then
    if msg_is_indir_branch msg then
      if msg.branch_type ≠ 0 then .Trap else if msg_is_sync msg then .IndirectSync else .Indirect
    else if msg_is_sync msg then .DirectSync else .Direct
  else if msg_is_sync msg then .Sync
  else if msg_is_stop msg then .Stop
  else .None

def trace_try_retire (env : Env) (icnt : Nat) : Trace σ (Nat × TraceEvent) := do
  let s ← Proc.get
  if !s.synced then Proc.fail .trace_not_synced
  else do
    let icnt := if icnt > INT32_MAX then INT32_MAX else icnt
    match ← pull_until src env (retire_icnt icnt) (src.left s.msg_decoder + 2) 0 true with
    | some icnt => pure (icnt, .None)
    | none => do
      let s ← Proc.get
      Proc.assert s.msg_present
      let icnt ← trace_available_icnt
      trace_consume_icnt icnt
      if msg_is_error s.msg then pure (icnt, .Error)
      else do
        let tnts ← trace_available_tnts
        if tnts ≠ 0 then pure (icnt, .Direct)
        else do
          Proc.assert (!msg_has_hist s.msg || s.consumed_tnts = msg_hist_bits s.msg.hist)
          pure (icnt, msg_event s.msg)

/-- A TNT is available. -/
def retire_tnt : Trace σ (Option Bool) := do
  let tnts ← trace_available_tnts
  if tnts ≠ 0 then do
    let tnt ← trace_consume_tnt src
    pure (some tnt)
  else pure none

def trace_next_tnt (env : Env) : Trace σ Bool := do
  let s ← Proc.get
  if !s.synced then Proc.fail .trace_not_synced
  else do
    match ← pull_until src env (retire_tnt src) (src.left s.msg_decoder + 2) 0 true with
    | some tnt => pure tnt
    | none => do
      let s ← Proc.get
      Proc.assert s.msg_present
      let icnt ← trace_available_icnt
      if icnt ≠ 0 then pure false
      else if !msg_is_branch s.msg || msg_is_indir_branch s.msg then Proc.fail .trace_mismatch
      else do
        trace_retire_msg src
        pure true

def trace_push_call (env : Env) (callsite : UInt64) : Trace σ Unit :=
  Proc.zoom (·.return_stack) (fun r s => { s with return_stack := r }) (retstack_push env.mem callsite)

def trace_pop_ret : Trace σ UInt64 :=
  Proc.zoom (·.return_stack) (fun r s => { s with return_stack := r }) retstack_pop

/-! ## Retrieving events -/

/-- The checks shared by `next_indirect`, `next_sync` and `next_stop`: nothing is
left to retire in front of the buffered message. -/
def nothing_available : Trace σ Unit := do
  let icnt ← trace_available_icnt
  if icnt ≠ 0 then Proc.fail .trace_mismatch
  else do
    let tnts ← trace_available_tnts
    if tnts ≠ 0 then Proc.fail .trace_mismatch else pure ()

def trace_next_indirect (env : Env) : Trace σ TraceIndirect := do
  let s ← Proc.get
  if !s.synced then Proc.fail .trace_not_synced
  else do
    let _ ← trace_fetch_msg src (env.msg2 0)
    nothing_available
    let s ← Proc.get
    if !msg_is_branch s.msg || !msg_is_indir_branch s.msg then Proc.fail .trace_mismatch
    else do
      Proc.modify fun s =>
        if msg_is_sync s.msg then { s with full_addr := s.msg.xaddr }
        else { s with full_addr := s.full_addr ^^^ s.msg.xaddr, msg := { s.msg with xaddr := 0 } }
      let s ← Proc.get
      let target := extend_addr_bits (s.full_addr <<< 1) (src.hw_cfg s.msg_decoder).addr_bits
      let interrupt := s.msg.branch_type = 1 || s.msg.branch_type = 3
      let exception := s.msg.branch_type = 1 || s.msg.branch_type = 2
      trace_retire_msg src
      -- an Ownership message may follow; `rc` may be 0 here too
      let r ← next_msg2 src (env.msg2 1)
      if r.2.tcode ≠ .Ownership then do
        rewind_msg src
        pure ⟨target, interrupt, exception, none⟩
      else
        pure ⟨target, interrupt, exception, some ⟨r.2.ownership_fmt, r.2.ownership_priv, r.2.ownership_v, r.2.context⟩⟩

def trace_next_sync (env : Env) : Trace σ TraceSync := do
  let s ← Proc.get
  if !s.synced then Proc.fail .trace_not_synced
  else do
    let _ ← trace_fetch_msg src (env.msg2 0)
    nothing_available
    let s ← Proc.get
    if !msg_is_sync s.msg || msg_is_branch s.msg then Proc.fail .trace_mismatch
    else do
      let sync := s.msg.sync_type
      let addr := extend_addr_bits (s.msg.xaddr <<< 1) (src.hw_cfg s.msg_decoder).addr_bits
      trace_retire_msg src
      let s ← Proc.get
      Proc.assert (!s.msg_present)
      pure ⟨addr, sync⟩

/-- The loop of `next_error`: retire the time of every element. -/
def drain_all : List HistElement → Trace σ Unit
  | [] => pure ()
  | element :: rest => do
    let _ ← trace_retire_timestamp src element.timestamp
    Proc.modify fun s => { s with res_hists := rest }
    drain_all rest

def trace_next_error (env : Env) : Trace σ TraceError := do
  let s ← Proc.get
  if !s.synced then Proc.fail .trace_not_synced
  else do
    let _ ← trace_fetch_msg src (env.msg2 0)
    let s ← Proc.get
    if s.msg.tcode ≠ .Error then Proc.fail .trace_mismatch
    else do
      let ecode := s.msg.error_code
      let etype := s.msg.error_type
      Proc.modify fun s => { s with res_icnt := 0, res_tnts := 0, consumed_icnt := 0, consumed_tnts := 0 }
      drain_all src s.res_hists
      trace_retire_msg src
      let s ← Proc.get
      Proc.assert (!s.msg_present)
      Proc.modify fun s => { s with synced := false }
      pure ⟨ecode, etype⟩

def trace_next_stop (env : Env) : Trace σ TraceStop := do
  let s ← Proc.get
  if !s.synced then Proc.fail .trace_not_synced
  else do
    let _ ← trace_fetch_msg src (env.msg2 0)
    nothing_available
    let s ← Proc.get
    if s.msg.tcode ≠ .ProgTraceCorrelation then Proc.fail .trace_mismatch
    else do
      let evcode := s.msg.stop_code
      trace_retire_msg src
      let s ← Proc.get
      Proc.assert (!s.msg_present)
      Proc.modify fun s => { s with synced := false }
      pure ⟨evcode⟩

def trace_add_timestamp (timestamp : UInt64) : Trace σ Unit := do
  let _ ← trace_retire_timestamp src timestamp

/-- `nexusrv_trace_time`: the time in nanoseconds where the frequency of the timer is known. -/
def trace_time (s : TraceDecoder σ) : UInt64 :=
  let hwcfg := src.hw_cfg s.msg_decoder
  let time := if hwcfg.ts_bits < 64 then s.timestamp.toNat % 2 ^ hwcfg.ts_bits else s.timestamp.toNat
  .ofNat (if hwcfg.timer_freq = 0 then time else time * 1000000000 / hwcfg.timer_freq.toNat)

/-! ## Synchronizing -/

/-- The loop of `sync_reset`: skip messages up to a sync message. -/
def sync_forward (env : Env) : Nat → Nat → Trace σ Unit
  | 0, _ => Proc.assert false
  | fuel + 1, k => do
    let _ ← trace_fetch_msg src (env.msg2 k)
    let s ← Proc.get
    if msg_is_sync s.msg then pure ()
    else do
      Proc.modify fun s => { s with msg_present := false }
      sync_forward env fuel (k + 1)

/-- `nexusrv_trace_sync_reset`; `none` where the decoder is already synchronized. -/
def trace_sync_reset (env : Env) : Trace σ (Option TraceSync) := do
  let s ← Proc.get
  if s.synced then pure none
  else do
    sync_forward src env (src.left s.msg_decoder + 2) 0
    Proc.modify fun s => { s with
      res_hists := []
      res_tnts := 0
      res_icnt := 0
      consumed_tnts := 0
      consumed_icnt := 0
      synced := true
      msg := { s.msg with tcode := .ProgTraceSync, icnt := 0 } }
    let sync ← trace_next_sync src env
    pure (some sync)

end Code

end nexusrv
