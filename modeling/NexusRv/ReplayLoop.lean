import NexusRv.Inst
import NexusRv.Position
/-!
# The loop of the replayer

`replay.cpp`: while the decoder is in sync and the code at the last address is known, its blocks are retired one after the other; at an
event in a block, and where no code is known, the decoder is asked what comes next. The texts of the lines, and the symbols in them, are
left out.
-/

namespace nexusrv

/-- The time and the offset in front of a line. -/
structure Stamp where
  time : UInt64
  offset : Nat

/-- What is printed. -/
inductive Line where
  | sync (p : Stamp) (sync : TraceSync)
  /-- a block, behind so many calls -/
  | block (p : Stamp) (b : InstBlock) (depth : Nat)
  /-- a block with an event in it, and the instruction there -/
  | cut (p : Stamp) (b : InstBlock) (retired : UInt64) (insn : Option CsInsn)
  | icnt (p : Stamp) (n : Nat)
  | tnts (p : Stamp)
  | tnt (taken : Bool)
  | indirect (p : Stamp) (i : TraceIndirect)
  | stop (p : Stamp) (s : TraceStop)
  | error (p : Stamp) (e : TraceError)
  | backward (last_time time : UInt64)
  | unknown (time : UInt64) (msg : Msg)

/-- How the loop ends: at `done_trace`, or with `error`, for a call that fails or in `inst.cpp` and `vm.cpp`. -/
inductive Halt where
  | done_trace
  | failed (call : Name) (rc : NexusError)
  | error (text : Name)

/-- The variables of `replay` that live through its rounds, and the lines, the last one first. -/
structure Replayer (σ : Type) where
  trace_decoder : TraceDecoder σ
  tnt_time : UInt64
  last_time : UInt64
  lastip : Option UInt64
  insts : List (UInt64 × Option InstBlock)
  lines : List Line

abbrev Replaying (σ α : Type) := Proc (Replayer σ) Halt α

/-- The memory and the disassembler. -/
structure Code where
  vm : MemoryView
  mem : UInt64 → UInt8
  cs : Capstone

def Code.fetch (code : Code) (va : UInt64) : Except Exit (Option InstBlock) := inst_block_fetch code.vm code.mem code.cs va
def Code.disasm1 (code : Code) (va : UInt64) : Except Exit (Option CsInsn) := inst_block_disasm1 code.vm code.mem code.cs va

section Code
variable {σ α ε : Type} (src : Source σ) (offset : σ → Nat) (code : Code)

/-- A call on the decoder; the loop looks at what it returns. -/
def calling (x : Proc (TraceDecoder σ) ε α) : Replaying σ (Except ε α) :=
  fun s => (x s.trace_decoder).map fun r => (.ok r.1, { s with trace_decoder := r.2 })

def succeed (call : String) : Except NexusError α → Replaying σ α
  | .error rc => Proc.fail (.failed call.toList rc)
  | .ok a => pure a

/-- A call that must not fail. -/
def must (call : String) (x : Trace σ α) : Replaying σ α := calling x >>= succeed call

/-- A function of `inst.cpp`, which may end the program. -/
def running (x : Except Exit α) : Replaying σ α :=
  match x with
  | .ok a => pure a
  | .error (.error text) => Proc.fail (.error text)
  | .error .assert => fun _ => none

def stamp (s : Replayer σ) : Stamp := ⟨trace_time src s.trace_decoder, offset s.trace_decoder.msg_decoder⟩

/-- Print a line. -/
def prints (line : Stamp → Line) : Replaying σ Unit := Proc.modify fun s => { s with lines := line (stamp src offset s) :: s.lines }

def set_lastip (ip : Option UInt64) : Replaying σ Unit := Proc.modify fun s => { s with lastip := ip }

/-- `insts.find(*lastip)`, or the block is fetched. -/
def find_block : Replaying σ (Option InstBlock) := do
  let s ← Proc.get
  match s.lastip with
  | none => pure none
  | some ip =>
    match s.insts.lookup ip with
    | some block => pure block
    | none => do
      let block ← running (code.fetch ip)
      Proc.modify fun s => { s with insts := (ip, block) :: s.insts }
      pure block

def check_time : Replaying σ Unit := do
  let s ← Proc.get
  let time := trace_time src s.trace_decoder
  Proc.when (s.last_time ≠ 0 && s.last_time > time) (prints src offset fun _ => .backward s.last_time time)
  Proc.modify fun s => { s with last_time := time }

def unknown_msg (env : Env) : Replaying σ Unit := do
  let r ← must "msg_decoder_next" (next_msg2 src (env.msg2 0))
  Proc.assert (r.1 > 0)
  let _ ← calling (trace_add_timestamp src r.2.timestamp)
  prints src offset fun p => .unknown p.time r.2

/-- `handle_error`, where the call has failed. -/
def handle_error (env : Env) : NexusError → Replaying σ Unit
  | .trace_eof => Proc.fail .done_trace
  | .msg_unsupported => unknown_msg src offset env
  | rc => Proc.fail (.failed "try_retire".toList rc)

/-- In front of the branches: their targets are not known. -/
def tnt_label : Replaying σ Unit := do
  set_lastip none
  let s ← Proc.get
  let time := trace_time src s.trace_decoder
  Proc.when (s.tnt_time ≠ time) (prints src offset .tnts)
  Proc.modify fun s => { s with tnt_time := time }

def handle_event (env : Env) : TraceEvent → Replaying σ Unit
  | .Direct | .DirectSync => do
    tnt_label src offset
    let taken ← must "next_tnt" (trace_next_tnt src env)
    prints src offset fun _ => .tnt taken
  | .Indirect | .IndirectSync | .Trap => do
    let indir ← must "next_indir" (trace_next_indirect src env)
    set_lastip (some indir.target)
    prints src offset fun p => .indirect p indir
  | .Sync => do
    let sync ← must "next_sync" (trace_next_sync src env)
    set_lastip (some sync.addr)
    prints src offset fun p => .sync p sync
  | .Stop => do
    set_lastip none
    let stop ← must "next_stop" (trace_next_stop src env)
    prints src offset fun p => .stop p stop
  | .Error => do
    set_lastip none
    let err ← must "next_error" (trace_next_error src env)
    prints src offset fun p => .error p err
  | .None => pure ()

/-- From `handle_event` on. -/
def at_event (env : Env) (event : TraceEvent) : Replaying σ Unit := do
  handle_event src offset env event
  check_time src offset

/-- Instructions are retired that no code is known of. -/
def retire_unknown (env : Nat → Env) : Except NexusError (Nat × TraceEvent) → Replaying σ Unit
  | .error rc => handle_error src offset (env 6) rc
  | .ok r => do
    Proc.modify fun s => { s with lastip := s.lastip.map fun ip => ip + .ofNat (r.1 * 2 % 2 ^ 32) }
    Proc.when (r.1 ≠ 0) (do
      Proc.modify fun s => { s with tnt_time := 0 }
      prints src offset fun p => .icnt p r.1)
    at_event src offset (env 5) r.2

/-- What `retire` returns, or throws. -/
def block_retired (env : Nat → Env) (b : InstBlock) (depth : Nat) : Except InstExc UInt64 → Replaying σ Unit
  | .ok next => do
    set_lastip (some next)
    prints src offset fun p => .block p b depth
  | .error (.failed rc) => handle_error src offset (env 6) rc
  | .error (.event addr event) => do
    set_lastip (some addr)
    Proc.assert (event ≠ .None)
    -- the event may be right behind the block
    Proc.assert (addr ≥ b.addr && addr - b.addr ≤ .ofNat (b.icnt * 2 % 2 ^ 32))
    let insn ← running (code.disasm1 addr)
    prints src offset fun p => .cut p b ((addr - b.addr) / 2) insn
    at_event src offset (env 5) event

/-- The code at the last address, or no code that is known. -/
def at_block (env : Nat → Env) : Option InstBlock → Replaying σ Unit
  | none => calling (trace_try_retire src (env 4) UINT32_MAX) >>= retire_unknown src offset env
  | some b => do
    let s ← Proc.get
    calling (block_retire src b fun i => env (i + 1)) >>= block_retired src offset code env b s.trace_decoder.return_stack.used

def reset_done (env : Nat → Env) : Option TraceSync → Replaying σ Unit
  | none => find_block code >>= at_block src offset code env
  | some sync => do
    set_lastip (some sync.addr)
    prints src offset fun p => .sync p sync
    check_time src offset

/-- A round of `replay`; its calls find the environments `env 0`, `env 1` and so on. -/
def replay_round (env : Nat → Env) : Replaying σ Unit := must "sync_reset" (trace_sync_reset src (env 0)) >>= reset_done src offset code env

/-- The rounds from the `k`-th on. -/
def replay_rounds (env : Nat → Nat → Env) : Nat → Nat → Replaying σ Unit
  | _, 0 => pure ()
  | k, n + 1 => do
    replay_round src offset code (env k)
    replay_rounds env (k + 1) n

/-- In front of the first round. -/
def replay_start (s : TraceDecoder σ) : Replayer σ := ⟨s, 0, 0, none, [], []⟩

end Code

/-! ## What a round does -/

namespace Replayer
variable {σ : Type} (src : Source σ) (offset : σ → Nat)

/-- The state behind a call on the decoder. -/
def after (d : TraceDecoder σ) (s : Replayer σ) : Replayer σ := { s with trace_decoder := d }

def going (ip : Option UInt64) (s : Replayer σ) : Replayer σ := { s with lastip := ip }

def printed (line : Stamp → Line) (s : Replayer σ) : Replayer σ := { s with lines := line (stamp src offset s) :: s.lines }

/-- What `check_time` leaves. -/
def checked (s : Replayer σ) : Replayer σ :=
  let t := if s.last_time ≠ 0 && s.last_time > trace_time src s.trace_decoder then
      s.printed src offset fun _ => .backward s.last_time (trace_time src s.trace_decoder) else s
  { t with last_time := trace_time src s.trace_decoder }

/-- In front of `next_tnt`. -/
def asks_tnt (s : Replayer σ) : Replayer σ :=
  let t := if s.tnt_time ≠ trace_time src s.trace_decoder then s.printed src offset .tnts else s
  { t with lastip := none, tnt_time := trace_time src s.trace_decoder }

/-- Behind instructions that no code is known of. -/
def passed (n : Nat) (s : Replayer σ) : Replayer σ :=
  let t := s.going (s.lastip.map fun ip => ip + .ofNat (n * 2 % 2 ^ 32))
  if n ≠ 0 then { t with tnt_time := 0 }.printed src offset fun p => .icnt p n else t

end Replayer

section Rounds
variable {σ α β ε : Type} {src : Source σ} {offset : σ → Nat} {code : Code} {s t u : Replayer σ}

theorem calling_bind {x : Proc (TraceDecoder σ) ε α} {f : Except ε α → Replaying σ β} {r : Except Halt β × Replayer σ} :
    (calling x >>= f) s = some r ↔ ∃ a d, x s.trace_decoder = some (a, d) ∧ f a (s.after d) = some r := by
  rw [Proc.bind_apply, calling]
  rcases x s.trace_decoder with _ | ⟨a, d⟩ <;> simp [Replayer.after]

theorem must_bind {call : String} {x : Trace σ α} {f : α → Replaying σ β} {b : β} :
    (must call x >>= f) s = some (.ok b, t) ↔ ∃ a d, x s.trace_decoder = some (.ok a, d) ∧ f a (s.after d) = some (.ok b, t) := by
  rw [must, Proc.bind_assoc_apply, calling_bind]
  constructor
  · rintro ⟨e | a, d, hx, h⟩
    · cases h
    · exact ⟨a, d, hx, h⟩
  · rintro ⟨a, d, hx, h⟩
    exact ⟨.ok a, d, hx, h⟩

theorem running_bind {x : Except Exit α} {f : α → Replaying σ β} {b : β} :
    (running x >>= f) s = some (.ok b, t) ↔ ∃ a, x = .ok a ∧ f a s = some (.ok b, t) := by
  rcases x with (text | _) | a
  · simp [running]
  · have hnone : (running (.error .assert) : Replaying σ α) s = none := rfl
    rw [Proc.bind_none hnone]
    simp
  · simp [running]

theorem check_time_eq (s : Replayer σ) : check_time src offset s = some (.ok (), s.checked src offset) := by
  simp only [check_time, Proc.get_bind_apply, Replayer.checked]
  by_cases hlate : (s.last_time ≠ 0 && s.last_time > trace_time src s.trace_decoder) = true
  · rw [if_pos hlate, hlate]
    rfl
  · rw [if_neg hlate, Bool.eq_false_of_not_eq_true hlate]
    rfl

/-- What `handle_event` does, where it comes back. -/
inductive Attended (src : Source σ) (offset : σ → Nat) (env : Env) (s : Replayer σ) : TraceEvent → Replayer σ → Prop where
  | none : Attended src offset env s .None s
  | tnt {ev taken d} : ev = .Direct ∨ ev = .DirectSync → trace_next_tnt src env s.trace_decoder = some (.ok taken, d) →
      Attended src offset env s ev (((s.asks_tnt src offset).after d).printed src offset fun _ => .tnt taken)
  | indirect {ev indir d} : ev = .Indirect ∨ ev = .IndirectSync ∨ ev = .Trap →
      trace_next_indirect src env s.trace_decoder = some (.ok indir, d) →
      Attended src offset env s ev (((s.after d).going (some indir.target)).printed src offset fun p => .indirect p indir)
  | sync {sync d} : trace_next_sync src env s.trace_decoder = some (.ok sync, d) →
      Attended src offset env s .Sync (((s.after d).going (some sync.addr)).printed src offset fun p => .sync p sync)
  | stop {stop d} : trace_next_stop src env s.trace_decoder = some (.ok stop, d) →
      Attended src offset env s .Stop (((s.going none).after d).printed src offset fun p => .stop p stop)
  | error {err d} : trace_next_error src env s.trace_decoder = some (.ok err, d) →
      Attended src offset env s .Error (((s.going none).after d).printed src offset fun p => .error p err)

theorem tnt_label_eq (s : Replayer σ) : tnt_label src offset s = some (.ok (), s.asks_tnt src offset) := by
  simp only [tnt_label, set_lastip, Proc.modify_bind_apply, Proc.get_bind_apply, Replayer.asks_tnt]
  by_cases hnew : s.tnt_time ≠ trace_time src s.trace_decoder
  · rw [if_pos hnew, decide_eq_true hnew]
    rfl
  · rw [if_neg hnew, decide_eq_false hnew]
    rfl

theorem asks_tnt_decoder (s : Replayer σ) : (s.asks_tnt src offset).trace_decoder = s.trace_decoder := by
  unfold Replayer.asks_tnt
  dsimp only
  split <;> rfl

theorem handle_event_cases {env : Env} {ev : TraceEvent} (h : handle_event src offset env ev s = some (.ok (), t)) :
    Attended src offset env s ev t := by
  have htnt : (tnt_label src offset >>= fun _ => must "next_tnt" (trace_next_tnt src env) >>= fun taken => prints src offset fun _ => .tnt taken) s =
      some (.ok (), t) → ∃ taken d, trace_next_tnt src env s.trace_decoder = some (.ok taken, d) ∧
        t = ((s.asks_tnt src offset).after d).printed src offset fun _ => .tnt taken := by
    intro h
    rw [Proc.bind_ok (tnt_label_eq s), must_bind, asks_tnt_decoder] at h
    obtain ⟨taken, d, hd, h⟩ := h
    cases h
    exact ⟨taken, d, hd, rfl⟩
  have hindirect : (must "next_indir" (trace_next_indirect src env) >>= fun indir => set_lastip (some indir.target) >>= fun _ =>
      prints src offset fun p => .indirect p indir) s = some (.ok (), t) →
      ∃ indir d, trace_next_indirect src env s.trace_decoder = some (.ok indir, d) ∧
        t = ((s.after d).going (some indir.target)).printed src offset fun p => .indirect p indir := by
    intro h
    obtain ⟨indir, d, hd, h⟩ := must_bind.1 h
    cases h
    exact ⟨indir, d, hd, rfl⟩
  cases ev with
  | None =>
    cases h
    exact .none
  | Direct =>
    obtain ⟨taken, d, hd, rfl⟩ := htnt h
    exact .tnt (.inl rfl) hd
  | DirectSync =>
    obtain ⟨taken, d, hd, rfl⟩ := htnt h
    exact .tnt (.inr rfl) hd
  | Indirect =>
    obtain ⟨indir, d, hd, rfl⟩ := hindirect h
    exact .indirect (.inl rfl) hd
  | IndirectSync =>
    obtain ⟨indir, d, hd, rfl⟩ := hindirect h
    exact .indirect (.inr (.inl rfl)) hd
  | Trap =>
    obtain ⟨indir, d, hd, rfl⟩ := hindirect h
    exact .indirect (.inr (.inr rfl)) hd
  | Sync =>
    obtain ⟨sync, d, hd, h⟩ := must_bind.1 h
    cases h
    exact .sync hd
  | Stop =>
    rw [handle_event, set_lastip, Proc.modify_bind_apply] at h
    obtain ⟨stop, d, hd, h⟩ := must_bind.1 h
    cases h
    exact .stop hd
  | Error =>
    rw [handle_event, set_lastip, Proc.modify_bind_apply] at h
    obtain ⟨err, d, hd, h⟩ := must_bind.1 h
    cases h
    exact .error hd

theorem at_event_cases {env : Env} {ev : TraceEvent} (h : at_event src offset env ev s = some (.ok (), t)) :
    ∃ u, Attended src offset env s ev u ∧ t = u.checked src offset := by
  obtain ⟨⟨⟩, u, hu, h⟩ := Proc.bind_eq_ok.1 h
  rw [check_time_eq] at h
  cases h
  exact ⟨u, handle_event_cases hu, rfl⟩

/-- A message that is skipped, behind a call that the decoder does not support. -/
inductive Skipped (src : Source σ) (offset : σ → Nat) (env : Env) (s : Replayer σ) : Replayer σ → Prop where
  | next {n d m d'} : next_msg2 src (env.msg2 0) s.trace_decoder = some (.ok (n, m), d) → n ≠ 0 →
      (trace_add_timestamp src m.timestamp d).map Prod.snd = some d' →
      Skipped src offset env s ((s.after d').printed src offset fun p => .unknown p.time m)

theorem handle_error_cases {env : Env} {rc : NexusError} (h : handle_error src offset env rc s = some (.ok (), t)) :
    rc = .msg_unsupported ∧ Skipped src offset env s t := by
  unfold handle_error at h
  split at h
  · cases h
  · refine ⟨rfl, ?_⟩
    obtain ⟨⟨n, m⟩, d, hd, h⟩ := must_bind.1 h
    simp only [Proc.assert_bind_eq_some, decide_eq_true_eq] at h
    obtain ⟨hn, h⟩ := h
    obtain ⟨a, d', hd', h⟩ := calling_bind.1 h
    cases h
    refine .next hd (Nat.pos_iff_ne_zero.1 hn) ?_
    rw [show trace_add_timestamp src m.timestamp d = some (a, d') from hd']
    rfl
  · cases h

/-- The block at `lastip`, which is fetched where it is not known. -/
inductive Found (code : Code) (s : Replayer σ) : Option InstBlock → Replayer σ → Prop where
  | nowhere : s.lastip = none → Found code s none s
  | known {ip block} : s.lastip = some ip → s.insts.lookup ip = some block → Found code s block s
  | fetched {ip block} : s.lastip = some ip → s.insts.lookup ip = none → code.fetch ip = .ok block →
      Found code s block { s with insts := (ip, block) :: s.insts }

theorem find_block_cases {block : Option InstBlock} (h : find_block code s = some (.ok block, t)) : Found code s block t := by
  rw [find_block, Proc.get_bind_apply] at h
  rcases hip : s.lastip with _ | ip <;> simp only [hip] at h
  · cases h
    exact .nowhere hip
  rcases hl : s.insts.lookup ip with _ | block' <;> simp only [hl] at h
  case some =>
    cases h
    exact .known hip hl
  case none =>
    obtain ⟨block, hf, h⟩ := running_bind.1 h
    cases h
    exact .fetched hip hl hf

theorem Found.frame {block : Option InstBlock} (h : Found code s block t) : t = { s with insts := t.insts } := by
  cases h <;> rfl

/-- What a round does, where it comes back. -/
inductive Rounded (src : Source σ) (offset : σ → Nat) (code : Code) (env : Nat → Env) (s : Replayer σ) : Replayer σ → Prop where
  | resync {sync d} : trace_sync_reset src (env 0) s.trace_decoder = some (.ok (some sync), d) →
      Rounded src offset code env s ((((s.after d).going (some sync.addr)).printed src offset fun p => .sync p sync).checked src offset)
  | block {u b next d} : s.trace_decoder.synced = true → Found code s (some b) u →
      block_retire src b (fun i => env (i + 1)) s.trace_decoder = some (.ok next, d) →
      Rounded src offset code env s (((u.after d).going (some next)).printed src offset fun p => .block p b s.trace_decoder.return_stack.used)
  | event {u b addr ev d insn t} : s.trace_decoder.synced = true → Found code s (some b) u →
      block_retire src b (fun i => env (i + 1)) s.trace_decoder = some (.error (.event addr ev), d) → ev ≠ .None → addr ≥ b.addr →
      addr - b.addr ≤ .ofNat (b.icnt * 2 % 2 ^ 32) → code.disasm1 addr = .ok insn →
      Attended src offset (env 5) (((u.after d).going (some addr)).printed src offset fun p => .cut p b ((addr - b.addr) / 2) insn) ev t →
      Rounded src offset code env s (t.checked src offset)
  | skip_block {u b d t} : s.trace_decoder.synced = true → Found code s (some b) u →
      block_retire src b (fun i => env (i + 1)) s.trace_decoder = some (.error (.failed .msg_unsupported), d) →
      Skipped src offset (env 6) (u.after d) t → Rounded src offset code env s t
  | retire {u n ev d t} : s.trace_decoder.synced = true → Found code s none u →
      trace_try_retire src (env 4) UINT32_MAX s.trace_decoder = some (.ok (n, ev), d) →
      Attended src offset (env 5) ((u.after d).passed src offset n) ev t → Rounded src offset code env s (t.checked src offset)
  | skip {u d t} : s.trace_decoder.synced = true → Found code s none u →
      trace_try_retire src (env 4) UINT32_MAX s.trace_decoder = some (.error .msg_unsupported, d) →
      Skipped src offset (env 6) (u.after d) t → Rounded src offset code env s t

theorem retire_unknown_ok {env : Nat → Env} {n : Nat} {ev : TraceEvent} : retire_unknown src offset env (.ok (n, ev)) s =
    at_event src offset (env 5) ev (s.passed src offset n) := by
  rw [retire_unknown, Proc.modify_bind_apply, Replayer.passed]
  by_cases h0 : n ≠ 0
  · rw [if_pos h0, decide_eq_true h0]
    rfl
  · rw [if_neg h0, decide_eq_false h0]
    rfl

theorem replay_round_cases {env : Nat → Env} (h : replay_round src offset code env s = some (.ok (), t)) : Rounded src offset code env s t := by
  obtain ⟨sync, d, hsync, h⟩ := must_bind.1 h
  rcases sync with _ | sync
  · obtain ⟨hs, -, rfl⟩ | ⟨-, ⟨e, hr, -⟩ | ⟨-, r', -, -, hr⟩⟩ := sync_reset_cases hsync
    · rw [reset_done] at h
      obtain ⟨block, u, hfound, h⟩ := Proc.bind_eq_ok.1 h
      have hfound : Found code s block u := find_block_cases hfound
      have hdec : u.trace_decoder = s.trace_decoder := by rw [hfound.frame]
      rcases block with _ | b
      · rw [at_block] at h
        obtain ⟨r, d, hd, h⟩ := calling_bind.1 h
        rw [hdec] at hd
        rcases r with rc | ⟨n, ev⟩
        · obtain ⟨rfl, hskip⟩ := handle_error_cases h
          exact .skip hs hfound hd hskip
        · rw [retire_unknown_ok] at h
          obtain ⟨t, hev, rfl⟩ := at_event_cases h
          exact .retire hs hfound hd hev
      · rw [at_block, Proc.get_bind_apply, hdec] at h
        obtain ⟨r, d, hd, h⟩ := calling_bind.1 h
        rw [hdec] at hd
        rcases r with (⟨addr, ev⟩ | rc) | next
        · simp only [block_retired, set_lastip, Proc.modify_bind_apply, Proc.assert_bind_eq_some, decide_eq_true_eq, Bool.and_eq_true] at h
          obtain ⟨hev, ⟨hge, hle⟩, h⟩ := h
          obtain ⟨insn, hi, h⟩ := running_bind.1 h
          obtain ⟨t, ht, rfl⟩ := at_event_cases h
          exact .event hs hfound hd hev hge hle hi ht
        · obtain ⟨rfl, hskip⟩ := handle_error_cases h
          exact .skip_block hs hfound hd hskip
        · cases h
          exact .block hs hfound hd
    · cases hr
    · cases r' <;> cases hr
  · rw [reset_done, set_lastip, Proc.modify_bind_apply, prints, Proc.modify_bind_apply, check_time_eq] at h
    cases h
    exact .resync hsync

end Rounds

/-! ## The calls of a round -/

section Calls
variable {σ α β ε : Type} {src : Source σ} {b : InstBlock} {env : Nat → Env} {s t u : TraceDecoder σ}

/-- A run leads from one state of the decoder to the other. -/
def Plays (src : Source σ) (s t : TraceDecoder σ) : Prop := ∃ calls rs, play src calls s = some (rs, t)

theorem Plays.refl (s : TraceDecoder σ) : Plays src s s := ⟨[], [], rfl⟩

theorem Plays.trans (h : Plays src s t) (h' : Plays src t u) : Plays src s u := by
  obtain ⟨calls, rs, h⟩ := h
  obtain ⟨calls', rs', h'⟩ := h'
  exact ⟨calls ++ calls', rs ++ rs', play_append h h'⟩

theorem Plays.of_exec (env : Env) (c : Call) {r : Except NexusError Result} (h : exec src env c s = some (r, t)) : Plays src s t :=
  ⟨[(env, c)], [r], play_one h⟩

/-- A call, whatever is made of its result. -/
theorem Plays.of_map (env : Env) (c : Call) {f : α → Result} {x : Trace σ α} {r : Except NexusError α} (hx : exec src env c = f <$> x)
    (h : x s = some (r, t)) : Plays src s t := by
  refine .of_exec env c (r := r.map f) ?_
  rw [hx]
  exact Proc.map_eq_some.2 ⟨r, h, rfl⟩

/-- A procedure that changes the decoder by calls only. -/
def OnlyCalls (src : Source σ) (x : Proc (TraceDecoder σ) ε α) : Prop := ∀ s r t, x s = some (r, t) → Plays src s t

theorem only_pure (a : α) : OnlyCalls src (pure a : Proc (TraceDecoder σ) ε α) := by
  intro s r t h
  cases h
  exact .refl s

theorem only_fail (e : ε) : OnlyCalls src (Proc.fail e : Proc (TraceDecoder σ) ε α) := by
  intro s r t h
  cases h
  exact .refl s

theorem OnlyCalls.bind {x : Proc (TraceDecoder σ) ε α} {f : α → Proc (TraceDecoder σ) ε β} (hx : OnlyCalls src x)
    (hf : ∀ a, OnlyCalls src (f a)) : OnlyCalls src (x >>= f) := by
  intro s r t h
  rcases Proc.bind_eq_some.1 h with ⟨e, he, -⟩ | ⟨a, u, hu, h⟩
  · exact hx s _ t he
  · exact (hx s _ u hu).trans (hf a u r t h)

theorem OnlyCalls.get_bind {f : TraceDecoder σ → Proc (TraceDecoder σ) ε β} (hf : ∀ s, OnlyCalls src (f s)) :
    OnlyCalls src (Proc.get >>= f) :=
  fun s r t h => hf s s r t h

theorem OnlyCalls.ite {p : Prop} [Decidable p] {x y : Proc (TraceDecoder σ) ε α} (hx : OnlyCalls src x) (hy : OnlyCalls src y) :
    OnlyCalls src (if p then x else y) := by
  split
  · exact hx
  · exact hy

theorem OnlyCalls.throwing {x : Trace σ α} (hx : OnlyCalls src x) : OnlyCalls src (throwing x) := by
  intro s r t h
  obtain ⟨⟨r', t'⟩, hr, he⟩ := Option.map_eq_some_iff.1 h
  cases he
  exact hx _ _ _ hr

theorem OnlyCalls.ignoring {x : Trace σ α} (hx : OnlyCalls src x) : OnlyCalls src (ignoring x) := by
  intro s r t h
  obtain ⟨⟨r', t'⟩, hr, he⟩ := Option.map_eq_some_iff.1 h
  cases he
  exact hx _ _ _ hr

theorem only_try_retire (env : Env) (icnt : Nat) : OnlyCalls src (trace_try_retire src env icnt) :=
  fun _ _ _ => .of_map env (.try_retire icnt) rfl

theorem only_next_tnt (env : Env) : OnlyCalls src (trace_next_tnt src env) :=
  fun _ _ _ => .of_map env .next_tnt rfl

theorem only_next_indirect (env : Env) : OnlyCalls src (trace_next_indirect src env) :=
  fun _ _ _ => .of_map env .next_indirect rfl

theorem only_push_call (env : Env) (callsite : UInt64) : OnlyCalls src (trace_push_call env callsite) :=
  fun _ _ _ => .of_map env (.push_call callsite) rfl

theorem only_pop_ret : OnlyCalls src trace_pop_ret :=
  fun _ _ _ => .of_map ⟨fun _ => Msg.zero, fun _ => true, fun _ => none⟩ .pop_ret rfl

theorem only_check_exc : OnlyCalls src (check_exc src b env) := by
  refine (only_try_retire _ _).throwing.bind fun r => .ite (.ite ?_ ?_) (only_pure _)
  · exact only_fail _
  · exact only_fail _

theorem only_dir_jmp (off : UInt64) : OnlyCalls src (dir_jmp_retire src b env off) := only_check_exc.bind fun _ => only_pure _

theorem only_indir_jmp : OnlyCalls src (indir_jmp_retire src b env) := by
  refine only_check_exc.bind fun event => .ite (only_fail _) ?_
  exact (only_next_indirect _).throwing.bind fun _ => only_pure _

theorem only_indir_call : OnlyCalls src (indir_call_retire src b env) :=
  only_indir_jmp.bind fun _ => (only_push_call _ _).ignoring.bind fun _ => only_pure _

theorem only_ret : OnlyCalls src (ret_retire src b env) := by
  refine only_check_exc.bind fun event => .ite (only_fail _) (.ite ?_ only_pop_ret.throwing)
  exact only_pop_ret.ignoring.bind fun _ => (only_next_indirect _).throwing.bind fun _ => only_pure _

/-- A block retires by calls on the decoder. -/
theorem only_block_retire : OnlyCalls src (block_retire src b env) := by
  unfold block_retire
  split
  · exact only_check_exc.bind fun _ => only_pure _
  · exact only_dir_jmp _
  · refine only_check_exc.bind fun event => .ite (only_fail _) ?_
    exact (only_next_tnt _).throwing.bind fun _ => only_pure _
  · exact (only_dir_jmp _).bind fun _ => (only_push_call _ _).ignoring.bind fun _ => only_pure _
  · exact only_indir_jmp
  · exact only_indir_jmp
  · exact only_indir_call
  · exact only_ret
  · refine .get_bind fun s => .ite only_indir_call ?_
    exact only_ret.bind fun _ => (only_push_call _ _).ignoring.bind fun _ => only_pure _
  · refine (only_try_retire _ _).throwing.bind fun r => .ite (only_fail _) (.ite (only_fail _) ?_)
    exact (only_next_indirect _).throwing.bind fun _ => only_pure _

theorem Attended.plays {offset : σ → Nat} {env : Env} {s t : Replayer σ} {ev : TraceEvent} (h : Attended src offset env s ev t) :
    Plays src s.trace_decoder t.trace_decoder := by
  cases h with
  | none => exact .refl _
  | tnt _ hd => exact only_next_tnt env _ _ _ hd
  | indirect _ hd => exact only_next_indirect env _ _ _ hd
  | sync hd => exact .of_map env .next_sync rfl hd
  | stop hd => exact .of_map env .next_stop rfl hd
  | error hd => exact .of_map env .next_error rfl hd

theorem Skipped.plays {offset : σ → Nat} {env : Env} {s t : Replayer σ} (h : Skipped src offset env s t) :
    Plays src s.trace_decoder t.trace_decoder := by
  cases h with
  | @next n d m d' hd _ hd' =>
    obtain ⟨⟨a, d''⟩, ha, he⟩ := Option.map_eq_some_iff.1 hd'
    cases he
    exact Plays.trans (.of_map env .skip rfl hd) (.of_map env (.add_timestamp m.timestamp) rfl ha)

theorem checked_decoder {offset : σ → Nat} (s : Replayer σ) : (s.checked src offset).trace_decoder = s.trace_decoder := by
  unfold Replayer.checked
  dsimp only
  split <;> rfl

theorem passed_decoder {offset : σ → Nat} (n : Nat) (s : Replayer σ) : (s.passed src offset n).trace_decoder = s.trace_decoder := by
  unfold Replayer.passed
  dsimp only
  split <;> rfl

/-- A round is a run of the decoder. -/
theorem Rounded.plays {offset : σ → Nat} {code : Code} {s t : Replayer σ} (h : Rounded src offset code env s t) :
    Plays src s.trace_decoder t.trace_decoder := by
  cases h with
  | resync hd =>
    rw [checked_decoder]
    exact .of_map (env 0) .sync_reset rfl hd
  | block _ _ hd => exact only_block_retire _ _ _ hd
  | event _ _ hd _ _ _ _ hev =>
    rw [checked_decoder]
    exact (only_block_retire _ _ _ hd).trans hev.plays
  | skip_block _ _ hd hs => exact (only_block_retire _ _ _ hd).trans hs.plays
  | retire _ _ hd hev =>
    rw [checked_decoder]
    have hev := hev.plays
    rw [passed_decoder] at hev
    exact (only_try_retire _ _ _ _ _ hd).trans hev
  | skip _ _ hd hs => exact (only_try_retire _ _ _ _ _ hd).trans hs.plays

end Calls

end nexusrv
