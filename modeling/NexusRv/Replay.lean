import NexusRv.BranchSync
/-!
# Replaying instruction blocks

`inst.cpp`: a block of instructions retires its I-CNT, and where it ends in a branch it asks
the decoder for the target. The blocks that end in an uninferable jump look for the event
Indirect; at a branch with sync the event is IndirectSync, and they do not follow it.
-/

namespace nexusrv

/-! ## The blocks -/

/-- What `retire` throws, `rv_inst_exc_event` or `rv_inst_exc_failed`. -/
inductive InstExc where
  | event (addr : UInt64) (event : TraceEvent)
  | failed (rc : NexusError)
  deriving DecidableEq

/-- The classes of `inst.h`; `off` is the immediate operand of a direct jump. -/
inductive BlockClass where
  | plain
  | dir_jmp (off : UInt64)
  | cond_branch (off : UInt64)
  | dir_call (off : UInt64)
  | indir_jmp
  | iret
  | indir_call
  | ret
  | co_swap
  | int

/-- `rv_inst_block`; `insn_size` is the size of its last instruction. -/
structure InstBlock where
  cls : BlockClass
  addr : UInt64
  icnt : Nat
  insn_size : Nat

abbrev Replay (σ α : Type) := Proc (TraceDecoder σ) InstExc α

section Code
variable {σ α : Type} (src : Source σ) (b : InstBlock)

/-- A call whose error is thrown. -/
def throwing (x : Trace σ α) : Replay σ α := fun s => (x s).map fun r => (r.1.mapError .failed, r.2)

/-- A call whose result is not looked at. -/
def ignoring (x : Trace σ α) : Replay σ Unit := fun s => (x s).map fun r => (.ok (), r.2)

/-- The address behind the block. -/
def InstBlock.behind : UInt64 := b.addr + .ofNat (b.icnt * 2 % 2 ^ 32)

/-- Events that are expected at any I-CNT. -/
def anywhere : TraceEvent → Bool
  | .Trap | .DirectSync | .IndirectSync | .Sync | .Error => true
  | _ => false

/-- `retire` calls the decoder up to three times, in the environments `env 0`, `env 1` and `env 2`. -/
def check_exc (env : Nat → Env) : Replay σ TraceEvent := do
  let r ← throwing (trace_try_retire src (env 0) b.icnt)
  if r.1 < b.icnt then
    if anywhere r.2 then Proc.fail (.event (b.addr + .ofNat (r.1 * 2)) r.2) else Proc.fail (.failed .trace_mismatch)
  else pure r.2

def dir_jmp_retire (env : Nat → Env) (off : UInt64) : Replay σ UInt64 := do
  let _ ← check_exc src b env
  pure (b.behind - .ofNat b.insn_size + off)

def cond_branch_retire (env : Nat → Env) (off : UInt64) : Replay σ UInt64 := do
  let event ← check_exc src b env
  if event = .Error then Proc.fail (.event b.behind event)
  else do
    let taken ← throwing (trace_next_tnt src (env 1))
    pure (if taken then b.behind - .ofNat b.insn_size + off else b.behind)

def dir_call_retire (env : Nat → Env) (off : UInt64) : Replay σ UInt64 := do
  let target ← dir_jmp_retire src b env off
  ignoring (trace_push_call (env 2) b.behind)
  pure target

def indir_jmp_retire (env : Nat → Env) : Replay σ UInt64 := do
  let event ← check_exc src b env
  if event ≠ .Indirect then Proc.fail (.failed .trace_mismatch)
  else do
    let indir ← throwing (trace_next_indirect src (env 1))
    pure indir.target

def indir_call_retire (env : Nat → Env) : Replay σ UInt64 := do
  let target ← indir_jmp_retire src b env
  ignoring (trace_push_call (env 2) b.behind)
  pure target

def ret_retire (env : Nat → Env) : Replay σ UInt64 := do
  let event ← check_exc src b env
  if event = .Error then Proc.fail (.event b.behind event)
  else if event = .Indirect then do
    ignoring trace_pop_ret
    let indir ← throwing (trace_next_indirect src (env 1))
    pure indir.target
  else throwing trace_pop_ret

def co_swap_retire (env : Nat → Env) : Replay σ UInt64 := do
  let s ← Proc.get
  if (src.hw_cfg s.msg_decoder).quirk_sifive then indir_call_retire src b env
  else do
    let target ← ret_retire src b env
    ignoring (trace_push_call (env 2) b.behind)
    pure target

/-- An exception is expected at the start of the last instruction. -/
def int_retire (env : Nat → Env) : Replay σ UInt64 := do
  let icnt := (b.icnt + (2 ^ 32 - b.insn_size / 2)) % 2 ^ 32
  let r ← throwing (trace_try_retire src (env 0) icnt)
  if r.1 < icnt then Proc.fail (.event (b.addr + .ofNat (r.1 * 2)) r.2)
  else if r.2 ≠ .Trap then Proc.fail (.failed .trace_mismatch)
  else do
    let indir ← throwing (trace_next_indirect src (env 1))
    pure indir.target

/-- `retire` of the class of the block. -/
def block_retire (env : Nat → Env) : Replay σ UInt64 :=
  match b.cls with
  | .plain => do
    let _ ← check_exc src b env
    pure b.behind
  | .dir_jmp off => dir_jmp_retire src b env off
  | .cond_branch off => cond_branch_retire src b env off
  | .dir_call off => dir_call_retire src b env off
  | .indir_jmp | .iret => indir_jmp_retire src b env
  | .indir_call => indir_call_retire src b env
  | .ret => ret_retire src b env
  | .co_swap => co_swap_retire src b env
  | .int => int_retire src b env

/-! ## Following a branch -/

/-- The block ends in an uninferable jump. -/
def InstBlock.uninferable : Bool :=
  match b.cls with
  | .indir_jmp | .iret | .indir_call | .ret | .co_swap => true
  | _ => false

/-- A return takes a call site off the stack; a SiFive trace has no coroutine swap. -/
def InstBlock.pops (sifive : Bool) : Bool :=
  match b.cls with
  | .ret => true
  | .co_swap => !sifive
  | _ => false

def InstBlock.pushes : Bool :=
  match b.cls with
  | .indir_call | .co_swap => true
  | _ => false

/-- The stack behind a call of the block's, if it makes one. -/
def Calls (p : Bool) (x : Trace σ α) (s t : TraceDecoder σ) : Prop := if p then ∃ r, x s = some (r, t) else t = s

/-- `retire` consumes the branch at `t`, where `try_retire` stopped, with `next_indirect`, and returns its target. -/
def Follows (env : Nat → Env) (s t : TraceDecoder σ) : Prop :=
  ∃ u i v w, Calls (b.pops (s.sifive src)) trace_pop_ret t u ∧ trace_next_indirect src (env 1) u = some (.ok i, v) ∧
    Calls b.pushes (trace_push_call (env 2) b.behind) v w ∧ block_retire src b env s = some (.ok i.target, w)

/-- The message behind the branch is read, or the messages end. -/
def LooksAhead (env : Env) (t : TraceDecoder σ) : Prop :=
  ∃ n d m, src.next (t.msg_decoder, env.msg2 1) = some (.ok n, d, m) ∧ (m.tcode ≠ .Ownership → (src.rewind_last d).isSome)

end Code

/-! ## The state at the branch -/

section Branch
variable {σ α : Type} {src : Source σ} {b : InstBlock} {s t u v : TraceDecoder σ}

/-- An indirect branch is buffered, and nothing is left in front of it. -/
structure AtIndirect (t : TraceDecoder σ) : Prop where
  synced : t.synced = true
  present : t.msg_present = true
  settled : t.settled
  exhausted : t.Exhausted
  indir : msg_is_indir_branch t.msg = true

theorem msg_event_indirect {m : Msg} (h : msg_event m = .Indirect ∨ msg_event m = .IndirectSync) :
    msg_is_indir_branch m = true ∧ (msg_event m = .Indirect ↔ msg_is_sync m = false) := by
  unfold msg_event at h ⊢
  cases hb : msg_is_branch m <;> cases hi : msg_is_indir_branch m <;> cases hy : msg_is_sync m <;> by_cases ht : m.branch_type ≠ 0 <;>
    simp [hb, hi, hy, ht] at h ⊢
  all_goals split at h <;> simp at h

theorem try_retire_indirect {env : Env} {icnt n : Nat} {ev : TraceEvent} (hev : ev = .Indirect ∨ ev = .IndirectSync)
    (h : trace_try_retire src env icnt s = some (.ok (n, ev), t)) : AtIndirect t ∧ (ev = .Indirect ↔ msg_is_sync t.msg = false) := by
  have hne : ev ≠ .None ∧ ev ≠ .Error := by
    constructor <;> rintro rfl <;> simp at hev
  have hat : AtEvent ev t := try_retire_event hne.1 h
  have herr := hat.not_error hne.2
  have hevent := hat.event
  have h0 : t.tnts_left = 0 := by
    refine Classical.byContradiction fun h0 => ?_
    rw [TraceDecoder.event, herr, if_neg Bool.false_ne_true, if_pos h0] at hevent
    simp [← hevent] at hev
  have hmsg : msg_event t.msg = ev := by
    rw [← hevent]
    simp [TraceDecoder.event, herr, h0]
  rw [← hmsg] at hev ⊢
  obtain ⟨hindir, hiff⟩ := msg_event_indirect hev
  exact ⟨⟨hat.synced, hat.present, hat.settled, hat.exhausted hne.2 h0, hindir⟩, hiff⟩

/-! ## The next indirect branch -/

theorem AtIndirect.with_stack (h : AtIndirect t) (r : RetStack) : AtIndirect { t with return_stack := r } :=
  ⟨h.synced, h.present, h.settled, ⟨h.exhausted.icnt, h.exhausted.tnts, h.exhausted.icnt_le, h.exhausted.tnts_le⟩, h.indir⟩

theorem Retirable.with_stack (r : RetStack) : Retirable { t with return_stack := r } ↔ Retirable t :=
  ⟨fun ⟨a, b, c, d, e, f, g⟩ => ⟨a, b, c, d, e, f, g⟩, fun ⟨a, b, c, d, e, f, g⟩ => ⟨a, b, c, d, e, f, g⟩⟩

theorem addressed_branch (t : TraceDecoder σ) : msg_is_branch t.addressed.msg = msg_is_branch t.msg := by
  unfold TraceDecoder.addressed
  split <;> rfl

/-- A branch leaves the stack as it is. -/
theorem retired_stack (hb : msg_is_branch t.msg = true) : (t.addressed.retired src).return_stack = t.return_stack := by
  have hstack : t.addressed.return_stack = t.return_stack := by
    unfold TraceDecoder.addressed
    split <;> rfl
  unfold TraceDecoder.retired
  rw [addressed_branch, if_pos hb, ← hstack]
  split
  · rfl
  · dsimp only
    split <;> rfl

/-- What `next_indirect` needs at a branch, and what it leaves. -/
theorem AtIndirect.needs (h : AtIndirect t) {env : Env} {i : TraceIndirect} (hnext : trace_next_indirect src env t = some (.ok i, v)) :
    Retirable t ∧ LooksAhead src env t ∧ v.msg = (t.addressed.retired src).msg := by
  cases next_indirect_cases hnext with
  | other b u n d d' m hsync hf hset hex hind hret hn hown hrew =>
    cases hf.of_present h.present
    exact ⟨hret, ⟨n, d, m, hn, fun _ => by rw [hrew]; rfl⟩, rfl⟩
  | ownership b u n d m hsync hf hset hex hind hret hn hown =>
    cases hf.of_present h.present
    exact ⟨hret, ⟨n, d, m, hn, fun hne => absurd hown hne⟩, rfl⟩

/-- `next_indirect` at a branch that can be retired: what is behind it is read. -/
theorem AtIndirect.reads (h : AtIndirect t) (env : Env) (hret : Retirable t) : trace_next_indirect src env t =
    (do
      let r ← next_msg2 src (env.msg2 1)
      if r.2.tcode ≠ .Ownership then do
        rewind_msg src
        pure (t.indirect src none)
      else pure (t.indirect src (some r.2.ownership)) : Trace σ TraceIndirect) (t.addressed.retired src) := by
  rw [trace_next_indirect, Proc.get_bind_apply, h.synced]
  simp only [Bool.not_true, Bool.false_eq_true, if_false]
  rw [Proc.bind_ok (fetch_present _ h.present), Proc.bind_ok (nothing_left h.settled h.exhausted), Proc.get_bind_apply,
    indir_is_branch h.indir, h.indir]
  simp only [Bool.not_true, Bool.or_self, Bool.false_eq_true, if_false, Proc.modify_bind_apply, Proc.get_bind_apply]
  change (trace_retire_msg src >>= _) t.addressed = _
  rw [Proc.bind_ok (retire_msg_iff.2 ⟨addressed_retirable.2 hret, rfl, rfl⟩)]
  simp only [indirect_eq]
  rfl

theorem AtIndirect.next (h : AtIndirect t) {env : Env} (hret : Retirable t) (hahead : LooksAhead src env t) :
    ∃ i v, trace_next_indirect src env t = some (.ok i, v) ∧ v.return_stack = t.return_stack := by
  obtain ⟨n, d, m, hn, hrew⟩ := hahead
  have hstack : (t.addressed.retired src).return_stack = t.return_stack := retired_stack (indir_is_branch h.indir)
  have hmsg2 : next_msg2 src (env.msg2 1) (t.addressed.retired src) = some (.ok (n, m), { t.addressed.retired src with msg_decoder := d }) := by
    rw [next_msg2_apply, retired_msg_decoder, addressed_msg_decoder, hn]
    rfl
  rw [h.reads env hret, Proc.bind_ok hmsg2, Proc.ite_apply]
  split
  · obtain ⟨d', hd'⟩ := Option.isSome_iff_exists.1 (hrew ‹_›)
    have hback : rewind_msg src { t.addressed.retired src with msg_decoder := d } = some (.ok (), { t.addressed.retired src with msg_decoder := d' }) := by
      rw [rewind_msg, hd']
      rfl
    exact ⟨_, _, (Proc.bind_ok hback).trans rfl, hstack⟩
  · exact ⟨_, _, rfl, hstack⟩

/-! ## The stack -/

theorem pop_frame {r : Except NexusError UInt64} (h : trace_pop_ret t = some (r, u)) : ∃ stack, u = { t with return_stack := stack } := by
  obtain ⟨⟨r', stack⟩, -, he⟩ := Option.map_eq_some_iff.1 h
  cases he
  exact ⟨stack, rfl⟩

theorem push_frame {env : Env} {a : UInt64} {r : Except NexusError Unit} (h : trace_push_call env a t = some (r, u)) :
    ∃ stack, u = { t with return_stack := stack } := by
  obtain ⟨⟨r', stack⟩, -, he⟩ := Option.map_eq_some_iff.1 h
  cases he
  exact ⟨stack, rfl⟩

theorem pop_total (hi : t.return_stack.Inv) : ∃ r stack, trace_pop_ret t = some (r, { t with return_stack := stack }) ∧ stack.Inv := by
  by_cases h0 : t.return_stack.used = 0
  · refine ⟨.error .trace_retstack_empty, t.return_stack, ?_, hi⟩
    rw [trace_pop_ret, Proc.zoom, RetStack.pop_empty h0]
    rfl
  · obtain ⟨a, stack, hpop, hstack, -⟩ := RetStack.pop_some hi h0
    refine ⟨.ok a, stack, ?_, hstack⟩
    rw [trace_pop_ret, Proc.zoom, hpop]
    rfl

/-- A push asserts that the slots are used from the first one on. -/
theorem push_total (hi : t.return_stack.Inv) (env : Env) (a : UInt64) : ∃ r u, trace_push_call env a t = some (r, u) := by
  have henlarge : ∃ r stack, retstack_may_enlarge env.mem t.return_stack = some (r, stack) := by
    rw [retstack_may_enlarge, Proc.get_bind_apply, Proc.ite_apply]
    split
    · exact ⟨_, _, rfl⟩
    rw [Proc.assert_bind_apply, if_pos (by simp [hi.end_eq]), Proc.ite_apply]
    split
    · exact ⟨_, _, rfl⟩
    · generalize env.mem.alloc _ _ = block
      cases block <;> exact ⟨_, _, rfl⟩
  have hpush : ∃ r stack, retstack_push env.mem a t.return_stack = some (r, stack) := by
    rw [retstack_push, Proc.get_bind_apply, Proc.ite_apply]
    split
    · exact ⟨_, _, rfl⟩
    obtain ⟨e | ⟨⟩, stack, h⟩ := henlarge
    · exact ⟨_, _, Proc.bind_error h⟩
    · exact ⟨_, _, Proc.bind_ok h⟩
  obtain ⟨r, stack, h⟩ := hpush
  refine ⟨r, { t with return_stack := stack }, ?_⟩
  rw [trace_push_call, Proc.zoom, h]
  rfl

/-! ## The blocks that end in an uninferable jump -/

section Blocks
variable {env : Nat → Env} {e : TraceEvent}

theorem throwing_ok {x : Trace σ α} {a : α} (h : x s = some (.ok a, t)) : throwing x s = some (.ok a, t) := by
  rw [throwing, h]
  rfl

theorem throwing_eq_ok {x : Trace σ α} {a : α} (h : throwing x s = some (.ok a, t)) : x s = some (.ok a, t) := by
  obtain ⟨⟨r, t'⟩, hx, he⟩ := Option.map_eq_some_iff.1 h
  rcases r with e' | a' <;> cases he
  exact hx

theorem ignoring_apply {x : Trace σ α} {r : Except NexusError α} (h : x s = some (r, t)) : ignoring x s = some (.ok (), t) := by
  rw [ignoring, h]
  rfl

theorem ignoring_eq {x : Trace σ α} {r : Except InstExc Unit} (h : ignoring x s = some (r, t)) : ∃ r', x s = some (r', t) := by
  obtain ⟨⟨r', t'⟩, hx, he⟩ := Option.map_eq_some_iff.1 h
  cases he
  exact ⟨r', hx⟩

/-- All of the block is retired, and the event is at its end. -/
theorem check_exc_ok (h : trace_try_retire src (env 0) b.icnt s = some (.ok (b.icnt, e), t)) : check_exc src b env s = some (.ok e, t) := by
  rw [check_exc, Proc.bind_ok (throwing_ok h), Proc.ite_apply, if_neg (Nat.lt_irrefl _)]
  rfl

theorem indir_jmp_follows (h : trace_try_retire src (env 0) b.icnt s = some (.ok (b.icnt, .Indirect), t)) {i : TraceIndirect}
    (hnext : trace_next_indirect src (env 1) t = some (.ok i, v)) : indir_jmp_retire src b env s = some (.ok i.target, v) := by
  rw [indir_jmp_retire, Proc.bind_ok (check_exc_ok h), Proc.ite_apply, if_neg (by simp), Proc.bind_ok (throwing_ok hnext)]
  rfl

theorem ret_follows (h : trace_try_retire src (env 0) b.icnt s = some (.ok (b.icnt, .Indirect), t)) {r : Except NexusError UInt64}
    (hpop : trace_pop_ret t = some (r, u)) {i : TraceIndirect} (hnext : trace_next_indirect src (env 1) u = some (.ok i, v)) :
    ret_retire src b env s = some (.ok i.target, v) := by
  rw [ret_retire, Proc.bind_ok (check_exc_ok h), Proc.ite_apply, if_neg (by simp), Proc.ite_apply, if_pos rfl, Proc.bind_ok (ignoring_apply hpop),
    Proc.bind_ok (throwing_ok hnext)]
  rfl

/-- Before the message is consumed, the block is already done, or it has failed. -/
theorem indir_jmp_sync (h : trace_try_retire src (env 0) b.icnt s = some (.ok (b.icnt, .IndirectSync), t)) :
    indir_jmp_retire src b env s = some (.error (.failed .trace_mismatch), t) := by
  rw [indir_jmp_retire, Proc.bind_ok (check_exc_ok h), Proc.ite_apply, if_pos (by simp)]
  rfl

theorem ret_sync (h : trace_try_retire src (env 0) b.icnt s = some (.ok (b.icnt, .IndirectSync), t)) :
    ret_retire src b env s = throwing trace_pop_ret t := by
  rw [ret_retire, Proc.bind_ok (check_exc_ok h), Proc.ite_apply, if_neg (by simp), Proc.ite_apply, if_neg (by simp)]

theorem indir_call_sync (h : trace_try_retire src (env 0) b.icnt s = some (.ok (b.icnt, .IndirectSync), t)) :
    indir_call_retire src b env s = some (.error (.failed .trace_mismatch), t) := by
  rw [indir_call_retire, Proc.bind_error (indir_jmp_sync h)]

/-- At a branch with sync, what is returned is not the branch's target: the message is still there. -/
theorem retire_sync_msg (hb : b.uninferable = true) (h : trace_try_retire src (env 0) b.icnt s = some (.ok (b.icnt, .IndirectSync), t))
    {a : UInt64} (hret : block_retire src b env s = some (.ok a, u)) : u.msg = t.msg := by
  unfold block_retire at hret
  cases hc : b.cls <;> simp only [hc] at hret
  case indir_jmp | iret =>
    rw [indir_jmp_sync h] at hret
    cases hret
  case indir_call =>
    rw [indir_call_sync h] at hret
    cases hret
  case ret =>
    rw [ret_sync h] at hret
    obtain ⟨stack, rfl⟩ := pop_frame (throwing_eq_ok hret)
    rfl
  case co_swap =>
    rw [co_swap_retire, Proc.get_bind_apply, Proc.ite_apply] at hret
    split at hret
    · rw [indir_call_sync h] at hret
      cases hret
    · obtain ⟨a', v, hv, hret⟩ := Proc.bind_eq_ok.1 hret
      obtain ⟨⟨⟩, w, hw, hret⟩ := Proc.bind_eq_ok.1 hret
      cases hret
      rw [ret_sync h] at hv
      obtain ⟨stack, rfl⟩ := pop_frame (throwing_eq_ok hv)
      obtain ⟨r, hw⟩ := ignoring_eq hw
      obtain ⟨stack', rfl⟩ := push_frame hw
      rfl
  all_goals simp [InstBlock.uninferable, hc] at hb

theorem Calls.frame {p : Bool} {x : Trace σ α} (hx : ∀ r u, x t = some (r, u) → ∃ stack, u = { t with return_stack := stack }) (h : Calls p x t u) :
    ∃ stack, u = { t with return_stack := stack } := by
  unfold Calls at h
  split at h
  · obtain ⟨r, hr⟩ := h
    exact hx r u hr
  · exact ⟨t.return_stack, by rw [h]⟩

/-- A branch with sync is a ProgTraceSync once it is consumed. -/
theorem retired_sync_tcode (hb : msg_is_branch t.msg = true) (hy : msg_is_sync t.msg = true) :
    (t.addressed.retired src).msg.tcode = .ProgTraceSync := by
  have haddr : t.addressed.msg = t.msg := by
    rw [TraceDecoder.addressed, if_pos hy]
  unfold TraceDecoder.retired
  rw [haddr, if_pos hb, if_pos hy]
  rfl

/-- A block that follows the branch follows no branch with sync. -/
theorem Follows.not_sync (hb : b.uninferable = true) (h : trace_try_retire src (env 0) b.icnt s = some (.ok (b.icnt, e), t))
    (he : e = .Indirect ∨ e = .IndirectSync) (hf : Follows src b env s t) :
    msg_is_sync t.msg = false ∧ Retirable t ∧ LooksAhead src (env 1) t := by
  obtain ⟨hat, hev⟩ := try_retire_indirect he h
  obtain ⟨u, i, v, w, hpop, hnext, hpush, hret⟩ := hf
  obtain ⟨stack, rfl⟩ := hpop.frame fun r u => pop_frame
  obtain ⟨hret', hahead, hmsg⟩ := (hat.with_stack stack).needs hnext
  refine ⟨?_, (Retirable.with_stack stack).1 hret', hahead⟩
  refine Bool.eq_false_iff.2 fun hy => ?_
  have hsync : e = .IndirectSync := he.resolve_left fun h => by simp [hev.1 h] at hy
  rw [hsync] at h
  obtain ⟨stack', rfl⟩ := hpush.frame fun r u => push_frame
  have hsame := retire_sync_msg hb h hret
  change v.msg = t.msg at hsame
  have hbranch := indir_is_branch hat.indir
  have htcode : (TraceDecoder.retired src { t with return_stack := stack }.addressed).msg.tcode = .ProgTraceSync := retired_sync_tcode hbranch hy
  rw [← hmsg, hsame] at htcode
  simp [msg_is_branch, htcode] at hbranch

theorem calls_true {p : Bool} {x : Trace σ α} {r : Except NexusError α} (hp : p = true) (h : x t = some (r, u)) : Calls p x t u := by
  rw [Calls, if_pos hp]
  exact ⟨r, h⟩

theorem calls_false {p : Bool} {x : Trace σ α} (hp : p = false) : Calls p x t t := by
  rw [Calls, hp]
  rfl

/-- Without a sync, the branch is followed where it can be consumed. -/
theorem follows_of (hb : b.uninferable = true) (h : trace_try_retire src (env 0) b.icnt s = some (.ok (b.icnt, .Indirect), t))
    (hstack : t.return_stack.Inv) (hret : Retirable t) (hahead : LooksAhead src (env 1) t) : Follows src b env s t := by
  have hat := (try_retire_indirect (.inl rfl) h).1
  -- without a return, and behind one
  obtain ⟨i, v, hnext, hv⟩ := hat.next hret hahead
  obtain ⟨r, w, hpush⟩ := push_total (t := v) (hv ▸ hstack) (env 2) b.behind
  obtain ⟨r₁, stack, hpop, hinv⟩ := pop_total hstack
  obtain ⟨i₁, v₁, hnext₁, hv₁⟩ := (hat.with_stack stack).next ((Retirable.with_stack stack).2 hret) hahead
  obtain ⟨r₂, w₁, hpush₁⟩ := push_total (t := v₁) (hv₁ ▸ hinv) (env 2) b.behind
  have hcall : indir_call_retire src b env s = some (.ok i.target, w) := by
    rw [indir_call_retire, Proc.bind_ok (indir_jmp_follows h hnext), Proc.bind_ok (ignoring_apply hpush)]
    rfl
  cases hc : b.cls
  case indir_jmp | iret =>
    refine ⟨t, i, v, v, calls_false (by simp [InstBlock.pops, hc]), hnext, calls_false (by simp [InstBlock.pushes, hc]), ?_⟩
    simp only [block_retire, hc]
    exact indir_jmp_follows h hnext
  case indir_call =>
    refine ⟨t, i, v, w, calls_false (by simp [InstBlock.pops, hc]), hnext, calls_true (by simp [InstBlock.pushes, hc]) hpush, ?_⟩
    simp only [block_retire, hc]
    exact hcall
  case ret =>
    refine ⟨_, i₁, v₁, v₁, calls_true (by simp [InstBlock.pops, hc]) hpop, hnext₁, calls_false (by simp [InstBlock.pushes, hc]), ?_⟩
    simp only [block_retire, hc]
    exact ret_follows h hpop hnext₁
  case co_swap =>
    have hpushes : b.pushes = true := by simp [InstBlock.pushes, hc]
    by_cases hq : (src.hw_cfg s.msg_decoder).quirk_sifive = true
    · refine ⟨t, i, v, w, calls_false (by simp [InstBlock.pops, hc, TraceDecoder.sifive, hq]), hnext, calls_true hpushes hpush, ?_⟩
      simp only [block_retire, hc]
      rw [co_swap_retire, Proc.get_bind_apply, Proc.ite_apply, if_pos hq]
      exact hcall
    · refine ⟨_, i₁, v₁, w₁, calls_true (by simp [InstBlock.pops, hc, TraceDecoder.sifive, hq]) hpop, hnext₁, calls_true hpushes hpush₁, ?_⟩
      simp only [block_retire, hc]
      rw [co_swap_retire, Proc.get_bind_apply, Proc.ite_apply, if_neg hq, Proc.bind_ok (ret_follows h hpop hnext₁),
        Proc.bind_ok (ignoring_apply hpush₁)]
      rfl
  all_goals simp [InstBlock.uninferable, hc] at hb

end Blocks

/-- A block that ends in an uninferable jump follows the branch unless it is one with sync, as far as the decoder can consume it. -/
theorem retire_follows_iff (hb : b.uninferable = true) {env : Nat → Env} {e : TraceEvent}
    (h : trace_try_retire src (env 0) b.icnt s = some (.ok (b.icnt, e), t)) (he : e = .Indirect ∨ e = .IndirectSync) (hstack : t.return_stack.Inv) :
    Follows src b env s t ↔ msg_is_sync t.msg = false ∧ Retirable t ∧ LooksAhead src (env 1) t := by
  constructor
  · exact Follows.not_sync hb h he
  · rintro ⟨hy, hret, hahead⟩
    have hev : e = .Indirect := (try_retire_indirect he h).2.2 hy
    rw [hev] at h
    exact follows_of hb h hstack hret hahead

end Branch

/-- A ProgTraceSync message and an indirect branch behind five instructions, without and with sync. -/
def jump_start : TraceDecoder MsgDecoder := fresh_decoder plain_cfg [0x24, 0x01, 0x07, 0x10, 0x51, 0x0f]
def jump_sync_start : TraceDecoder MsgDecoder := fresh_decoder plain_cfg [0x24, 0x01, 0x07, 0x30, 0x04, 0x15, 0x0f]

theorem jump_run : ∃ s t : TraceDecoder MsgDecoder, Reachable s ∧
    trace_try_retire msg_source (env_of Msg.zero) 5 s = some (.ok (5, .Indirect), t) ∧ t.return_stack = ⟨[], 0, 0, 0, 0⟩ := by
  have hrun : ((play msg_source [(env_of Msg.zero, .sync_reset)] jump_start).bind fun p =>
      (play msg_source [(env_of Msg.zero, .try_retire 5)] p.2).map fun q => (p.1, (), q.1, q.2.return_stack)) =
      some ([.ok (.reset (some ⟨2, 0⟩))], (), [.ok (.retired 5 .Indirect)], ⟨[], 0, 0, 0, 0⟩) := by decide +kernel
  obtain ⟨s, t, hs, h, -, hstack⟩ := exec_shown (fun _ => ()) (·.return_stack) hrun
  exact ⟨s, t, fresh_reachable rfl hs, try_retire_of_exec h, hstack⟩

theorem retire_follows_iff_five : ∃ s t : TraceDecoder MsgDecoder,
    trace_try_retire msg_source (env_of Msg.zero) 5 s = some (.ok (5, .Indirect), t) ∧
      (Follows msg_source ⟨.indir_jmp, 0x80, 5, 4⟩ (fun _ => env_of Msg.zero) s t ↔
        msg_is_sync t.msg = false ∧ Retirable t ∧ LooksAhead msg_source (env_of Msg.zero) t) := by
  obtain ⟨s, t, -, h, hstack⟩ := jump_run
  exact ⟨s, t, h, retire_follows_iff (b := ⟨.indir_jmp, 0x80, 5, 4⟩) rfl h (.inl rfl)
    (by rw [hstack]; exact ⟨rfl, Nat.le_refl _, Nat.le_refl _, rfl, fun _ => rfl⟩)⟩

/-- An indirect jump that a periodic sync falls on. -/
theorem indirect_sync_not_followed : ¬ ∀ (b : InstBlock) (s t : TraceDecoder MsgDecoder) (env : Nat → Env) (e : TraceEvent), b.uninferable = true →
    Reachable s → trace_try_retire msg_source (env 0) b.icnt s = some (.ok (b.icnt, e), t) → e = .Indirect ∨ e = .IndirectSync →
    Follows msg_source b env s t := by
  intro hall
  have hrun : ((play msg_source [(env_of Msg.zero, .sync_reset)] jump_sync_start).bind fun p =>
      (play msg_source [(env_of Msg.zero, .try_retire 5)] p.2).map fun q => (p.1, (), q.1, ())) =
      some ([.ok (.reset (some ⟨2, 0⟩))], (), [.ok (.retired 5 .IndirectSync)], ()) := by decide +kernel
  obtain ⟨s, t, hs, h, -⟩ := exec_shown (fun _ => ()) (fun _ => ()) hrun
  have hretire : trace_try_retire msg_source (env_of Msg.zero) 5 s = some (.ok (5, .IndirectSync), t) := try_retire_of_exec h
  have hf := hall ⟨.indir_jmp, 0x80, 5, 4⟩ s t (fun _ => env_of Msg.zero) .IndirectSync rfl (fresh_reachable rfl hs) hretire (.inr rfl)
  have hsync : msg_is_sync t.msg = false := (hf.not_sync rfl hretire (.inr rfl)).1
  exact absurd ((try_retire_indirect (.inr rfl) hretire).2.2 hsync) (by decide)

end nexusrv
