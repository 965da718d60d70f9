import NexusRv.Endless
import NexusRv.Erasure
/-!
# Paths of the replayer

The lines that the replayer prints describe a path of the program: a block that is printed starts where the line before leads, and its last
instruction leads to where the next line starts. A target that is not in the code comes from the trace, or from the call stack, and the
call stack is what the lines so far leave on it.
-/

namespace nexusrv

open OrderedMap

/-! ## What a call does to the call stack -/

section Stacks
variable {σ α : Type} {src : Source σ} {env : Env} {s t : TraceDecoder σ}

theorem Fetched.return_stack {msg2 : Msg} {r : Except NexusError Bool} (h : Fetched src msg2 s r t) : t.return_stack = s.return_stack := by
  rw [h.frame]

theorem Pulled.return_stack {k : Nat} {r : Except NexusError Bool} (h : Pulled src env k s r t) : t.return_stack = s.return_stack := by
  cases h with
  | failed _ _ hf => exact hf.return_stack
  | other _ _ hf => exact hf.return_stack
  | hist_overflow _ _ hf => exact hf.return_stack
  | icnt_overflow _ u hf =>
    apply Eq.trans _ hf.return_stack
    rfl
  | unsupported _ _ hf => exact hf.return_stack
  | no_mem _ u _ hf =>
    apply Eq.trans _ hf.return_stack
    rfl
  | taken _ u _ hf =>
    apply Eq.trans _ hf.return_stack
    rfl

theorem Loop.return_stack {done : Trace σ (Option α)} (hdone : ∀ {s r t}, done s = some (r, t) → t.return_stack = s.return_stack) {k : Nat}
    {rc : Bool} {r : Except NexusError (Option α)} (h : Loop src env done k rc s r t) : t.return_stack = s.return_stack := by
  induction h with
  | found hd => exact hdone hd
  | failed hd => exact hdone hd
  | stop hd => exact hdone hd
  | pull_failed hd hp => exact (pull_cases hp).return_stack.trans (hdone hd)
  | pull hd hp _ ih => exact ih.trans ((pull_cases hp).return_stack.trans (hdone hd))

theorem take_icnt_stack (n : Nat) (s : TraceDecoder σ) : (s.take_icnt n).return_stack = s.return_stack := by
  unfold TraceDecoder.take_icnt
  split <;> rfl

theorem retire_icnt_stack {n : Nat} {r : Except NexusError (Option Nat)} (h : retire_icnt n s = some (r, t)) :
    t.return_stack = s.return_stack := by
  obtain ⟨-, -, ⟨-, -, rfl⟩ | ⟨-, -, -, -, rfl⟩⟩ := retire_icnt_cases h
  · rfl
  · exact take_icnt_stack n s

theorem retire_tnt_stack {r : Except NexusError (Option Bool)} (h : retire_tnt src s = some (r, t)) : t.return_stack = s.return_stack := by
  obtain ⟨-, -, ⟨-, -, rfl⟩ | ⟨-, b, -, -, htook⟩⟩ := retire_tnt_cases h
  · rfl
  · cases htook <;> rfl

theorem try_retire_stack {icnt : Nat} {r : Except NexusError (Nat × TraceEvent)} (h : trace_try_retire src env icnt s = some (r, t)) :
    t.return_stack = s.return_stack := by
  cases try_retire_cases h with
  | unsynced => rfl
  | failed _ _ _ hloop => exact hloop.return_stack retire_icnt_stack
  | early _ _ _ hloop => exact hloop.return_stack retire_icnt_stack
  | event u _ hloop => exact (take_icnt_stack _ u).trans (hloop.return_stack retire_icnt_stack)

/-- A sync message that is not a branch clears the stack. -/
theorem stack_retired (s : TraceDecoder σ) :
    (s.retired src).return_stack = if msg_is_plain_sync s.msg then retstack_clear s.return_stack else s.return_stack := by
  unfold TraceDecoder.retired msg_is_plain_sync
  cases msg_is_branch s.msg with
  | true =>
    simp only [if_true, Bool.not_true, Bool.and_false, Bool.false_eq_true, if_false]
    split
    · rfl
    · split <;> rfl
  | false =>
    cases msg_is_sync s.msg <;> rfl

theorem next_tnt_stack {r : Except NexusError Bool} (h : trace_next_tnt src env s = some (r, t)) : t.return_stack = s.return_stack := by
  cases next_tnt_cases h with
  | unsynced => rfl
  | failed _ _ _ hloop => exact hloop.return_stack retire_tnt_stack
  | bit _ _ _ hloop => exact hloop.return_stack retire_tnt_stack
  | waiting _ _ hloop => exact hloop.return_stack retire_tnt_stack
  | mismatch _ _ hloop => exact hloop.return_stack retire_tnt_stack
  | branch u _ hloop _ hdir =>
    have hbranch : msg_is_branch u.msg = true := by
      simp only [msg_is_dir_branch, Bool.and_eq_true] at hdir
      exact hdir.1
    apply Eq.trans _ (hloop.return_stack retire_tnt_stack)
    rw [stack_retired, msg_is_plain_sync, hbranch]
    simp

theorem next_indirect_stack {r : Except NexusError TraceIndirect} (h : trace_next_indirect src env s = some (r, t)) :
    t.return_stack = s.return_stack := by
  have hkept : ∀ {u : TraceDecoder σ}, msg_is_indir_branch u.msg = true → (u.addressed.retired src).return_stack = u.return_stack :=
    fun hind => retired_stack (indir_is_branch hind)
  cases next_indirect_cases h with
  | unsynced => rfl
  | fetch_failed _ _ _ hf => exact hf.return_stack
  | mismatch _ _ _ hf => exact hf.return_stack
  | ahead_failed _ _ _ _ _ _ hf _ _ hind => exact (hkept hind).trans hf.return_stack
  | other _ _ _ _ _ _ _ hf _ _ hind => exact (hkept hind).trans hf.return_stack
  | ownership _ _ _ _ _ _ hf _ _ hind => exact (hkept hind).trans hf.return_stack

/-- A sync clears the stack. -/
theorem next_sync_stack {sync : TraceSync} (h : trace_next_sync src env s = some (.ok sync, t)) :
    t.return_stack = retstack_clear s.return_stack := by
  obtain ⟨e, he, -⟩ | ⟨u, hc, -, -, rfl⟩ := next_sync_cases h
  · cases he
  · cases hc with
    | passed _ _ _ hf _ _ hy => rw [stack_retired, if_pos hy, hf.return_stack]

theorem next_stop_stack {stop : TraceStop} (h : trace_next_stop src env s = some (.ok stop, t)) : t.return_stack = s.return_stack := by
  obtain ⟨e, he, -⟩ | ⟨u, hc, -, -, rfl⟩ := next_stop_cases h
  · cases he
  · cases hc with
    | passed _ _ _ hf _ _ hstop =>
      have hy : msg_is_plain_sync u.msg = false := by
        simp only [msg_is_stop, decide_eq_true_eq] at hstop
        simp [msg_is_plain_sync, msg_is_sync, hstop]
      dsimp only
      rw [stack_retired, hy, hf.return_stack]
      rfl

theorem next_error_stack {err : TraceError} (h : trace_next_error src env s = some (.ok err, t)) : t.return_stack = s.return_stack := by
  cases next_error_cases h with
  | passed _ u _ hf herr =>
    have hy : msg_is_plain_sync (u.emptied src).msg = false := by
      change msg_is_plain_sync u.msg = false
      simp [msg_is_plain_sync, msg_is_sync, herr]
    dsimp only
    rw [stack_retired, hy]
    exact hf.return_stack

theorem sync_reset_stack {sync : TraceSync} (h : trace_sync_reset src env s = some (.ok (some sync), t)) :
    t.return_stack = retstack_clear s.return_stack := by
  obtain ⟨-, he, -⟩ | ⟨-, ⟨e, he, -⟩ | ⟨u, r', hf, hn, he⟩⟩ := sync_reset_cases h
  · cases he
  · cases he
  · rcases r' with e | y <;> cases he
    rw [next_sync_stack hn]
    exact congrArg retstack_clear hf.return_stack

end Stacks

/-! ## Where a block leads -/

/-- A call site that is pushed is kept where there is room for it. -/
def Recent.keep (cap : Nat) (st : Recent) (a : UInt64) : Recent := if st.length = cap then st else a :: st

/-- To where the trace says, or back to the last call site. -/
def GoesBack (told : UInt64 → Prop) (st : Recent) (next : UInt64) (st' : Recent) : Prop := told next ∧ st' = st.tail ∨ st = next :: st'

/-- Where the last instruction of a block leads, which is at `pc`, and the call sites behind it. -/
inductive Leads (told : UInt64 → Prop) (sifive : Bool) (cap : Nat) (pc behind : UInt64) (st : Recent) : BlockClass → UInt64 → Recent → Prop where
  | plain : Leads told sifive cap pc behind st .plain behind st
  | dir_jmp {off} : Leads told sifive cap pc behind st (.dir_jmp off) (pc + off) st
  | not_taken {off} : Leads told sifive cap pc behind st (.cond_branch off) behind st
  | taken {off} : Leads told sifive cap pc behind st (.cond_branch off) (pc + off) st
  | dir_call {off} : Leads told sifive cap pc behind st (.dir_call off) (pc + off) (st.keep cap behind)
  | indir_jmp {cls next} : cls = .indir_jmp ∨ cls = .iret ∨ cls = .int → told next → Leads told sifive cap pc behind st cls next st
  | indir_call {cls next} : cls = .indir_call ∨ cls = .co_swap ∧ sifive = true → told next →
      Leads told sifive cap pc behind st cls next (st.keep cap behind)
  | ret {next st'} : GoesBack told st next st' → Leads told sifive cap pc behind st .ret next st'
  | co_swap {next st'} : sifive = false → GoesBack told st next st' → Leads told sifive cap pc behind st .co_swap next (st'.keep cap behind)

/-- The call sites on a stack of at most `cap`. -/
structure Stacked (cap : Nat) (s : RetStack) (st : Recent) : Prop where
  inv : s.Inv
  max_eq : s.max = cap
  contents : s.contents = st

/-- The trace tells the target. -/
def Told {σ : Type} (src : Source σ) (s : TraceDecoder σ) (a : UInt64) : Prop :=
  ∃ env d i d', Plays src s d ∧ trace_next_indirect src env d = some (.ok i, d') ∧ i.target = a

/-- A run from `s₀` has come to `s`, with the call sites `st`. -/
structure Kept {σ : Type} (src : Source σ) (s₀ : TraceDecoder σ) (cap : Nat) (st : Recent) (s : TraceDecoder σ) : Prop where
  played : Plays src s₀ s
  stacked : Stacked cap s.return_stack st

/-- A block that does not retire leaves the call sites, and an event is behind its start. -/
def Thrown {σ : Type} (src : Source σ) (s₀ : TraceDecoder σ) (cap : Nat) (st : Recent) (b : InstBlock) : InstExc → TraceDecoder σ → Prop
  | .event addr _, s => Kept src s₀ cap st s ∧ ∃ n, n * 2 < 2 ^ 32 ∧ addr = b.addr + .ofNat (n * 2)
  | .failed rc, s => rc = .msg_unsupported → Kept src s₀ cap st s

theorem Loop.few {σ : Type} {src : Source σ} {env : Env} {n : Nat} {s t : TraceDecoder σ} {k : Nat} {rc : Bool} {r : Except NexusError (Option Nat)}
    (h : Loop src env (retire_icnt n) k rc s r t) : (r = .ok none → t.icnt_left ≤ n) ∧ ∀ m, r = .ok (some m) → m = n := by
  induction h with
  | found hd =>
    obtain ⟨-, -, ⟨-, hr, -⟩ | ⟨-, -, -, hr, -⟩⟩ := retire_icnt_cases hd <;> cases hr
    exact ⟨fun h => by (cases h), fun m h => by cases h; rfl⟩
  | failed => exact ⟨fun h => by (cases h), fun m h => by cases h⟩
  | stop hd =>
    obtain ⟨-, -, ⟨hle, -, rfl⟩ | ⟨-, -, -, hr, -⟩⟩ := retire_icnt_cases hd
    · exact ⟨fun _ => hle, fun m h => by cases h⟩
    · cases hr
  | pull_failed => exact ⟨fun h => by (cases h), fun m h => by cases h⟩
  | pull _ _ _ ih => exact ih

/-- No more is retired than is asked for. -/
theorem try_retire_le {σ : Type} {src : Source σ} {env : Env} {icnt n : Nat} {ev : TraceEvent} {s t : TraceDecoder σ}
    (h : trace_try_retire src env icnt s = some (.ok (n, ev), t)) : n ≤ retire_limit icnt := by
  cases try_retire_cases h with
  | early _ _ _ hloop => exact (hloop.few.2 n rfl).le
  | event u _ hloop => exact hloop.few.1 rfl

section Blocks
variable {σ α : Type} {src : Source σ} {s₀ s t : TraceDecoder σ} {cap : Nat} {st : Recent} {b : InstBlock} {env : Nat → Env}

theorem Stacked.clear {r : RetStack} (h : Stacked cap r st) : Stacked cap (retstack_clear r) [] :=
  ⟨RetStack.clear_inv h.inv, h.max_eq, by simp [RetStack.contents, retstack_clear]⟩

theorem Stacked.used {r : RetStack} (h : Stacked cap r st) : r.used = st.length := by
  rw [← h.contents, RetStack.contents_length]

theorem Stacked.push {mem : Heap} (hmem : ∀ n, (mem n).isSome) (hcap : cap < 2 ^ 31) {r r' : RetStack} (h : Stacked cap r st) {a : UInt64}
    {e : Except NexusError Unit} (hpush : retstack_push mem a r = some (e, r')) : Stacked cap r' (st.keep cap a) := by
  have hused := h.used
  unfold Recent.keep
  by_cases hfull : st.length = cap
  · rw [RetStack.push_full a (by rw [hused, hfull, h.max_eq])] at hpush
    cases hpush
    rw [if_pos hfull]
    exact h
  · have hle : r.used ≤ r.max := Nat.le_trans h.inv.used_le h.inv.size_le
    have hroom : r.used < r.max := by
      rw [h.max_eq] at hle ⊢
      omega
    obtain ⟨u, hu, hi, hm, -, hc⟩ := RetStack.push_room hmem h.inv (h.max_eq ▸ hcap) hroom a
    cases hu.symm.trans hpush
    rw [if_neg hfull]
    exact ⟨hi, hm.trans h.max_eq, by rw [hc, h.contents]⟩

/-- A pop gives the last call site, and fails where there is none. -/
theorem Stacked.pop {r r' : RetStack} (h : Stacked cap r st) {e : Except NexusError UInt64} (hpop : retstack_pop r = some (e, r')) :
    Stacked cap r' st.tail ∧ (e = .error .trace_retstack_empty ∨ ∃ a, e = .ok a ∧ st = a :: st.tail) := by
  by_cases h0 : r.used = 0
  · rw [RetStack.pop_empty h0] at hpop
    cases hpop
    have hnil : st = [] := List.length_eq_zero_iff.1 (by rw [← h.used, h0])
    exact ⟨by rw [hnil] at h ⊢; exact h, .inl rfl⟩
  · obtain ⟨a, u, hu, hi, hm, -, hc⟩ := RetStack.pop_some h.inv h0
    cases hu.symm.trans hpop
    rw [h.contents] at hc
    exact ⟨⟨hi, hm.trans h.max_eq, by rw [hc]; rfl⟩, .inr ⟨a, rfl, by rw [hc]; rfl⟩⟩

/-- The message decoder of a run keeps its configuration. -/
theorem Plays.hw_cfg {I : σ → Prop} (hlaw : src.Lawful I) (h : Plays src s t) (hI : I s.msg_decoder) :
    src.hw_cfg t.msg_decoder = src.hw_cfg s.msg_decoder := by
  obtain ⟨calls, rs, hplay⟩ := h
  refine (play_micros_keep (P := fun u => I u.msg_decoder ∧ src.hw_cfg u.msg_decoder = src.hw_cfg s.msg_decoder) ?_ hplay ⟨hI, rfl⟩).2
  rintro c u o v hm ⟨hu, hcfg⟩
  obtain ⟨hv, hcfg'⟩ := hm.lawful hlaw hu
  exact ⟨hv, hcfg'.trans hcfg⟩

theorem Kept.plays (h : Kept src s₀ cap st s) (hplays : Plays src s t) (hstack : t.return_stack = s.return_stack) : Kept src s₀ cap st t :=
  ⟨h.played.trans hplays, hstack ▸ h.stacked⟩

/-- A call that leaves the stack. -/
theorem kept_throwing {x : Trace σ α} (honly : OnlyCalls src x)
    (hstack : ∀ {s r t}, x s = some (r, t) → t.return_stack = s.return_stack) {Q : α → TraceDecoder σ → Prop}
    (hq : ∀ {s a t}, x s = some (.ok a, t) → Plays src s₀ s → Q a t) :
    Proc.Post (Kept src s₀ cap st) (throwing x) (fun a u => Q a u ∧ Kept src s₀ cap st u) (Thrown src s₀ cap st b) := by
  refine fun s hs => ⟨fun a t h => ?_, fun e t h => ?_⟩
  · have hx := throwing_eq_ok h
    exact ⟨hq hx hs.played, hs.plays (honly _ _ _ hx) (hstack hx)⟩
  · obtain ⟨⟨r, t'⟩, hx, he⟩ := Option.map_eq_some_iff.1 h
    rcases r with rc | a <;> cases he
    exact fun _ => hs.plays (honly _ _ _ hx) (hstack hx)

theorem kept_check_exc (hwrap : b.icnt * 2 < 2 ^ 32) : Proc.Post (Kept src s₀ cap st) (check_exc src b env)
    (fun ev u => (ev = .Indirect → AtIndirect u) ∧ Kept src s₀ cap st u) (Thrown src s₀ cap st b) := by
  have htry : Proc.Post (Kept src s₀ cap st) (throwing (trace_try_retire src (env 0) b.icnt))
      (fun r u => (r.2 = .Indirect → AtIndirect u) ∧ Kept src s₀ cap st u) (Thrown src s₀ cap st b) := by
    apply kept_throwing (only_try_retire _ _) try_retire_stack
    rintro s ⟨n, ev⟩ t h - rfl
    exact (try_retire_indirect (.inl rfl) h).1
  refine htry.bind fun r => .ite (fun hlt => .ite (fun _ => ?_) fun _ => ?_) fun _ => ?_
  · exact Proc.post_fail fun u hu => ⟨hu.2, r.1, by omega, rfl⟩
  · refine Proc.post_fail fun u _ h => ?_
    cases h
  · exact Proc.post_pure fun u hu => hu

theorem kept_next_indirect {env : Env} : Proc.Post (Kept src s₀ cap st) (throwing (trace_next_indirect src env))
    (fun i u => Told src s₀ i.target ∧ Kept src s₀ cap st u) (Thrown src s₀ cap st b) := by
  apply kept_throwing (only_next_indirect _) next_indirect_stack
  intro s i t h hs
  exact ⟨env, s, i, t, hs, h, rfl⟩

theorem kept_push {env : Env} (hmem : ∀ n, (env.mem n).isSome) (hcap : cap < 2 ^ 31) (a : UInt64) {E : InstExc → TraceDecoder σ → Prop} :
    Proc.Post (Kept src s₀ cap st) (ignoring (trace_push_call env a)) (fun _ u => Kept src s₀ cap (st.keep cap a) u) E := by
  refine fun s hs => ⟨fun _ t h => ?_, fun e t h => ?_⟩
  · obtain ⟨r, hx⟩ := ignoring_eq h
    obtain ⟨⟨e, stack⟩, hpush, he⟩ := Option.map_eq_some_iff.1 hx
    cases he
    exact ⟨hs.played.trans (only_push_call _ _ _ _ _ hx), hs.stacked.push hmem hcap hpush⟩
  · obtain ⟨⟨r, t'⟩, -, he⟩ := Option.map_eq_some_iff.1 h
    cases he

/-- A call site that is taken off, whatever it is. -/
theorem kept_drop {E : InstExc → TraceDecoder σ → Prop} : Proc.Post (fun u : TraceDecoder σ => AtIndirect u ∧ Kept src s₀ cap st u)
    (ignoring trace_pop_ret) (fun _ u => AtIndirect u ∧ Kept src s₀ cap st.tail u) E := by
  rintro s ⟨hat, hs⟩
  refine ⟨fun _ t h => ?_, fun e t h => ?_⟩
  · obtain ⟨r, hx⟩ := ignoring_eq h
    obtain ⟨⟨e, stack⟩, hpop, he⟩ := Option.map_eq_some_iff.1 hx
    cases he
    exact ⟨hat.with_stack stack, hs.played.trans (only_pop_ret _ _ _ hx), (hs.stacked.pop hpop).1⟩
  · obtain ⟨⟨r, t'⟩, -, he⟩ := Option.map_eq_some_iff.1 h
    cases he

theorem kept_pop : Proc.Post (Kept src s₀ cap st) (throwing trace_pop_ret)
    (fun a u => ∃ st', st = a :: st' ∧ Kept src s₀ cap st' u) (Thrown src s₀ cap st b) := by
  refine fun s hs => ⟨fun a t h => ?_, fun e t h => ?_⟩
  · have hx := throwing_eq_ok h
    obtain ⟨⟨e, stack⟩, hpop, he⟩ := Option.map_eq_some_iff.1 hx
    cases he
    obtain ⟨hstack, hempty | ⟨a', ha, hst⟩⟩ := hs.stacked.pop hpop
    · cases hempty
    · cases ha
      exact ⟨st.tail, hst, hs.played.trans (only_pop_ret _ _ _ hx), hstack⟩
  · obtain ⟨⟨r, t'⟩, hx, he⟩ := Option.map_eq_some_iff.1 h
    obtain ⟨⟨e', stack⟩, hpop, he'⟩ := Option.map_eq_some_iff.1 hx
    cases he'
    rcases e' with rc | a <;> cases he
    obtain ⟨-, hempty | ⟨a', ha, -⟩⟩ := hs.stacked.pop hpop
    · cases hempty
      exact fun h => by cases h
    · cases ha

section Retiring
variable {I : σ → Prop} (hlaw : src.Lawful I) (hsup : src.Supports I) (hI : Metered I s₀) (hmem : ∀ n, ((env 2).mem n).isSome) (hcap : cap < 2 ^ 31)
  (hwrap : b.icnt * 2 < 2 ^ 32)

include hlaw hsup hI in
/-- At a branch that is buffered no message is found unsupported. -/
theorem kept_follow {st' : Recent} {env : Env} : Proc.Post (fun u => AtIndirect u ∧ Kept src s₀ cap st' u)
    (throwing (trace_next_indirect src env)) (fun i u => Told src s₀ i.target ∧ Kept src s₀ cap st' u) (Thrown src s₀ cap st b) := by
  rintro s ⟨hat, hs⟩
  refine ⟨(kept_next_indirect (b := b) s hs).1, fun e t h => ?_⟩
  obtain ⟨⟨r, t'⟩, hx, he⟩ := Option.map_eq_some_iff.1 h
  rcases r with rc | i <;> cases he
  rintro rfl
  have hinv := (hs.played.consumes hlaw hI).1.inv
  cases next_indirect_cases hx with
  | fetch_failed _ _ _ hf =>
    cases hf with
    | failed _ _ _ h0 => cases hat.present.symm.trans h0
    | unsupported _ _ _ _ h0 => cases hat.present.symm.trans h0
    | ahead_failed _ _ _ _ _ _ h0 => cases hat.present.symm.trans h0
  | ahead_failed c u _ d m _ hf _ _ _ _ hn =>
    cases hf.of_present hat.present
    exact absurd rfl (hsup hinv hn)

include hwrap in
theorem kept_dir_jmp (off : UInt64) : Proc.Post (Kept src s₀ cap st) (dir_jmp_retire src b env off)
    (fun next u => next = b.behind - .ofNat b.insn_size + off ∧ Kept src s₀ cap st u) (Thrown src s₀ cap st b) :=
  (kept_check_exc hwrap).bind fun _ => Proc.post_pure fun _ hu => ⟨rfl, hu.2⟩

include hwrap in
theorem kept_indir_jmp : Proc.Post (Kept src s₀ cap st) (indir_jmp_retire src b env)
    (fun next u => Told src s₀ next ∧ Kept src s₀ cap st u) (Thrown src s₀ cap st b) := by
  refine (kept_check_exc hwrap).bind fun ev => .ite (fun _ => ?_) fun _ => ?_
  · refine Proc.post_fail fun u _ h => ?_
    cases h
  · apply Proc.Post.bind (Q := fun i u => Told src s₀ i.target ∧ Kept src s₀ cap st u)
    · exact kept_next_indirect.mono (fun u hu => hu.2) fun _ _ h => h
    · exact fun i => Proc.post_pure fun _ hu => hu

include hmem hcap hwrap in
theorem kept_indir_call : Proc.Post (Kept src s₀ cap st) (indir_call_retire src b env)
    (fun next u => Told src s₀ next ∧ Kept src s₀ cap (st.keep cap b.behind) u) (Thrown src s₀ cap st b) := by
  refine (kept_indir_jmp hwrap).bind fun next => ?_
  refine fun s hs => Proc.Post.bind (Q := fun _ u => Kept src s₀ cap (st.keep cap b.behind) u) (kept_push hmem hcap b.behind) ?_ s hs.2
  exact fun _ => Proc.post_pure fun u hu => ⟨hs.1, hu⟩

include hwrap in
theorem behind_eq : b.behind = b.addr + .ofNat (b.icnt * 2) := by
  rw [InstBlock.behind, Nat.mod_eq_of_lt hwrap]

include hlaw hsup hI hwrap in
theorem kept_ret : Proc.Post (Kept src s₀ cap st) (ret_retire src b env)
    (fun next u => ∃ st', GoesBack (Told src s₀) st next st' ∧ Kept src s₀ cap st' u) (Thrown src s₀ cap st b) := by
  refine (kept_check_exc hwrap).bind fun ev => .ite (fun _ => ?_) fun _ => .ite (fun hev => ?_) fun _ => ?_
  · exact Proc.post_fail fun u hu => ⟨hu.2, b.icnt, hwrap, behind_eq hwrap⟩
  · apply Proc.Post.bind (Q := fun _ u => AtIndirect u ∧ Kept src s₀ cap st.tail u)
    · exact kept_drop.mono (fun u hu => ⟨hu.1 hev, hu.2⟩) fun _ _ h => h
    · refine fun _ => (kept_follow hlaw hsup hI).bind fun i => ?_
      exact Proc.post_pure fun u hu => ⟨st.tail, .inl ⟨hu.1, rfl⟩, hu.2⟩
  · apply kept_pop.mono (fun u hu => hu.2)
    rintro a u ⟨st', hst, hu⟩
    exact ⟨st', .inr hst, hu⟩

include hlaw hsup hI hmem hcap hwrap

/-- A block that retires leads to the address that is returned. -/
theorem kept_block : Proc.Post (Kept src s₀ cap st) (block_retire src b env)
    (fun next u => ∃ st', Leads (Told src s₀) (s₀.sifive src) cap (b.behind - .ofNat b.insn_size) b.behind st b.cls next st' ∧
      Kept src s₀ cap st' u) (Thrown src s₀ cap st b) := by
  unfold block_retire
  cases hc : b.cls with
  | plain => exact (kept_check_exc hwrap).bind fun _ => Proc.post_pure fun u hu => ⟨st, .plain, hu.2⟩
  | dir_jmp off =>
    apply (kept_dir_jmp hwrap off).mono (fun _ h => h)
    rintro next u ⟨rfl, hu⟩
    exact ⟨st, .dir_jmp, hu⟩
  | cond_branch off =>
    refine (kept_check_exc hwrap).bind fun ev => .ite (fun _ => ?_) fun _ => ?_
    · exact Proc.post_fail fun u hu => ⟨hu.2, b.icnt, hwrap, behind_eq hwrap⟩
    · have htnt : Proc.Post (Kept src s₀ cap st) (throwing (trace_next_tnt src (env 1))) (fun _ u => True ∧ Kept src s₀ cap st u)
          (Thrown src s₀ cap st b) := kept_throwing (only_next_tnt _) next_tnt_stack fun _ _ => trivial
      apply Proc.Post.bind (htnt.mono (fun u hu => hu.2) fun _ _ h => h)
      rintro (_ | _)
      · exact Proc.post_pure fun u hu => ⟨st, .not_taken, hu.2⟩
      · exact Proc.post_pure fun u hu => ⟨st, .taken, hu.2⟩
  | dir_call off =>
    refine (kept_dir_jmp hwrap off).bind fun next => ?_
    rintro s ⟨rfl, hs⟩
    refine Proc.Post.bind (Q := fun _ u => Kept src s₀ cap (st.keep cap b.behind) u) (kept_push hmem hcap b.behind) ?_ s hs
    exact fun _ => Proc.post_pure fun u hu => ⟨_, .dir_call, hu⟩
  | indir_jmp =>
    apply (kept_indir_jmp hwrap).mono (fun _ h => h)
    rintro next u ⟨htold, hu⟩
    exact ⟨st, .indir_jmp (.inl rfl) htold, hu⟩
  | iret =>
    apply (kept_indir_jmp hwrap).mono (fun _ h => h)
    rintro next u ⟨htold, hu⟩
    exact ⟨st, .indir_jmp (.inr (.inl rfl)) htold, hu⟩
  | indir_call =>
    apply (kept_indir_call hmem hcap hwrap).mono (fun _ h => h)
    rintro next u ⟨htold, hu⟩
    exact ⟨_, .indir_call (.inl rfl) htold, hu⟩
  | ret =>
    apply (kept_ret hlaw hsup hI hwrap).mono (fun _ h => h)
    rintro next u ⟨st', hback, hu⟩
    exact ⟨st', .ret hback, hu⟩
  | co_swap =>
    refine .get_bind fun s hs => ?_
    have hquirk : s₀.sifive src = (src.hw_cfg s.msg_decoder).quirk_sifive := by
      rw [hs.played.hw_cfg hlaw hI.inv]
      rfl
    refine .ite (fun hq => ?_) fun hq => ?_
    · apply (kept_indir_call hmem hcap hwrap).mono (fun u hu => hu ▸ hs)
      rintro next u ⟨htold, hu⟩
      exact ⟨_, .indir_call (.inr ⟨rfl, hquirk.trans hq⟩) htold, hu⟩
    · apply Proc.Post.bind ((kept_ret hlaw hsup hI hwrap).mono (fun u hu => hu ▸ hs) fun _ _ h => h)
      rintro next u ⟨st', hback, hu⟩
      refine Proc.Post.bind (Q := fun _ u => Kept src s₀ cap (st'.keep cap b.behind) u) (kept_push hmem hcap b.behind) ?_ u hu
      exact fun _ => Proc.post_pure fun u hu => ⟨_, .co_swap (by simpa [hquirk] using hq) hback, hu⟩
  | int =>
    have htry : Proc.Post (Kept src s₀ cap st) (throwing (trace_try_retire src (env 0) ((b.icnt + (2 ^ 32 - b.insn_size / 2)) % 2 ^ 32)))
        (fun r u => r.1 * 2 < 2 ^ 32 ∧ Kept src s₀ cap st u) (Thrown src s₀ cap st b) := by
      apply kept_throwing (only_try_retire _ _) try_retire_stack
      rintro s ⟨n, ev⟩ t h -
      have hle := try_retire_le h
      have hlimit : ∀ icnt, retire_limit icnt ≤ 2 ^ 31 - 1 := by
        intro icnt
        rw [retire_limit_eq]
        exact Nat.min_le_right icnt INT32_MAX
      have hlt := Nat.le_trans hle (hlimit _)
      dsimp only
      omega
    refine htry.bind fun r => .ite (fun _ => ?_) fun _ => .ite (fun _ => ?_) fun _ => ?_
    · exact Proc.post_fail fun u hu => ⟨hu.2, r.1, hu.1, rfl⟩
    · refine Proc.post_fail fun u _ h => ?_
      cases h
    · apply Proc.Post.bind (Q := fun i u => Told src s₀ i.target ∧ Kept src s₀ cap st u)
      · exact kept_next_indirect.mono (fun u hu => hu.2) fun _ _ h => h
      · exact fun i => Proc.post_pure fun u hu => ⟨st, .indir_jmp (.inr (.inr rfl)) hu.1, hu.2⟩

end Retiring

end Blocks

/-! ## Paths -/

/-- The block runs straight on to an instruction `k` bytes behind its start, which ends it, `len` bytes further. -/
structure Code.Ends (code : Code) (b : InstBlock) (k len : Nat) (y : CsInsn) : Prop where
  spans : ∃ addr size, code.vm.try_map b.addr = .ok (some addr, size) ∧ Straight code.cs b.addr (mapped_bytes code.mem addr size) k ∧
    Looks code.cs b.addr (mapped_bytes code.mem addr size) k y len
  ends : y.block_class = .ok (some b.cls)
  icnt_eq : b.icnt * 2 = k + len
  size_eq : b.insn_size = y.size.toNat

/-- The last lines, the last one first, lead to an address, if it is known, and leave call sites. -/
inductive Walk (code : Code) (told : UInt64 → Prop) (sifive : Bool) (cap : Nat) : List Line → Option UInt64 → Recent → Prop where
  | start : Walk code told sifive cap [] none []
  | sync {l ip st p sync} : Walk code told sifive cap l ip st → Walk code told sifive cap (.sync p sync :: l) (some sync.addr) []
  /-- a block, which is left from where its last instruction starts, by its size -/
  | block {l st p b k len y next st'} : Walk code told sifive cap l (some b.addr) st → code.Ends b k len y →
      Leads told sifive cap (b.addr + .ofNat (k + len) - .ofNat y.size.toNat) (b.addr + .ofNat (k + len)) st b.cls next st' →
      Walk code told sifive cap (.block p b st.length :: l) (some next) st'
  | cut {l st p b k len y n insn} : Walk code told sifive cap l (some b.addr) st → code.Ends b k len y → n ≤ b.icnt →
      code.disasm1 (b.addr + .ofNat (n * 2)) = .ok insn →
      Walk code told sifive cap (.cut p b (.ofNat n) insn :: l) (some (b.addr + .ofNat (n * 2))) st
  /-- instructions that no code is known of -/
  | icnt {l ip st p n} : Walk code told sifive cap l ip st → (∀ a, ip = some a → code.fetch a = .ok none) →
      Walk code told sifive cap (.icnt p n :: l) (ip.map fun a => a + .ofNat (n * 2)) st
  | tnts {l ip st p} : Walk code told sifive cap l ip st → Walk code told sifive cap (.tnts p :: l) none st
  | tnt {l ip st taken} : Walk code told sifive cap l ip st → Walk code told sifive cap (.tnt taken :: l) none st
  | indirect {l ip st p i} : Walk code told sifive cap l ip st → told i.target → Walk code told sifive cap (.indirect p i :: l) (some i.target) st
  | stop {l ip st p s} : Walk code told sifive cap l ip st → Walk code told sifive cap (.stop p s :: l) none st
  | error {l ip st p e} : Walk code told sifive cap l ip st → Walk code told sifive cap (.error p e :: l) none st
  | backward {l ip st a b} : Walk code told sifive cap l ip st → Walk code told sifive cap (.backward a b :: l) ip st
  | unknown {l ip st a m} : Walk code told sifive cap l ip st → Walk code told sifive cap (.unknown a m :: l) ip st

/-- No mapping is so long that the length of a block wraps. -/
def Code.Narrow (code : Code) : Prop := ∀ va addr len, code.vm.try_map va = .ok (some addr, len) → len.toNat < 2 ^ 32

section Walks
variable {σ : Type} {src : Source σ} {I : σ → Prop} {offset : σ → Nat} {code : Code} {s₀ : TraceDecoder σ} {cap : Nat} {s t u : Replayer σ}

/-- The blocks that are fetched. -/
theorem fetch_ends (hcs : code.cs.Lawful) (hnarrow : code.Narrow) {va : UInt64} {b : InstBlock} (h : code.fetch va = .ok (some b)) :
    b.addr = va ∧ ∃ k len y, code.Ends b k len y := by
  obtain ⟨addr, size, hmap, k, y, len, cls, hs, h2, hl, hc, rfl⟩ := fetch_spans hcs h
  have hlen : (mapped_bytes code.mem addr size).length = size.toNat := by simp [mapped_bytes]
  obtain ⟨hsize, hle⟩ := hl.size hcs
  obtain ⟨heven, -⟩ := hs.even hcs
  have hlt := hnarrow va addr size hmap
  rw [hlen] at hle
  refine ⟨rfl, k, len, y, ⟨addr, size, hmap, hs, hl⟩, hc, ?_, rfl⟩
  dsimp only
  omega

/-- What holds of a replay between its rounds. -/
structure Walking (src : Source σ) (code : Code) (s₀ : TraceDecoder σ) (cap : Nat) (st : Recent) (s : Replayer σ) : Prop where
  kept : Kept src s₀ cap st s.trace_decoder
  coherent : s.Coherent code
  walk : Walk code (Told src s₀) (s₀.sifive src) cap s.lines s.lastip st

theorem Walking.checked {st : Recent} (h : Walking src code s₀ cap st s) : Walking src code s₀ cap st (s.checked src offset) := by
  unfold Replayer.checked
  dsimp only
  split
  · exact ⟨h.kept, h.coherent, h.walk.backward⟩
  · exact ⟨h.kept, h.coherent, h.walk⟩

theorem Walking.asks_tnt {st : Recent} (h : Walking src code s₀ cap st s) :
    ∃ ip, Walk code (Told src s₀) (s₀.sifive src) cap (s.asks_tnt src offset).lines ip st := by
  unfold Replayer.asks_tnt
  dsimp only
  split
  · exact ⟨none, h.walk.tnts⟩
  · exact ⟨s.lastip, h.walk⟩

/-- At an event, the path goes on where the event says. -/
theorem Attended.walking {env : Env} {ev : TraceEvent} {st : Recent} (h : Attended src offset env s ev t)
    (hs : Walking src code s₀ cap st s) : ∃ st', Walking src code s₀ cap st' t := by
  have hplays := h.plays
  have hco : t.Coherent code := fun e he => hs.coherent e (h.insts ▸ he)
  cases h with
  | none => exact ⟨st, hs⟩
  | tnt _ hd =>
    have hasks : ∃ ip, Walk code (Told src s₀) (s₀.sifive src) cap (s.asks_tnt src offset).lines ip st := hs.asks_tnt
    obtain ⟨ip, hw⟩ := hasks
    exact ⟨st, hs.kept.plays hplays (next_tnt_stack hd), hco, hw.tnt⟩
  | @indirect _ i d _ hd =>
    exact ⟨st, hs.kept.plays hplays (next_indirect_stack hd), hco, hs.walk.indirect ⟨env, _, i, d, hs.kept.played, hd, rfl⟩⟩
  | sync hd =>
    refine ⟨[], ⟨hs.kept.played.trans hplays, ?_⟩, hco, hs.walk.sync⟩
    apply (next_sync_stack hd).symm ▸ hs.kept.stacked.clear
  | stop hd => exact ⟨st, hs.kept.plays hplays (next_stop_stack hd), hco, hs.walk.stop⟩
  | error hd => exact ⟨st, hs.kept.plays hplays (next_error_stack hd), hco, hs.walk.error⟩

theorem Skipped.walking {env : Env} {st : Recent} (h : Skipped src offset env s t) (hs : Walking src code s₀ cap st s) :
    Walking src code s₀ cap st t := by
  have hplays := h.plays
  cases h with
  | @next n d m d' hd _ hd' =>
    refine ⟨hs.kept.plays hplays ?_, hs.coherent, hs.walk.unknown⟩
    rw [next_msg2_apply] at hd
    obtain ⟨⟨r, e, m'⟩, -, hr⟩ := Option.map_eq_some_iff.1 hd
    rcases r with rc | n' <;> cases hr
    rw [trace_add_timestamp, retire_timestamp_bind] at hd'
    cases hd'
    rfl

theorem Found.walking {block : Option InstBlock} {st : Recent} (h : Found code s block u) (hs : Walking src code s₀ cap st s) :
    Walking src code s₀ cap st u := by
  rw [h.frame]
  exact ⟨hs.kept, (h.fetches hs.coherent).1, hs.walk⟩

/-- Behind instructions that no code is known of. -/
theorem Walking.passed {st : Recent} {n : Nat} (hs : Walking src code s₀ cap st s) (hn : n * 2 < 2 ^ 32)
    (hno : ∀ a, s.lastip = some a → code.fetch a = .ok none) : Walking src code s₀ cap st (s.passed src offset n) := by
  by_cases h0 : n = 0
  · rw [h0, passed_zero]
    exact hs
  · rw [Replayer.passed, if_pos h0, Nat.mod_eq_of_lt hn]
    exact ⟨hs.kept, hs.coherent, hs.walk.icnt hno⟩

section Lawful
variable (hlaw : src.Lawful I) (hsup : src.Supports I) (hI : Metered I s₀) (hcap : cap < 2 ^ 31) (hcs : code.cs.Lawful) (hnarrow : code.Narrow)
include hlaw hsup hI hcap hcs hnarrow

/-- A block that is found is at the address that the path has come to, and leads on from its last instruction. -/
theorem Found.leads (env : Nat → Env) (hmem : ∀ n, ((env 2).mem n).isSome) {st : Recent} {b : InstBlock} (h : Found code s (some b) u)
    (hs : Walking src code s₀ cap st s) : ∃ k len y, s.lastip = some b.addr ∧ code.Ends b k len y ∧ b.icnt * 2 < 2 ^ 32 ∧
      Proc.Post (Kept src s₀ cap st) (block_retire src b env)
        (fun next v => ∃ st', Leads (Told src s₀) (s₀.sifive src) cap (b.addr + .ofNat (k + len) - .ofNat y.size.toNat) (b.addr + .ofNat (k + len)) st
          b.cls next st' ∧ Kept src s₀ cap st' v) (Thrown src s₀ cap st b) := by
  obtain ⟨-, ⟨-, hb⟩ | ⟨ip, hip, hb⟩⟩ := h.fetches hs.coherent
  · cases hb
  obtain ⟨rfl, k, len, y, hends⟩ := fetch_ends hcs hnarrow hb
  have hicnt := hends.icnt_eq
  obtain ⟨addr, size, hmap, hstraight, hlooks⟩ := hends.spans
  have hlt := hnarrow _ addr size hmap
  have hle := (hlooks.size hcs).2
  have hlen : (mapped_bytes code.mem addr size).length = size.toNat := by simp [mapped_bytes]
  have hk := (hstraight.even hcs).2
  rw [hlen] at hle hk
  have hwrap : b.icnt * 2 < 2 ^ 32 := by omega
  have hbehind : b.behind = b.addr + .ofNat (k + len) := by rw [behind_eq hwrap, hicnt]
  refine ⟨k, len, y, hip, hends, hwrap, ?_⟩
  rw [← hbehind, ← hends.size_eq]
  exact kept_block hlaw hsup hI hmem hcap hwrap

/-- A round goes on along the path. -/
theorem Rounded.walking {env : Nat → Env} (hmem : ∀ i n, ((env i).mem n).isSome) {st : Recent} (h : Rounded src offset code env s t)
    (hs : Walking src code s₀ cap st s) : ∃ st', Walking src code s₀ cap st' t := by
  cases h with
  | @resync sync d hd =>
    refine ⟨[], Walking.checked ⟨⟨hs.kept.played.trans (.of_map (env 0) .sync_reset rfl hd), ?_⟩, hs.coherent, hs.walk.sync⟩⟩
    exact (sync_reset_stack hd).symm ▸ hs.kept.stacked.clear
  | @block u b next d _ hf hd =>
    obtain ⟨k, len, y, hip, hends, hwrap, hpost⟩ := hf.leads hlaw hsup hI hcap hcs hnarrow (fun i => env (i + 1)) (hmem 3) hs
    obtain ⟨st', hleads, hkept⟩ := (hpost _ hs.kept).1 next d hd
    have hu := hf.walking hs
    refine ⟨st', hkept, hu.coherent, ?_⟩
    have hlines : u.lines = s.lines := by rw [hf.frame]
    rw [hs.kept.stacked.used]
    change Walk code (Told src s₀) (s₀.sifive src) cap (.block _ b st.length :: u.lines) (some next) st'
    rw [hlines]
    exact .block (hip ▸ hs.walk) hends hleads
  | @event u b addr ev d insn t _ hf hd _ _ hle hi ht =>
    obtain ⟨k, len, y, hip, hends, hwrap, hpost⟩ := hf.leads hlaw hsup hI hcap hcs hnarrow (fun i => env (i + 1)) (hmem 3) hs
    obtain ⟨hkept, n, hshort, rfl⟩ := (hpost _ hs.kept).2 _ d hd
    have hu := hf.walking hs
    have hlines : u.lines = s.lines := by rw [hf.frame]
    have hsize : UInt64.size = 2 ^ 64 := rfl
    have hdist : b.addr + .ofNat (n * 2) - b.addr = UInt64.ofNat (n * 2) := by rw [UInt64.add_comm, UInt64.add_sub_cancel]
    have hretired : (b.addr + .ofNat (n * 2) - b.addr) / 2 = UInt64.ofNat n := by
      apply UInt64.toNat_inj.1
      rw [hdist, UInt64.toNat_div, UInt64.toNat_ofNat_of_lt' (by omega), UInt64.toNat_ofNat_of_lt' (by omega)]
      exact Nat.mul_div_cancel n Nat.two_pos
    -- it is asserted that the event is not behind the block
    have hn : n ≤ b.icnt := by
      rw [hdist, UInt64.le_iff_toNat_le, UInt64.toNat_ofNat_of_lt' (by omega), UInt64.toNat_ofNat_of_lt' (by omega)] at hle
      omega
    rw [hretired] at ht
    have hcut : Walk code (Told src s₀) (s₀.sifive src) cap (.cut (stamp src offset (u.after d)) b (.ofNat n) insn :: u.lines)
        (some (b.addr + .ofNat (n * 2))) st := by
      rw [hlines]
      exact .cut (hip ▸ hs.walk) hends hn hi
    obtain ⟨st', ht'⟩ := ht.walking ⟨hkept, hu.coherent, hcut⟩
    exact ⟨st', ht'.checked⟩
  | @skip_block u b d t _ hf hd hskip =>
    obtain ⟨k, len, y, hip, hends, hwrap, hpost⟩ := hf.leads hlaw hsup hI hcap hcs hnarrow (fun i => env (i + 1)) (hmem 3) hs
    have hkept : Kept src s₀ cap st d := (hpost _ hs.kept).2 _ d hd rfl
    have hu := hf.walking hs
    exact ⟨st, hskip.walking (s := u.after d) ⟨hkept, hu.coherent, hu.walk⟩⟩
  | @retire u n ev d t _ hf hd ht =>
    have hu := hf.walking hs
    have hdec : u.trace_decoder = s.trace_decoder := by rw [hf.frame]
    have hd' : Walking src code s₀ cap st (u.after d) :=
      ⟨hs.kept.plays (only_try_retire _ _ _ _ _ hd) (try_retire_stack hd), hu.coherent, hu.walk⟩
    have hn : n ≤ retire_limit UINT32_MAX := try_retire_le hd
    have hlast : (u.after d).lastip = s.lastip := by rw [Replayer.after, hf.frame]
    have hpassed : Walking src code s₀ cap st ((u.after d).passed src offset n) := by
      refine hd'.passed ?_ fun a ha => hf.no_code hs.coherent (hlast ▸ ha)
      have hlimit : retire_limit UINT32_MAX = 2 ^ 31 - 1 := by decide
      omega
    obtain ⟨st', ht'⟩ := ht.walking hpassed
    exact ⟨st', ht'.checked⟩
  | @skip u d t _ hf hd hskip =>
    have hu := hf.walking hs
    refine ⟨st, hskip.walking (s := u.after d) ⟨?_, hu.coherent, hu.walk⟩⟩
    exact hs.kept.plays (only_try_retire _ _ _ _ _ hd) (try_retire_stack hd)

/-- From round to round. -/
theorem rounds_walking {env : Nat → Nat → Env} (hmem : ∀ k i n, ((env k i).mem n).isSome) (n : Nat) : ∀ {k : Nat} {s : Replayer σ} {st : Recent},
    replay_rounds src offset code env k n s = some (.ok (), t) → Walking src code s₀ cap st s → ∃ st', Walking src code s₀ cap st' t := by
  induction n with
  | zero =>
    intro k s st h hs
    cases h
    exact ⟨st, hs⟩
  | succ n ih =>
    intro k s st h hs
    obtain ⟨u, hu, h⟩ := replay_rounds_succ.1 h
    obtain ⟨st', hu⟩ := (replay_round_cases hu).walking hlaw hsup hI hcap hcs hnarrow (hmem k) hs
    exact ih h hu

end Lawful

end Walks

theorem Initial.stacked {d : TraceDecoder MsgDecoder} (h : Initial d) : Stacked d.return_stack.max d.return_stack [] := by
  obtain ⟨hwcfg, fd, filter, buffer, env, hinit⟩ := h
  unfold trace_decoder_init at hinit
  split at hinit
  · cases hinit
  · obtain ⟨stack, hstack⟩ : ∃ stack, retstack_init env.mem hwcfg.max_stack = .ok stack ∧ d.return_stack = stack := by
      rcases hr : retstack_init env.mem (msg_source.hw_cfg (msg_decoder_init hwcfg fd filter buffer buffer.length)).max_stack with e | stack <;>
        rw [hr] at hinit <;> cases hinit
      exact ⟨stack, hr, rfl⟩
    obtain ⟨hi, -, h0⟩ := RetStack.init_inv hstack.1
    rw [hstack.2]
    exact ⟨hi, rfl, by simp [RetStack.contents, h0]⟩

/-- The lines of a replay are a path of the program: every block that is printed is code in memory, is entered where the lines before lead, at
the depth of the call sites that they leave, and is left along its last instruction, to an operand of it, to where the trace says, or back to
the last of the call sites. -/
theorem replay_walks {code : Code} (hcs : code.cs.Lawful) (hnarrow : code.Narrow) {env : Nat → Nat → Env}
    (hmem : ∀ k i n, ((env k i).mem n).isSome) {d : TraceDecoder MsgDecoder} (hd : Initial d) (hcap : d.return_stack.max < 2 ^ 31) {n : Nat}
    {t : Replayer MsgDecoder} (h : replay_rounds msg_source msg_decoder_offset code env 0 n (replay_start d) = some (.ok (), t)) :
    Walk code (Told msg_source d) (d.sifive msg_source) d.return_stack.max t.lines t.lastip t.trace_decoder.return_stack.contents := by
  have hstart : Walking msg_source code d d.return_stack.max [] (replay_start d) :=
    ⟨⟨.refl d, hd.stacked⟩, fun e he => absurd he List.not_mem_nil, .start⟩
  obtain ⟨st, ht⟩ := rounds_walking msg_source_lawful msg_source_supports hd.reachable.metered hcap hcs hnarrow hmem n h hstart
  rw [ht.kept.stacked.contents]
  exact ht.walk

/-- `ret_core` is loaded, with a return behind a `c.nop`. -/
def ret_code : Code := ⟨sample_view [ret_core], ret_mem, ret_capstone⟩

def plenty : Env := ⟨fun _ => Msg.zero, fun _ => true, RetStack.zeroHeap⟩

/-- A sync to the start of the block, and the return that ends it. -/
def ret_start : TraceDecoder MsgDecoder := fresh_decoder plain_cfg [0x24, 0x01, 0x00, 0x83, 0x10, 0x21, 0x0f]

theorem ret_code_narrow : ret_code.Narrow := by
  intro va addr len h
  have hentries : ret_code.vm.loaded_sections.entries = [(0x1000, ⟨ret_core, sample_section "load1" 0x1000 4 0x200⟩)] := rfl
  rw [MemoryView.try_map] at h
  rcases hl : ret_code.vm.loaded_section va with _ | e <;> rw [hl] at h
  · cases h
  unfold MemoryView.loaded_section nearest at hl
  split at hl
  · cases hl
  rename_i e' hbelow
  obtain ⟨hmem, -⟩ := (OrderedMap.below_eq_some _).1 hbelow
  split at hl
  · cases hl
  cases Option.some.inj hl
  rw [hentries, List.mem_singleton] at hmem
  obtain ⟨hmmap, hstart⟩ : e.2.core.mmap e.2.asection.filepos = .ok (some 0x7f0000000200, 4) ∧ e.1 = 0x1000 := by
    rw [hmem]
    exact ⟨rfl, rfl⟩
  dsimp only at h
  rw [hmmap, hstart] at h
  dsimp only at h
  split at h
  · cases h
  · rename_i hlt
    obtain ⟨-, hlen⟩ := Prod.mk.inj (Except.ok.inj h)
    rw [ge_iff_le, UInt64.not_le] at hlt
    rw [← hlen, UInt64.toNat_sub_of_le _ _ hlt.le]
    apply Nat.lt_of_le_of_lt (Nat.sub_le _ _)
    decide

theorem replay_walks_two : ∃ t : Replayer MsgDecoder, t.lastip = some 0x1006 ∧
    Walk ret_code (Told msg_source ret_start) false 0 t.lines (some 0x1006) t.trace_decoder.return_stack.contents := by
  have hrun : (replay_rounds msg_source msg_decoder_offset ret_code (fun _ _ => plenty) 0 2 (replay_start ret_start)).map
      (fun r => (r.1.toOption, r.2.lastip)) = some (some (), some 0x1006) := by decide +kernel
  obtain ⟨⟨r, t⟩, ht, he⟩ := Option.map_eq_some_iff.1 hrun
  rcases r with e | ⟨⟩
  · cases he
  have hlast : t.lastip = some 0x1006 := (Prod.mk.inj he).2
  refine ⟨t, hlast, ?_⟩
  rw [← hlast]
  exact replay_walks ret_capstone_lawful ret_code_narrow (fun _ _ _ => rfl) (fresh_initial rfl _) (by decide) ht

end nexusrv
