import NexusRv.TraceSource
/-!
# What a run takes from the stream

`recorded src` is `src` with a log of what it delivered, newest first. The trace
decoder runs over it as it does over `src` (`play_forget`), and what the theorems
say of the messages of a run is said of the log.
-/

namespace nexusrv

/-- One call of `nexusrv_msg_decoder_next`, and of `nexusrv_msg_decoder_rewind_last` behind it. -/
inductive Input where
  /-- a message is delivered -/
  | took (m : Msg)
  /-- a message is delivered and put back -/
  | peeked (m : Msg)
  /-- the end; the message to write still holds `mem` -/
  | ended (mem : Msg)
  | failed (e : NexusError)

def Input.of : Except NexusError Nat → Msg → Input
  | .error e, _ => .failed e
  | .ok 0, m => .ended m
  | .ok (_ + 1), m => .took m

def put_back : List Input → List Input
  | .took m :: l => .peeked m :: l
  | l => l

def recorded {σ : Type} (src : Source σ) : Source (σ × List Input) where
  hw_cfg := fun d => src.hw_cfg d.1
  next := fun s => (src.next (s.1.1, s.2)).map fun r => (r.1, (r.2.1, .of r.1 r.2.2 :: s.1.2), r.2.2)
  rewind_last := fun d => (src.rewind_last d.1).map fun d' => (d', put_back d.2)
  left := fun d => src.left d.1

section Recorded
variable {σ α : Type} {src : Source σ}

theorem recorded_next {d d' : σ × List Input} {m m' : Msg} {r : Except NexusError Nat} :
    (recorded src).next (d, m) = some (r, d', m') ↔ src.next (d.1, m) = some (r, d'.1, m') ∧ d'.2 = .of r m' :: d.2 := by
  rw [recorded, Option.map_eq_some_iff]
  constructor
  · rintro ⟨⟨r₁, d₁, m₁⟩, h, he⟩
    cases he
    exact ⟨h, rfl⟩
  · rintro ⟨h, hl⟩
    exact ⟨(r, d'.1, m'), h, by rw [← hl]⟩

theorem recorded_rewind {d d' : σ × List Input} :
    (recorded src).rewind_last d = some d' ↔ src.rewind_last d.1 = some d'.1 ∧ d'.2 = put_back d.2 := by
  rw [recorded, Option.map_eq_some_iff]
  constructor
  · rintro ⟨d₁, h, he⟩
    cases he
    exact ⟨h, rfl⟩
  · rintro ⟨h, hl⟩
    exact ⟨d'.1, h, by rw [← hl]⟩

theorem recorded_lawful {I : σ → Prop} (hlaw : src.Lawful I) : (recorded src).Lawful fun d => I d.1 where
  next := fun hI h => hlaw.next hI (recorded_next.1 h).1
  returns := by
    intro d m hI h
    rw [recorded, Option.map_eq_none_iff] at h
    exact hlaw.returns m hI h
  rewind := by
    intro d d' m m' n hI h
    obtain ⟨d'', hd, h1, h2, h3⟩ := hlaw.rewind hI (recorded_next.1 h).1
    exact ⟨(d'', put_back d'.2), recorded_rewind.2 ⟨hd, rfl⟩, h1, h2, h3⟩

/-- What the run took so far, newest first. -/
def TraceDecoder.log (s : TraceDecoder (σ × List Input)) : List Input := s.msg_decoder.2

/-! ## The recorded run is the run -/

def TraceDecoder.forget (s : TraceDecoder (σ × List Input)) : TraceDecoder σ :=
  ⟨s.msg_decoder.1, s.res_hists, s.res_icnt, s.res_tnts, s.consumed_icnt, s.consumed_tnts, s.synced, s.msg_present, s.msg, s.full_addr,
    s.timestamp, s.return_stack⟩

abbrev Forgets (x : Trace (σ × List Input) α) (y : Trace σ α) : Prop := Proc.Maps TraceDecoder.forget x y

theorem next_msg_forgets : Forgets (next_msg (recorded src)) (next_msg src) := by
  intro s
  rw [next_msg_apply, next_msg_apply, recorded, Option.map_map, Option.map_map]
  rfl

theorem next_msg2_forgets (msg2 : Msg) : Forgets (next_msg2 (recorded src) msg2) (next_msg2 src msg2) := by
  intro s
  rw [next_msg2_apply, next_msg2_apply, recorded, Option.map_map, Option.map_map]
  rfl

theorem rewind_msg_forgets : Forgets (rewind_msg (recorded src)) (rewind_msg src) := by
  intro s
  rw [rewind_msg_apply, rewind_msg_apply, recorded, Option.map_map, Option.map_map]
  rfl

theorem fetch_msg_forgets (msg2 : Msg) : Forgets (trace_fetch_msg (recorded src) msg2) (trace_fetch_msg src msg2) := by
  refine .get_bind fun s => .ite (.pure _) (.bind next_msg_forgets fun rc => .ite (.fail _) (.get_bind fun s => ?_))
  refine .ite (.bind rewind_msg_forgets fun _ => .fail _) (.bind (.modify fun _ => rfl) fun _ => .ite (.pure _) ?_)
  refine .bind (.modify fun _ => rfl) fun _ => .bind (next_msg2_forgets msg2) fun r => .ite ?_ ?_
  · exact .bind rewind_msg_forgets fun _ => .pure _
  · exact .bind (.modify fun _ => rfl) fun _ => .pure _

theorem retire_timestamp_forgets (timestamp : UInt64) :
    Forgets (trace_retire_timestamp (recorded src) timestamp) (trace_retire_timestamp src timestamp) :=
  .get_bind fun _ => .ite (.bind (.modify fun _ => rfl) fun _ => .pure _) (.bind (.modify fun _ => rfl) fun _ => .pure _)

theorem available_tnts_forgets : Forgets (trace_available_tnts (σ := σ × List Input)) (trace_available_tnts (σ := σ)) :=
  .get_bind fun _ => .ite (.bind (.assert _) fun _ => .pure _) (.bind (.assert _) fun _ => .bind (.assert _) fun _ => .pure _)

theorem available_icnt_forgets : Forgets (trace_available_icnt (σ := σ × List Input)) (trace_available_icnt (σ := σ)) :=
  .get_bind fun _ => .ite (.bind (.assert _) fun _ => .pure _) (.bind (.assert _) fun _ => .bind (.assert _) fun _ => .pure _)

theorem consume_icnt_forgets (icnt : Nat) : Forgets (trace_consume_icnt (σ := σ × List Input) icnt) (trace_consume_icnt (σ := σ) icnt) := by
  refine .bind available_icnt_forgets fun _ => .bind (.assert _) fun _ => .get_bind fun s => .bind (.assert _) fun _ => .ite ?_ ?_
  · exact .modify fun _ => rfl
  · exact .bind (.assert _) fun _ => .modify fun _ => rfl

theorem drain_empty_forgets (l : List HistElement) : Forgets (drain_empty (recorded src) l) (drain_empty src l) := by
  induction l with
  | nil => exact .pure _
  | cons e l ih =>
    refine .ite (.pure _) (.bind (.assert _) fun _ => .bind (retire_timestamp_forgets _) fun _ => ?_)
    exact .bind (.modify fun _ => rfl) fun _ => ih

theorem consume_tnt_forgets : Forgets (trace_consume_tnt (recorded src)) (trace_consume_tnt src) := by
  refine .bind available_tnts_forgets fun _ => .bind (.assert _) fun _ => .get_bind fun s => .bind (drain_empty_forgets _) fun _ =>
    .get_bind fun s => .ite ?_ ?_
  · exact .bind (.assert _) fun _ => .bind (.assert _) fun _ => .bind (.modify fun _ => rfl) fun _ => .pure _
  · have hforget : s.forget.res_hists = s.res_hists := rfl
    rw [hforget]
    cases s.res_hists with
    | nil => exact .bind (.assert _) fun _ => .pure _
    | cons e rest =>
      refine .bind (.assert _) fun _ => .bind (.modify fun _ => rfl) fun _ => .ite (.pure _) ?_
      refine .bind (.modify fun _ => rfl) fun _ => .bind (retire_timestamp_forgets _) fun _ => .bind (.assert _) fun _ => ?_
      exact .bind (.modify fun _ => rfl) fun _ => .bind (.assert _) fun _ => .bind (.modify fun _ => rfl) fun _ => .pure _

theorem push_element_forgets (env : Env) (e : HistElement) :
    Forgets (push_element (σ := σ × List Input) env e) (push_element (σ := σ) env e) :=
  .get_bind fun _ => .ite (.fail _) (.bind (.modify fun _ => rfl) fun _ => .pure _)

theorem pull_msg_forgets (env : Env) (k : Nat) : Forgets (trace_pull_msg (recorded src) env k) (trace_pull_msg src env k) := by
  refine .bind (fetch_msg_forgets _) fun _ => .get_bind fun s => .ite (.pure _) (.ite (.fail _) ?_)
  refine .ite (.bind (.modify fun _ => rfl) fun _ => .ite (.fail _) (push_element_forgets env _)) ?_
  refine .ite (push_element_forgets env _) (.ite ?_ (.fail _))
  have hforget : s.forget.msg.res_code = s.msg.res_code := rfl
  rw [hforget]
  split
  · exact .ite (.fail _) (push_element_forgets env _)
  · exact .ite (.fail _) (push_element_forgets env _)
  · exact .fail _

theorem retire_msg_forgets : Forgets (trace_retire_msg (recorded src)) (trace_retire_msg src) := by
  refine .get_bind fun s => .bind (.assert _) fun _ => .bind (.assert _) fun _ => .bind (.assert _) fun _ => .bind (.assert _) fun _ => ?_
  refine .bind (.assert _) fun _ => .bind (.assert _) fun _ => .bind (.modify fun _ => rfl) fun _ => .ite (.ite ?_ ?_) ?_
  · exact .bind (.assert _) fun _ => .modify fun _ => rfl
  · refine .bind (retire_timestamp_forgets _) fun _ => .bind (.modify fun _ => rfl) fun _ => .ite ?_ ?_
    · exact .modify fun _ => rfl
    · exact .modify fun _ => rfl
  · refine .ite (.bind (.modify fun _ => rfl) fun _ => .modify fun _ => rfl) ?_
    exact .bind (retire_timestamp_forgets _) fun _ => .bind (.modify fun _ => rfl) fun _ => .modify fun _ => rfl

theorem pull_until_forgets (env : Env) {done : Trace (σ × List Input) (Option α)} {done' : Trace σ (Option α)} (hdone : Forgets done done')
    (fuel : Nat) : ∀ k rc, Forgets (pull_until (recorded src) env done fuel k rc) (pull_until src env done' fuel k rc) := by
  induction fuel with
  | zero => exact fun _ _ => .bind (.assert _) fun _ => .pure _
  | succ fuel ih =>
    intro k rc
    refine .bind hdone fun r => ?_
    cases r with
    | some a => exact .pure _
    | none => exact .ite (.pure _) (.bind (pull_msg_forgets env k) fun rc => ih (k + 1) rc)

theorem retire_icnt_forgets (icnt : Nat) : Forgets (retire_icnt (σ := σ × List Input) icnt) (retire_icnt (σ := σ) icnt) :=
  .bind available_icnt_forgets fun _ => .ite (.bind (consume_icnt_forgets _) fun _ => .pure _) (.pure _)

theorem retire_tnt_forgets : Forgets (retire_tnt (recorded src)) (retire_tnt src) :=
  .bind available_tnts_forgets fun _ => .ite (.bind consume_tnt_forgets fun _ => .pure _) (.pure _)

theorem try_retire_forgets (env : Env) (icnt : Nat) : Forgets (trace_try_retire (recorded src) env icnt) (trace_try_retire src env icnt) := by
  refine .get_bind fun s => .ite (.fail _) (.bind (pull_until_forgets env (retire_icnt_forgets _) _ 0 true) fun r => ?_)
  cases r with
  | some n => exact .pure _
  | none =>
    refine .get_bind fun s => .bind (.assert _) fun _ => .bind available_icnt_forgets fun _ => .bind (consume_icnt_forgets _) fun _ => ?_
    refine .ite (.pure _) (.bind available_tnts_forgets fun _ => .ite (.pure _) ?_)
    exact .bind (.assert _) fun _ => .pure _

theorem next_tnt_forgets (env : Env) : Forgets (trace_next_tnt (recorded src) env) (trace_next_tnt src env) := by
  refine .get_bind fun s => .ite (.fail _) (.bind (pull_until_forgets env retire_tnt_forgets _ 0 true) fun r => ?_)
  cases r with
  | some b => exact .pure _
  | none =>
    refine .get_bind fun s => .bind (.assert _) fun _ => .bind available_icnt_forgets fun _ => .ite (.pure _) (.ite (.fail _) ?_)
    exact .bind retire_msg_forgets fun _ => .pure _

theorem nothing_available_forgets : Forgets (nothing_available (σ := σ × List Input)) (nothing_available (σ := σ)) :=
  .bind available_icnt_forgets fun _ => .ite (.fail _) (.bind available_tnts_forgets fun _ => .ite (.fail _) (.pure _))

theorem next_indirect_forgets (env : Env) : Forgets (trace_next_indirect (recorded src) env) (trace_next_indirect src env) := by
  refine .get_bind fun s => .ite (.fail _) (.bind (fetch_msg_forgets _) fun _ => .bind nothing_available_forgets fun _ => ?_)
  refine .get_bind fun s => .ite (.fail _) (.bind (.modify fun _ => ?_) fun _ => .get_bind fun s => .bind retire_msg_forgets fun _ => ?_)
  · dsimp only [TraceDecoder.forget]
    split <;> rfl
  · exact .bind (next_msg2_forgets _) fun r => .ite (.bind rewind_msg_forgets fun _ => .pure _) (.pure _)

theorem next_sync_forgets (env : Env) : Forgets (trace_next_sync (recorded src) env) (trace_next_sync src env) := by
  refine .get_bind fun s => .ite (.fail _) (.bind (fetch_msg_forgets _) fun _ => .bind nothing_available_forgets fun _ => ?_)
  exact .get_bind fun s => .ite (.fail _) (.bind retire_msg_forgets fun _ => .get_bind fun s => .bind (.assert _) fun _ => .pure _)

theorem drain_all_forgets (l : List HistElement) : Forgets (drain_all (recorded src) l) (drain_all src l) := by
  induction l with
  | nil => exact .pure _
  | cons e l ih => exact .bind (retire_timestamp_forgets _) fun _ => .bind (.modify fun _ => rfl) fun _ => ih

theorem next_error_forgets (env : Env) : Forgets (trace_next_error (recorded src) env) (trace_next_error src env) := by
  refine .get_bind fun s => .ite (.fail _) (.bind (fetch_msg_forgets _) fun _ => .get_bind fun s => .ite (.fail _) ?_)
  refine .bind (.modify fun _ => rfl) fun _ => .bind (drain_all_forgets _) fun _ => .bind retire_msg_forgets fun _ => ?_
  exact .get_bind fun s => .bind (.assert _) fun _ => .bind (.modify fun _ => rfl) fun _ => .pure _

theorem next_stop_forgets (env : Env) : Forgets (trace_next_stop (recorded src) env) (trace_next_stop src env) := by
  refine .get_bind fun s => .ite (.fail _) (.bind (fetch_msg_forgets _) fun _ => .bind nothing_available_forgets fun _ => ?_)
  refine .get_bind fun s => .ite (.fail _) (.bind retire_msg_forgets fun _ => .get_bind fun s => .bind (.assert _) fun _ => ?_)
  exact .bind (.modify fun _ => rfl) fun _ => .pure _

theorem sync_forward_forgets (env : Env) (fuel : Nat) : ∀ k, Forgets (sync_forward (recorded src) env fuel k) (sync_forward src env fuel k) := by
  induction fuel with
  | zero => exact fun _ => .assert _
  | succ fuel ih =>
    intro k
    refine .bind (fetch_msg_forgets _) fun _ => .get_bind fun s => .ite (.pure _) ?_
    exact .bind (.modify fun _ => rfl) fun _ => ih (k + 1)

theorem sync_reset_forgets (env : Env) : Forgets (trace_sync_reset (recorded src) env) (trace_sync_reset src env) := by
  refine .get_bind fun s => .ite (.pure _) (.bind (sync_forward_forgets env _ 0) fun _ => .bind (.modify fun _ => rfl) fun _ => ?_)
  exact .bind (next_sync_forgets env) fun _ => .pure _

theorem exec_forgets (env : Env) (c : Call) : Forgets (exec (recorded src) env c) (exec src env c) := by
  have hstack : ∀ {β : Type} (x : Proc RetStack NexusError β), Forgets
      (Proc.zoom (·.return_stack) (fun r (s : TraceDecoder (σ × List Input)) => { s with return_stack := r }) x)
      (Proc.zoom (·.return_stack) (fun r (s : TraceDecoder σ) => { s with return_stack := r }) x) := fun x s => by
    rw [Proc.zoom, Proc.zoom, Option.map_map]
    rfl
  cases c with
  | sync_reset => exact (sync_reset_forgets env).map
  | try_retire icnt => exact (try_retire_forgets env icnt).map
  | next_tnt => exact (next_tnt_forgets env).map
  | next_indirect => exact (next_indirect_forgets env).map
  | next_sync => exact (next_sync_forgets env).map
  | next_error => exact (next_error_forgets env).map
  | next_stop => exact (next_stop_forgets env).map
  | push_call a => exact (hstack _).map
  | pop_ret => exact (hstack _).map
  | add_timestamp ts => exact (Proc.Maps.bind (retire_timestamp_forgets ts) fun _ => .pure _).map
  | skip => exact (next_msg2_forgets _).map

/-- The decoder does over the recorded source what it does over the source. -/
theorem play_forget (calls : List (Env × Call)) : ∀ s : TraceDecoder (σ × List Input),
    play src calls s.forget = (play (recorded src) calls s).map fun r => (r.1, r.2.forget) := by
  induction calls with
  | nil => exact fun _ => rfl
  | cons c calls ih =>
    intro s
    obtain ⟨env, c⟩ := c
    have hc := @exec_forgets _ src env c s
    simp only [play, hc]
    rcases exec (recorded src) env c s with _ | ⟨r, t⟩
    · rfl
    · simp only [Option.map_some, Option.bind_eq_bind, Option.bind_some, ih]
      rcases play (recorded src) calls t with _ | ⟨rs, u⟩ <;> rfl

/-- The state with nothing recorded yet. -/
def TraceDecoder.start (s : TraceDecoder σ) : TraceDecoder (σ × List Input) :=
  ⟨(s.msg_decoder, []), s.res_hists, s.res_icnt, s.res_tnts, s.consumed_icnt, s.consumed_tnts, s.synced, s.msg_present, s.msg, s.full_addr,
    s.timestamp, s.return_stack⟩

/-- Every run is what a recorded run forgets. -/
theorem play_recorded {calls : List (Env × Call)} {s t : TraceDecoder σ} {rs : List (Except NexusError Result)}
    (h : play src calls s = some (rs, t)) : ∃ u, play (recorded src) calls s.start = some (rs, u) ∧ u.forget = t := by
  have hplay := @play_forget _ src calls s.start
  rw [show s.start.forget = s from rfl, h] at hplay
  obtain ⟨⟨rs', u⟩, hu, he⟩ := Option.map_eq_some_iff.1 hplay.symm
  cases he
  exact ⟨u, hu, rfl⟩

/-- A run, and a recorded run behind it, from what is shown of the states between and behind. -/
theorem replays_shown {β γ : Type} {calls calls' : List (Env × Call)} {s : TraceDecoder σ} (f : TraceDecoder σ → β)
    (g : TraceDecoder (σ × List Input) → γ) {rs rs' : List (Except NexusError Result)} {b : β} {a : γ}
    (h : ((play src calls s).bind fun p => (play (recorded src) calls' p.2.start).map fun q => (p.1, f p.2, q.1, g q.2)) = some (rs, b, rs', a)) :
    ∃ t u, play src calls s = some (rs, t) ∧ play (recorded src) calls' t.start = some (rs', u) ∧ f t = b ∧ g u = a := by
  obtain ⟨⟨rs₁, t⟩, ht, he⟩ := Option.bind_eq_some_iff.1 h
  obtain ⟨⟨rs₂, u⟩, hu, he⟩ := Option.map_eq_some_iff.1 he
  cases he
  exact ⟨t, u, ht, hu, rfl, rfl⟩

/-- A call, and a recorded run behind it. -/
theorem recorded_shown {β : Type} {env : Env} {c : Call} {calls : List (Env × Call)} {s : TraceDecoder σ}
    (g : TraceDecoder (σ × List Input) → β) {r : Except NexusError Result} {rs : List (Except NexusError Result)} {b : β}
    (h : ((play src [(env, c)] s).bind fun p => (play (recorded src) calls p.2.start).map fun q => (p.1, q.1, g q.2)) = some ([r], rs, b)) :
    ∃ t u, exec src env c s = some (r, t) ∧ play (recorded src) calls t.start = some (rs, u) ∧ g u = b := by
  obtain ⟨⟨rs₁, t⟩, ht, he⟩ := Option.bind_eq_some_iff.1 h
  obtain ⟨⟨rs₂, u⟩, hu, he⟩ := Option.map_eq_some_iff.1 he
  cases he
  obtain ⟨v, hv, hnil⟩ := play_head ht
  cases hnil
  exact ⟨_, u, hv, hu, rfl⟩

/-! ## What a fetch takes -/

/-- What a look-ahead behind a branch leaves in the log, and the repetitions that it finds. -/
inductive Looked : List Input → UInt32 → Prop where
  | failed (e : NexusError) : Looked [.failed e] 0
  | other (m : Msg) : m.tcode ≠ .RepeatBranch → Looked [.peeked m] 0
  | repeated (m : Msg) : m.tcode = .RepeatBranch → Looked [.took m] m.hrepeat
  | ended (m : Msg) : m.tcode ≠ .RepeatBranch → Looked [.ended m] 0
  /-- at the end, what the message held before counts -/
  | stale (m : Msg) : m.tcode = .RepeatBranch → Looked [.ended m] m.hrepeat

/-- What a fetch adds to the log. -/
inductive FetchLog (s : TraceDecoder (σ × List Input)) : TraceDecoder (σ × List Input) → Prop where
  | present : s.msg_present = true → FetchLog s s
  | nothing {t} (i : Input) : s.msg_present = false → t.msg_present = false → (∀ m, i ≠ .took m) → t.log = i :: s.log → FetchLog s t
  | plain {t} (m : Msg) : s.msg_present = false → t.msg_present = true → trace_check_msg m = true → repeatable m = false → t.msg = m →
      t.log = .took m :: s.log → FetchLog s t
  | branch {t} (m : Msg) (g : List Input) (k : UInt32) : s.msg_present = false → t.msg_present = true → trace_check_msg m = true →
      repeatable m = true → Looked g k → t.msg = { m with hrepeat := k } → t.log = g ++ .took m :: s.log → FetchLog s t

theorem Input.of_ok {n : Nat} (h : n ≠ 0) (m : Msg) : Input.of (.ok n) m = .took m := by
  cases n with
  | zero => exact absurd rfl h
  | succ n => rfl

theorem Fetched.reads {msg2 : Msg} {s t : TraceDecoder (σ × List Input)} {r : Except NexusError Bool}
    (h : Fetched (recorded src) msg2 s r t) : FetchLog s t := by
  cases h with
  | present hp => exact .present hp
  | failed e d m hp hn => exact .nothing (.failed e) hp hp (fun _ => nofun) (recorded_next.1 hn).2
  | eof d m hp hn => exact .nothing (.ended m) hp hp (fun _ => nofun) (recorded_next.1 hn).2
  | unsupported n d d' m hp hn h0 hc hback =>
    refine .nothing (.peeked m) hp hp (fun _ => nofun) ?_
    rw [TraceDecoder.log, (recorded_rewind.1 hback).2, (recorded_next.1 hn).2, Input.of_ok h0]
    rfl
  | plain n d m hp hn h0 hc hb => exact .plain m hp rfl hc hb rfl ((recorded_next.1 hn).2.trans (by rw [Input.of_ok h0]; rfl))
  | ahead_failed n d m e d₂ m₂ hp hn h0 hc hb hn₂ =>
    refine .branch m _ 0 hp rfl hc hb (.failed e) rfl ?_
    rw [TraceDecoder.log, (recorded_next.1 hn₂).2, (recorded_next.1 hn).2, Input.of_ok h0]
    rfl
  | ahead_other n d m n₂ d₂ m₂ d₃ hp hn h0 hc hb hn₂ hk hback =>
    have hlog := (recorded_rewind.1 hback).2
    rw [(recorded_next.1 hn₂).2, (recorded_next.1 hn).2, Input.of_ok h0] at hlog
    cases n₂ with
    | zero => exact .branch m _ 0 hp rfl hc hb (.ended m₂ hk) rfl hlog
    | succ n₂ => exact .branch m _ 0 hp rfl hc hb (.other m₂ hk) rfl hlog
  | repeated n d m n₂ d₂ m₂ hp hn h0 hc hb hn₂ hk =>
    have hlog := (recorded_next.1 hn₂).2
    rw [(recorded_next.1 hn).2, Input.of_ok h0] at hlog
    cases n₂ with
    | zero => exact .branch m _ _ hp rfl hc hb (.stale m₂ hk) rfl hlog
    | succ n₂ => exact .branch m _ _ hp rfl hc hb (.repeated m₂ hk) rfl hlog

end Recorded

end nexusrv
