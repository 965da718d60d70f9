import NexusRv.LookAhead
import NexusRv.Events
import NexusRv.TraceTotal
/-!
# Calls out of turn

`next_indirect`, `next_sync`, `next_stop` and `next_error` buffer the next message before
they see whether it is theirs. A state that awaits a message and the state that has it
buffered give the same results from then on, unless it is a ResourceFull message: no
function expects that one to be buffered.
-/

namespace nexusrv

/-- The messages that a call retrieves an event from. -/
def Call.takes : Call → Option (Msg → Bool)
  | .next_indirect => some msg_is_indir_branch
  | .next_sync => some msg_is_plain_sync
  | .next_stop => some msg_is_stop
  | .next_error => some msg_is_error
  | _ => none

section Turns
variable {σ α : Type} {src : Source σ} {I : σ → Prop} {s t u v : TraceDecoder σ} {env : Env} {c : Call}

variable (src) in
/-- The call returns `-nexus_trace_mismatch`, and what is called then gives the results that it gives without the call. -/
def Harmless (c : Call) (s : TraceDecoder σ) : Prop :=
  ∀ env, ∃ u, exec src env c s = some (.error .trace_mismatch, u) ∧
    ∀ calls : List (Env × Call), (∀ p ∈ calls, p.2 ≠ .skip) → (play src calls u).map Prod.fst = (play src calls s).map Prod.fst

/-! ## A message that is awaited -/

variable (src) in
/-- Every fetch from `s` buffers the message that is buffered in `u`, and the counters have room for it. -/
structure Awaits (s u : TraceDecoder σ) : Prop where
  synced : s.synced = true
  absent : s.msg_present = false
  fetch : ∀ msg2, trace_fetch_msg src msg2 s = some (.ok true, u)
  other : msg_is_res u.msg = false
  sifive : u.sifive src = s.sifive src
  booked : Booked s
  tnts : s.consumed_tnts ≤ s.res_tnts
  room : s.res_tnts + u.msg.own_bits < 2 ^ 32

/-- The message of `u` and where it leaves the source, in another state. -/
def TraceDecoder.awaited (u s : TraceDecoder σ) : TraceDecoder σ :=
  { s with msg_decoder := u.msg_decoder, msg := u.msg, msg_present := u.msg_present }

/-- A fetch looks at the message decoder and the buffer only. -/
theorem Fetched.carry {msg2 : Msg} {r : Except NexusError Bool} (h : Fetched src msg2 s r u) (h1 : t.msg_decoder = s.msg_decoder)
    (h2 : t.msg = s.msg) (h3 : t.msg_present = s.msg_present) : Fetched src msg2 t r (u.awaited t) := by
  obtain ⟨d, q, a, b, e, f, g, p, m, x, y, z⟩ := t
  dsimp only at h1 h2 h3
  subst h1 h2 h3
  cases h with
  | present hp => exact .present hp
  | failed e d m hp hn => exact .failed e d m hp hn
  | eof d m hp hn => exact .eof d m hp hn
  | unsupported n d d' m hp hn h0 hc hb => exact .unsupported n d d' m hp hn h0 hc hb
  | plain n d m hp hn h0 hc hb => exact .plain n d m hp hn h0 hc hb
  | ahead_failed n d m e d₂ m₂ hp hn h0 hc hb hn₂ => exact .ahead_failed n d m e d₂ m₂ hp hn h0 hc hb hn₂
  | ahead_other n d m n₂ d₂ m₂ d₃ hp hn h0 hc hb hn₂ hk hback => exact .ahead_other n d m n₂ d₂ m₂ d₃ hp hn h0 hc hb hn₂ hk hback
  | repeated n d m n₂ d₂ m₂ hp hn h0 hc hb hn₂ hk => exact .repeated n d m n₂ d₂ m₂ hp hn h0 hc hb hn₂ hk

section Awaits
variable (h : Awaits src s u)
include h

theorem Awaits.fetched (msg2 : Msg) : Fetched src msg2 s (.ok true) u := fetch_cases (h.fetch msg2)

theorem Awaits.eq : u = u.awaited s := by
  have hframe := (h.fetched Msg.zero).frame
  exact hframe

theorem Awaits.present : u.msg_present = true := (h.fetched Msg.zero).filled

theorem Awaits.with_synced : u.synced = true := (h.fetched Msg.zero).synced.trans h.synced

theorem Awaits.with_settled : u.settled := fun _ => h.other

theorem Awaits.settled : s.settled := fun hp => by rw [h.absent] at hp; cases hp

theorem Awaits.with_booked : Booked u := (h.fetched Msg.zero).booked h.booked

/-- What changes outside of the message decoder and the buffer changes both. -/
theorem Awaits.carry (h1 : t.msg_decoder = s.msg_decoder) (h2 : t.msg = s.msg) (h3 : t.msg_present = s.msg_present) (hsync : t.synced = true)
    (hb : Booked t) (htnts : t.consumed_tnts ≤ t.res_tnts) (hle : t.res_tnts ≤ s.res_tnts) : Awaits src t (u.awaited t) := by
  constructor
  · exact hsync
  · rw [h3, h.absent]
  · intro msg2
    apply fetch_of
    exact (h.fetched msg2).carry h1 h2 h3
  · exact h.other
  · have hs := h.sifive
    unfold TraceDecoder.sifive at hs ⊢
    rw [h1, ← hs]
    rfl
  · exact hb
  · exact htnts
  · have hroom := h.room
    change t.res_tnts + u.msg.own_bits < 2 ^ 32
    omega

end Awaits

/-! ## The loop -/

/-- A state that has nothing of what is asked for goes on from the awaited message. -/
theorem Awaits.pull_until (h : Awaits src s u) (env : Env) {done : Trace σ (Option α)} (hasks : Asks done) (hnone : done s = some (.ok none, s))
    (fuel fuel' k k' : Nat) : pull_until src env done (fuel + 2) k true s = pull_until src env done (fuel' + 2) k' true u := by
  have hpull : trace_pull_msg src env k s = some (.ok false, u) := pull_of (.other true u (h.fetched _) h.other)
  rw [nexusrv.pull_until, Proc.bind_ok hnone]
  simp only [Bool.not_true, Bool.false_eq_true, if_false]
  rw [Proc.bind_ok hpull, nexusrv.pull_until]
  rcases hd : done u with _ | ⟨e | _ | a, v⟩
  · rw [nexusrv.pull_until, Proc.bind_none hd, Proc.bind_none hd]
  · rw [nexusrv.pull_until, Proc.bind_error hd, Proc.bind_error hd]
  · obtain ⟨-, hv, -⟩ | ⟨a, ha⟩ := hasks _ _ _ hd
    · rw [hv] at hd
      rw [pull_until_present h.present h.with_settled hd, Proc.bind_ok hd]
      rfl
    · cases ha
  · rw [nexusrv.pull_until, Proc.bind_ok hd, Proc.bind_ok hd]

/-! ## The calls -/

/-- The calls that read a message first go on behind it. -/
theorem exec_fetched {b : Bool} (hsync : s.synced = true) (hf : trace_fetch_msg src (env.msg2 0) s = some (.ok b, u)) (hc : c.takes.isSome) :
    exec src env c s = exec src env c u := by
  have hfetched := fetch_cases hf
  have hu : u.synced = true := hfetched.synced.trans hsync
  have hagain : trace_fetch_msg src (env.msg2 0) u = some (.ok false, u) := fetch_present _ hfetched.filled
  cases c with
  | next_indirect => rw [exec, Proc.map_apply, Proc.map_apply, next_indirect_fetched hsync hf]
  | next_sync =>
    rw [exec, Proc.map_apply, Proc.map_apply]
    simp only [trace_next_sync, Proc.get_bind_apply, hsync, hu, Bool.not_true, Bool.false_eq_true, if_false]
    rw [Proc.bind_ok hf, Proc.bind_ok hagain]
  | next_stop =>
    rw [exec, Proc.map_apply, Proc.map_apply]
    simp only [trace_next_stop, Proc.get_bind_apply, hsync, hu, Bool.not_true, Bool.false_eq_true, if_false]
    rw [Proc.bind_ok hf, Proc.bind_ok hagain]
  | next_error =>
    rw [exec, Proc.map_apply, Proc.map_apply]
    simp only [trace_next_error, Proc.get_bind_apply, hsync, hu, Bool.not_true, Bool.false_eq_true, if_false]
    rw [Proc.bind_ok hf, Proc.bind_ok hagain]
  | _ => cases hc

/-- The instructions in front of the message are retired alike. -/
theorem Awaits.try_retire (h : Awaits src s u) (env : Env) (icnt : Nat) : trace_try_retire src env icnt s = trace_try_retire src env icnt u ∨
    ∃ n t v, trace_try_retire src env icnt s = some (.ok n, t) ∧ trace_try_retire src env icnt u = some (.ok n, v) ∧ Awaits src t v := by
  have hs := h.synced
  have hu := h.with_synced
  have hsum : s.icnt_left = s.res_icnt := by
    rw [h.booked.left h.settled, h.booked.consumed_zero h.absent, TraceDecoder.buffered_icnt, h.absent]
    simp
  have hsumu : u.icnt_left = s.res_icnt + u.buffered_icnt := by
    rw [h.with_booked.left h.with_settled, (h.fetched Msg.zero).res_icnt, (h.fetched Msg.zero).consumed_icnt, h.booked.consumed_zero h.absent]
    rfl
  by_cases hle : s.icnt_left ≤ retire_limit icnt
  · left
    have hnone : retire_icnt (retire_limit icnt) s = some (.ok none, s) := retire_icnt_none h.booked h.settled hle
    have hloop := h.pull_until env (asks_icnt _) hnone (src.left s.msg_decoder) (src.left u.msg_decoder) 0 0
    simp only [trace_try_retire, Proc.get_bind_apply, Proc.ite_apply, hs, hu, Bool.not_true, Bool.false_eq_true, if_false]
    change (nexusrv.pull_until src env (retire_icnt (retire_limit icnt)) _ 0 true >>= _) s =
      (nexusrv.pull_until src env (retire_icnt (retire_limit icnt)) _ 0 true >>= _) u
    rw [Proc.bind_apply, Proc.bind_apply, hloop]
  · right
    have hge : s.res_icnt ≥ retire_limit icnt := by omega
    have hfound : ∀ {w : TraceDecoder σ}, Sliced (retire_limit icnt) w → retire_limit icnt < w.icnt_left →
        trace_try_retire src env icnt w = some (.ok (retire_limit icnt, .None), w.take_icnt (retire_limit icnt)) := by
      intro w hw hlt
      simp only [trace_try_retire, Proc.get_bind_apply, Proc.ite_apply, hw.synced, Bool.not_true, Bool.false_eq_true, if_false]
      change (nexusrv.pull_until src env (retire_icnt (retire_limit icnt)) _ 0 true >>= _) w = _
      rw [nexusrv.pull_until, Proc.bind_assoc_apply, Proc.bind_ok (retire_icnt_some hw hlt)]
      rfl
    have htake : ∀ {w : TraceDecoder σ}, w.res_icnt = s.res_icnt →
        w.take_icnt (retire_limit icnt) = { w with res_icnt := s.res_icnt - retire_limit icnt } := by
      intro w hw
      unfold TraceDecoder.take_icnt
      rw [hw, if_pos hge]
    have hsliced : Sliced (retire_limit icnt) s := ⟨h.booked, hs, h.settled, by omega, fun hlt => absurd hge (by omega)⟩
    have hslicedu : Sliced (retire_limit icnt) u := ⟨h.with_booked, hu, h.with_settled, by omega, fun _ => h.present⟩
    refine ⟨_, _, _, hfound hsliced (by omega), hfound hslicedu (by omega), ?_⟩
    have hawait := h.carry (t := s.take_icnt (retire_limit icnt)) (by rw [htake rfl]) (by rw [htake rfl]) (by rw [htake rfl])
      (by rw [htake rfl]; exact hs) hsliced.taken (by rw [htake rfl]; exact h.tnts) (by rw [htake rfl])
    rw [htake (h.fetched Msg.zero).res_icnt]
    rw [htake rfl] at hawait ⊢
    have hu' : { u with res_icnt := s.res_icnt - retire_limit icnt } = u.awaited { s with res_icnt := s.res_icnt - retire_limit icnt } := by
      rw [h.eq]
      rfl
    rw [hu']
    exact hawait

/-- A TNT of the queue is taken alike where the message is awaited and where it is buffered. -/
theorem TookTnt.carry {b : Bool} (h : TookTnt src s b t) (hne : s.res_tnts ≠ 0) (hsifive : u.sifive src = s.sifive src) :
    TookTnt src (u.awaited s) b (u.awaited t) := by
  have hsif : (u.awaited s).sifive src = s.sifive src := hsifive
  have hdrained : (u.awaited s).drained src = u.awaited (s.drained src) := by
    unfold TraceDecoder.drained
    rw [hsif]
    rfl
  cases h with
  | own h0 => exact absurd h0 hne
  | bit e rest h0 hu hlt =>
    have htook : TookTnt src (u.awaited s) _ _ := .bit e rest h0 hu hlt
    rw [hdrained] at htook
    exact htook
  | last e rest h0 hu heq hle hrep =>
    have htook : TookTnt src (u.awaited s) _ _ := .last e rest h0 hu heq hle hrep
    rw [hdrained, hsif] at htook
    exact htook

/-- The TNTs in front of the message, and those of the message with them. -/
theorem Awaits.totals (h : Awaits src s u) : s.tnt_total = s.res_tnts ∧ u.tnt_total = s.res_tnts + u.msg.own_bits := by
  have hroom := h.room
  constructor
  · unfold TraceDecoder.tnt_total
    simp [h.absent]
  · unfold TraceDecoder.tnt_total Msg.own_bits at *
    rw [h.present, (h.fetched Msg.zero).res_tnts, Bool.true_and]
    split
    · rw [if_pos ‹_›] at hroom
      exact Nat.mod_eq_of_lt hroom
    · rfl

/-- The TNTs in front of the message are taken alike. -/
theorem Awaits.next_tnt (h : Awaits src s u) (env : Env) : trace_next_tnt src env s = trace_next_tnt src env u ∨
    ∃ b t v, trace_next_tnt src env s = some (.ok b, t) ∧ trace_next_tnt src env u = some (.ok b, v) ∧ Awaits src t v := by
  have hs := h.synced
  have hu := h.with_synced
  have hf := h.fetched Msg.zero
  have hle := h.tnts
  obtain ⟨htotal, htotalu⟩ := h.totals
  have hconsumed : u.consumed_tnts = s.consumed_tnts := hf.consumed_tnts
  by_cases h0 : s.tnts_left = 0
  · left
    have hnone : retire_tnt src s = some (.ok none, s) := retire_tnt_none h.settled (by omega) h0
    have hloop := h.pull_until env asks_tnt hnone (src.left s.msg_decoder) (src.left u.msg_decoder) 0 0
    simp only [trace_next_tnt, Proc.get_bind_apply, Proc.ite_apply, hs, hu, Bool.not_true, Bool.false_eq_true, if_false]
    rw [Proc.bind_apply, Proc.bind_apply, hloop]
  have hleft : s.tnt_total - s.consumed_tnts ≠ 0 := h0
  have hne : s.res_tnts ≠ 0 := by omega
  have hleftu : u.tnts_left ≠ 0 := by
    change u.tnt_total - u.consumed_tnts ≠ 0
    omega
  have hnext : ∀ {w x : TraceDecoder σ} {b : Bool}, w.synced = true → retire_tnt src w = some (.ok (some b), x) →
      trace_next_tnt src env w = some (.ok b, x) := by
    intro w x b hw hd
    simp only [trace_next_tnt, Proc.get_bind_apply, Proc.ite_apply, hw, Bool.not_true, Bool.false_eq_true, if_false]
    rw [nexusrv.pull_until, Proc.bind_assoc_apply, Proc.bind_ok hd]
    rfl
  have hstuck : ∀ {w : TraceDecoder σ}, w.synced = true → w.tnts_left ≠ 0 → ¬ ((∀ e ∈ spent w.res_hists, e.repeat_ = 1) ∧ ∃ b x, TookTnt src w b x) →
      trace_next_tnt src env w = none := by
    intro w hw hleft hno
    have hd : retire_tnt src w = none := by
      rcases hd : retire_tnt src w with _ | ⟨r, x⟩
      · rfl
      · obtain ⟨-, -, ⟨hz, -⟩ | ⟨-, b, -, hspent, htook⟩⟩ := retire_tnt_cases hd
        · exact absurd hz hleft
        · exact absurd ⟨hspent, b, x, htook⟩ hno
    simp only [trace_next_tnt, Proc.get_bind_apply, Proc.ite_apply, hw, Bool.not_true, Bool.false_eq_true, if_false]
    rw [nexusrv.pull_until, Proc.bind_assoc_apply, Proc.bind_none hd]
  by_cases htook : (∀ e ∈ spent s.res_hists, e.repeat_ = 1) ∧ ∃ b t, TookTnt src s b t
  · right
    obtain ⟨hspent, b, t, htook⟩ := htook
    have htooku : TookTnt src u b (u.awaited t) := by
      have := htook.carry hne h.sifive
      rwa [← h.eq] at this
    have hspentu : ∀ e ∈ spent u.res_hists, e.repeat_ = 1 := by
      rw [hf.res_hists]
      exact hspent
    refine ⟨b, t, u.awaited t, hnext hs (retire_tnt_some h.settled (by omega) h0 hspent htook),
      hnext hu (retire_tnt_some h.with_settled (by omega) hleftu hspentu htooku), ?_⟩
    obtain ⟨-, -, h3, h4, h5, h6, h7⟩ := htook.frame
    have hmicro : Micro src .next_tnt s [.tnt b] t := .tnt hs h.settled (by omega) h0 hspent htook
    apply h.carry h6 h3 h4 (h5.trans hs) (hmicro.booked h.booked) _ h7
    cases htook with
    | own hz => exact absurd hz hne
    | bit e rest =>
      change s.consumed_tnts + 1 ≤ s.res_tnts
      omega
    | last => exact Nat.zero_le _
  · left
    rw [hstuck hs h0 htook, hstuck hu hleftu]
    rintro ⟨hspentu, b, v, htooku⟩
    apply htook
    have hback : s.awaited u = s := by
      rw [h.eq]
      rfl
    have htook' := htooku.carry (u := s) (by rw [hf.res_tnts]; exact hne) h.sifive.symm
    rw [hback] at htook'
    rw [hf.res_hists] at hspentu
    exact ⟨hspentu, b, _, htook'⟩

/-- A call that moves the return stack only. -/
theorem Awaits.stack (h : Awaits src s u) (x : Proc RetStack NexusError α) (f : α → Result) :
    let y : Trace σ α := Proc.zoom (·.return_stack) (fun r s => { s with return_stack := r }) x
    (f <$> y) s = (f <$> y) u ∨ ∃ r t v, (f <$> y) s = some (r, t) ∧ (f <$> y) u = some (r, v) ∧ Awaits src t v := by
  have hstack : u.return_stack = s.return_stack := by
    rw [h.eq]
    rfl
  simp only [Proc.map_apply, Proc.zoom, hstack]
  rcases x s.return_stack with _ | ⟨r, stack⟩
  · exact .inl rfl
  · right
    refine ⟨r.map f, { s with return_stack := stack }, { u with return_stack := stack }, rfl, rfl, ?_⟩
    have hmicro : Micro src .pop_ret s [] { s with return_stack := stack } := .stack
    have hawait := h.carry (t := { s with return_stack := stack }) rfl rfl rfl h.synced (hmicro.booked h.booked) h.tnts (Nat.le_refl _)
    rw [h.eq]
    exact hawait

/-- One call from the two states: it returns the same, and from then on they are one state, or still await the message. -/
theorem Awaits.exec (h : Awaits src s u) (env : Env) (hc : c ≠ .skip) : exec src env c s = exec src env c u ∨
    ∃ r t v, exec src env c s = some (r, t) ∧ exec src env c u = some (r, v) ∧ Awaits src t v := by
  cases c with
  | next_indirect => exact .inl (exec_fetched h.synced (h.fetch _) rfl)
  | next_sync => exact .inl (exec_fetched h.synced (h.fetch _) rfl)
  | next_stop => exact .inl (exec_fetched h.synced (h.fetch _) rfl)
  | next_error => exact .inl (exec_fetched h.synced (h.fetch _) rfl)
  | push_call callsite => exact h.stack (retstack_push env.mem callsite) _
  | pop_ret => exact h.stack retstack_pop _
  | skip => exact absurd rfl hc
  | sync_reset =>
    right
    refine ⟨.ok (.reset none), s, u, ?_, ?_, h⟩
    · simp [nexusrv.exec, Proc.map_apply, trace_sync_reset, h.synced]
      rfl
    · simp [nexusrv.exec, Proc.map_apply, trace_sync_reset, h.with_synced]
      rfl
  | try_retire icnt =>
    rw [nexusrv.exec, Proc.map_apply, Proc.map_apply]
    obtain he | ⟨n, t, v, ht, hv, hawait⟩ := h.try_retire env icnt
    · rw [he]
      exact .inl rfl
    · rw [ht, hv]
      exact .inr ⟨_, t, v, rfl, rfl, hawait⟩
  | next_tnt =>
    rw [nexusrv.exec, Proc.map_apply, Proc.map_apply]
    obtain he | ⟨b, t, v, ht, hv, hawait⟩ := h.next_tnt env
    · rw [he]
      exact .inl rfl
    · rw [ht, hv]
      exact .inr ⟨_, t, v, rfl, rfl, hawait⟩
  | add_timestamp timestamp =>
    right
    let time : TraceDecoder σ → TraceDecoder σ := fun w => { w with timestamp := combine_time (w.sifive src) w.timestamp timestamp }
    have hrun : ∀ w, nexusrv.exec src env (.add_timestamp timestamp) w = some (.ok .done, time w) := by
      intro w
      rw [nexusrv.exec, Proc.map_apply, trace_add_timestamp, retire_timestamp_bind]
      rfl
    have hmicro : Micro src (.add_timestamp timestamp) s [] (time s) := .time timestamp rfl
    refine ⟨_, _, _, hrun s, hrun u, ?_⟩
    have hawait := h.carry (t := time s) rfl rfl rfl h.synced (hmicro.booked h.booked) h.tnts (Nat.le_refl _)
    have htime : time u = u.awaited (time s) := by
      have hnow : u.timestamp = s.timestamp := (h.fetched Msg.zero).timestamp
      change { u with timestamp := combine_time (u.sifive src) u.timestamp timestamp } = _
      rw [h.sifive, hnow, h.eq]
      rfl
    rw [htime]
    exact hawait

/-- What is called from the two states gives the same results. -/
theorem Awaits.play (calls : List (Env × Call)) (hcalls : ∀ p ∈ calls, p.2 ≠ .skip) : ∀ {s u : TraceDecoder σ}, Awaits src s u →
    (play src calls u).map Prod.fst = (play src calls s).map Prod.fst := by
  induction calls with
  | nil => exact fun _ => rfl
  | cons p calls ih =>
    intro s u h
    obtain ⟨env, c⟩ := p
    have hrest := fun {s u} => @ih (fun p hp => hcalls p (List.mem_cons_of_mem _ hp)) s u
    obtain he | ⟨r, t, v, ht, hv, hawait⟩ := h.exec env (hcalls _ List.mem_cons_self)
    · rw [nexusrv.play, nexusrv.play, he]
    · have htail := hrest hawait
      simp only [nexusrv.play, ht, hv, Option.bind_eq_bind, Option.bind_some]
      revert htail
      rcases nexusrv.play src calls t with _ | ⟨rs, x⟩ <;> rcases nexusrv.play src calls v with _ | ⟨rs', y⟩ <;> simp

/-! ## Turned away -/

theorem nothing_available_isSome : (nothing_available s).isSome = true ↔
    s.settled ∧ s.consumed_icnt ≤ s.icnt_total ∧ (s.icnt_left ≠ 0 ∨ s.consumed_tnts ≤ s.tnt_total) := by
  constructor
  · intro h
    obtain ⟨⟨r, t⟩, hr⟩ := Option.isSome_iff_exists.1 h
    rcases Proc.bind_eq_some.1 hr with ⟨e, he, -⟩ | ⟨a, t', ha, hr⟩
    · cases (available_icnt_iff.1 he).2.2.1
    obtain ⟨h1, h2, ha, ht⟩ := available_icnt_iff.1 ha
    cases ha
    refine ⟨h1, h2, ?_⟩
    rw [ht, Proc.ite_apply] at hr
    split at hr
    · exact .inl ‹_›
    · rcases Proc.bind_eq_some.1 hr with ⟨e, he, -⟩ | ⟨a, t', ha, -⟩
      · cases (available_tnts_iff.1 he).2.2.1
      · exact .inr (available_tnts_iff.1 ha).2.1
  · rintro ⟨h1, h2, h3⟩
    have hicnt : trace_available_icnt s = some (.ok s.icnt_left, s) := available_icnt_iff.2 ⟨h1, h2, rfl, rfl⟩
    rw [nothing_available, Proc.bind_ok hicnt, Proc.ite_apply]
    split
    · rfl
    · have htnts : trace_available_tnts s = some (.ok s.tnts_left, s) := available_tnts_iff.2 ⟨h1, h3.resolve_left ‹_›, rfl, rfl⟩
      rw [Proc.bind_ok htnts, Proc.ite_apply]
      split <;> rfl

/-- Behind the checks, a message of another kind is turned away. -/
theorem checked_mismatch {f : Unit → Trace σ α} (hf : f () s = some (.error .trace_mismatch, s)) :
    (nothing_available >>= f) s = (nothing_available s).map fun _ => (.error .trace_mismatch, s) := by
  rcases hn : nothing_available s with _ | ⟨e | ⟨⟩, v⟩
  · rw [Proc.bind_none hn]
    rfl
  · obtain ⟨hv, -, ⟨he, -⟩ | ⟨he, -⟩⟩ := nothing_available_cases hn <;> cases he
    rw [Proc.bind_error hn, hv]
    rfl
  · obtain ⟨hv, -⟩ := nothing_available_cases hn
    rw [hv] at hn
    rw [Proc.bind_ok hn, hf]
    rfl

/-- `next_error` turns away every other message. -/
theorem error_turned_away (hsync : s.synced = true) (hp : s.msg_present = true) (hkind : msg_is_error s.msg = false) :
    exec src env .next_error s = some (.error .trace_mismatch, s) := by
  have hne : s.msg.tcode ≠ .Error := by simpa [msg_is_error] using hkind
  rw [exec, Proc.map_apply]
  simp only [trace_next_error, Proc.get_bind_apply, hsync, Bool.not_true, Bool.false_eq_true, if_false]
  rw [Proc.bind_ok (fetch_present _ hp), Proc.get_bind_apply, Proc.ite_apply, if_pos hne]
  rfl

/-- The other calls turn a message away if their checks fail no assertion. -/
theorem turned_away {kind : Msg → Bool} (hsync : s.synced = true) (hp : s.msg_present = true) (hc : c.takes = some kind) (hne : c ≠ .next_error)
    (hkind : kind s.msg = false) : exec src env c s = (nothing_available s).map fun _ => (.error .trace_mismatch, s) := by
  have hfetch : trace_fetch_msg src (env.msg2 0) s = some (.ok false, s) := fetch_present _ hp
  cases c with
  | next_indirect =>
    cases hc
    rw [exec, Proc.map_apply]
    simp only [trace_next_indirect, Proc.get_bind_apply, hsync, Bool.not_true, Bool.false_eq_true, if_false]
    rw [Proc.bind_ok hfetch, checked_mismatch, Option.map_map]
    · rfl
    · rw [Proc.get_bind_apply, Proc.ite_apply, if_pos (by simp [hkind])]
      rfl
  | next_sync =>
    cases hc
    have hother : (!msg_is_sync s.msg || msg_is_branch s.msg) = true := by
      unfold msg_is_plain_sync at hkind
      cases hy : msg_is_sync s.msg <;> simp [hy] at hkind ⊢
      exact hkind
    rw [exec, Proc.map_apply]
    simp only [trace_next_sync, Proc.get_bind_apply, hsync, Bool.not_true, Bool.false_eq_true, if_false]
    rw [Proc.bind_ok hfetch, checked_mismatch, Option.map_map]
    · rfl
    · rw [Proc.get_bind_apply, Proc.ite_apply, if_pos hother]
      rfl
  | next_stop =>
    cases hc
    have hother : s.msg.tcode ≠ .ProgTraceCorrelation := by simpa [msg_is_stop] using hkind
    rw [exec, Proc.map_apply]
    simp only [trace_next_stop, Proc.get_bind_apply, hsync, Bool.not_true, Bool.false_eq_true, if_false]
    rw [Proc.bind_ok hfetch, checked_mismatch, Option.map_map]
    · rfl
    · rw [Proc.get_bind_apply, Proc.ite_apply, if_pos hother]
      rfl
  | next_error => exact absurd rfl hne
  | _ => cases hc

/-- Where the message is buffered, a call that turns it away changes nothing. -/
theorem harmless_present {kind : Msg → Bool} (hsync : s.synced = true) (hp : s.msg_present = true) (hc : c.takes = some kind)
    (hkind : kind s.msg = false) : Harmless src c s ↔ c = .next_error ∨ (nothing_available s).isSome = true := by
  by_cases hne : c = .next_error
  · subst hne
    cases hc
    simp only [true_or, iff_true]
    intro env
    exact ⟨s, error_turned_away hsync hp hkind, fun _ _ => rfl⟩
  · have haway : ∀ env, exec src env c s = _ := fun env => turned_away hsync hp hc hne hkind
    constructor
    · intro h
      obtain ⟨u, hu, -⟩ := h ⟨fun _ => Msg.zero, fun _ => true, fun _ => none⟩
      rw [haway] at hu
      obtain ⟨x, hx, -⟩ := Option.map_eq_some_iff.1 hu
      rw [hx]
      exact .inr rfl
    · intro h
      obtain ⟨x, hx⟩ := Option.isSome_iff_exists.1 (h.resolve_left hne)
      intro env
      refine ⟨s, ?_, fun _ _ => rfl⟩
      rw [haway, hx]
      rfl

/-! ## A ResourceFull message -/

/-- Without memory, nothing is absorbed: the pull of a ResourceFull message returns an error. -/
theorem pull_no_mem (hlaw : src.Lawful I) (hI : I s.msg_decoder) (halloc : ∀ n, env.alloc n = false)
    (hf : ∀ msg2, trace_fetch_msg src msg2 s = some (.ok true, u)) (hres : msg_is_res u.msg = true) (k : Nat) :
    ∃ e t, trace_pull_msg src env k s = some (.error e, t) := by
  obtain ⟨r, t, hpull⟩ : ∃ r t, trace_pull_msg src env k s = some (r, t) := pull_total hlaw hI env k
  rcases r with e | b
  · exact ⟨e, t, hpull⟩
  exfalso
  cases pull_cases hpull with
  | other b t hft hother =>
    have hsame := fetch_of hft
    rw [hf] at hsame
    cases hsame
    rw [hres] at hother
    cases hother
  | taken b t e _ _ _ _ _ hal =>
    rw [halloc] at hal
    cases hal

/-- A state that awaits a ResourceFull message goes on, and one that has it buffered fails an assertion. -/
theorem res_told_apart (env : Env) (hlaw : src.Lawful I) (hI : I s.msg_decoder) (hsync : s.synced = true) (hp : s.msg_present = false) (hb : Booked s)
    (hf : ∀ msg2, trace_fetch_msg src msg2 s = some (.ok true, u)) (hres : msg_is_res u.msg = true) (halloc : ∀ n, env.alloc n = false) :
    (exec src env (.try_retire 0) s).isSome = true ∧ exec src env (.try_retire 0) u = none := by
  have hfetched := fetch_cases (hf Msg.zero)
  have hu : u.synced = true := hfetched.synced.trans hsync
  have hset : s.settled := fun h => by rw [hp] at h; cases h
  constructor
  · rw [exec, Proc.map_apply]
    simp only [trace_try_retire, Proc.get_bind_apply, Proc.ite_apply, hsync, Bool.not_true, Bool.false_eq_true, if_false]
    obtain ⟨r, t, hicnt⟩ : ∃ r t, retire_icnt (retire_limit 0) s = some (r, t) := retire_icnt_total hb hset hsync _
    change (((pull_until src env (retire_icnt (retire_limit 0)) _ 0 true >>= _) s).map _).isSome = true
    rw [pull_until, Proc.bind_assoc_apply]
    obtain ⟨hr, ht, -⟩ | ⟨n, hr⟩ := asks_icnt _ _ _ _ hicnt
    · obtain ⟨e, v, hpull⟩ := pull_no_mem hlaw hI halloc hf hres 0
      rw [hr, ht] at hicnt
      rw [Proc.bind_ok hicnt]
      simp only [Bool.not_true, Bool.false_eq_true, if_false]
      rw [Proc.bind_assoc_apply, Proc.bind_error hpull]
      rfl
    · rw [hr] at hicnt
      rw [Proc.bind_ok hicnt]
      rfl
  · have hnone : retire_icnt (retire_limit 0) u = none := by
      rcases hr : retire_icnt (retire_limit 0) u with _ | ⟨r, t⟩
      · rfl
      · rw [(retire_icnt_cases hr).1 hfetched.filled] at hres
        cases hres
    rw [exec, Proc.map_apply]
    simp only [trace_try_retire, Proc.get_bind_apply, Proc.ite_apply, hu, Bool.not_true, Bool.false_eq_true, if_false]
    change ((pull_until src env (retire_icnt (retire_limit 0)) _ 0 true >>= _) u).map _ = none
    rw [pull_until, Proc.bind_assoc_apply, Proc.bind_none hnone]
    rfl

end Turns

/-! ## Out of turn -/

/-- At a message of another kind, a call is harmless in these cases. Where the message is buffered: `next_error` always is,
the others are if it is no ResourceFull message and the TNTs that are consumed are counted, or are not asked for. Where it is
not buffered yet: no call is at a ResourceFull message; at another one all are, if no look-ahead is blurred and the counter
of the TNTs does not wrap. -/
theorem out_of_turn {s u : TraceDecoder MsgDecoder} {c : Call} {kind : Msg → Bool} {msg2 : Msg} {b : Bool} (hs : Reachable s)
    (hsync : s.synced = true) (hc : c.takes = some kind) (hf : trace_fetch_msg msg_source msg2 s = some (.ok b, u)) (hkind : kind u.msg = false) :
    (s.msg_present = true → (Harmless msg_source c s ↔
      c = .next_error ∨ msg_is_res s.msg = false ∧ (s.icnt_left ≠ 0 ∨ s.consumed_tnts ≤ s.tnt_total))) ∧
    (s.msg_present = false → (Harmless msg_source c s → msg_is_res u.msg = false) ∧
      (msg_is_res u.msg = false → ¬ FetchBlurs s → s.consumed_tnts ≤ s.res_tnts → s.res_tnts + u.msg.own_bits < 2 ^ 32 →
        Harmless msg_source c s)) := by
  have hfetched := fetch_cases hf
  constructor
  · intro hp
    obtain rfl := hfetched.of_present hp
    have hicnt : u.settled → u.consumed_icnt ≤ u.icnt_total := fun hset => by
      have := hs.booked.own
      rw [hs.booked.total hset]
      omega
    rw [harmless_present hsync hp hc hkind, nothing_available_isSome]
    constructor
    · exact Or.imp_right fun ⟨hset, _, h⟩ => ⟨hset hp, h⟩
    · exact Or.imp_right fun ⟨hres, h⟩ => ⟨fun _ => hres, hicnt fun _ => hres, h⟩
  · intro hp
    have hnow : b = true := by
      cases hfetched with
      | present h => rw [hp] at h; cases h
      | _ => rfl
    subst hnow
    have hu : u.synced = true := hfetched.synced.trans hsync
    have hsome : c.takes.isSome := by rw [hc]; rfl
    constructor
    · intro h
      refine Bool.eq_false_of_not_eq_true fun hres => ?_
      -- there is no look-ahead behind a ResourceFull message
      have hplain : ∀ d m, ¬ s.Branches msg_source d m := by
        rintro d m ⟨-, ⟨n, -, hn⟩, -, hb⟩
        obtain ⟨n', d', m', hn', -, -, hm⟩ := hfetched.next_res hp hres
        rw [hn] at hn'
        cases hn'
        rw [hm] at hres
        simp only [msg_is_res, decide_eq_true_eq] at hres
        simp [repeatable, msg_is_branch, hres] at hb
      have hall : ∀ msg2', trace_fetch_msg msg_source msg2' s = some (.ok true, u) := fun msg2' => (fetch_elsewhere hplain msg2' msg2).trans hf
      let env : Env := ⟨fun _ => Msg.zero, fun _ => false, fun _ => none⟩
      obtain ⟨v, hv, hcalls⟩ := h env
      rw [exec_fetched hsync (hall _) hsome] at hv
      by_cases hne : c = .next_error
      · subst hne
        cases hc
        rw [error_turned_away hu hfetched.filled hkind] at hv
        cases hv
        obtain ⟨hgoes, hstuck⟩ := res_told_apart env msg_source_lawful hs.inv hsync hp hs.booked hall hres fun _ => rfl
        have hrun := hcalls [(env, .try_retire 0)] (by simp)
        obtain ⟨⟨r, t⟩, ht⟩ := Option.isSome_iff_exists.1 hgoes
        rw [play_one ht, play, hstuck] at hrun
        cases hrun
      · rw [turned_away hu hfetched.filled hc hne hkind] at hv
        obtain ⟨x, hx, -⟩ := Option.map_eq_some_iff.1 hv
        have hset := (nothing_available_isSome.1 (by rw [hx]; rfl)).1 hfetched.filled
        rw [hres] at hset
        cases hset
    · intro hres hclear htnts hroom
      have hall : ∀ msg2', trace_fetch_msg msg_source msg2' s = some (.ok true, u) := fun msg2' =>
        (((fetch_tells_iff hs.inv).2 hclear).same msg2' msg2).trans hf
      have hsifive : u.sifive msg_source = s.sifive msg_source := by
        unfold TraceDecoder.sifive
        rw [(hfetched.left msg_source_lawful hs.inv).2.1]
      have hawait : Awaits msg_source s u := ⟨hsync, hp, hall, hres, hsifive, hs.booked, htnts, hroom⟩
      have hcounted : u.consumed_icnt ≤ u.icnt_total ∧ u.consumed_tnts ≤ u.tnt_total := by
        have hown := hawait.with_booked.own
        have htotal := hawait.totals.2
        have hconsumed := hfetched.consumed_tnts
        rw [hawait.with_booked.total hawait.with_settled]
        omega
      have haway : Harmless msg_source c u := by
        rw [harmless_present hu hfetched.filled hc hkind, nothing_available_isSome]
        exact .inr ⟨hawait.with_settled, hcounted.1, .inr hcounted.2⟩
      intro env
      obtain ⟨v, hv, hcalls⟩ := haway env
      refine ⟨v, (exec_fetched hsync (hall _) hsome).trans hv, fun calls hno => ?_⟩
      rw [hcalls calls hno, hawait.play calls hno]

/-- A fetch buffers a message that `next_stop` does not take. -/
def awaits_other (s : TraceDecoder MsgDecoder) : Bool :=
  match trace_fetch_msg msg_source Msg.zero s with
  | some (.ok true, u) => !msg_is_stop u.msg
  | _ => false

theorem awaits_other_fetch {s : TraceDecoder MsgDecoder} (h : awaits_other s = true) :
    ∃ u, trace_fetch_msg msg_source Msg.zero s = some (.ok true, u) ∧ msg_is_stop u.msg = false := by
  unfold awaits_other at h
  split at h
  · rename_i u hu
    exact ⟨u, hu, by simpa using h⟩
  · cases h

/-- `next_stop` at a DirectBranch. -/
theorem out_of_turn_stop : ∃ s u : TraceDecoder MsgDecoder, s.synced = true ∧ s.msg_present = false ∧
    trace_fetch_msg msg_source Msg.zero s = some (.ok true, u) ∧
    (s.msg_present = true → (Harmless msg_source .next_stop s ↔
      Call.next_stop = .next_error ∨ msg_is_res s.msg = false ∧ (s.icnt_left ≠ 0 ∨ s.consumed_tnts ≤ s.tnt_total))) ∧
    (s.msg_present = false → (Harmless msg_source .next_stop s → msg_is_res u.msg = false) ∧
      (msg_is_res u.msg = false → ¬ FetchBlurs s → s.consumed_tnts ≤ s.res_tnts → s.res_tnts + u.msg.own_bits < 2 ^ 32 →
        Harmless msg_source .next_stop s)) := by
  have hrun : (play msg_source [(env_of Msg.zero, .sync_reset)] slicing_start).map (fun r => (r.1, r.2.synced, r.2.msg_present, awaits_other r.2)) =
      some ([.ok (.reset (some ⟨2, 0⟩))], true, false, true) := by decide +kernel
  obtain ⟨s, hplay, hshown⟩ := play_shown (fun s => (s.synced, s.msg_present, awaits_other s)) hrun
  simp only [Prod.mk.injEq] at hshown
  obtain ⟨hsync, hp, hother⟩ := hshown
  obtain ⟨u, hu, hkind⟩ := awaits_other_fetch hother
  have hs : Reachable s := fresh_reachable rfl hplay
  exact ⟨s, u, hsync, hp, hu, out_of_turn hs hsync rfl hu hkind⟩

/-- In front of a ResourceFull message `next_stop` fails an assertion. -/
theorem out_of_turn_fails : ¬ ∀ (s u : TraceDecoder MsgDecoder) (c : Call) (kind : Msg → Bool) (msg2 : Msg) (b : Bool), Reachable s →
    s.synced = true → c.takes = some kind → trace_fetch_msg msg_source msg2 s = some (.ok b, u) → kind u.msg = false →
    Harmless msg_source c s := by
  intro hall
  have hrun : (play msg_source [(env_of Msg.zero, .sync_reset)] undrained_start).map (fun r => (r.1, r.2.synced, awaits_other r.2,
      (exec msg_source (env_of Msg.zero) .next_stop r.2).isSome)) =
      some ([.ok (.reset (some ⟨2, 0⟩))], true, true, false) := by decide +kernel
  obtain ⟨s, hplay, hshown⟩ := play_shown (fun s => (s.synced, awaits_other s,
    (exec msg_source (env_of Msg.zero) .next_stop s).isSome)) hrun
  simp only [Prod.mk.injEq] at hshown
  obtain ⟨hsync, hother, hnone⟩ := hshown
  obtain ⟨u, hu, hkind⟩ := awaits_other_fetch hother
  obtain ⟨v, hv, -⟩ := hall s u .next_stop msg_is_stop Msg.zero true (fresh_reachable rfl hplay) hsync rfl hu hkind (env_of Msg.zero)
  rw [hv] at hnone
  cases hnone

end nexusrv
