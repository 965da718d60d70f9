import NexusRv.Replay
import NexusRv.Tnts
import NexusRv.Recode
/-!
# The function of an event

The header names a function for every event of `try_retire`. What such a function asserts
holds where the event is reported, except for the queue: only TNTs drain it, so that the
element of an I-CNT is still there where a message without TNTs is retired.
-/

namespace nexusrv

/-- The function that the header names for an event. -/
def TraceEvent.call : TraceEvent → Option Call
  | .None => none
  | .Direct | .DirectSync => some .next_tnt
  | .Indirect | .IndirectSync | .Trap => some .next_indirect
  | .Sync => some .next_sync
  | .Stop => some .next_stop
  | .Error => some .next_error

section Ready
variable {σ : Type} (s : TraceDecoder σ)

/-- A TNT can be taken: one of the message, or one of the first element that has history bits. -/
def TraceDecoder.has_tnt : Bool :=
  s.res_tnts = 0 || match unspent s.res_hists with
    | [] => false
    | e :: _ => s.consumed_tnts < msg_hist_bits e.hist && (s.consumed_tnts + 1 < msg_hist_bits e.hist || msg_hist_bits e.hist ≤ s.res_tnts)

/-- The message is an Error, or a TNT is left and can be taken, or none is left and the queue is empty. -/
def TraceDecoder.ready : Bool :=
  msg_is_error s.msg || if s.tnts_left ≠ 0 then s.has_tnt else s.res_hists.isEmpty

end Ready

section Events
variable {σ α : Type} {src : Source σ} {I : σ → Prop} {s t u : TraceDecoder σ}

/-! ## Invariants -/

/-- `res_tnts` counts the history bits of the queue, as far as 32 bits go. -/
structure Tallied (s : TraceDecoder σ) : Prop where
  sum : s.res_tnts = s.queued_bits % 2 ^ 32
  elems : ∀ e ∈ s.res_hists, e.repeat_ ≠ 0 ∧ (e.hist = 0 → e.repeat_ = 1)

theorem Tallied.of_same (hs : Tallied s) (h1 : t.res_tnts = s.res_tnts) (h2 : t.res_hists = s.res_hists) : Tallied t := by
  refine ⟨?_, ?_⟩
  · rw [h1, TraceDecoder.queued_bits, h2]
    exact hs.sum
  · rw [h2]
    exact hs.elems

theorem Tallied.of_empty (h1 : t.res_tnts = 0) (h2 : t.res_hists = []) : Tallied t := by
  refine ⟨?_, ?_⟩
  · rw [h1, TraceDecoder.queued_bits, h2]
    rfl
  · rw [h2]
    exact fun e he => absurd he List.not_mem_nil

/-- What is behind the front of the queue keeps the tally, and the front its repetitions. -/
theorem TookTnt.tallied {b : Bool} (h : TookTnt src s b t) (hs : Tallied s) : Tallied t := by
  have hsum := hs.sum
  rw [TraceDecoder.queued_bits, ← queue_bits_unspent] at hsum
  have hdrained : Tallied (s.drained src) := ⟨hsum, fun e he => hs.elems e (mem_of_unspent he)⟩
  cases h with
  | own => exact hdrained.of_same rfl rfl
  | bit => exact hdrained.of_same rfl rfl
  | last e rest _ hu _ hle =>
    rw [hu, queue_bits_cons] at hsum
    have he := hs.elems e (mem_of_unspent (hu ▸ List.mem_cons_self))
    have hrest : ∀ x ∈ rest, x.repeat_ ≠ 0 ∧ (x.hist = 0 → x.repeat_ = 1) := fun x hx =>
      hs.elems x (mem_of_unspent (hu ▸ List.mem_cons_of_mem _ hx))
    have hbits : e.bits = (e.repeat_ - 1) * msg_hist_bits e.hist + msg_hist_bits e.hist := by
      rw [HistElement.bits, ← Nat.succ_mul, Nat.succ_eq_add_one, Nat.sub_add_cancel (Nat.pos_of_ne_zero he.1)]
    constructor
    · change s.res_tnts - msg_hist_bits e.hist = queue_bits (if e.repeat_ - 1 = 0 then rest else _) % _
      split
      · rename_i h0
        rw [h0, Nat.zero_mul, Nat.zero_add] at hbits
        omega
      · rw [queue_bits_cons]
        change _ = ((e.repeat_ - 1) * msg_hist_bits e.hist + queue_bits rest) % _
        omega
    · change ∀ x ∈ if e.repeat_ - 1 = 0 then rest else _, _
      split
      · exact hrest
      · rename_i h1
        intro x hx
        rcases List.mem_cons.1 hx with rfl | hx
        · exact ⟨h1, fun hz => absurd (he.2 hz) (by omega)⟩
        · exact hrest x hx

/-- Every step keeps the tally, a pull also where the counter wraps. -/
theorem Micro.tallied {c : Call} {o : List Out} (h : Micro src c s o t) (hb : Booked s) (hs : Tallied s) : Tallied t := by
  cases h with
  | fetch hf => exact hs.of_same hf.res_tnts hf.res_hists
  | @pull u msg2 e _ _ _ hf _ hel =>
    have hq : (u.absorbed e).res_hists = s.res_hists ++ [e] := congrArg (· ++ [e]) hf.res_hists
    have hrep := res_element_repeat hel ((hf.booked hb).hist_ne hf.filled)
    constructor
    · change (u.res_tnts + e.bits % 2 ^ 32) % 2 ^ 32 = _
      rw [hf.res_tnts, hs.sum, TraceDecoder.queued_bits, TraceDecoder.queued_bits, hq, queue_bits_append, queue_bits_cons, ← Nat.add_mod]
      rfl
    · intro x hx
      rw [hq, List.mem_append, List.mem_singleton] at hx
      rcases hx with hx | rfl
      · exact hs.elems x hx
      · exact hrep
  | take =>
    obtain ⟨-, -, -, -, h5, -, h7⟩ := take_icnt_frame _ s
    exact hs.of_same h5 h7
  | tnt _ _ _ _ _ htook => exact htook.tallied hs
  | retire => exact hs.of_same (retired_frame s).2.1 (retired_frame s).2.2.1
  | indirect =>
    have ha : Tallied s.addressed := by
      rw [(addressed_frame s).1]
      exact hs.of_same rfl rfl
    exact ha.of_same (retired_frame _).2.1 (retired_frame _).2.2.1
  | stop => exact hs.of_same (retired_frame s).2.1 (retired_frame s).2.2.1
  | error => exact .of_empty (retired_frame (s.emptied src)).2.1 (retired_frame (s.emptied src)).2.2.1
  | resync => exact .of_empty rfl rfl
  | _ => exact hs.of_same rfl rfl

/-- The message decoder clears HREPEAT where it reads a branch with sync. -/
def Source.Clears (src : Source σ) (I : σ → Prop) : Prop :=
  ∀ {d d' : σ} {m m' : Msg} {n : Nat}, I d → src.next (d, m) = some (.ok n, d', m') → n ≠ 0 →
    msg_is_branch m' = true → msg_is_sync m' = true → m'.hrepeat = 0

/-- A buffered branch with sync is not repeated. -/
def TraceDecoder.Lone (s : TraceDecoder σ) : Prop :=
  s.msg_present = true → msg_is_branch s.msg = true → msg_is_sync s.msg = true → s.msg.hrepeat = 0

theorem Fetched.lone (hclears : src.Clears I) {msg2 : Msg} {r : Except NexusError Bool} (h : Fetched src msg2 s r t) (hI : I s.msg_decoder)
    (hs : s.Lone) : t.Lone := by
  intro hp hb hy
  obtain ⟨hsp, rfl⟩ | ⟨-, n, d, m, k, hn, h0, -, hm, hplain⟩ := h.buffered hp
  · exact hs hp hb hy
  · -- a sync is not fetched with a repetition
    have hnot : repeatable m = false := by
      rw [hm] at hy
      rw [repeatable, show msg_is_sync m = true from hy, Bool.not_true, Bool.and_false]
    rw [hplain hnot] at hb hy ⊢
    exact hclears hI hn h0 hb hy

theorem retired_lone : (s.retired src).Lone := by
  intro hp' hb hy
  obtain ⟨-, ⟨-, hm⟩ | ⟨hno, -, time, hm⟩⟩ := retired_msg hp'
  · rw [hm] at hb
    cases hb
  · rw [hm, show msg_is_sync { s.msg with timestamp := time, hrepeat := s.msg.hrepeat - 1 } = msg_is_sync s.msg from rfl, hno] at hy
    cases hy

theorem Micro.lone (hclears : src.Clears I) {c : Call} {o : List Out} (h : Micro src c s o t) (hI : I s.msg_decoder) (hs : s.Lone) : t.Lone := by
  cases h with
  | fetch hf => exact hf.lone hclears hI hs
  | pull => exact fun hp => Bool.noConfusion hp
  | take =>
    obtain ⟨h1, h2, -⟩ := take_icnt_frame _ s
    unfold TraceDecoder.Lone
    rw [h1, h2]
    exact hs
  | tnt _ _ _ _ _ htook =>
    obtain ⟨-, -, h3, h4, -⟩ := htook.frame
    unfold TraceDecoder.Lone
    rw [h3, h4]
    exact hs
  | retire => exact retired_lone
  | indirect => exact retired_lone
  | stop => exact retired_lone (s := s)
  | error => exact retired_lone (s := s.emptied src)
  | drop => exact fun hp => Bool.noConfusion hp
  | resync => exact fun _ hb => Bool.noConfusion hb
  | _ => exact hs

/-! ## At an event -/

/-- What the functions of the events need of the state that `try_retire` leaves. -/
structure Stopped (ev : TraceEvent) (t : TraceDecoder σ) : Prop where
  at_event : AtEvent ev t
  booked : Booked t
  tallied : Tallied t
  lone : t.Lone

/-- With nothing left in front of the message, only the queue is in its way. -/
theorem retirable_iff (hp : t.msg_present = true) (hset : t.settled) (hb : Booked t) (ht : Tallied t) (hl : t.Lone)
    (hicnt : t.consumed_icnt = t.icnt_total) (hle : t.consumed_tnts ≤ t.tnt_total) (h0 : t.tnts_left = 0) : Retirable t ↔ t.res_hists = [] := by
  refine ⟨fun hret => hret.res_hists, fun hq => ?_⟩
  have hres := hset hp
  have htotal := hb.total hset
  have hown := hb.own
  have hone := hb.one
  have hsum := ht.sum
  have hbuf : t.buffered_icnt = t.msg.own_icnt := if_pos hp
  rw [TraceDecoder.queued_bits, hq] at hsum
  have hnone : t.res_tnts = 0 := hsum
  have htnts : t.tnt_total = t.msg.own_bits := by
    have hlt := msg_hist_bits_lt t.msg.hist
    unfold TraceDecoder.tnt_total Msg.own_bits
    rw [hnone, hp, Bool.true_and, Nat.zero_add]
    split
    · exact Nat.mod_eq_of_lt (by omega)
    · rfl
  refine ⟨hp, by simpa [msg_is_res] using hres, by omega, hq, by omega, ?_, hl hp⟩
  have hleft : t.tnt_total - t.consumed_tnts = 0 := h0
  omega

/-- A TNT that is left is taken, or an assertion fails. -/
theorem took_iff (hs : Tallied t) (hne : t.tnts_left ≠ 0) : (∃ b u, TookTnt src t b u) ↔ t.has_tnt = true := by
  have hleft : t.tnt_total - t.consumed_tnts ≠ 0 := hne
  unfold TraceDecoder.has_tnt
  constructor
  · rintro ⟨b, u, h⟩
    cases h with
    | own h0 => simp [h0]
    | bit e rest h0 hu hlt =>
      have hle : t.consumed_tnts < msg_hist_bits e.hist := by omega
      simp [hu, hlt, hle]
    | last e rest h0 hu heq hle =>
      have hlt : t.consumed_tnts < msg_hist_bits e.hist := by omega
      simp [hu, hlt, hle]
  · intro h
    by_cases h0 : t.res_tnts = 0
    · -- the queue has no bit, so the message has one
      unfold TraceDecoder.tnt_total at hleft
      rw [h0, Nat.zero_add] at hleft
      split at hleft
      · rename_i hh
        obtain ⟨hp, hhist⟩ := Bool.and_eq_true_iff.1 hh
        rw [Nat.mod_eq_of_lt (Nat.lt_trans (msg_hist_bits_lt _) (by decide))] at hleft
        exact ⟨_, _, .own h0 hp hhist (by omega)⟩
      · omega
    · rcases hu : unspent t.res_hists with _ | ⟨e, rest⟩
      · simp [h0, hu] at h
      · simp only [h0, hu, decide_false, Bool.false_or, Bool.and_eq_true, Bool.or_eq_true, decide_eq_true_eq] at h
        obtain ⟨hlt, hor⟩ := h
        have hrep := (hs.elems e (mem_of_unspent (hu ▸ List.mem_cons_self))).1
        by_cases hmore : t.consumed_tnts + 1 < msg_hist_bits e.hist
        · exact ⟨_, _, .bit e rest h0 hu hmore⟩
        · exact ⟨_, _, .last e rest h0 hu (by omega) (hor.resolve_left hmore) hrep⟩

/-! ## The functions -/

section Functions
variable {env : Env}

/-- What retires the message fails an assertion, or goes on behind it. -/
theorem retire_bind_iff {f : Unit → Trace σ α} (hf : ∃ a u, f () (t.retired src) = some (.ok a, u)) :
    (∃ a u, (trace_retire_msg src >>= f) t = some (.ok a, u)) ↔ Retirable t := by
  constructor
  · rintro ⟨a, u, h⟩
    obtain ⟨⟨⟩, v, hv, -⟩ := Proc.bind_eq_ok.1 h
    exact (retire_msg_iff.1 hv).1
  · intro hret
    obtain ⟨a, u, hu⟩ := hf
    refine ⟨a, u, ?_⟩
    rw [Proc.bind_ok (retire_msg_iff.2 ⟨hret, rfl, rfl⟩), hu]

/-- A message that is buffered is not pulled: the loop stops at it. -/
theorem pull_until_present {done : Trace σ (Option α)} (hp : t.msg_present = true) (hset : t.settled) (hd : done t = some (.ok none, t))
    (fuel k : Nat) : pull_until src env done (fuel + 2) k true t = some (.ok none, t) := by
  have hpull : trace_pull_msg src env k t = some (.ok false, t) := pull_of (.other false t (.present hp) (hset hp))
  rw [pull_until, Proc.bind_ok hd]
  simp only [Bool.not_true, Bool.false_eq_true, if_false]
  rw [Proc.bind_ok hpull, pull_until, Proc.bind_ok hd]
  rfl

theorem next_tnt_left {ev : TraceEvent} (h : Stopped ev t) (hev : ev ≠ .Error) (hne : t.tnts_left ≠ 0) :
    (∃ b u, trace_next_tnt src env t = some (.ok b, u)) ↔ t.has_tnt = true := by
  have hle := h.at_event.tnts_le (h.at_event.not_error hev)
  have hleft : t.tnt_total - t.consumed_tnts ≠ 0 := hne
  have htook_iff : (∃ b u, TookTnt src t b u) ↔ t.has_tnt = true := took_iff h.tallied hne
  rw [← htook_iff]
  constructor
  · rintro ⟨b, u, hu⟩
    -- the loop ends where it starts
    have hloop : ∀ {r u}, Loop src env (retire_tnt src) 0 true t r u → ∃ b v, TookTnt src t b v := by
      intro r u hl
      have hdone : ∀ {r v}, retire_tnt src t = some (r, v) → ∃ b v, TookTnt src t b v := by
        intro r v hd
        obtain ⟨-, -, ⟨h0, -⟩ | ⟨-, b, -, -, htook⟩⟩ := retire_tnt_cases hd
        · exact absurd h0 hne
        · exact ⟨b, v, htook⟩
      cases hl with
      | found hd => exact hdone hd
      | failed hd => exact hdone hd
      | pull_failed hd => exact hdone hd
      | pull hd => exact hdone hd
    cases next_tnt_cases hu with
    | bit _ _ _ hl => exact hloop hl
    | waiting _ _ hl => exact hloop hl
    | branch _ _ hl => exact hloop hl
  · rintro ⟨b, u, htook⟩
    have hspent : ∀ e ∈ spent t.res_hists, e.repeat_ = 1 := by
      intro e he
      have hhist : e.hist = 0 := by simpa using List.all_eq_true.1 List.all_takeWhile e he
      exact (h.tallied.elems e ((List.takeWhile_sublist _).subset he)).2 hhist
    have hdone : retire_tnt src t = some (.ok (some b), u) := retire_tnt_some h.at_event.settled hle hne hspent htook
    refine ⟨b, u, ?_⟩
    rw [trace_next_tnt, Proc.get_bind_apply, Proc.ite_apply, h.at_event.synced, if_neg (by decide), pull_until, Proc.bind_assoc_apply,
      Proc.bind_ok hdone]
    rfl

/-- What `next_tnt` does where its loop has stopped at a message. -/
theorem next_tnt_stopped (hsync : t.synced = true)
    (hrun : pull_until src env (retire_tnt src) (src.left t.msg_decoder + 2) 0 true t = some (.ok none, u)) (hp : u.msg_present = true)
    (hset : u.settled) (hle : u.consumed_icnt ≤ u.icnt_total) : trace_next_tnt src env t =
      if u.icnt_left ≠ 0 then some (.ok false, u)
      else if msg_is_dir_branch u.msg = true then (trace_retire_msg src >>= fun _ => pure true) u
      else some (.error .trace_mismatch, u) := by
  have hicnt : trace_available_icnt u = some (.ok u.icnt_left, u) := available_icnt_iff.2 ⟨hset, hle, rfl, rfl⟩
  simp only [trace_next_tnt, Proc.get_bind_apply, Proc.ite_apply, hsync, Bool.not_true, Bool.false_eq_true, if_false]
  rw [Proc.bind_ok hrun]
  simp only [Proc.get_bind_apply, Proc.assert_bind_apply, hp, if_true]
  rw [Proc.bind_ok hicnt, Proc.ite_apply]
  split
  · rfl
  · rw [Proc.ite_apply, dir_branch_eq]
    cases !msg_is_branch u.msg || msg_is_indir_branch u.msg <;> rfl

/-- With nothing left, `next_tnt` retires a direct branch. -/
theorem next_tnt_branch (hsync : t.synced = true) (hp : t.msg_present = true) (hset : t.settled) (hex : t.Exhausted)
    (hb : msg_is_dir_branch t.msg = true) : (∃ b u, trace_next_tnt src env t = some (.ok b, u)) ↔ Retirable t := by
  have hdone : retire_tnt src t = some (.ok none, t) := retire_tnt_none hset hex.tnts_le hex.tnts
  rw [next_tnt_stopped hsync (pull_until_present hp hset hdone _ 0) hp hset hex.icnt_le, if_neg (by simp [hex.icnt]), if_pos hb]
  exact retire_bind_iff ⟨_, _, rfl⟩

/-- With nothing left, `next_sync` retires a sync message. -/
theorem next_sync_retires (hsync : t.synced = true) (hp : t.msg_present = true) (hset : t.settled) (hex : t.Exhausted)
    (hk : msg_is_plain_sync t.msg = true) : (∃ y u, trace_next_sync src env t = some (.ok y, u)) ↔ Retirable t := by
  obtain ⟨hy, hb⟩ := Bool.and_eq_true_iff.1 hk
  rw [Bool.not_eq_true'] at hb
  have hnone : (t.retired src).msg_present = false := retired_present hb
  rw [trace_next_sync, Proc.get_bind_apply, hsync]
  simp only [Bool.not_true, Bool.false_eq_true, if_false]
  rw [Proc.bind_ok (fetch_present _ hp), Proc.bind_ok (nothing_left hset hex), Proc.get_bind_apply, hy, hb]
  simp only [Bool.not_true, Bool.or_self, Bool.false_eq_true, if_false]
  apply retire_bind_iff
  rw [Proc.get_bind_apply, hnone]
  exact ⟨_, _, rfl⟩

/-- With nothing left, `next_stop` retires a ProgTraceCorrelation message. -/
theorem next_stop_retires (hsync : t.synced = true) (hp : t.msg_present = true) (hset : t.settled) (hex : t.Exhausted)
    (hk : msg_is_stop t.msg = true) : (∃ y u, trace_next_stop src env t = some (.ok y, u)) ↔ Retirable t := by
  have htc : t.msg.tcode = .ProgTraceCorrelation := by simpa [msg_is_stop] using hk
  have hb : msg_is_branch t.msg = false := by
    unfold msg_is_branch
    rw [htc]
  have hnone : (t.retired src).msg_present = false := retired_present hb
  rw [trace_next_stop, Proc.get_bind_apply, hsync]
  simp only [Bool.not_true, Bool.false_eq_true, if_false]
  rw [Proc.bind_ok (fetch_present _ hp), Proc.bind_ok (nothing_left hset hex), Proc.get_bind_apply, Proc.ite_apply, if_neg (by simp [htc])]
  apply retire_bind_iff
  rw [Proc.get_bind_apply, hnone]
  exact ⟨_, _, rfl⟩

/-- `next_error` drops what is left, and retires the Error message. -/
theorem next_error_retires (hsync : t.synced = true) (hp : t.msg_present = true) (hk : t.msg.tcode = .Error) :
    ∃ e u, trace_next_error src env t = some (.ok e, u) := by
  have hb : msg_is_branch t.msg = false := by
    unfold msg_is_branch
    rw [hk]
  have hown : t.msg.own_icnt = 0 ∧ t.msg.own_bits = 0 := by simp [Msg.own_icnt, Msg.own_bits, msg_has_icnt, msg_has_hist, hk]
  have hret : Retirable (t.emptied src) :=
    ⟨hp, by change t.msg.tcode ≠ _; simp [hk], rfl, rfl, hown.1.symm, hown.2.symm, fun h => by rw [show msg_is_branch t.msg = true from h] at hb; cases hb⟩
  have hnone : ((t.emptied src).retired src).msg_present = false := retired_present hb
  have hdrain := @drain_all_eq _ src t.res_hists { t with res_icnt := 0, res_tnts := 0, consumed_icnt := 0, consumed_tnts := 0 } rfl
  rw [trace_next_error, Proc.get_bind_apply, hsync]
  simp only [Bool.not_true, Bool.false_eq_true, if_false]
  rw [Proc.bind_ok (fetch_present _ hp), Proc.get_bind_apply, Proc.ite_apply, if_neg (by simp [hk]), Proc.modify_bind_apply, Proc.bind_ok hdrain]
  refine (retire_bind_iff (t := t.emptied src) ?_).2 hret
  rw [Proc.get_bind_apply, hnone]
  exact ⟨_, _, rfl⟩

/-- `next_indirect` at an indirect branch with nothing left. -/
theorem next_indirect_retires (hat : AtIndirect t) (hahead : LooksAhead src env t) :
    (∃ i u, trace_next_indirect src env t = some (.ok i, u)) ↔ Retirable t := by
  constructor
  · rintro ⟨i, u, h⟩
    exact (hat.needs h).1
  · intro hret
    obtain ⟨i, u, h, -⟩ := hat.next hret hahead
    exact ⟨i, u, h⟩

end Functions

/-- The function that the event of a message names is the one of its kind. -/
theorem msg_event_kind {m : Msg} {c : Call} (hc : (msg_event m).call = some c) :
    c = .next_tnt ∧ msg_is_dir_branch m = true ∨ c = .next_indirect ∧ msg_is_indir_branch m = true ∨
      c = .next_sync ∧ msg_is_plain_sync m = true ∨ c = .next_stop ∧ msg_is_stop m = true := by
  unfold msg_event at hc
  unfold msg_is_dir_branch msg_is_plain_sync
  split at hc
  · rename_i hb
    rw [hb]
    split at hc
    · rename_i hi
      refine .inr (.inl ⟨?_, hi⟩)
      split at hc
      · cases hc
        rfl
      · split at hc <;> cases hc <;> rfl
    · rename_i hi
      refine .inl ⟨?_, by simpa using hi⟩
      split at hc <;> cases hc <;> rfl
  · rename_i hb
    split at hc
    · cases hc
      exact .inr (.inr (.inl ⟨rfl, by simpa [hb]⟩))
    · split at hc
      · cases hc
        exact .inr (.inr (.inr ⟨rfl, ‹_›⟩))
      · cases hc

theorem msg_event_ne_error (m : Msg) : msg_event m ≠ .Error := by
  unfold msg_event
  split
  · split
    · split
      · simp
      · split <;> simp
    · split <;> simp
  · split
    · simp
    · split <;> simp

/-- What a call returns is what its function returns. -/
theorem exec_ok_iff {f : α → Result} {x : Trace σ α} : (∃ a u, (f <$> x) t = some (.ok a, u)) ↔ ∃ a u, x t = some (.ok a, u) := by
  constructor
  · rintro ⟨a, u, h⟩
    obtain ⟨r, hr, he⟩ := Proc.map_eq_some.1 h
    rcases r with e | a' <;> cases he
    exact ⟨a', u, hr⟩
  · rintro ⟨a, u, h⟩
    exact ⟨f a, u, Proc.map_eq_some.2 ⟨.ok a, h, rfl⟩⟩

/-- The function of the event succeeds where the state is ready for it. -/
theorem Stopped.call_iff {ev : TraceEvent} (h : Stopped ev t) {c : Call} (hc : ev.call = some c) {env : Env} (hahead : LooksAhead src env t) :
    (∃ a u, exec src env c t = some (.ok a, u)) ↔ t.ready = true := by
  have hat := h.at_event
  have hevent := hat.event
  by_cases herr : msg_is_error t.msg = true
  · rw [TraceDecoder.event, if_pos herr] at hevent
    rw [← hevent] at hc
    cases hc
    have htc : t.msg.tcode = .Error := by simpa [msg_is_error] using herr
    have hready : t.ready = true := by simp [TraceDecoder.ready, herr]
    simp only [hready, iff_true]
    exact exec_ok_iff.2 (next_error_retires hat.synced hat.present htc)
  have hev : ev ≠ .Error := by
    rw [← hevent, TraceDecoder.event, if_neg herr]
    split
    · simp
    · exact msg_event_ne_error _
  by_cases hleft : t.tnts_left ≠ 0
  · rw [TraceDecoder.event, if_neg herr, if_pos hleft] at hevent
    rw [← hevent] at hc
    cases hc
    have hready : t.ready = t.has_tnt := by simp [TraceDecoder.ready, herr, hleft]
    rw [hready]
    exact exec_ok_iff.trans (next_tnt_left h hev hleft)
  · rw [TraceDecoder.event, if_neg herr, if_neg hleft] at hevent
    have h0 : t.tnts_left = 0 := Decidable.of_not_not hleft
    have hex := hat.exhausted hev h0
    have hready : t.ready = true ↔ Retirable t := by
      rw [retirable_iff hat.present hat.settled h.booked h.tallied h.lone hat.icnt hex.tnts_le h0]
      simp [TraceDecoder.ready, herr, h0]
    rw [hready]
    rw [← hevent] at hc
    obtain ⟨rfl, hk⟩ | ⟨rfl, hk⟩ | ⟨rfl, hk⟩ | ⟨rfl, hk⟩ := msg_event_kind hc
    · exact exec_ok_iff.trans (next_tnt_branch hat.synced hat.present hat.settled hex hk)
    · exact exec_ok_iff.trans (next_indirect_retires ⟨hat.synced, hat.present, hat.settled, hex, hk⟩ hahead)
    · exact exec_ok_iff.trans (next_sync_retires hat.synced hat.present hat.settled hex hk)
    · exact exec_ok_iff.trans (next_stop_retires hat.synced hat.present hat.settled hex hk)

end Events

/-! ## Reachable states -/

theorem msg_source_clears : msg_source.Clears DecoderInv := by
  intro d d' m m' n hI hn h0 hb hy
  have htotal := msg_decoder_next_total hI m
  rw [show msg_decoder_next (d, m) = some (.ok n, d', m') from hn] at htotal
  generalize hx : (some (.ok n, d', m') : Option (Except NexusError Nat × MsgDecoder × Msg)) = x at htotal
  cases htotal with
  | message n₁ d₁ m₁ m₂ _ _ _ _ _ hd =>
    cases hx
    have hrec : recodable m' = true := by
      unfold msg_is_branch at hb
      cases ht : m'.tcode <;> simp [ht] at hb <;> simp [recodable, encodable, msg_known, ht]
    obtain ⟨-, -, -, hwiped⟩ := decoded_fits hd hrec
    unfold Msg.Wiped at hwiped
    unfold msg_is_branch at hb
    cases ht : m'.tcode <;> simp [ht] at hb hwiped <;> exact hwiped
  | eof => cases hx; exact absurd rfl h0
  | failed => cases hx

theorem Reachable.tallied {s : TraceDecoder MsgDecoder} (h : Reachable s) : Tallied s ∧ s.Lone := by
  obtain ⟨hwcfg, fd, filter, buffer, env, s₀, calls, rs, hinit, hplay⟩ := h
  have hkeep := play_micros_keep (P := fun s => (DecoderInv s.msg_decoder ∧ Booked s) ∧ Tallied s ∧ s.Lone)
    (fun _ _ _ _ hm hs => ⟨⟨(hm.lawful msg_source_lawful hs.1.1).1, hm.booked hs.1.2⟩, hm.tallied hs.1.2 hs.2.1,
      hm.lone msg_source_clears hs.1.1 hs.2.2⟩) hplay
  have hbooked := init_booked hinit
  obtain ⟨stack, rfl⟩ := trace_decoder_init_eq hinit
  exact (hkeep ⟨⟨init_inv hwcfg fd filter rfl, hbooked⟩, .of_empty rfl rfl, fun h => Bool.noConfusion h⟩).2

/-- Where `try_retire` has reported an event, and the message behind decodes without an error, the function of the event
succeeds if and only if the state is ready for it. -/
theorem event_call_iff {s t : TraceDecoder MsgDecoder} {env env' : Env} {icnt n : Nat} {ev : TraceEvent} {c : Call} (hs : Reachable s)
    (h : trace_try_retire msg_source env icnt s = some (.ok (n, ev), t)) (hc : ev.call = some c)
    (hahead : ∀ e p, msg_source.next (t.msg_decoder, env'.msg2 1) ≠ some (.error e, p)) :
    (∃ a u, exec msg_source env' c t = some (.ok a, u)) ↔ t.ready = true := by
  have hev : ev ≠ .None := by
    rintro rfl
    cases hc
  have hexec : exec msg_source env (.try_retire icnt) s = some (.ok (.retired n ev), t) := Proc.map_eq_some.2 ⟨_, h, rfl⟩
  have ht : Reachable t := hs.play (play_one hexec)
  obtain ⟨htallied, hlone⟩ := ht.tallied
  have hstopped : Stopped ev t := ⟨try_retire_event hev h, ht.booked, htallied, hlone⟩
  refine hstopped.call_iff hc ?_
  -- the message decoder fails no assertion
  rcases hn : msg_source.next (t.msg_decoder, env'.msg2 1) with _ | ⟨e | k, d, m⟩
  · exact absurd hn (msg_source_lawful.returns _ ht.inv)
  · exact absurd hn (hahead e _)
  · obtain ⟨d', hd', -⟩ := msg_source_lawful.rewind ht.inv hn
    exact ⟨k, d, m, hn, fun _ => by rw [hd']; rfl⟩

/-- The message behind `t` decodes without an error, or there is none. -/
def decodes_ahead (env : Env) (t : TraceDecoder MsgDecoder) : Bool :=
  match msg_source.next (t.msg_decoder, env.msg2 1) with
  | some (.error _, _) => false
  | _ => true

theorem decodes_ahead_next {env : Env} {t : TraceDecoder MsgDecoder} (h : decodes_ahead env t = true) (e : NexusError)
    (p : MsgDecoder × Msg) : msg_source.next (t.msg_decoder, env.msg2 1) ≠ some (.error e, p) := by
  intro hn
  rw [decodes_ahead, hn] at h
  cases h

/-- A ResourceFull message of three instructions between a sync and a DirectBranch. -/
def undrained_start : TraceDecoder MsgDecoder := fresh_decoder plain_cfg [0x24, 0x01, 0x07, 0x6c, 0xc3, 0x0c, 0x17]

theorem event_call_iff_eight : ∃ s t : TraceDecoder MsgDecoder,
    trace_try_retire msg_source (env_of Msg.zero) 8 s = some (.ok (8, .Direct), t) ∧
      ((∃ a u, exec msg_source (env_of Msg.zero) .next_tnt t = some (.ok a, u)) ↔ t.ready = true) := by
  have hrun : ((play msg_source [(env_of Msg.zero, .sync_reset)] undrained_start).bind fun p =>
      (play msg_source [(env_of Msg.zero, .try_retire 8)] p.2).map fun q => (p.1, (), q.1, decodes_ahead (env_of Msg.zero) q.2)) =
      some ([.ok (.reset (some ⟨2, 0⟩))], (), [.ok (.retired 8 .Direct)], true) := by decide +kernel
  obtain ⟨s, t, hs, h, -, hahead⟩ := exec_shown (fun _ => ()) (decodes_ahead (env_of Msg.zero)) hrun
  have hretire : trace_try_retire msg_source (env_of Msg.zero) 8 s = some (.ok (8, .Direct), t) := try_retire_of_exec h
  exact ⟨s, t, hretire, event_call_iff (fresh_reachable rfl hs) hretire rfl (decodes_ahead_next hahead)⟩

/-- The branch is reported, and `next_tnt` fails an assertion. -/
theorem event_call_fails : ¬ ∀ (s t : TraceDecoder MsgDecoder) (env env' : Env) (icnt n : Nat) (ev : TraceEvent) (c : Call), Reachable s →
    trace_try_retire msg_source env icnt s = some (.ok (n, ev), t) → ev.call = some c →
    (∀ e p, msg_source.next (t.msg_decoder, env'.msg2 1) ≠ some (.error e, p)) → ∃ a u, exec msg_source env' c t = some (.ok a, u) := by
  intro hall
  have hrun : ((play msg_source [(env_of Msg.zero, .sync_reset)] undrained_start).bind fun p =>
      (play msg_source [(env_of Msg.zero, .try_retire 8)] p.2).map fun q => (p.1, (), q.1, (decodes_ahead (env_of Msg.zero) q.2,
        (exec msg_source (env_of Msg.zero) .next_tnt q.2).isNone))) =
      some ([.ok (.reset (some ⟨2, 0⟩))], (), [.ok (.retired 8 .Direct)], (true, true)) := by decide +kernel
  obtain ⟨s, t, hs, h, -, hshown⟩ := exec_shown (fun _ => ())
    (fun t => (decodes_ahead (env_of Msg.zero) t, (exec msg_source (env_of Msg.zero) .next_tnt t).isNone)) hrun
  rw [Prod.mk.injEq] at hshown
  obtain ⟨a, u, hok⟩ := hall s t _ (env_of Msg.zero) 8 8 .Direct .next_tnt (fresh_reachable rfl hs) (try_retire_of_exec h) rfl
    (decodes_ahead_next hshown.1)
  rw [hok] at hshown
  exact absurd hshown.2 (by simp)

end nexusrv
