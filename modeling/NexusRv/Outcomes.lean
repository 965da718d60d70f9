import NexusRv.Events
import NexusRv.Pulls
import NexusRv.Timestamps
/-!
# Branch outcomes without HIST

Without history bits, `next_tnt` tells a branch that was taken by the message that ends
at it: a direct branch, with no instruction left in front of it. Any other message there
says that the branch was not taken; the code calls it a mismatch.
-/

namespace nexusrv

/-- A message that carries history bits: a HIST, or what SiFive counts instead. -/
def carries_hist (sifive : Bool) (m : Msg) : Bool := msg_has_hist m || (sifive && msg_is_res m && (m.res_code = 8 || m.res_code = 9))

section Tells
variable {σ : Type} (src : Source σ)

/-- A branch was taken: no instruction is left, and the message is a direct branch. -/
def TraceDecoder.taken_branch (u : TraceDecoder σ) : Bool := u.icnt_left = 0 && msg_is_dir_branch u.msg

/-- `next_tnt` tells a taken branch from one that was not taken, and in front of the latter it consumes no instruction, and
no message but ResourceFull ones. -/
def TellsBranch (env : Env) (t u : TraceDecoder σ) : Prop :=
  ∃ v, trace_next_tnt src env t = some (.ok u.taken_branch, v) ∧ (u.taken_branch = false → v = u)

end Tells

/-! ## Without history bits -/

section Untold
variable {σ : Type} {src : Source σ} {I : σ → Prop} {sifive : Bool}

/-- No history bit is queued or consumed, and the buffered message has none. -/
structure Untold (s : TraceDecoder σ) : Prop where
  res_tnts : s.res_tnts = 0
  consumed : s.consumed_tnts = 0
  elems : ∀ e ∈ s.res_hists, e.hist = 0
  own : s.msg_present = true → msg_has_hist s.msg = false

theorem Untold.total {s : TraceDecoder σ} (h : Untold s) : s.tnt_total = 0 := by
  unfold TraceDecoder.tnt_total
  split
  · rename_i hh
    obtain ⟨hp, hhist⟩ := Bool.and_eq_true_iff.1 hh
    rw [h.own hp] at hhist
    cases hhist
  · exact h.res_tnts

theorem Untold.none_left {s : TraceDecoder σ} (h : Untold s) : s.tnts_left = 0 := by
  rw [TraceDecoder.tnts_left, h.total, Nat.zero_sub]

theorem Untold.of_same {s t : TraceDecoder σ} (h : Untold s) (h1 : t.res_tnts = s.res_tnts) (h2 : t.consumed_tnts = s.consumed_tnts)
    (h3 : t.res_hists = s.res_hists) (h4 : t.msg_present = true → msg_has_hist t.msg = false) : Untold t :=
  ⟨h1.trans h.res_tnts, h2.trans h.consumed, h3 ▸ h.elems, h4⟩

theorem retired_untold {s : TraceDecoder σ} (h : Untold s) (hp : s.msg_present = true) : Untold (s.retired src) := by
  obtain ⟨-, h2, h3, -, h5, -⟩ := @retired_frame _ src s
  refine h.of_same h2 (h5.trans h.consumed.symm) h3 fun hp' => ?_
  obtain ⟨-, ⟨-, hm⟩ | ⟨-, -, time, hm⟩⟩ := retired_msg hp'
  · rw [hm]
    rfl
  · rw [hm]
    exact h.own hp

/-- The element of a message without history bits has none. -/
theorem element_untold {m : Msg} {e : HistElement} (h : res_element sifive m = some e) (hres : msg_is_res m = true)
    (hm : carries_hist sifive m = false) : e.hist = 0 := by
  simp only [carries_hist, hres, Bool.and_true, Bool.or_eq_false_iff] at hm
  obtain ⟨hh, hq⟩ := hm
  unfold res_element at h
  split at h
  · cases h
    rfl
  rw [hh, if_neg Bool.false_ne_true] at h
  split at h
  · rename_i h8
    simp at h8
    simp [h8] at hq
  split at h
  · rename_i h9
    simp at h9
    simp [h9] at hq
  · cases h

section Steps
variable {s t : TraceDecoder (σ × List Input)}

theorem Fetched.untold {msg2 : Msg} {r : Except NexusError Bool} (h : Fetched (recorded src) msg2 s r t) (hs : Untold s)
    (hm : ∀ m ∈ taken t.log, carries_hist sifive m = false) : Untold t := by
  have hno : ∀ {m : Msg}, m ∈ taken t.log → msg_has_hist m = false := fun hmem => by
    have := hm _ hmem
    rw [carries_hist, Bool.or_eq_false_iff] at this
    exact this.1
  refine hs.of_same h.res_tnts h.consumed_tnts h.res_hists ?_
  cases h.reads with
  | present => exact hs.own
  | nothing i _ htp => exact fun hp => Bool.noConfusion (htp.symm.trans hp)
  | plain m _ _ _ _ htm hl =>
    intro _
    rw [htm]
    exact hno (mem_taken.2 (by rw [hl]; exact List.mem_cons_self))
  | branch m g k _ _ _ _ _ htm hl =>
    intro _
    rw [htm]
    exact hno (m := m) (mem_taken.2 (by rw [hl]; exact List.mem_append_right _ List.mem_cons_self))

/-- Every step leaves the state without history bits, if no message brings some. -/
theorem Micro.untold {c : Call} {o : List Out} (h : Micro (recorded src) c s o t) (hlaw : src.Lawful I) (hI : I s.msg_decoder.1)
    (hq : s.sifive (recorded src) = sifive) (hm : ∀ m ∈ taken t.log, carries_hist sifive m = false) (hs : Untold s) : Untold t := by
  cases h with
  | fetch hf => exact hf.untold hs hm
  | @pull u msg2 e _ _ hp hf hres hel =>
    have hu : Untold u := hf.untold hs hm
    have hlog : u.log = .took u.msg :: s.log := hf.reads.res hp hf.filled hres
    have hsame : u.sifive (recorded src) = sifive := (congrArg HwCfg.quirk_sifive (hf.left (recorded_lawful hlaw) hI).2.1).trans hq
    have hmem : u.msg ∈ taken u.log := mem_taken.2 (by rw [hlog]; exact List.mem_cons_self)
    have hzero : e.hist = 0 := element_untold (hsame ▸ hel) hres (hm _ hmem)
    refine ⟨?_, hu.consumed, fun x hx => ?_, fun h => Bool.noConfusion h⟩
    · change (u.res_tnts + e.bits % 2 ^ 32) % 2 ^ 32 = 0
      rw [hu.res_tnts, hist_zero_bits hzero]
      rfl
    · rcases List.mem_append.1 hx with hx | hx
      · exact hu.elems x hx
      · cases List.mem_singleton.1 hx
        exact hzero
  | take =>
    obtain ⟨h1, h2, -, -, h5, h6, h7⟩ := take_icnt_frame _ s
    exact hs.of_same h5 h6 h7 (by rw [h1, h2]; exact hs.own)
  | tnt _ _ _ hne => exact absurd hs.none_left hne
  | retire _ _ _ hret => exact retired_untold hs hret.present
  | indirect _ _ _ hret =>
    have ha : Untold s.addressed := by
      obtain ⟨h1, h2⟩ := addressed_frame s
      rw [h1, h2]
      exact hs.of_same rfl rfl rfl hs.own
    exact retired_untold ha (addressed_retirable.2 hret).present
  | stop _ _ _ _ hret => exact (retired_untold hs hret.present).of_same rfl rfl rfl (retired_untold hs hret.present).own
  | error _ _ hp =>
    have he : Untold (s.emptied (recorded src)) := ⟨rfl, rfl, fun _ h => absurd h List.not_mem_nil, hs.own⟩
    exact (retired_untold he hp).of_same rfl rfl rfl (retired_untold he hp).own
  | drop => exact hs.of_same rfl rfl rfl fun h => Bool.noConfusion h
  | resync => exact ⟨rfl, rfl, fun _ h => absurd h List.not_mem_nil, fun _ => rfl⟩
  | _ => exact hs.of_same rfl rfl rfl hs.own

end Steps

/-! ## Coming to a message -/

/-- What a run keeps, where the messages that it has taken carry no history bits. -/
structure Btm (src : Source σ) (I : σ → Prop) (sifive : Bool) (s : TraceDecoder (σ × List Input)) : Prop where
  inv : I s.msg_decoder.1
  quirk : s.sifive (recorded src) = sifive
  booked : Booked s
  tallied : Tallied s
  lone : s.Lone
  untold : (∀ m ∈ taken s.log, carries_hist sifive m = false) → Untold s

theorem recorded_clears (h : src.Clears I) : (recorded src).Clears fun d => I d.1 := fun hI hn => h hI (recorded_next.1 hn).1

section Runs
variable {s t u : TraceDecoder (σ × List Input)} (hlaw : src.Lawful I) (hclears : src.Clears I)
include hlaw hclears

theorem Micro.btm {c : Call} {o : List Out} (h : Micro (recorded src) c s o t) (hs : Btm src I sifive s) : Btm src I sifive t := by
  obtain ⟨hI, hcfg⟩ := h.lawful (recorded_lawful hlaw) hs.inv
  refine ⟨hI, (congrArg HwCfg.quirk_sifive hcfg).trans hs.quirk, h.booked hs.booked, h.tallied hs.booked hs.tallied,
    h.lone (recorded_clears hclears) hs.inv hs.lone, fun hm => ?_⟩
  -- what was taken before is taken still
  have hbefore : ∀ m ∈ taken s.log, carries_hist sifive m = false := fun m hmem =>
    hm m (mem_taken.2 (h.log_suffix.subset (mem_taken.1 hmem)))
  exact h.untold hlaw hs.inv hs.quirk hm (hs.untold hbefore)

theorem Micros.btm {c : Call} {o : List Out} (h : Micros (recorded src) c s o t) (hs : Btm src I sifive s) : Btm src I sifive t :=
  h.keeps (fun _ _ _ h => h.btm hlaw hclears) hs

end Runs

section Outcome
variable {s t u : TraceDecoder (σ × List Input)} {env : Env} (hlaw : src.Lawful I) (hclears : src.Clears I)
include hlaw hclears

/-- The loop of `next_tnt` pulls all of them, and stops at the message. -/
theorem Comes.loop {k : Nat} (h : Comes (recorded src) env k t u) : t.settled → t.synced = true → Btm src I sifive t →
    (∀ m ∈ taken u.log, carries_hist sifive m = false) → Loop (recorded src) env (retire_tnt (recorded src)) k true t (.ok none) u := by
  -- there is no TNT
  have hnone : ∀ {v : TraceDecoder (σ × List Input)}, v.settled → Btm src I sifive v → Micros (recorded src) .next_tnt v [] u →
      (∀ m ∈ taken u.log, carries_hist sifive m = false) → retire_tnt (recorded src) v = some (.ok none, v) := by
    intro v hset hv hrun hm
    have huntold : Untold v := hv.untold fun m hmem => hm m (mem_taken.2 (hrun.log_suffix.subset (mem_taken.1 hmem)))
    exact retire_tnt_none hset (by rw [huntold.consumed]; exact Nat.zero_le _) huntold.none_left
  induction h with
  | here h =>
    intro hset hsync hb hm
    have hp := pull_cases h
    have hrun := hp.micros (c := .next_tnt) hsync hset rfl
    exact .pull (hnone hset hb hrun hm) h (.stop (hnone hp.settled.1 (hrun.btm hlaw hclears hb) .refl hm))
  | later h hrest ih =>
    intro hset hsync hb hm
    have hp := pull_cases h
    have hrun := hp.micros (c := .next_tnt) hsync hset rfl
    have hbv := hrun.btm hlaw hclears hb
    have hrest := (hrest.spec hp.settled.1 (hp.synced.trans hsync) hbv.booked).1
    exact .pull (hnone hset hb (hrun.trans hrest) hm) h (ih hnone hp.settled.1 (hp.synced.trans hsync) hbv hm)

/-- `next_tnt` tells the branch where instructions are left in front of the message, or it is a direct branch and the queue is empty. -/
theorem tells_iff (h : Comes (recorded src) env 0 t u) (hset : t.settled) (hsync : t.synced = true) (ht : Btm src I sifive t)
    (hm : ∀ m ∈ taken u.log, carries_hist sifive m = false) :
    TellsBranch (recorded src) env t u ↔ u.icnt_left ≠ 0 ∨ msg_is_dir_branch u.msg = true ∧ u.res_hists = [] := by
  obtain ⟨hrun, husett, hup, husync, -, -⟩ := h.spec hset hsync ht.booked
  have hu := hrun.btm hlaw hclears ht
  have huntold := hu.untold hm
  have hle : u.consumed_icnt ≤ u.icnt_total := by
    have hown := hu.booked.own
    rw [hu.booked.total husett]
    omega
  have hloop := (h.loop hlaw hclears hset hsync ht hm).run (recorded_lawful hlaw) asks_tnt ht.inv _ (Nat.le_refl _)
  have hnext := next_tnt_stopped hsync hloop hup husett hle
  unfold TellsBranch TraceDecoder.taken_branch
  rw [hnext]
  by_cases hi : u.icnt_left ≠ 0
  · rw [if_pos hi]
    simp [hi]
  · have h0 : u.icnt_left = 0 := Decidable.of_not_not hi
    have hicnt : u.consumed_icnt = u.icnt_total := by
      rw [TraceDecoder.icnt_left] at h0
      omega
    rw [if_neg hi]
    cases hk : msg_is_dir_branch u.msg with
    | false =>
      rw [if_neg Bool.false_ne_true]
      simp [h0]
    | true =>
      have hret : Retirable u ↔ u.res_hists = [] := retirable_iff hup husett hu.booked hu.tallied hu.lone hicnt
        (by rw [huntold.consumed]; exact Nat.zero_le _) huntold.none_left
      rw [if_pos rfl, ← hret]
      have hbind : (∃ a v, (trace_retire_msg (recorded src) >>= fun _ => pure true) u = some (.ok a, v)) ↔ Retirable u := retire_bind_iff ⟨_, _, rfl⟩
      simp only [h0, decide_true, Bool.and_self, ne_eq, not_true, false_or, true_and, Bool.true_eq_false, false_implies, and_true]
      rw [← hbind]
      constructor
      · rintro ⟨v, hv⟩
        exact ⟨true, v, hv⟩
      · rintro ⟨a, v, hv⟩
        obtain ⟨⟨⟩, w, -, hpure⟩ := Proc.bind_eq_ok.1 hv
        cases hpure
        exact ⟨v, hv⟩

end Outcome

end Untold

/-! ## Runs -/

theorem Initial.btm {s : TraceDecoder MsgDecoder} (h : Initial s) : Btm msg_source DecoderInv (s.sifive msg_source) s.start := by
  have hinv : DecoderInv s.msg_decoder := h.reachable.inv
  have hbooked : Booked s.start := h.reachable.booked.start
  obtain ⟨hwcfg, fd, filter, buffer, env, hinit⟩ := h
  obtain ⟨stack, rfl⟩ := trace_decoder_init_eq hinit
  exact ⟨hinv, rfl, hbooked, .of_empty rfl rfl, fun hp => Bool.noConfusion hp,
    fun _ => ⟨rfl, rfl, fun _ he => absurd he List.not_mem_nil, fun hp => Bool.noConfusion hp⟩⟩

/-- In a run over messages without history bits, where a block has been retired and a message comes behind it, `next_tnt` tells
the branch if and only if instructions are left in front of the message, or it is a direct branch and the queue is empty. -/
theorem next_tnt_tells_iff {s₀ : TraceDecoder MsgDecoder} (hinit : Initial s₀) {calls : List (Env × Call)} {rs : List (Except NexusError Result)}
    {s t u : TraceDecoder (MsgDecoder × List Input)} (hplay : play (recorded msg_source) calls s₀.start = some (rs, s)) {env env' : Env}
    {n : Nat} {ev : TraceEvent} (h : trace_try_retire (recorded msg_source) env n s = some (.ok (n, ev), t))
    (hcomes : Comes (recorded msg_source) env' 0 t u) (hm : ∀ m ∈ taken u.log, carries_hist (s₀.sifive msg_source) m = false) :
    TellsBranch (recorded msg_source) env' t u ↔ t.icnt_left ≠ 0 ∨ msg_is_dir_branch t.msg = true ∧ t.res_hists = [] := by
  have hs : Btm msg_source DecoderInv (s₀.sifive msg_source) s :=
    play_micros_keep (fun _ _ _ _ h => h.btm msg_source_lawful msg_source_clears) hplay hinit.btm
  obtain ⟨os, hrun, -⟩ := exec_micros (show exec (recorded msg_source) env (.try_retire n) s = some (.ok (.retired n ev), t) from
    Proc.map_eq_some.2 ⟨_, h, rfl⟩)
  have ht := hrun.btm msg_source_lawful msg_source_clears hs
  obtain hat | ⟨-, v, hv, hsync, hset, hlt, hp, rfl⟩ := try_retire_stops h
  · -- the message is buffered already
    have hsame : u = t := (hcomes.spec hat.settled hat.synced ht.booked).2.2.2.2.2 hat.present
    rw [tells_iff msg_source_lawful msg_source_clears hcomes hat.settled hat.synced ht hm, hsame]
  · have hsl : Sliced n v := ⟨hv.keeps (fun _ _ _ => Micro.booked) hs.booked, hsync, hset, Nat.le_of_lt hlt, hp⟩
    have hleft : (v.take_icnt n).icnt_left ≠ 0 := by
      rw [hsl.left]
      omega
    have hsync' : (v.take_icnt n).synced = true := (take_icnt_frame n v).2.2.2.1.trans hsync
    have hle := (hcomes.spec (take_settled hset) hsync' ht.booked).2.2.2.2.1
    rw [tells_iff msg_source_lawful msg_source_clears hcomes (take_settled hset) hsync' ht hm]
    exact iff_of_true (.inl (by omega)) (.inl hleft)

/-- What is shown of the state behind the block. -/
def shown_block (sifive : Bool) (t : TraceDecoder (MsgDecoder × List Input)) : Bool :=
  t.msg_present && !msg_is_res t.msg && !msg_is_error t.msg && (taken t.log).all fun m => !carries_hist sifive m

theorem shown_comes {t : TraceDecoder (MsgDecoder × List Input)} {sifive : Bool} (h : shown_block sifive t = true) (env : Env) :
    Comes (recorded msg_source) env 0 t t ∧ (∀ m ∈ taken t.log, carries_hist sifive m = false) ∧ msg_is_error t.msg = false := by
  simp only [shown_block, Bool.and_eq_true, Bool.not_eq_true', List.all_eq_true] at h
  obtain ⟨⟨⟨hp, hres⟩, herr⟩, hm⟩ := h
  exact ⟨.here (pull_of (.other false t (.present hp) hres)), hm, herr⟩

/-- A DirectBranch ends at the block. -/
theorem next_tnt_tells_iff_five : ∃ t : TraceDecoder (MsgDecoder × List Input),
    TellsBranch (recorded msg_source) (env_of Msg.zero) t t ↔ t.icnt_left ≠ 0 ∨ msg_is_dir_branch t.msg = true ∧ t.res_hists = [] := by
  have hrun : ((play (recorded msg_source) [(env_of Msg.zero, .sync_reset)] slicing_start.start).bind fun p =>
      (play (recorded msg_source) [(env_of Msg.zero, .try_retire 5)] p.2).map fun q => (p.1, (), q.1, shown_block false q.2)) =
      some ([.ok (.reset (some ⟨2, 0⟩))], (), [.ok (.retired 5 .Direct)], true) := by decide +kernel
  obtain ⟨s, t, hs, h, -, hshown⟩ := exec_shown (fun _ => ()) (shown_block false) hrun
  obtain ⟨hcomes, hm, -⟩ := shown_comes hshown (env_of Msg.zero)
  exact ⟨t, next_tnt_tells_iff (fresh_initial rfl _) hs (try_retire_of_exec h) hcomes hm⟩

/-- An IndirectBranch of an exception, five instructions behind a sync. -/
def trap_start : TraceDecoder MsgDecoder := fresh_decoder plain_cfg [0x24, 0x01, 0x07, 0x10, 0x55, 0x0f]

/-- `next_tnt` returns, and no error. -/
def next_tnt_returns (t : TraceDecoder (MsgDecoder × List Input)) : Bool :=
  (trace_next_tnt (recorded msg_source) (env_of Msg.zero) t).any fun r => r.1.isOk

/-- An exception at the count of a branch that was not taken. -/
theorem trap_not_told : ¬ ∀ (s₀ : TraceDecoder MsgDecoder) (calls : List (Env × Call)) (rs : List (Except NexusError Result))
    (s t u : TraceDecoder (MsgDecoder × List Input)) (env env' : Env) (n : Nat) (ev : TraceEvent), Initial s₀ →
    play (recorded msg_source) calls s₀.start = some (rs, s) → trace_try_retire (recorded msg_source) env n s = some (.ok (n, ev), t) →
    Comes (recorded msg_source) env' 0 t u → (∀ m ∈ taken u.log, carries_hist (s₀.sifive msg_source) m = false) →
    msg_is_error u.msg = false → TellsBranch (recorded msg_source) env' t u := by
  intro hall
  have hrun : ((play (recorded msg_source) [(env_of Msg.zero, .sync_reset)] trap_start.start).bind fun p =>
      (play (recorded msg_source) [(env_of Msg.zero, .try_retire 5)] p.2).map fun q => (p.1, (), q.1, (shown_block false q.2,
        next_tnt_returns q.2))) =
      some ([.ok (.reset (some ⟨2, 0⟩))], (), [.ok (.retired 5 .Trap)], (true, false)) := by decide +kernel
  obtain ⟨s, t, hs, h, -, hshown⟩ := exec_shown (fun _ => ()) (fun t => (shown_block false t, next_tnt_returns t)) hrun
  rw [Prod.mk.injEq] at hshown
  obtain ⟨hcomes, hm, herr⟩ := shown_comes hshown.1 (env_of Msg.zero)
  obtain ⟨v, hv, -⟩ := hall trap_start _ _ s t t _ (env_of Msg.zero) 5 .Trap (fresh_initial rfl _) hs (try_retire_of_exec h) hcomes hm herr
  have hno := hshown.2
  rw [next_tnt_returns, hv] at hno
  cases hno

end nexusrv
