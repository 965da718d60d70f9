import NexusRv.TraceRun
/-!
# The invariants of the trace decoder

`Booked` is kept by every step of every call, also of one that fails: how the
I-CNT is spread over `res_icnt`, the consumed part and the buffered message.
-/

namespace nexusrv

section Booked
variable {σ : Type} {src : Source σ} {s t : TraceDecoder σ}

/-- The I-CNT of the buffered message. -/
def TraceDecoder.buffered_icnt (s : TraceDecoder σ) : Nat := if s.msg_present then s.msg.own_icnt else 0

/-- Nothing is accumulated. -/
structure TraceDecoder.Cleared (s : TraceDecoder σ) : Prop where
  res_icnt : s.res_icnt = 0
  res_tnts : s.res_tnts = 0
  res_hists : s.res_hists = []
  consumed_icnt : s.consumed_icnt = 0
  consumed_tnts : s.consumed_tnts = 0

structure Booked (s : TraceDecoder σ) : Prop where
  one : s.res_icnt = 0 ∨ s.consumed_icnt = 0
  own : s.consumed_icnt ≤ s.buffered_icnt
  res : s.msg_present = true → msg_is_res s.msg = true → s.consumed_icnt = 0
  small : s.settled → s.res_icnt ≤ UINT32_MAX - MSG_ICNT_MAX
  icnt_le : s.msg_present = true → s.msg.own_icnt ≤ MSG_ICNT_MAX
  hist_ne : s.msg_present = true → msg_has_hist s.msg = true → s.msg.hist ≠ 0
  tnts_lt : s.res_tnts < 2 ^ 32
  cleared : s.synced = false → s.Cleared

theorem Booked.buffered_le (h : Booked s) : s.buffered_icnt ≤ MSG_ICNT_MAX := by
  unfold TraceDecoder.buffered_icnt
  split
  · exact h.icnt_le ‹_›
  · exact Nat.zero_le _

theorem Booked.sum_lt (h : Booked s) (hset : s.settled) : s.res_icnt + s.buffered_icnt < 2 ^ 32 := by
  have h1 := h.small hset
  have h2 := h.buffered_le
  have h3 : MSG_ICNT_MAX ≤ UINT32_MAX := by decide
  have h4 : UINT32_MAX < 2 ^ 32 := by decide
  omega

/-- The addition of `available_icnt` does not wrap. -/
theorem Booked.total (h : Booked s) (hset : s.settled) : s.icnt_total = s.res_icnt + s.buffered_icnt := by
  have hlt := h.sum_lt hset
  unfold TraceDecoder.icnt_total
  unfold TraceDecoder.buffered_icnt Msg.own_icnt at *
  cases hp : s.msg_present <;> cases hi : msg_has_icnt s.msg <;>
    simp only [hp, hi, Bool.and_true, Bool.and_false, if_true, if_false, Bool.false_eq_true, Nat.add_zero] at hlt ⊢
  exact Nat.mod_eq_of_lt hlt

theorem Booked.left (h : Booked s) (hset : s.settled) : s.icnt_left = s.res_icnt + s.buffered_icnt - s.consumed_icnt := by
  rw [TraceDecoder.icnt_left, h.total hset]

/-- What `trace_check_msg` accepts. -/
theorem check_msg_inv {m : Msg} (h : trace_check_msg m = true) :
    msg_known m = true ∧ msg_is_data_acq m = false ∧ m.own_icnt ≤ MSG_ICNT_MAX ∧ (msg_has_hist m = true → m.hist ≠ 0) := by
  unfold trace_check_msg at h
  split at h
  · cases h
  split at h
  · cases h
  split at h
  · cases h
  split at h
  · cases h
  rename_i h1 h2 h3 h4
  refine ⟨by simpa using h1, by simpa using h2, ?_, fun hh h0 => h4 (by simp [hh, h0])⟩
  unfold Msg.own_icnt
  split
  · rename_i hi
    simpa [hi] using h3
  · exact Nat.zero_le _

/-- What a fetch buffers: the message of the stream, with a repetition where it is a branch. -/
theorem Fetched.buffered {msg2 : Msg} {r : Except NexusError Bool} (h : Fetched src msg2 s r t) (hp : t.msg_present = true) :
    (s.msg_present = true ∧ t = s) ∨ s.msg_present = false ∧ ∃ n d m k, src.next (s.msg_decoder, s.msg) = some (.ok n, d, m) ∧ n ≠ 0 ∧
      trace_check_msg m = true ∧ t.msg = { m with hrepeat := k } ∧ (repeatable m = false → t.msg = m) := by
  cases h with
  | present hp' => exact .inl ⟨hp', rfl⟩
  | failed e d m h => exact nomatch h.symm.trans hp
  | eof d m h => exact nomatch h.symm.trans hp
  | unsupported n d d' m h => exact nomatch h.symm.trans hp
  | plain n d m h hn hn0 hc => exact .inr ⟨h, n, d, m, m.hrepeat, hn, hn0, hc, rfl, fun _ => rfl⟩
  | ahead_failed n d m e d₂ m₂ h hn hn0 hc hb => exact .inr ⟨h, n, d, m, 0, hn, hn0, hc, rfl, fun h => nomatch hb.symm.trans h⟩
  | ahead_other n d m n₂ d₂ m₂ d₃ h hn hn0 hc hb => exact .inr ⟨h, n, d, m, 0, hn, hn0, hc, rfl, fun h => nomatch hb.symm.trans h⟩
  | repeated n d m n₂ d₂ m₂ h hn hn0 hc hb => exact .inr ⟨h, n, d, m, _, hn, hn0, hc, rfl, fun h => nomatch hb.symm.trans h⟩

theorem Booked.consumed_zero (h : Booked s) (hp : s.msg_present = false) : s.consumed_icnt = 0 := by
  have := h.own
  rw [TraceDecoder.buffered_icnt, hp] at this
  exact Nat.le_zero.1 this

theorem Fetched.booked {msg2 : Msg} {r : Except NexusError Bool} (h : Fetched src msg2 s r t) (hs : Booked s) : Booked t := by
  -- the message decoder and an empty buffer play no part
  have hframe : s.msg_present = false → (t.msg_present = true → t.msg.own_icnt ≤ MSG_ICNT_MAX ∧ (msg_has_hist t.msg = true → t.msg.hist ≠ 0)) →
      Booked t := by
    intro hp hmsg
    have h0 := hs.consumed_zero hp
    have hsmall := hs.small fun h => nomatch hp.symm.trans h
    rw [h.frame]
    exact ⟨.inr h0, by rw [h0]; exact Nat.zero_le _, fun _ _ => h0, fun _ => hsmall, fun h => (hmsg h).1, fun h => (hmsg h).2, hs.tnts_lt,
      fun h => let ⟨a, b, c, d, e⟩ := hs.cleared h; ⟨a, b, c, d, e⟩⟩
  cases hp : t.msg_present with
  | true =>
    obtain ⟨-, ht⟩ | ⟨hsp, n, d, m, k, -, -, hc, hm, -⟩ := h.buffered hp
    · rw [ht]
      exact hs
    · obtain ⟨-, -, hle, hh⟩ := check_msg_inv hc
      refine hframe hsp fun _ => ?_
      rw [hm]
      exact ⟨hle, hh⟩
  | false =>
    refine hframe ?_ fun h => nomatch hp.symm.trans h
    cases h with
    | present h => exact nomatch hp.symm.trans h
    | failed e d m h => exact h
    | eof d m h => exact h
    | unsupported n d d' m h => exact h
    | _ => exact nomatch hp

/-- `take_icnt` moves the consumption from `res_icnt` on to the message. -/
theorem Booked.take (hs : Booked s) {n : Nat} (hset : s.settled) (hn : n ≤ s.icnt_left) (hsync : s.synced = true)
    (hp : s.res_icnt < n → s.msg_present = true) : Booked (s.take_icnt n) := by
  have hlt := hs.sum_lt hset
  have hone := hs.one
  have hown := hs.own
  have hsmall := hs.small hset
  rw [hs.left hset] at hn
  unfold TraceDecoder.take_icnt
  split
  · refine ⟨?_, hown, hs.res, fun _ => ?_, hs.icnt_le, hs.hist_ne, hs.tnts_lt, fun h => nomatch hsync.symm.trans h⟩ <;> dsimp only <;> omega
  · have hmod : (s.consumed_icnt + (n - s.res_icnt)) % 2 ^ 32 = s.consumed_icnt + (n - s.res_icnt) := Nat.mod_eq_of_lt (by omega)
    refine ⟨.inl rfl, ?_, (fun h hr => nomatch (hset h).symm.trans hr), fun _ => Nat.zero_le _, hs.icnt_le, hs.hist_ne, hs.tnts_lt,
      fun h => nomatch hsync.symm.trans h⟩
    have hb : TraceDecoder.buffered_icnt { s with consumed_icnt := (s.consumed_icnt + (n - s.res_icnt)) % 2 ^ 32, res_icnt := 0 } =
      s.buffered_icnt := rfl
    rw [hb]
    dsimp only
    omega

/-- What `take_icnt` leaves. -/
theorem take_icnt_frame (n : Nat) (s : TraceDecoder σ) : (s.take_icnt n).msg_present = s.msg_present ∧ (s.take_icnt n).msg = s.msg ∧
    (s.take_icnt n).msg_decoder = s.msg_decoder ∧ (s.take_icnt n).synced = s.synced ∧ (s.take_icnt n).res_tnts = s.res_tnts ∧
    (s.take_icnt n).consumed_tnts = s.consumed_tnts ∧ (s.take_icnt n).res_hists = s.res_hists := by
  unfold TraceDecoder.take_icnt
  split <;> exact ⟨rfl, rfl, rfl, rfl, rfl, rfl, rfl⟩

theorem take_settled {n : Nat} {s : TraceDecoder σ} (h : s.settled) : (s.take_icnt n).settled := by
  obtain ⟨h1, h2, -⟩ := take_icnt_frame n s
  unfold TraceDecoder.settled
  rw [h1, h2]
  exact h

/-- What `consume_tnt` leaves of the counters. -/
theorem TookTnt.frame {b : Bool} (h : TookTnt src s b t) : t.res_icnt = s.res_icnt ∧ t.consumed_icnt = s.consumed_icnt ∧ t.msg = s.msg ∧
    t.msg_present = s.msg_present ∧ t.synced = s.synced ∧ t.msg_decoder = s.msg_decoder ∧ t.res_tnts ≤ s.res_tnts := by
  cases h with
  | own => exact ⟨rfl, rfl, rfl, rfl, rfl, rfl, Nat.le_refl _⟩
  | bit => exact ⟨rfl, rfl, rfl, rfl, rfl, rfl, Nat.le_refl _⟩
  | last => exact ⟨rfl, rfl, rfl, rfl, rfl, rfl, Nat.sub_le _ _⟩

/-- What `retire_msg` leaves of the counters. -/
theorem retired_frame (s : TraceDecoder σ) : (s.retired src).res_icnt = s.res_icnt ∧ (s.retired src).res_tnts = s.res_tnts ∧
    (s.retired src).res_hists = s.res_hists ∧ (s.retired src).consumed_icnt = 0 ∧ (s.retired src).consumed_tnts = 0 ∧
    (s.retired src).synced = s.synced := by
  unfold TraceDecoder.retired
  split
  · split
    · exact ⟨rfl, rfl, rfl, rfl, rfl, rfl⟩
    · dsimp only
      split <;> exact ⟨rfl, rfl, rfl, rfl, rfl, rfl⟩
  · split <;> exact ⟨rfl, rfl, rfl, rfl, rfl, rfl⟩

/-- The message that stays buffered behind `retire_msg`: the repetition of a branch, or the sync behind it. -/
theorem retired_msg (h : (s.retired src).msg_present = true) : msg_is_branch s.msg = true ∧
    (msg_is_sync s.msg = true ∧ (s.retired src).msg = s.msg.downgraded ∨
      msg_is_sync s.msg = false ∧ s.msg.hrepeat ≠ 0 ∧ ∃ time, (s.retired src).msg = { s.msg with timestamp := time, hrepeat := s.msg.hrepeat - 1 }) := by
  unfold TraceDecoder.retired at h ⊢
  split at h
  · rename_i hb
    refine ⟨hb, ?_⟩
    rw [if_pos hb]
    split at h
    · rename_i hy
      exact .inl ⟨hy, by rw [if_pos hy]⟩
    · rename_i hy
      rw [if_neg hy]
      dsimp only at h ⊢
      split at h
      · rename_i hr
        exact .inr ⟨by simpa using hy, hr, _, by rw [if_pos hr]; rfl⟩
      · cases h
  · split at h <;> cases h

theorem Booked.retire (hs : Booked s) (hsync : s.synced = true) (hret : Retirable s) : Booked (s.retired src) := by
  obtain ⟨h1, h2, h3, h4, h5, h6⟩ := @retired_frame _ src s
  have hmsg : (s.retired src).msg_present = true → (s.retired src).msg.own_icnt ≤ MSG_ICNT_MAX ∧
      (msg_has_hist (s.retired src).msg = true → (s.retired src).msg.hist ≠ 0) := by
    intro hp
    obtain ⟨-, ⟨-, hm⟩ | ⟨-, -, time, hm⟩⟩ := retired_msg hp
    · rw [hm]
      exact ⟨Nat.zero_le _, fun h => nomatch h⟩
    · rw [hm]
      exact ⟨hs.icnt_le hret.present, hs.hist_ne hret.present⟩
  refine ⟨.inr h4, ?_, fun _ _ => h4, fun _ => ?_, fun h => (hmsg h).1, fun h => (hmsg h).2, ?_, fun h => ?_⟩
  · rw [h4]
    exact Nat.zero_le _
  · rw [h1, hret.res_icnt]
    exact Nat.zero_le _
  · rw [h2]
    exact hs.tnts_lt
  · rw [h6, hsync] at h
    cases h

theorem addressed_frame (s : TraceDecoder σ) : s.addressed = { s with full_addr := s.addressed.full_addr, msg := s.addressed.msg } ∧
    s.addressed.msg = { s.msg with xaddr := s.addressed.msg.xaddr } := by
  unfold TraceDecoder.addressed
  split <;> exact ⟨rfl, rfl⟩

/-- What the books say nothing of. -/
theorem Booked.aside (hs : Booked s) (d : σ) (xaddr addr time : UInt64) (stack : RetStack) :
    Booked { s with msg_decoder := d, msg := { s.msg with xaddr := xaddr }, full_addr := addr, timestamp := time, return_stack := stack } :=
  ⟨hs.one, hs.own, hs.res, hs.small, hs.icnt_le, hs.hist_ne, hs.tnts_lt, fun h => let ⟨a, b, c, d, e⟩ := hs.cleared h; ⟨a, b, c, d, e⟩⟩

theorem Booked.address (hs : Booked s) : Booked s.addressed := by
  obtain ⟨h1, h2⟩ := addressed_frame s
  rw [h1, h2]
  exact hs.aside s.msg_decoder _ _ s.timestamp s.return_stack

/-- No history bits are queued behind a message that can be retired with nothing left. -/
theorem Retirable.res_tnts (hret : Retirable s) (hlt : s.res_tnts < 2 ^ 32) (hle : s.consumed_tnts ≤ s.tnt_total) (h0 : s.tnts_left = 0) :
    s.res_tnts = 0 := by
  have hbits := msg_hist_bits_lt s.msg.hist
  have hcon := hret.consumed_tnts
  unfold TraceDecoder.tnts_left at h0
  unfold TraceDecoder.tnt_total at h0 hle
  unfold Msg.own_bits at hcon
  rw [hret.present, Bool.true_and] at h0 hle
  split at hcon
  · rename_i hh
    rw [hh, if_pos rfl] at h0 hle
    omega
  · rename_i hh
    rw [if_neg hh] at h0 hle
    omega

theorem cleared_desync (s : TraceDecoder σ) (h1 : s.res_icnt = 0) (h2 : s.res_tnts = 0) (h3 : s.res_hists = []) :
    TraceDecoder.Cleared { s.retired src with synced := false } := by
  obtain ⟨g1, g2, g3, g4, g5, -⟩ := @retired_frame _ src s
  exact ⟨g1.trans h1, g2.trans h2, g3.trans h3, g4, g5⟩

theorem Booked.of_cleared (h : s.Cleared) (hmsg : s.msg_present = true → s.msg.own_icnt ≤ MSG_ICNT_MAX ∧
    (msg_has_hist s.msg = true → s.msg.hist ≠ 0)) : Booked s :=
  ⟨.inl h.res_icnt, by rw [h.consumed_icnt]; exact Nat.zero_le _, fun _ _ => h.consumed_icnt, fun _ => by rw [h.res_icnt]; exact Nat.zero_le _,
    fun hp => (hmsg hp).1, fun hp => (hmsg hp).2, by rw [h.res_tnts]; decide, fun _ => h⟩

/-- Every step keeps the books. -/
theorem Micro.booked {c : Call} {o : List Out} (h : Micro src c s o t) (hs : Booked s) : Booked t := by
  cases h with
  | fetch hf => exact hf.booked hs
  | @pull t msg2 e _ hsync hp hf hres hel hlen hgrown =>
    have ht := hf.booked hs
    have h0 : t.consumed_icnt = 0 := ht.res hf.filled hres
    have hsmall := hs.small fun h => Bool.noConfusion (hp.symm.trans h)
    refine ⟨.inr h0, by rw [TraceDecoder.absorbed, h0]; exact Nat.zero_le _, (fun h => by cases h), fun _ => ?_, (fun h => by cases h),
      (fun h => by cases h), Nat.mod_lt _ (by decide), fun h => Bool.noConfusion (hsync.symm.trans (hf.synced.symm.trans h))⟩
    change t.grown ≤ _
    by_cases hi : msg_has_icnt t.msg = true
    · exact hgrown hi
    · rw [TraceDecoder.grown, if_neg hi, hf.frame]
      exact hsmall
  | stuck hsync hp hres =>
    exact ⟨.inr (hs.res hp hres), hs.own, hs.res, (fun h => Bool.noConfusion ((h hp).symm.trans hres)), hs.icnt_le, hs.hist_ne, hs.tnts_lt,
      fun h => Bool.noConfusion (hsync.symm.trans h)⟩
  | take hsync hset _ hn _ hp => exact hs.take hset hn hsync hp
  | tnt hsync _ _ _ _ htook =>
    obtain ⟨h1, h2, h3, h4, h5, -, h7⟩ := htook.frame
    refine ⟨by rw [h1, h2]; exact hs.one, ?_, by rw [h2, h3, h4]; exact hs.res, ?_, by rw [h3, h4]; exact hs.icnt_le,
      by rw [h3, h4]; exact hs.hist_ne, Nat.lt_of_le_of_lt h7 hs.tnts_lt, fun h => Bool.noConfusion (hsync.symm.trans (h5.symm.trans h))⟩
    · unfold TraceDecoder.buffered_icnt
      rw [h2, h3, h4]
      exact hs.own
    · unfold TraceDecoder.settled
      rw [h1, h3, h4]
      exact hs.small
  | retire hsync _ _ hret => exact hs.retire hsync hret
  | indirect hsync _ _ hret =>
    exact hs.address.retire ((congrArg TraceDecoder.synced (addressed_frame s).1).trans hsync) (addressed_retirable.2 hret)
  | stop _ hsync hex hk hret =>
    have hb : Booked (s.retired src) := hs.retire hsync hret
    refine .of_cleared (cleared_desync s hret.res_icnt (hret.res_tnts hs.tnts_lt hex.tnts_le hex.tnts) hret.res_hists) fun h => ?_
    exact ⟨hb.icnt_le h, hb.hist_ne h⟩
  | error _ hsync hp hk =>
    refine .of_cleared (cleared_desync (s.emptied src) rfl rfl rfl) fun h => ?_
    obtain ⟨hb, -⟩ := @retired_msg _ src (s.emptied src) h
    have hk' : (s.emptied src).msg.tcode = .Error := hk
    rw [msg_is_branch, hk'] at hb
    cases hb
  | past => exact hs.aside _ s.msg.xaddr s.full_addr s.timestamp s.return_stack
  | peek => exact hs.aside _ s.msg.xaddr s.full_addr s.timestamp s.return_stack
  | skip => exact hs.aside _ s.msg.xaddr s.full_addr s.timestamp s.return_stack
  | stack => exact hs.aside s.msg_decoder s.msg.xaddr s.full_addr s.timestamp _
  | time => exact hs.aside s.msg_decoder s.msg.xaddr s.full_addr _ s.return_stack
  | drop _ hsync hp =>
    obtain ⟨a, b, c, d, e⟩ := hs.cleared hsync
    exact .of_cleared ⟨a, b, c, d, e⟩ fun h => by cases h
  | resync _ hsync hp hk =>
    exact .of_cleared ⟨rfl, rfl, rfl, rfl, rfl⟩ fun _ => ⟨show 0 ≤ MSG_ICNT_MAX from Nat.zero_le _, fun h => by cases h⟩

end Booked

end nexusrv
