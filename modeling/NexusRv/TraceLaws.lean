import NexusRv.Trace
/-!
# What the functions of the trace decoder do

One inversion lemma a function: everything a call that fails no assertion can
return and leave. The invariants of the later modules are read off these.
-/

namespace nexusrv

section Laws
variable {σ α : Type} {src : Source σ}

/-! ## Fetching -/

/-- A branch without sync: a RepeatBranch may follow it. -/
def repeatable (m : Msg) : Bool := msg_is_branch m && !msg_is_sync m

theorem repeatable_eq (m : Msg) : repeatable m = !(!msg_is_branch m || msg_is_sync m) := by
  rw [Bool.not_or, Bool.not_not, repeatable]

/-- What `trace_fetch_msg` does. -/
inductive Fetched (src : Source σ) (msg2 : Msg) (s : TraceDecoder σ) : Except NexusError Bool → TraceDecoder σ → Prop where
  | present : s.msg_present = true → Fetched src msg2 s (.ok false) s
  | failed (e : NexusError) (d : σ) (m : Msg) : s.msg_present = false →
      src.next (s.msg_decoder, s.msg) = some (.error e, d, m) →
      Fetched src msg2 s (.error e) { s with msg_decoder := d, msg := m }
  | eof (d : σ) (m : Msg) : s.msg_present = false → src.next (s.msg_decoder, s.msg) = some (.ok 0, d, m) →
      Fetched src msg2 s (.error .trace_eof) { s with msg_decoder := d, msg := m }
  | unsupported (n : Nat) (d d' : σ) (m : Msg) : s.msg_present = false →
      src.next (s.msg_decoder, s.msg) = some (.ok n, d, m) → n ≠ 0 → trace_check_msg m = false → src.rewind_last d = some d' →
      Fetched src msg2 s (.error .msg_unsupported) { s with msg_decoder := d', msg := m }
  | plain (n : Nat) (d : σ) (m : Msg) : s.msg_present = false →
      src.next (s.msg_decoder, s.msg) = some (.ok n, d, m) → n ≠ 0 → trace_check_msg m = true → repeatable m = false →
      Fetched src msg2 s (.ok true) { s with msg_decoder := d, msg := m, msg_present := true }
  | ahead_failed (n : Nat) (d : σ) (m : Msg) (e : NexusError) (d₂ : σ) (m₂ : Msg) : s.msg_present = false →
      src.next (s.msg_decoder, s.msg) = some (.ok n, d, m) → n ≠ 0 → trace_check_msg m = true → repeatable m = true →
      src.next (d, msg2) = some (.error e, d₂, m₂) →
      Fetched src msg2 s (.error e) { s with msg_decoder := d₂, msg := { m with hrepeat := 0 }, msg_present := true }
  | ahead_other (n : Nat) (d : σ) (m : Msg) (n₂ : Nat) (d₂ : σ) (m₂ : Msg) (d₃ : σ) : s.msg_present = false →
      src.next (s.msg_decoder, s.msg) = some (.ok n, d, m) → n ≠ 0 → trace_check_msg m = true → repeatable m = true →
      src.next (d, msg2) = some (.ok n₂, d₂, m₂) → m₂.tcode ≠ .RepeatBranch → src.rewind_last d₂ = some d₃ →
      Fetched src msg2 s (.ok true) { s with msg_decoder := d₃, msg := { m with hrepeat := 0 }, msg_present := true }
  | repeated (n : Nat) (d : σ) (m : Msg) (n₂ : Nat) (d₂ : σ) (m₂ : Msg) : s.msg_present = false →
      src.next (s.msg_decoder, s.msg) = some (.ok n, d, m) → n ≠ 0 → trace_check_msg m = true → repeatable m = true →
      src.next (d, msg2) = some (.ok n₂, d₂, m₂) → m₂.tcode = .RepeatBranch →
      Fetched src msg2 s (.ok true) { s with msg_decoder := d₂, msg := { m with hrepeat := m₂.hrepeat }, msg_present := true }

@[simp] theorem next_msg_apply (s : TraceDecoder σ) : next_msg src s =
    (src.next (s.msg_decoder, s.msg)).map fun r => (r.1, { s with msg_decoder := r.2.1, msg := r.2.2 }) := rfl

@[simp] theorem next_msg2_apply (msg2 : Msg) (s : TraceDecoder σ) : next_msg2 src msg2 s =
    (src.next (s.msg_decoder, msg2)).map fun r => (r.1.map fun n => (n, r.2.2), { s with msg_decoder := r.2.1 }) := by
  simp only [next_msg2, Proc.zoom, Proc.withLocal, Option.map_map]
  rfl

@[simp] theorem rewind_msg_apply (s : TraceDecoder σ) : rewind_msg src s =
    (src.rewind_last s.msg_decoder).map fun d => (.ok (), { s with msg_decoder := d }) := rfl

theorem fetch_cases {msg2 : Msg} {s s' : TraceDecoder σ} {r : Except NexusError Bool}
    (h : trace_fetch_msg src msg2 s = some (r, s')) : Fetched src msg2 s r s' := by
  simp only [trace_fetch_msg, Proc.get_bind_apply, Proc.ite_apply] at h
  split at h
  · cases h
    exact .present ‹_›
  rename_i hp
  have hp : s.msg_present = false := by simpa using hp
  rcases Proc.bind_eq_some.1 h with ⟨e, he, rfl⟩ | ⟨n, t, hn, h⟩
  · obtain ⟨⟨r, d, m⟩, hnext, hr⟩ := Option.map_eq_some_iff.1 he
    cases hr
    exact .failed e d m hp hnext
  obtain ⟨⟨r, d, m⟩, hnext, hr⟩ := Option.map_eq_some_iff.1 hn
  cases hr
  simp only [Proc.ite_apply, Proc.get_bind_apply] at h
  split at h
  · rename_i h0
    cases h
    subst h0
    exact .eof d m hp hnext
  rename_i h0
  split at h
  · rename_i hc
    rcases Proc.bind_eq_some.1 h with ⟨e, he, rfl⟩ | ⟨⟨⟩, t, ht, h⟩
    · obtain ⟨d', -, hr⟩ := Option.map_eq_some_iff.1 he
      cases hr
    · obtain ⟨d', hw, hr⟩ := Option.map_eq_some_iff.1 ht
      cases hr
      cases h
      exact .unsupported n d d' m hp hnext h0 (by simpa using hc) hw
  rename_i hc
  have hc : trace_check_msg m = true := by simpa using hc
  simp only [Proc.modify_bind_apply, Proc.ite_apply] at h
  split at h
  · rename_i hb
    cases h
    exact .plain n d m hp hnext h0 hc (by rw [repeatable_eq, hb]; rfl)
  rename_i hb
  have hb : repeatable m = true := by rw [repeatable_eq, Bool.eq_false_of_not_eq_true hb]; rfl
  rcases Proc.bind_eq_some.1 h with ⟨e, he, rfl⟩ | ⟨r₂, t, hn, h⟩
  · rw [next_msg2_apply] at he
    obtain ⟨⟨r, d₂, m₂⟩, hnext₂, hr⟩ := Option.map_eq_some_iff.1 he
    rcases r with e' | n₂ <;> cases hr
    exact .ahead_failed n d m e d₂ m₂ hp hnext h0 hc hb hnext₂
  rw [next_msg2_apply] at hn
  obtain ⟨⟨r, d₂, m₂⟩, hnext₂, hr⟩ := Option.map_eq_some_iff.1 hn
  rcases r with e' | n₂ <;> cases hr
  simp only [Proc.ite_apply, Proc.modify_bind_apply] at h
  split at h
  · rename_i hb₂
    rcases Proc.bind_eq_some.1 h with ⟨e, he, rfl⟩ | ⟨⟨⟩, t, ht, h⟩
    · obtain ⟨d', -, hr⟩ := Option.map_eq_some_iff.1 he
      cases hr
    · obtain ⟨d', hw, hr⟩ := Option.map_eq_some_iff.1 ht
      cases hr
      cases h
      exact .ahead_other n d m n₂ d₂ m₂ d' hp hnext h0 hc hb hnext₂ hb₂ hw
  · rename_i ht
    cases h
    exact .repeated n d m n₂ d₂ m₂ hp hnext h0 hc hb hnext₂ (by simpa using ht)

/-! ## What is available -/

/-- `available_icnt` and `available_tnts` assert that no ResourceFull message is buffered. -/
def TraceDecoder.settled (s : TraceDecoder σ) : Prop := s.msg_present = true → msg_is_res s.msg = false

/-- `res_icnt` with the I-CNT of the buffered message, as the code adds them. -/
def TraceDecoder.icnt_total (s : TraceDecoder σ) : Nat :=
  if s.msg_present && msg_has_icnt s.msg then (s.res_icnt + s.msg.icnt.toNat) % 2 ^ 32 else s.res_icnt

/-- `res_tnts` with the history bits of the buffered message, as the code adds them. -/
def TraceDecoder.tnt_total (s : TraceDecoder σ) : Nat :=
  if s.msg_present && msg_has_hist s.msg then (s.res_tnts + msg_hist_bits s.msg.hist) % 2 ^ 32 else s.res_tnts

theorem difference_iff {total consumed : Nat} {s s' : TraceDecoder σ} {r : Except NexusError Nat} :
    (Proc.assert (total ≥ consumed) >>= fun _ => pure (total - consumed) : Trace σ Nat) s = some (r, s') ↔
      consumed ≤ total ∧ r = .ok (total - consumed) ∧ s' = s := by
  rw [Proc.assert_bind_eq_some, Proc.pure_apply, Option.some.injEq, Prod.mk.injEq, decide_eq_true_eq]
  exact ⟨fun ⟨h, hr, hs⟩ => ⟨h, hr.symm, hs.symm⟩, fun ⟨h, hr, hs⟩ => ⟨h, hr.symm, hs.symm⟩⟩

theorem available_icnt_iff {s s' : TraceDecoder σ} {r : Except NexusError Nat} :
    trace_available_icnt s = some (r, s') ↔
      s.settled ∧ s.consumed_icnt ≤ s.icnt_total ∧ r = .ok (s.icnt_total - s.consumed_icnt) ∧ s' = s := by
  unfold trace_available_icnt TraceDecoder.settled TraceDecoder.icnt_total
  rw [Proc.get_bind_apply, Proc.ite_apply]
  cases hp : s.msg_present
  · simpa using difference_iff
  · cases hr : msg_is_res s.msg
    · simpa using difference_iff
    · simp

theorem available_tnts_iff {s s' : TraceDecoder σ} {r : Except NexusError Nat} :
    trace_available_tnts s = some (r, s') ↔
      s.settled ∧ s.consumed_tnts ≤ s.tnt_total ∧ r = .ok (s.tnt_total - s.consumed_tnts) ∧ s' = s := by
  unfold trace_available_tnts TraceDecoder.settled TraceDecoder.tnt_total
  rw [Proc.get_bind_apply, Proc.ite_apply]
  cases hp : s.msg_present
  · simpa using difference_iff
  · cases hr : msg_is_res s.msg
    · simpa using difference_iff
    · simp

/-- `n` instructions less: from `res_icnt` first, or all of it and then of the buffered message. -/
def TraceDecoder.take_icnt (n : Nat) (s : TraceDecoder σ) : TraceDecoder σ :=
  if s.res_icnt ≥ n then { s with res_icnt := s.res_icnt - n }
  else { s with consumed_icnt := (s.consumed_icnt + (n - s.res_icnt)) % 2 ^ 32, res_icnt := 0 }

theorem consume_icnt_iff {n : Nat} {s s' : TraceDecoder σ} {r : Except NexusError Unit} :
    trace_consume_icnt n s = some (r, s') ↔
      s.settled ∧ s.consumed_icnt ≤ s.icnt_total ∧ n ≤ s.icnt_total - s.consumed_icnt ∧
        (s.res_icnt = 0 ∨ s.consumed_icnt = 0) ∧ (s.res_icnt < n → s.msg_present = true) ∧ r = .ok () ∧ s' = s.take_icnt n := by
  have hav := @available_icnt_iff σ s
  unfold trace_consume_icnt TraceDecoder.take_icnt
  constructor
  · intro h
    rcases Proc.bind_eq_some.1 h with ⟨e, he, -⟩ | ⟨a, t, ha, h⟩
    · exact nomatch (hav.1 he).2.2.1
    · obtain ⟨h1, h2, h3, rfl⟩ := hav.1 ha
      cases h3
      simp only [Proc.assert_bind_eq_some, Proc.get_bind_apply, Proc.ite_apply, decide_eq_true_eq, Bool.or_eq_true] at h
      obtain ⟨h3, h4, h⟩ := h
      refine ⟨h1, h2, h3, h4, ?_⟩
      split at h
      · rename_i hge
        cases h
        exact ⟨fun hlt => absurd hge (Nat.not_le.2 hlt), rfl, by rw [if_pos hge]⟩
      · rename_i hge
        obtain ⟨hp, h⟩ := Proc.assert_bind_eq_some.1 h
        cases h
        exact ⟨fun _ => hp, rfl, by rw [if_neg hge]⟩
  · rintro ⟨h1, h2, h3, h4, h5, rfl, rfl⟩
    rw [Proc.bind_ok (hav.2 ⟨h1, h2, rfl, rfl⟩)]
    simp only [Proc.assert_bind_eq_some, Proc.get_bind_apply, Proc.ite_apply, decide_eq_true_eq, Bool.or_eq_true]
    refine ⟨h3, h4, ?_⟩
    split
    · rfl
    · exact Proc.assert_bind_eq_some.2 ⟨h5 (by omega), rfl⟩

/-! ## The timestamp -/

/-- The time behind a message, and what is left in the message for its repetitions. -/
def combine_time (sifive : Bool) (time timestamp : UInt64) : UInt64 := if sifive then time ^^^ timestamp else time + timestamp
def time_left (sifive : Bool) (timestamp : UInt64) : UInt64 := if sifive then 0 else timestamp

/-- `quirk_sifive` of the configuration. -/
def TraceDecoder.sifive (src : Source σ) (s : TraceDecoder σ) : Bool := (src.hw_cfg s.msg_decoder).quirk_sifive

theorem retire_timestamp_eq (timestamp : UInt64) (s : TraceDecoder σ) : trace_retire_timestamp src timestamp s =
    some (.ok (time_left (s.sifive src) timestamp), { s with timestamp := combine_time (s.sifive src) s.timestamp timestamp }) := by
  simp only [trace_retire_timestamp, Proc.get_bind_apply, Proc.ite_apply, TraceDecoder.sifive, time_left, combine_time]
  split <;> simp only [Proc.modify_bind_apply, Proc.pure_apply, *, if_true, Bool.false_eq_true, if_false]

@[simp] theorem retire_timestamp_bind (timestamp : UInt64) (f : UInt64 → Trace σ α) (s : TraceDecoder σ) :
    (trace_retire_timestamp src timestamp >>= f) s = f (time_left (s.sifive src) timestamp)
      { s with timestamp := combine_time (s.sifive src) s.timestamp timestamp } :=
  Proc.bind_ok (retire_timestamp_eq timestamp s)

/-! ## Consuming a TNT -/

/-- The elements without history bits in front of the queue. -/
def spent (l : List HistElement) : List HistElement := l.takeWhile (·.hist = 0)
def unspent (l : List HistElement) : List HistElement := l.dropWhile (·.hist = 0)

/-- The state with the spent elements dropped and their time retired. -/
def TraceDecoder.drained (src : Source σ) (s : TraceDecoder σ) : TraceDecoder σ :=
  { s with
    res_hists := unspent s.res_hists
    timestamp := (spent s.res_hists).foldl (fun t e => combine_time (s.sifive src) t e.timestamp) s.timestamp }

theorem drain_empty_iff {l : List HistElement} : ∀ {s s' : TraceDecoder σ} {r : Except NexusError Unit}, s.res_hists = l →
    (drain_empty src l s = some (r, s') ↔ (∀ e ∈ spent l, e.repeat_ = 1) ∧ r = .ok () ∧ s' = s.drained src) := by
  induction l with
  | nil =>
    intro s s' r hl
    have hd : s.drained src = s := by cases s; cases hl; rfl
    simp [drain_empty, spent, hd, eq_comm]
  | cons e l ih =>
    intro s s' r hl
    rw [drain_empty]
    by_cases he : e.hist = 0
    · have ih' := @ih { s with timestamp := combine_time (s.sifive src) s.timestamp e.timestamp, res_hists := l } s' r rfl
      have hd : TraceDecoder.drained src { s with timestamp := combine_time (s.sifive src) s.timestamp e.timestamp, res_hists := l } =
          s.drained src := by simp [TraceDecoder.drained, hl, spent, unspent, he, TraceDecoder.sifive]
      rw [hd] at ih'
      simp only [he, ne_eq, not_true_eq_false, if_false, Proc.assert_bind_eq_some, retire_timestamp_bind, Proc.modify_bind_apply,
        decide_eq_true_eq]
      rw [ih']
      simp [spent, he, and_assoc]
    · have hd : s.drained src = s := by cases s; cases hl; simp [TraceDecoder.drained, spent, unspent, he]
      simp [he, spent, hd, eq_comm]

/-- What `trace_consume_tnt` returns and leaves: a bit of the buffered message, or of the first
element that has one. -/
inductive TookTnt (src : Source σ) (s : TraceDecoder σ) : Bool → TraceDecoder σ → Prop where
  | own : s.res_tnts = 0 → s.msg_present = true → msg_has_hist s.msg = true → s.consumed_tnts < msg_hist_bits s.msg.hist →
      TookTnt src s (hist_bit s.msg.hist (msg_hist_bits s.msg.hist - (s.consumed_tnts + 1)))
        { s.drained src with consumed_tnts := s.consumed_tnts + 1 }
  | bit (e : HistElement) (rest : List HistElement) : s.res_tnts ≠ 0 → unspent s.res_hists = e :: rest →
      s.consumed_tnts + 1 < msg_hist_bits e.hist →
      TookTnt src s (hist_bit e.hist (msg_hist_bits e.hist - (s.consumed_tnts + 1)))
        { s.drained src with consumed_tnts := s.consumed_tnts + 1 }
  | last (e : HistElement) (rest : List HistElement) : s.res_tnts ≠ 0 → unspent s.res_hists = e :: rest →
      s.consumed_tnts + 1 = msg_hist_bits e.hist → msg_hist_bits e.hist ≤ s.res_tnts → e.repeat_ ≠ 0 →
      TookTnt src s (hist_bit e.hist (msg_hist_bits e.hist - (s.consumed_tnts + 1)))
        { s.drained src with
          consumed_tnts := 0
          timestamp := combine_time (s.sifive src) (s.drained src).timestamp e.timestamp
          res_tnts := s.res_tnts - msg_hist_bits e.hist
          res_hists := if e.repeat_ - 1 = 0 then rest
            else ⟨e.hist, e.repeat_ - 1, time_left (s.sifive src) e.timestamp⟩ :: rest }

theorem consume_tnt_iff {s s' : TraceDecoder σ} {r : Except NexusError Bool} : trace_consume_tnt src s = some (r, s') ↔
    s.settled ∧ s.consumed_tnts < s.tnt_total ∧ (∀ e ∈ spent s.res_hists, e.repeat_ = 1) ∧ ∃ b, r = .ok b ∧ TookTnt src s b s' := by
  have hmod : ∀ hist : UInt32, s.consumed_tnts < msg_hist_bits hist → (s.consumed_tnts + 1) % 2 ^ 8 = s.consumed_tnts + 1 := by
    intro hist h
    have := msg_hist_bits_lt hist
    omega
  unfold trace_consume_tnt
  constructor
  · intro h
    rcases Proc.bind_eq_some.1 h with ⟨e, he, -⟩ | ⟨n, t, hn, h⟩
    · exact nomatch (available_tnts_iff.1 he).2.2.1
    obtain ⟨h1, h2, hn, hts⟩ := available_tnts_iff.1 hn
    cases hn
    simp only [hts, Proc.assert_bind_eq_some, Proc.get_bind_apply, decide_eq_true_eq] at h
    obtain ⟨h3, h⟩ := h
    rcases Proc.bind_eq_some.1 h with ⟨e, he, -⟩ | ⟨⟨⟩, t, ht, h⟩
    · exact nomatch ((drain_empty_iff rfl).1 he).2.1
    obtain ⟨h4, -, hu⟩ := (drain_empty_iff rfl).1 ht
    rw [hu] at h
    refine ⟨h1, by omega, h4, ?_⟩
    simp only [Proc.get_bind_apply, Proc.ite_apply] at h
    have hres : (s.drained src).res_tnts = s.res_tnts := rfl
    have hcon : (s.drained src).consumed_tnts = s.consumed_tnts := rfl
    rw [hres, hcon] at h
    split at h
    · rename_i h0
      simp only [Proc.assert_bind_eq_some, Proc.modify_bind_apply, Bool.and_eq_true, decide_eq_true_eq] at h
      obtain ⟨⟨h5, h6⟩, h7, h⟩ := h
      rw [hmod _ h7] at h
      cases h
      exact ⟨_, rfl, .own h0 h5 h6 h7⟩
    · rename_i h0
      rcases hq : unspent s.res_hists with _ | ⟨e, rest⟩
      · have hq' : (s.drained src).res_hists = [] := hq
        rw [hq'] at h
        simp at h
      · have hq' : (s.drained src).res_hists = e :: rest := hq
        rw [hq'] at h
        simp only [Proc.assert_bind_eq_some, Proc.modify_bind_apply, decide_eq_true_eq, gt_iff_lt, Proc.ite_apply] at h
        obtain ⟨h5, h⟩ := h
        rw [hmod _ h5] at h
        split at h
        · rename_i hne
          cases h
          exact ⟨_, rfl, .bit e rest h0 hq (by omega)⟩
        · rename_i hlast
          simp only [retire_timestamp_bind, Proc.assert_bind_eq_some, Proc.modify_bind_apply, decide_eq_true_eq, hres] at h
          obtain ⟨h6, h7, h⟩ := h
          cases h
          exact ⟨_, rfl, .last e rest h0 hq (by omega) h6 h7⟩
  · rintro ⟨h1, h2, h4, b, rfl, h⟩
    rw [Proc.bind_ok (available_tnts_iff.2 ⟨h1, Nat.le_of_lt h2, rfl, rfl⟩)]
    simp only [Proc.assert_bind_eq_some, Proc.get_bind_apply, decide_eq_true_eq]
    refine ⟨by omega, ?_⟩
    rw [Proc.bind_ok ((drain_empty_iff rfl).2 ⟨h4, rfl, rfl⟩)]
    simp only [Proc.get_bind_apply, Proc.ite_apply]
    have hres : (s.drained src).res_tnts = s.res_tnts := rfl
    have hcon : (s.drained src).consumed_tnts = s.consumed_tnts := rfl
    rw [hres, hcon]
    cases h with
    | own h0 h5 h6 h7 =>
      rw [if_pos h0, hmod _ h7]
      simp only [Proc.assert_bind_eq_some, Bool.and_eq_true, decide_eq_true_eq]
      exact ⟨⟨h5, h6⟩, h7, rfl⟩
    | bit e rest h0 hq h5 =>
      have hq' : (s.drained src).res_hists = e :: rest := hq
      have hlt : s.consumed_tnts < msg_hist_bits e.hist := by omega
      rw [if_neg h0, hq', hmod e.hist hlt]
      simp only [Proc.assert_bind_eq_some, decide_eq_true_eq, Proc.modify_bind_apply, Proc.ite_apply]
      exact ⟨hlt, by rw [if_pos (by omega)]; rfl⟩
    | last e rest h0 hq h5 h6 h7 =>
      have hq' : (s.drained src).res_hists = e :: rest := hq
      have hlt : s.consumed_tnts < msg_hist_bits e.hist := by omega
      rw [if_neg h0, hq', hmod e.hist hlt]
      simp only [Proc.assert_bind_eq_some, decide_eq_true_eq, Proc.modify_bind_apply, Proc.ite_apply]
      refine ⟨hlt, ?_⟩
      rw [if_neg (by omega)]
      simp only [retire_timestamp_bind, Proc.assert_bind_eq_some, decide_eq_true_eq, Proc.modify_bind_apply]
      exact ⟨h6, h7, rfl⟩

/-! ## Retiring the message -/

/-- The I-CNT and the history bits of a message. -/
def Msg.own_icnt (m : Msg) : Nat := if msg_has_icnt m then m.icnt.toNat else 0
def Msg.own_bits (m : Msg) : Nat := if msg_has_hist m then msg_hist_bits m.hist else 0

/-- What `trace_retire_msg` asserts. -/
structure Retirable (s : TraceDecoder σ) : Prop where
  present : s.msg_present = true
  not_res : s.msg.tcode ≠ .ResourceFull
  res_icnt : s.res_icnt = 0
  res_hists : s.res_hists = []
  consumed_icnt : s.consumed_icnt = s.msg.own_icnt
  consumed_tnts : s.consumed_tnts = s.msg.own_bits
  hrepeat : msg_is_branch s.msg = true → msg_is_sync s.msg = true → s.msg.hrepeat = 0

/-- A branch with sync becomes a ProgTraceSync. -/
def Msg.downgraded (m : Msg) : Msg := { m with tcode := .ProgTraceSync, icnt := 0, hist := 0 }

/-- The time of the message is retired, where it is not absolute. -/
def TraceDecoder.pass_time (src : Source σ) (s : TraceDecoder σ) : TraceDecoder σ :=
  { s with
    timestamp := combine_time (s.sifive src) s.timestamp s.msg.timestamp
    msg := { s.msg with timestamp := time_left (s.sifive src) s.msg.timestamp } }

/-- The state behind `trace_retire_msg`. -/
def TraceDecoder.retired (src : Source σ) (s : TraceDecoder σ) : TraceDecoder σ :=
  let t := { s with consumed_icnt := 0, consumed_tnts := 0 }
  if msg_is_branch s.msg then
    if msg_is_sync s.msg then { t with timestamp := s.msg.timestamp, msg := s.msg.downgraded }
    else
      let t := t.pass_time src
      if s.msg.hrepeat ≠ 0 then { t with msg := { t.msg with hrepeat := s.msg.hrepeat - 1 } } else { t with msg_present := false }
  else if msg_is_sync s.msg then
    { t with timestamp := s.msg.timestamp, full_addr := s.msg.xaddr, return_stack := retstack_clear s.return_stack, msg_present := false }
  else { t.pass_time src with msg_present := false }

theorem retire_msg_iff {s s' : TraceDecoder σ} {r : Except NexusError Unit} :
    trace_retire_msg src s = some (r, s') ↔ Retirable s ∧ r = .ok () ∧ s' = s.retired src := by
  -- what follows the assertions leaves `u`
  have hclose : ∀ {x : Option (Except NexusError Unit × TraceDecoder σ)} {u : TraceDecoder σ}, x = some (.ok (), u) →
      (msg_is_branch s.msg = true → msg_is_sync s.msg = true → s.msg.hrepeat = 0) →
      (s.msg_present = true ∧ s.msg.tcode ≠ .ResourceFull ∧ s.res_icnt = 0 ∧ s.res_hists.isEmpty = true ∧
        s.consumed_icnt = s.msg.own_icnt ∧ s.consumed_tnts = s.msg.own_bits ∧ x = some (r, s') ↔
          Retirable s ∧ r = .ok () ∧ s' = u) := by
    rintro x u rfl hrep
    constructor
    · rintro ⟨h1, h2, h3, h4, h5, h6, h⟩
      cases h
      exact ⟨⟨h1, h2, h3, List.isEmpty_iff.1 h4, h5, h6, hrep⟩, rfl, rfl⟩
    · rintro ⟨⟨h1, h2, h3, h4, h5, h6, -⟩, rfl, rfl⟩
      exact ⟨h1, h2, h3, List.isEmpty_iff.2 h4, h5, h6, rfl⟩
  unfold trace_retire_msg TraceDecoder.retired
  simp only [Proc.get_bind_apply, Proc.assert_bind_eq_some, Proc.modify_bind_apply, Proc.ite_apply, decide_eq_true_eq, retire_timestamp_bind]
  by_cases hb : msg_is_branch s.msg = true <;> by_cases hy : msg_is_sync s.msg = true
  · simp only [hb, hy, if_true, Proc.assert_bind_eq_some, decide_eq_true_eq]
    constructor
    · rintro ⟨h1, h2, h3, h4, h5, h6, h7, h⟩
      exact (hclose rfl fun _ _ => h7).1 ⟨h1, h2, h3, h4, h5, h6, h⟩
    · rintro ⟨hret, h⟩
      obtain ⟨h1, h2, h3, h4, h5, h6, h7⟩ := (hclose rfl hret.hrepeat).2 ⟨hret, h⟩
      exact ⟨h1, h2, h3, h4, h5, h6, hret.hrepeat hb hy, h7⟩
  · simp only [hb, hy, if_true, if_false, Bool.false_eq_true]
    by_cases hr : s.msg.hrepeat ≠ 0
    · rw [if_pos hr, if_pos hr]
      exact hclose rfl fun _ h => absurd h hy
    · rw [if_neg hr, if_neg hr]
      exact hclose rfl fun _ h => absurd h hy
  · simp only [hb, hy, if_true, if_false, Bool.false_eq_true]
    exact hclose rfl fun h => absurd h hb
  · simp only [hb, hy, if_false, Bool.false_eq_true]
    exact hclose rfl fun h => absurd h hb

/-! ## Pulling a message -/

/-- The element that a ResourceFull message adds to the queue, if the decoder handles it. -/
def res_element (sifive : Bool) (m : Msg) : Option HistElement :=
  if msg_has_icnt m then some ⟨0, 1, m.timestamp⟩
  else if msg_has_hist m then some ⟨m.hist, if m.hrepeat ≠ 0 then m.hrepeat.toNat else 1, m.timestamp⟩
  else if sifive && m.res_code = 8 && m.res_data ≠ 0 then some ⟨2, m.res_data.toNat, m.timestamp⟩
  else if sifive && m.res_code = 9 && m.res_data ≠ 0 then some ⟨3, m.res_data.toNat, m.timestamp⟩
  else none

/-- The history bits of an element, as the code counts them. -/
def HistElement.bits (e : HistElement) : Nat := e.repeat_ * msg_hist_bits e.hist

/-- `res_icnt` with the I-CNT of the buffered ResourceFull message, if it has one. -/
def TraceDecoder.grown (s : TraceDecoder σ) : Nat :=
  if msg_has_icnt s.msg then (s.res_icnt + s.msg.icnt.toNat) % 2 ^ 32 else s.res_icnt

/-- The buffered ResourceFull message, added to what is accumulated. -/
def TraceDecoder.absorbed (s : TraceDecoder σ) (e : HistElement) : TraceDecoder σ :=
  { s with
    res_icnt := s.grown
    res_hists := s.res_hists ++ [e]
    res_tnts := (s.res_tnts + e.bits % 2 ^ 32) % 2 ^ 32
    msg_present := false }

/-- What `trace_pull_msg` does. -/
inductive Pulled (src : Source σ) (env : Env) (k : Nat) (s : TraceDecoder σ) : Except NexusError Bool → TraceDecoder σ → Prop where
  | failed (e : NexusError) (t : TraceDecoder σ) : Fetched src (env.msg2 k) s (.error e) t → Pulled src env k s (.error e) t
  | other (b : Bool) (t : TraceDecoder σ) : Fetched src (env.msg2 k) s (.ok b) t → msg_is_res t.msg = false →
      Pulled src env k s (.ok false) t
  | hist_overflow (b : Bool) (t : TraceDecoder σ) : Fetched src (env.msg2 k) s (.ok b) t → msg_is_res t.msg = true →
      t.res_hists.length ≥ MSG_ICNT_MAX → Pulled src env k s (.error .trace_hist_overflow) t
  | icnt_overflow (b : Bool) (t : TraceDecoder σ) : Fetched src (env.msg2 k) s (.ok b) t → msg_is_res t.msg = true →
      msg_has_icnt t.msg = true → t.grown > UINT32_MAX - MSG_ICNT_MAX → Pulled src env k s (.error .trace_icnt_overflow) { t with res_icnt := t.grown }
  | unsupported (b : Bool) (t : TraceDecoder σ) : Fetched src (env.msg2 k) s (.ok b) t → msg_is_res t.msg = true →
      res_element (t.sifive src) t.msg = none → Pulled src env k s (.error .msg_unsupported) t
  | no_mem (b : Bool) (t : TraceDecoder σ) (e : HistElement) : Fetched src (env.msg2 k) s (.ok b) t → msg_is_res t.msg = true →
      res_element (t.sifive src) t.msg = some e → env.alloc t.res_hists.length = false →
      Pulled src env k s (.error .no_mem) { t with res_icnt := t.grown }
  | taken (b : Bool) (t : TraceDecoder σ) (e : HistElement) : Fetched src (env.msg2 k) s (.ok b) t → msg_is_res t.msg = true →
      res_element (t.sifive src) t.msg = some e → t.res_hists.length < MSG_ICNT_MAX →
      (msg_has_icnt t.msg = true → t.grown ≤ UINT32_MAX - MSG_ICNT_MAX) →
      env.alloc t.res_hists.length = true → Pulled src env k s (.ok true) (t.absorbed e)

theorem pull_cases {env : Env} {k : Nat} {s s' : TraceDecoder σ} {r : Except NexusError Bool}
    (h : trace_pull_msg src env k s = some (r, s')) : Pulled src env k s r s' := by
  rcases Proc.bind_eq_some.1 h with ⟨e, he, rfl⟩ | ⟨b, t, ht, h⟩
  · exact .failed e s' (fetch_cases he)
  have hf := fetch_cases ht
  simp only [Proc.get_bind_apply, Proc.ite_apply] at h
  split at h
  · rename_i hres
    cases h
    exact .other b _ hf (by simpa using hres)
  rename_i hres
  have hres : msg_is_res t.msg = true := by simpa using hres
  split at h
  · rename_i hlen
    cases h
    exact .hist_overflow b _ hf hres hlen
  rename_i hlen
  have hlen : t.res_hists.length < MSG_ICNT_MAX := Nat.lt_of_not_le hlen
  -- the last steps, from a state `u` with the I-CNT added
  have hpush : ∀ {e : HistElement} {u : TraceDecoder σ}, u = { t with res_icnt := t.grown } →
      res_element (t.sifive src) t.msg = some e → (msg_has_icnt t.msg = true → t.grown ≤ UINT32_MAX - MSG_ICNT_MAX) →
      push_element env e u = some (r, s') → Pulled src env k s r s' := by
    rintro e u rfl hel hgrown h
    simp only [push_element, Proc.get_bind_apply, Proc.ite_apply] at h
    split at h
    · rename_i hal
      cases h
      exact .no_mem b t e hf hres hel (by simpa using hal)
    · rename_i hal
      cases h
      exact .taken b t e hf hres hel hlen hgrown (by simpa using hal)
  split at h
  · rename_i hi
    have hg : t.grown = (t.res_icnt + t.msg.icnt.toNat) % 2 ^ 32 := if_pos hi
    simp only [Proc.modify_bind_apply, Proc.ite_apply, ← hg] at h
    split at h
    · rename_i hbig
      cases h
      exact .icnt_overflow b t hf hres hi hbig
    · rename_i hbig
      exact hpush rfl (by rw [res_element, if_pos hi]) (fun _ => Nat.le_of_not_lt hbig) h
  rename_i hi
  have hi : msg_has_icnt t.msg = false := by simpa using hi
  have hg : t.grown = t.res_icnt := by rw [TraceDecoder.grown, hi]; rfl
  have hself : t = { t with res_icnt := t.grown } := by rw [hg]
  have hsmall : msg_has_icnt t.msg = true → t.grown ≤ UINT32_MAX - MSG_ICNT_MAX := fun h => absurd h (by simp [hi])
  split at h
  · rename_i hh
    exact hpush hself (by simp [res_element, hi, hh]) hsmall h
  rename_i hh
  have hh : msg_has_hist t.msg = false := by simpa using hh
  split at h
  · rename_i hq
    have hq : t.sifive src = true := hq
    have hfew : ∀ {x : HistElement}, (t.msg.res_data ≠ 0 → res_element (t.sifive src) t.msg = some x) →
        (t.msg.res_data = 0 → res_element (t.sifive src) t.msg = none) →
        (if t.msg.res_data = 0 then Proc.fail .msg_unsupported else push_element env x : Trace σ Bool) t = some (r, s') →
        Pulled src env k s r s' := by
      intro x hsome hnone h
      rw [Proc.ite_apply] at h
      split at h
      · cases h
        exact .unsupported b _ hf hres (hnone ‹_›)
      · exact hpush hself (hsome ‹_›) hsmall h
    by_cases h8 : t.msg.res_code = 8
    · simp only [h8] at h
      exact hfew (fun hd => by simp [res_element, hi, hh, hq, h8, hd]) (fun hd => by simp [res_element, hi, hh, h8, hd]) h
    by_cases h9 : t.msg.res_code = 9
    · simp only [h9] at h
      exact hfew (fun hd => by simp [res_element, hi, hh, hq, h9, hd]) (fun hd => by simp [res_element, hi, hh, h9, hd]) h
    · simp only at h
      cases h
      exact .unsupported b _ hf hres (by simp [res_element, hi, hh, h8, h9])
  · rename_i hq
    cases h
    exact .unsupported b _ hf hres (by simp [res_element, hi, hh, TraceDecoder.sifive, hq])

/-! ## The loop of `try_retire` and `next_tnt` -/

/-- A run of `pull_until`. -/
inductive Loop (src : Source σ) (env : Env) (done : Trace σ (Option α)) :
    Nat → Bool → TraceDecoder σ → Except NexusError (Option α) → TraceDecoder σ → Prop where
  | found {k rc s s' a} : done s = some (.ok (some a), s') → Loop src env done k rc s (.ok (some a)) s'
  | failed {k rc s s' e} : done s = some (.error e, s') → Loop src env done k rc s (.error e) s'
  | stop {k s s'} : done s = some (.ok none, s') → Loop src env done k false s (.ok none) s'
  | pull_failed {k s t s' e} : done s = some (.ok none, t) → trace_pull_msg src env k t = some (.error e, s') →
      Loop src env done k true s (.error e) s'
  | pull {k s t u s' rc r} : done s = some (.ok none, t) → trace_pull_msg src env k t = some (.ok rc, u) →
      Loop src env done (k + 1) rc u r s' → Loop src env done k true s r s'

theorem pull_until_cases {env : Env} {done : Trace σ (Option α)} (fuel : Nat) : ∀ {k : Nat} {rc : Bool} {s s' : TraceDecoder σ}
    {r : Except NexusError (Option α)}, pull_until src env done fuel k rc s = some (r, s') → Loop src env done k rc s r s' := by
  induction fuel with
  | zero => intro k rc s s' r h; simp [pull_until] at h
  | succ fuel ih =>
    intro k rc s s' r h
    rw [pull_until] at h
    rcases Proc.bind_eq_some.1 h with ⟨e, he, rfl⟩ | ⟨_ | a, t, ht, h⟩
    · exact .failed he
    · cases rc
      · cases h
        exact .stop ht
      · rcases Proc.bind_eq_some.1 h with ⟨e, he, rfl⟩ | ⟨rc, u, hu, h⟩
        · exact .pull_failed ht he
        · exact .pull ht hu (ih h)
    · cases h
      exact .found ht

/-- What is available of the I-CNT. -/
def TraceDecoder.icnt_left (s : TraceDecoder σ) : Nat := s.icnt_total - s.consumed_icnt
def TraceDecoder.tnts_left (s : TraceDecoder σ) : Nat := s.tnt_total - s.consumed_tnts

theorem retire_icnt_cases {n : Nat} {s s' : TraceDecoder σ} {r : Except NexusError (Option Nat)}
    (h : retire_icnt n s = some (r, s')) : s.settled ∧ s.consumed_icnt ≤ s.icnt_total ∧
      (s.icnt_left ≤ n ∧ r = .ok none ∧ s' = s ∨
        n < s.icnt_left ∧ (s.res_icnt = 0 ∨ s.consumed_icnt = 0) ∧ (s.res_icnt < n → s.msg_present = true) ∧
          r = .ok (some n) ∧ s' = s.take_icnt n) := by
  rcases Proc.bind_eq_some.1 h with ⟨e, he, -⟩ | ⟨a, t, ha, h⟩
  · exact nomatch (available_icnt_iff.1 he).2.2.1
  obtain ⟨h1, h2, ha, rfl⟩ := available_icnt_iff.1 ha
  cases ha
  refine ⟨h1, h2, ?_⟩
  rw [Proc.ite_apply] at h
  split at h
  · right
    rcases Proc.bind_eq_some.1 h with ⟨e, he, -⟩ | ⟨⟨⟩, u, hu, h⟩
    · exact nomatch (consume_icnt_iff.1 he).2.2.2.2.2.1
    · obtain ⟨-, -, -, h3, h4, -, rfl⟩ := consume_icnt_iff.1 hu
      cases h
      exact ⟨‹_›, h3, h4, rfl, rfl⟩
  · cases h
    exact .inl ⟨Nat.le_of_not_lt ‹_›, rfl, rfl⟩

theorem retire_tnt_cases {s s' : TraceDecoder σ} {r : Except NexusError (Option Bool)} (h : retire_tnt src s = some (r, s')) :
    s.settled ∧ s.consumed_tnts ≤ s.tnt_total ∧ (s.tnts_left = 0 ∧ r = .ok none ∧ s' = s ∨
      s.tnts_left ≠ 0 ∧ ∃ b, r = .ok (some b) ∧ (∀ e ∈ spent s.res_hists, e.repeat_ = 1) ∧ TookTnt src s b s') := by
  rcases Proc.bind_eq_some.1 h with ⟨e, he, -⟩ | ⟨a, t, ha, h⟩
  · exact nomatch (available_tnts_iff.1 he).2.2.1
  obtain ⟨h1, h2, ha, rfl⟩ := available_tnts_iff.1 ha
  cases ha
  refine ⟨h1, h2, ?_⟩
  rw [Proc.ite_apply] at h
  split at h
  · right
    refine ⟨‹_›, ?_⟩
    rcases Proc.bind_eq_some.1 h with ⟨e, he, -⟩ | ⟨b, u, hu, h⟩
    · obtain ⟨-, -, -, b, hb, -⟩ := consume_tnt_iff.1 he
      cases hb
    · obtain ⟨-, -, h3, b', hb, htook⟩ := consume_tnt_iff.1 hu
      cases hb
      cases h
      exact ⟨b, rfl, h3, htook⟩
  · cases h
    exact .inl ⟨Decidable.of_not_not ‹_›, rfl, rfl⟩

theorem retire_tnt_some {s t : TraceDecoder σ} {b : Bool} (hset : s.settled) (hle : s.consumed_tnts ≤ s.tnt_total) (hne : s.tnts_left ≠ 0)
    (hspent : ∀ e ∈ spent s.res_hists, e.repeat_ = 1) (htook : TookTnt src s b t) : retire_tnt src s = some (.ok (some b), t) := by
  have hleft : s.tnt_total - s.consumed_tnts ≠ 0 := hne
  have hav : trace_available_tnts s = some (.ok s.tnts_left, s) := available_tnts_iff.2 ⟨hset, hle, rfl, rfl⟩
  have hcon : trace_consume_tnt src s = some (.ok b, t) := consume_tnt_iff.2 ⟨hset, by omega, hspent, b, rfl, htook⟩
  rw [retire_tnt, Proc.bind_ok hav, Proc.ite_apply, if_pos hne, Proc.bind_ok hcon]
  rfl

theorem retire_icnt_few {n : Nat} {s : TraceDecoder σ} (hset : s.settled) (hle : s.consumed_icnt ≤ s.icnt_total) (hfew : s.icnt_left ≤ n) :
    retire_icnt n s = some (.ok none, s) := by
  have hav : trace_available_icnt s = some (.ok s.icnt_left, s) := available_icnt_iff.2 ⟨hset, hle, rfl, rfl⟩
  rw [retire_icnt, Proc.bind_ok hav, Proc.ite_apply, if_neg (Nat.not_lt.2 hfew)]
  rfl

theorem retire_tnt_none {s : TraceDecoder σ} (hset : s.settled) (hle : s.consumed_tnts ≤ s.tnt_total) (h0 : s.tnts_left = 0) :
    retire_tnt src s = some (.ok none, s) := by
  have hav : trace_available_tnts s = some (.ok s.tnts_left, s) := available_tnts_iff.2 ⟨hset, hle, rfl, rfl⟩
  rw [retire_tnt, Proc.bind_ok hav, h0, Proc.ite_apply, if_neg (by simp)]
  rfl

/-! ## The calls -/

/-- The event that `try_retire` reports at a buffered message. -/
def TraceDecoder.event (s : TraceDecoder σ) : TraceEvent :=
  if msg_is_error s.msg then .Error else if s.tnts_left ≠ 0 then .Direct else msg_event s.msg

/-- The number of instructions that `try_retire` is asked for at most. -/
def retire_limit (icnt : Nat) : Nat := if icnt > INT32_MAX then INT32_MAX else icnt

theorem retire_limit_eq (icnt : Nat) : retire_limit icnt = min icnt INT32_MAX := by
  unfold retire_limit
  split <;> omega

theorem retire_limit_of_le {icnt : Nat} (h : icnt ≤ INT32_MAX) : retire_limit icnt = icnt := if_neg (Nat.not_lt.2 h)

/-- What `trace_try_retire` does. -/
inductive TriedRetire (src : Source σ) (env : Env) (icnt : Nat) (s : TraceDecoder σ) :
    Except NexusError (Nat × TraceEvent) → TraceDecoder σ → Prop where
  | unsynced : s.synced = false → TriedRetire src env icnt s (.error .trace_not_synced) s
  | failed (e : NexusError) (s' : TraceDecoder σ) : s.synced = true →
      Loop src env (retire_icnt (retire_limit icnt)) 0 true s (.error e) s' → TriedRetire src env icnt s (.error e) s'
  | early (n : Nat) (s' : TraceDecoder σ) : s.synced = true →
      Loop src env (retire_icnt (retire_limit icnt)) 0 true s (.ok (some n)) s' → TriedRetire src env icnt s (.ok (n, .None)) s'
  | event (t : TraceDecoder σ) : s.synced = true → Loop src env (retire_icnt (retire_limit icnt)) 0 true s (.ok none) t →
      t.msg_present = true → t.settled → t.consumed_icnt ≤ t.icnt_total → (t.res_icnt = 0 ∨ t.consumed_icnt = 0) →
      (msg_is_error t.msg = false → t.consumed_tnts ≤ t.tnt_total) →
      (msg_is_error t.msg = false → t.tnts_left = 0 → msg_has_hist t.msg = true → t.consumed_tnts = msg_hist_bits t.msg.hist) →
      TriedRetire src env icnt s (.ok (t.icnt_left, t.event)) (t.take_icnt t.icnt_left)

theorem try_retire_cases {env : Env} {icnt : Nat} {s s' : TraceDecoder σ} {r : Except NexusError (Nat × TraceEvent)}
    (h : trace_try_retire src env icnt s = some (r, s')) : TriedRetire src env icnt s r s' := by
  simp only [trace_try_retire, Proc.get_bind_apply, Proc.ite_apply] at h
  split at h
  · cases h
    exact .unsynced (by simpa using ‹(!s.synced) = true›)
  have hsync : s.synced = true := by simpa using ‹¬ (!s.synced) = true›
  rcases Proc.bind_eq_some.1 h with ⟨e, he, rfl⟩ | ⟨_ | n, t, ht, h⟩
  · exact .failed e s' hsync (pull_until_cases _ he)
  · -- stopped at a message: all of the I-CNT is consumed
    have hloop := pull_until_cases _ ht
    simp only [Proc.get_bind_apply, Proc.assert_bind_eq_some] at h
    obtain ⟨hp, h⟩ := h
    rcases Proc.bind_eq_some.1 h with ⟨e, he, -⟩ | ⟨a, u, hu, h⟩
    · exact nomatch (available_icnt_iff.1 he).2.2.1
    obtain ⟨h1, h2, ha, hut⟩ := available_icnt_iff.1 hu
    cases ha
    rcases Proc.bind_eq_some.1 h with ⟨e, he, -⟩ | ⟨⟨⟩, v, hv, h⟩
    · exact nomatch (consume_icnt_iff.1 he).2.2.2.2.2.1
    obtain ⟨-, -, -, h3, -, -, hv⟩ := consume_icnt_iff.1 hv
    rw [hut] at hv h3
    have hsame : v.tnt_total = t.tnt_total ∧ v.consumed_tnts = t.consumed_tnts := by
      rw [hv]
      unfold TraceDecoder.take_icnt
      split <;> exact ⟨rfl, rfl⟩
    rw [Proc.ite_apply] at h
    split at h
    · rename_i herr
      cases h
      have hev : t.event = .Error := by rw [TraceDecoder.event, if_pos herr]
      rw [hv, ← hev]
      exact .event t hsync hloop hp h1 h2 h3 (fun h => absurd herr (by simp [h])) fun h => absurd herr (by simp [h])
    · rename_i herr
      rcases Proc.bind_eq_some.1 h with ⟨e, he, -⟩ | ⟨a, w, hw, h⟩
      · exact nomatch (available_tnts_iff.1 he).2.2.1
      obtain ⟨-, h4, ha, hwv⟩ := available_tnts_iff.1 hw
      cases ha
      rw [hsame.1, hsame.2] at h4 h
      rw [Proc.ite_apply] at h
      split at h
      · have hleft : t.tnts_left ≠ 0 := ‹_›
        cases h
        have hev : t.event = .Direct := by rw [TraceDecoder.event, if_neg herr, if_pos hleft]
        rw [hwv, hv, ← hev]
        exact .event t hsync hloop hp h1 h2 h3 (fun _ => h4) fun _ h => absurd h hleft
      · have hleft : ¬ t.tnts_left ≠ 0 := ‹_›
        obtain ⟨h5, h⟩ := Proc.assert_bind_eq_some.1 h
        cases h
        have hev : t.event = msg_event t.msg := by rw [TraceDecoder.event, if_neg herr, if_neg hleft]
        rw [hwv, hv, ← hev]
        refine .event t hsync hloop hp h1 h2 h3 (fun _ => h4) fun _ _ hh => ?_
        simpa [hh] using h5
  · cases h
    exact .early n s' hsync (pull_until_cases _ ht)

/-- A direct branch, which `next_tnt` retires. -/
def msg_is_dir_branch (m : Msg) : Bool := msg_is_branch m && !msg_is_indir_branch m

theorem dir_branch_eq (m : Msg) : msg_is_dir_branch m = !(!msg_is_branch m || msg_is_indir_branch m) := by
  rw [Bool.not_or, Bool.not_not, msg_is_dir_branch]

/-- What `trace_next_tnt` does. -/
inductive TriedTnt (src : Source σ) (env : Env) (s : TraceDecoder σ) : Except NexusError Bool → TraceDecoder σ → Prop where
  | unsynced : s.synced = false → TriedTnt src env s (.error .trace_not_synced) s
  | failed (e : NexusError) (s' : TraceDecoder σ) : s.synced = true → Loop src env (retire_tnt src) 0 true s (.error e) s' →
      TriedTnt src env s (.error e) s'
  | bit (b : Bool) (s' : TraceDecoder σ) : s.synced = true → Loop src env (retire_tnt src) 0 true s (.ok (some b)) s' →
      TriedTnt src env s (.ok b) s'
  | waiting (t : TraceDecoder σ) : s.synced = true → Loop src env (retire_tnt src) 0 true s (.ok none) t → t.msg_present = true →
      t.settled → t.icnt_left ≠ 0 → TriedTnt src env s (.ok false) t
  | mismatch (t : TraceDecoder σ) : s.synced = true → Loop src env (retire_tnt src) 0 true s (.ok none) t → t.msg_present = true →
      t.settled → t.icnt_left = 0 → msg_is_dir_branch t.msg = false → TriedTnt src env s (.error .trace_mismatch) t
  | branch (t : TraceDecoder σ) : s.synced = true → Loop src env (retire_tnt src) 0 true s (.ok none) t → t.icnt_left = 0 →
      msg_is_dir_branch t.msg = true → Retirable t → TriedTnt src env s (.ok true) (t.retired src)

theorem next_tnt_cases {env : Env} {s s' : TraceDecoder σ} {r : Except NexusError Bool}
    (h : trace_next_tnt src env s = some (r, s')) : TriedTnt src env s r s' := by
  simp only [trace_next_tnt, Proc.get_bind_apply, Proc.ite_apply] at h
  split at h
  · cases h
    exact .unsynced (by simpa using ‹(!s.synced) = true›)
  have hsync : s.synced = true := by simpa using ‹¬ (!s.synced) = true›
  rcases Proc.bind_eq_some.1 h with ⟨e, he, rfl⟩ | ⟨_ | b, t, ht, h⟩
  · exact .failed e s' hsync (pull_until_cases _ he)
  · have hloop := pull_until_cases _ ht
    simp only [Proc.get_bind_apply, Proc.assert_bind_eq_some] at h
    obtain ⟨hp, h⟩ := h
    rcases Proc.bind_eq_some.1 h with ⟨e, he, -⟩ | ⟨a, u, hu, h⟩
    · exact nomatch (available_icnt_iff.1 he).2.2.1
    obtain ⟨h1, h2, ha, hut⟩ := available_icnt_iff.1 hu
    cases ha
    rw [hut, Proc.ite_apply] at h
    split at h
    · cases h
      exact .waiting _ hsync hloop hp h1 ‹_›
    have hleft : t.icnt_left = 0 := Decidable.of_not_not ‹_›
    rw [Proc.ite_apply] at h
    split at h
    · rename_i hb
      cases h
      exact .mismatch _ hsync hloop hp h1 hleft (by rw [dir_branch_eq, hb]; rfl)
    · rename_i hb
      rcases Proc.bind_eq_some.1 h with ⟨e, he, -⟩ | ⟨⟨⟩, v, hv, h⟩
      · exact nomatch (retire_msg_iff.1 he).2.1
      obtain ⟨h3, -, rfl⟩ := retire_msg_iff.1 hv
      cases h
      exact .branch t hsync hloop hleft (by rw [dir_branch_eq, Bool.eq_false_of_not_eq_true hb]; rfl) h3
  · cases h
    exact .bit b s' hsync (pull_until_cases _ ht)

/-- Nothing is left to retire in front of the message. -/
structure TraceDecoder.Exhausted (s : TraceDecoder σ) : Prop where
  icnt : s.icnt_left = 0
  tnts : s.tnts_left = 0
  icnt_le : s.consumed_icnt ≤ s.icnt_total
  tnts_le : s.consumed_tnts ≤ s.tnt_total

theorem nothing_available_cases {s s' : TraceDecoder σ} {r : Except NexusError Unit}
    (h : nothing_available s = some (r, s')) : s' = s ∧ s.settled ∧
      (r = .ok () ∧ s.Exhausted ∨ r = .error .trace_mismatch ∧ (s.icnt_left ≠ 0 ∨ s.tnts_left ≠ 0)) := by
  rcases Proc.bind_eq_some.1 h with ⟨e, he, -⟩ | ⟨a, t, ha, h⟩
  · exact nomatch (available_icnt_iff.1 he).2.2.1
  obtain ⟨h1, h2, ha, ht⟩ := available_icnt_iff.1 ha
  cases ha
  rw [ht, Proc.ite_apply] at h
  split at h
  · cases h
    exact ⟨rfl, h1, .inr ⟨rfl, .inl ‹_›⟩⟩
  have hi : s.icnt_left = 0 := Decidable.of_not_not ‹_›
  rcases Proc.bind_eq_some.1 h with ⟨e, he, -⟩ | ⟨a, t, ha, h⟩
  · exact nomatch (available_tnts_iff.1 he).2.2.1
  obtain ⟨-, h3, ha, ht⟩ := available_tnts_iff.1 ha
  cases ha
  rw [ht, Proc.ite_apply] at h
  split at h
  · cases h
    exact ⟨rfl, h1, .inr ⟨rfl, .inr ‹_›⟩⟩
  · cases h
    exact ⟨rfl, h1, .inl ⟨rfl, hi, Decidable.of_not_not ‹_›, h2, h3⟩⟩

/-- The target of the buffered indirect branch is worked out. -/
def TraceDecoder.addressed (s : TraceDecoder σ) : TraceDecoder σ :=
  if msg_is_sync s.msg then { s with full_addr := s.msg.xaddr }
  else { s with full_addr := s.full_addr ^^^ s.msg.xaddr, msg := { s.msg with xaddr := 0 } }

/-- The indirect branch that `next_indirect` returns for the buffered message. -/
def TraceDecoder.indirect (src : Source σ) (s : TraceDecoder σ) (ownership : Option TraceOwnership) : TraceIndirect :=
  ⟨extend_addr_bits (s.addressed.full_addr <<< 1) (src.hw_cfg s.msg_decoder).addr_bits,
    s.msg.branch_type = 1 || s.msg.branch_type = 3, s.msg.branch_type = 1 || s.msg.branch_type = 2, ownership⟩

def Msg.ownership (m : Msg) : TraceOwnership := ⟨m.ownership_fmt, m.ownership_priv, m.ownership_v, m.context⟩

/-- What `trace_next_indirect` does. -/
inductive NextIndirect (src : Source σ) (env : Env) (s : TraceDecoder σ) : Except NexusError TraceIndirect → TraceDecoder σ → Prop where
  | unsynced : s.synced = false → NextIndirect src env s (.error .trace_not_synced) s
  | fetch_failed (e : NexusError) (s' : TraceDecoder σ) : s.synced = true → Fetched src (env.msg2 0) s (.error e) s' →
      NextIndirect src env s (.error e) s'
  | mismatch (b : Bool) (t : TraceDecoder σ) : s.synced = true → Fetched src (env.msg2 0) s (.ok b) t → t.settled →
      t.icnt_left ≠ 0 ∨ t.tnts_left ≠ 0 ∨ msg_is_indir_branch t.msg = false → NextIndirect src env s (.error .trace_mismatch) t
  | ahead_failed (b : Bool) (t : TraceDecoder σ) (e : NexusError) (d : σ) (m₂ : Msg) : s.synced = true →
      Fetched src (env.msg2 0) s (.ok b) t → t.settled → t.Exhausted → msg_is_indir_branch t.msg = true → Retirable t →
      src.next (t.msg_decoder, env.msg2 1) = some (.error e, d, m₂) →
      NextIndirect src env s (.error e) { t.addressed.retired src with msg_decoder := d }
  | other (b : Bool) (t : TraceDecoder σ) (n : Nat) (d d' : σ) (m₂ : Msg) : s.synced = true →
      Fetched src (env.msg2 0) s (.ok b) t → t.settled → t.Exhausted → msg_is_indir_branch t.msg = true → Retirable t →
      src.next (t.msg_decoder, env.msg2 1) = some (.ok n, d, m₂) → m₂.tcode ≠ .Ownership → src.rewind_last d = some d' →
      NextIndirect src env s (.ok (t.indirect src none)) { t.addressed.retired src with msg_decoder := d' }
  | ownership (b : Bool) (t : TraceDecoder σ) (n : Nat) (d : σ) (m₂ : Msg) : s.synced = true →
      Fetched src (env.msg2 0) s (.ok b) t → t.settled → t.Exhausted → msg_is_indir_branch t.msg = true → Retirable t →
      src.next (t.msg_decoder, env.msg2 1) = some (.ok n, d, m₂) → m₂.tcode = .Ownership →
      NextIndirect src env s (.ok (t.indirect src (some m₂.ownership))) { t.addressed.retired src with msg_decoder := d }

theorem addressed_retirable {s : TraceDecoder σ} : Retirable s.addressed ↔ Retirable s := by
  unfold TraceDecoder.addressed
  split
  · exact ⟨fun ⟨a, b, c, d, e, f, g⟩ => ⟨a, b, c, d, e, f, g⟩, fun ⟨a, b, c, d, e, f, g⟩ => ⟨a, b, c, d, e, f, g⟩⟩
  · exact ⟨fun ⟨a, b, c, d, e, f, g⟩ => ⟨a, b, c, d, e, f, g⟩, fun ⟨a, b, c, d, e, f, g⟩ => ⟨a, b, c, d, e, f, g⟩⟩

theorem retired_msg_decoder (s : TraceDecoder σ) : (s.retired src).msg_decoder = s.msg_decoder := by
  unfold TraceDecoder.retired
  split
  · split
    · rfl
    · dsimp only
      split <;> rfl
  · split <;> rfl

theorem addressed_msg_decoder (s : TraceDecoder σ) : s.addressed.msg_decoder = s.msg_decoder := by
  unfold TraceDecoder.addressed
  split <;> rfl

theorem addressed_branch_type (s : TraceDecoder σ) : s.addressed.msg.branch_type = s.msg.branch_type := by
  unfold TraceDecoder.addressed
  split <;> rfl

theorem indirect_eq (s : TraceDecoder σ) (ownership : Option TraceOwnership) : s.indirect src ownership =
    ⟨extend_addr_bits (s.addressed.full_addr <<< 1) (src.hw_cfg s.addressed.msg_decoder).addr_bits,
      s.addressed.msg.branch_type = 1 || s.addressed.msg.branch_type = 3,
      s.addressed.msg.branch_type = 1 || s.addressed.msg.branch_type = 2, ownership⟩ := by
  rw [addressed_msg_decoder, addressed_branch_type]
  rfl

theorem indir_is_branch {m : Msg} (h : msg_is_indir_branch m = true) : msg_is_branch m = true := by
  unfold msg_is_indir_branch at h
  unfold msg_is_branch
  split at h <;> simp_all

theorem next_indirect_cases {env : Env} {s s' : TraceDecoder σ} {r : Except NexusError TraceIndirect}
    (h : trace_next_indirect src env s = some (r, s')) : NextIndirect src env s r s' := by
  simp only [trace_next_indirect, Proc.get_bind_apply, Proc.ite_apply] at h
  split at h
  · cases h
    exact .unsynced (by simpa using ‹(!s.synced) = true›)
  have hsync : s.synced = true := by simpa using ‹¬ (!s.synced) = true›
  rcases Proc.bind_eq_some.1 h with ⟨e, he, rfl⟩ | ⟨b, t, ht, h⟩
  · exact .fetch_failed e s' hsync (fetch_cases he)
  have hf := fetch_cases ht
  rcases Proc.bind_eq_some.1 h with ⟨e, he, hre⟩ | ⟨⟨⟩, u, hu, h⟩
  · obtain ⟨hst, h1, ⟨hr, -⟩ | ⟨hr, hor⟩⟩ := nothing_available_cases he
    · cases hr
    · cases hr
      rw [hst, hre]
      exact .mismatch b _ hsync hf h1 (hor.imp_right .inl)
  obtain ⟨hut, h1, ⟨-, hex⟩ | ⟨hr, -⟩⟩ := nothing_available_cases hu
  · rw [hut, Proc.get_bind_apply, Proc.ite_apply] at h
    split at h
    · rename_i hb
      have hi : msg_is_indir_branch t.msg = false := by
        rcases hi : msg_is_indir_branch t.msg
        · rfl
        · simp [hi, indir_is_branch hi] at hb
      cases h
      exact .mismatch b _ hsync hf h1 (.inr (.inr hi))
    · rename_i hb
      have hind : msg_is_indir_branch t.msg = true := by
        rw [Bool.or_eq_true, not_or] at hb
        simpa using hb.2
      simp only [Proc.modify_bind_apply, Proc.get_bind_apply] at h
      change (trace_retire_msg src >>= _) t.addressed = _ at h
      rcases Proc.bind_eq_some.1 h with ⟨e, he, -⟩ | ⟨⟨⟩, v, hv, h⟩
      · exact nomatch (retire_msg_iff.1 he).2.1
      obtain ⟨hret, -, hv⟩ := retire_msg_iff.1 hv
      have hret := addressed_retirable.1 hret
      have hdec : (t.addressed.retired src).msg_decoder = t.msg_decoder := by rw [retired_msg_decoder, addressed_msg_decoder]
      rw [hv] at h
      rcases Proc.bind_eq_some.1 h with ⟨e, he, rfl⟩ | ⟨r₂, w, hw, h⟩
      · rw [next_msg2_apply, hdec] at he
        obtain ⟨⟨r', d, m₂⟩, hnext, hr⟩ := Option.map_eq_some_iff.1 he
        rcases r' with e' | n <;> cases hr
        exact .ahead_failed b t e d m₂ hsync hf h1 hex hind hret hnext
      · rw [next_msg2_apply, hdec] at hw
        obtain ⟨⟨r', d, m₂⟩, hnext, hr⟩ := Option.map_eq_some_iff.1 hw
        rcases r' with e' | n <;> cases hr
        rw [Proc.ite_apply] at h
        split at h
        · rcases Proc.bind_eq_some.1 h with ⟨e, he, rfl⟩ | ⟨⟨⟩, x, hx, h⟩
          · obtain ⟨d', -, hr⟩ := Option.map_eq_some_iff.1 he
            cases hr
          · obtain ⟨d', hrew, hr⟩ := Option.map_eq_some_iff.1 hx
            cases hr
            cases h
            have hother := NextIndirect.other b t n d d' m₂ hsync hf h1 hex hind hret hnext ‹_› hrew
            rw [indirect_eq] at hother
            exact hother
        · cases h
          have hown := NextIndirect.ownership b t n d m₂ hsync hf h1 hex hind hret hnext (Decidable.of_not_not ‹_›)
          rw [indirect_eq] at hown
          exact hown
  · cases hr

/-- The checks in front of `next_sync` and `next_stop`, for a kind of message. -/
inductive Checked (src : Source σ) (env : Env) (kind : Msg → Bool) (s : TraceDecoder σ) :
    Except NexusError (TraceDecoder σ) → TraceDecoder σ → Prop where
  | unsynced : s.synced = false → Checked src env kind s (.error .trace_not_synced) s
  | fetch_failed (e : NexusError) (s' : TraceDecoder σ) : s.synced = true → Fetched src (env.msg2 0) s (.error e) s' →
      Checked src env kind s (.error e) s'
  | mismatch (b : Bool) (t : TraceDecoder σ) : s.synced = true → Fetched src (env.msg2 0) s (.ok b) t → t.settled →
      t.icnt_left ≠ 0 ∨ t.tnts_left ≠ 0 ∨ kind t.msg = false → Checked src env kind s (.error .trace_mismatch) t
  | passed (b : Bool) (t : TraceDecoder σ) : s.synced = true → Fetched src (env.msg2 0) s (.ok b) t → t.settled → t.Exhausted →
      kind t.msg = true → Checked src env kind s (.ok t) t

theorem checked_cases {env : Env} {kind : Msg → Bool} {f : TraceDecoder σ → Trace σ α} {s s' : TraceDecoder σ} {r : Except NexusError α}
    (h : (do
      let s ← Proc.get
      if !s.synced then Proc.fail .trace_not_synced
      else do
        let _ ← trace_fetch_msg src (env.msg2 0)
        nothing_available
        let s ← Proc.get
        if !kind s.msg then Proc.fail .trace_mismatch else f s : Trace σ α) s = some (r, s')) :
    (∃ e, r = .error e ∧ Checked src env kind s (.error e) s') ∨ ∃ t, Checked src env kind s (.ok t) t ∧ f t t = some (r, s') := by
  simp only [Proc.get_bind_apply, Proc.ite_apply] at h
  split at h
  · cases h
    exact .inl ⟨_, rfl, .unsynced (by simpa using ‹(!s.synced) = true›)⟩
  have hsync : s.synced = true := by simpa using ‹¬ (!s.synced) = true›
  rcases Proc.bind_eq_some.1 h with ⟨e, he, rfl⟩ | ⟨b, t, ht, h⟩
  · exact .inl ⟨e, rfl, .fetch_failed e s' hsync (fetch_cases he)⟩
  have hf := fetch_cases ht
  rcases Proc.bind_eq_some.1 h with ⟨e, he, hre⟩ | ⟨⟨⟩, u, hu, h⟩
  · obtain ⟨hst, h1, ⟨hr, -⟩ | ⟨hr, hor⟩⟩ := nothing_available_cases he
    · cases hr
    · cases hr
      rw [hst, hre]
      exact .inl ⟨_, rfl, .mismatch b _ hsync hf h1 (hor.imp_right .inl)⟩
  obtain ⟨hut, h1, ⟨-, hex⟩ | ⟨hr, -⟩⟩ := nothing_available_cases hu
  · rw [hut, Proc.get_bind_apply, Proc.ite_apply] at h
    split at h
    · have hk : kind t.msg = false := by simpa using ‹(!kind t.msg) = true›
      cases h
      exact .inl ⟨_, rfl, .mismatch b _ hsync hf h1 (.inr (.inr hk))⟩
    · have hk : kind t.msg = true := by simpa using ‹¬ (!kind t.msg) = true›
      exact .inr ⟨t, .passed b t hsync hf h1 hex hk, h⟩
  · cases hr

/-- A sync message that is not a branch. -/
def msg_is_plain_sync (m : Msg) : Bool := msg_is_sync m && !msg_is_branch m

theorem retired_present {s : TraceDecoder σ} (h : msg_is_branch s.msg = false) : (s.retired src).msg_present = false := by
  simp only [TraceDecoder.retired, h, Bool.false_eq_true, if_false]
  split <;> rfl

/-- The sync event of the buffered message. -/
def TraceDecoder.sync_event (src : Source σ) (s : TraceDecoder σ) : TraceSync :=
  ⟨extend_addr_bits (s.msg.xaddr <<< 1) (src.hw_cfg s.msg_decoder).addr_bits, s.msg.sync_type⟩

theorem next_sync_cases {env : Env} {s s' : TraceDecoder σ} {r : Except NexusError TraceSync} (h : trace_next_sync src env s = some (r, s')) :
    (∃ e, r = .error e ∧ Checked src env msg_is_plain_sync s (.error e) s') ∨
      ∃ t, Checked src env msg_is_plain_sync s (.ok t) t ∧ Retirable t ∧ r = .ok (t.sync_event src) ∧ s' = t.retired src := by
  have hcond : ∀ m : Msg, (!msg_is_sync m || msg_is_branch m) = !msg_is_plain_sync m := fun m => by
    rw [msg_is_plain_sync, Bool.not_and, Bool.not_not]
  simp only [trace_next_sync, hcond] at h
  refine (checked_cases h).imp_right fun ⟨t, hc, h⟩ => ⟨t, hc, ?_⟩
  rcases Proc.bind_eq_some.1 h with ⟨e, he, -⟩ | ⟨⟨⟩, v, hv, h⟩
  · exact nomatch (retire_msg_iff.1 he).2.1
  obtain ⟨hret, -, rfl⟩ := retire_msg_iff.1 hv
  simp only [Proc.get_bind_apply, Proc.assert_bind_eq_some] at h
  cases h.2
  exact ⟨hret, rfl, rfl⟩

theorem next_stop_cases {env : Env} {s s' : TraceDecoder σ} {r : Except NexusError TraceStop} (h : trace_next_stop src env s = some (r, s')) :
    (∃ e, r = .error e ∧ Checked src env msg_is_stop s (.error e) s') ∨
      ∃ t, Checked src env msg_is_stop s (.ok t) t ∧ Retirable t ∧ r = .ok ⟨t.msg.stop_code⟩ ∧ s' = { t.retired src with synced := false } := by
  have hcond : ∀ (s : TraceDecoder σ) (x y : Trace σ TraceStop), (if s.msg.tcode ≠ .ProgTraceCorrelation then x else y) =
      if !msg_is_stop s.msg then x else y := by
    intro s x y
    simp only [msg_is_stop, ne_eq, Bool.not_eq_true', decide_eq_false_iff_not]
  simp only [trace_next_stop, hcond] at h
  refine (checked_cases h).imp_right fun ⟨t, hc, h⟩ => ⟨t, hc, ?_⟩
  rcases Proc.bind_eq_some.1 h with ⟨e, he, -⟩ | ⟨⟨⟩, v, hv, h⟩
  · exact nomatch (retire_msg_iff.1 he).2.1
  obtain ⟨hret, -, rfl⟩ := retire_msg_iff.1 hv
  simp only [Proc.get_bind_apply, Proc.assert_bind_eq_some, Proc.modify_bind_apply] at h
  cases h.2
  exact ⟨hret, rfl, rfl⟩

/-- What `next_error` drops: all that is accumulated, with the time of every element retired. -/
def TraceDecoder.emptied (src : Source σ) (s : TraceDecoder σ) : TraceDecoder σ :=
  { s with
    res_icnt := 0
    res_tnts := 0
    consumed_icnt := 0
    consumed_tnts := 0
    res_hists := []
    timestamp := s.res_hists.foldl (fun t e => combine_time (s.sifive src) t e.timestamp) s.timestamp }

theorem drain_all_eq (l : List HistElement) : ∀ {s : TraceDecoder σ}, s.res_hists = l → drain_all src l s = some (.ok (),
    { s with res_hists := [], timestamp := l.foldl (fun t e => combine_time (s.sifive src) t e.timestamp) s.timestamp }) := by
  induction l with
  | nil =>
    intro s h
    cases s
    cases h
    rfl
  | cons e l ih =>
    intro s h
    rw [drain_all, retire_timestamp_bind, Proc.modify_bind_apply, ih rfl]
    rfl

/-- What `trace_next_error` does. -/
inductive NextError (src : Source σ) (env : Env) (s : TraceDecoder σ) : Except NexusError TraceError → TraceDecoder σ → Prop where
  | unsynced : s.synced = false → NextError src env s (.error .trace_not_synced) s
  | fetch_failed (e : NexusError) (s' : TraceDecoder σ) : s.synced = true → Fetched src (env.msg2 0) s (.error e) s' →
      NextError src env s (.error e) s'
  | mismatch (b : Bool) (t : TraceDecoder σ) : s.synced = true → Fetched src (env.msg2 0) s (.ok b) t → t.msg.tcode ≠ .Error →
      NextError src env s (.error .trace_mismatch) t
  | passed (b : Bool) (t : TraceDecoder σ) : s.synced = true → Fetched src (env.msg2 0) s (.ok b) t → t.msg.tcode = .Error →
      t.msg_present = true →
      NextError src env s (.ok ⟨t.msg.error_code, t.msg.error_type⟩) { (t.emptied src).retired src with synced := false }

theorem next_error_cases {env : Env} {s s' : TraceDecoder σ} {r : Except NexusError TraceError}
    (h : trace_next_error src env s = some (r, s')) : NextError src env s r s' := by
  simp only [trace_next_error, Proc.get_bind_apply, Proc.ite_apply] at h
  split at h
  · cases h
    exact .unsynced (by simpa using ‹(!s.synced) = true›)
  have hsync : s.synced = true := by simpa using ‹¬ (!s.synced) = true›
  rcases Proc.bind_eq_some.1 h with ⟨e, he, rfl⟩ | ⟨b, t, ht, h⟩
  · exact .fetch_failed e s' hsync (fetch_cases he)
  have hf := fetch_cases ht
  simp only [Proc.get_bind_apply, Proc.ite_apply, Proc.modify_bind_apply] at h
  split at h
  · cases h
    exact .mismatch b _ hsync hf ‹_›
  · have hdrain := @drain_all_eq _ src t.res_hists
      { t with res_icnt := 0, res_tnts := 0, consumed_icnt := 0, consumed_tnts := 0 } rfl
    rw [Proc.bind_ok hdrain] at h
    rcases Proc.bind_eq_some.1 h with ⟨e, he, -⟩ | ⟨⟨⟩, v, hv, h⟩
    · exact nomatch (retire_msg_iff.1 he).2.1
    obtain ⟨hret, -, rfl⟩ := retire_msg_iff.1 hv
    simp only [Proc.get_bind_apply, Proc.assert_bind_eq_some, Proc.modify_bind_apply] at h
    cases h.2
    exact .passed b t hsync hf (Decidable.of_not_not ‹_›) hret.present

/-- The loop of `sync_reset`. -/
inductive Forwards (src : Source σ) (env : Env) : Nat → TraceDecoder σ → Except NexusError Unit → TraceDecoder σ → Prop where
  | failed {k s e s'} : Fetched src (env.msg2 k) s (.error e) s' → Forwards src env k s (.error e) s'
  | found {k s b t} : Fetched src (env.msg2 k) s (.ok b) t → msg_is_sync t.msg = true → Forwards src env k s (.ok ()) t
  | skip {k s b t r s'} : Fetched src (env.msg2 k) s (.ok b) t → msg_is_sync t.msg = false →
      Forwards src env (k + 1) { t with msg_present := false } r s' → Forwards src env k s r s'

theorem sync_forward_cases {env : Env} (fuel : Nat) : ∀ {k : Nat} {s s' : TraceDecoder σ} {r : Except NexusError Unit},
    sync_forward src env fuel k s = some (r, s') → Forwards src env k s r s' := by
  induction fuel with
  | zero => intro k s s' r h; simp [sync_forward] at h
  | succ fuel ih =>
    intro k s s' r h
    rw [sync_forward] at h
    rcases Proc.bind_eq_some.1 h with ⟨e, he, rfl⟩ | ⟨b, t, ht, h⟩
    · exact .failed (fetch_cases he)
    simp only [Proc.get_bind_apply, Proc.ite_apply, Proc.modify_bind_apply] at h
    split at h
    · cases h
      exact .found (fetch_cases ht) ‹_›
    · exact .skip (fetch_cases ht) (by simpa using ‹¬ msg_is_sync t.msg = true›) (ih h)

/-- Synchronized at the buffered message, which becomes a ProgTraceSync. -/
def TraceDecoder.resynced (s : TraceDecoder σ) : TraceDecoder σ :=
  { s with
    res_hists := []
    res_tnts := 0
    res_icnt := 0
    consumed_tnts := 0
    consumed_icnt := 0
    synced := true
    msg := { s.msg with tcode := .ProgTraceSync, icnt := 0 } }

theorem sync_reset_cases {env : Env} {s s' : TraceDecoder σ} {r : Except NexusError (Option TraceSync)}
    (h : trace_sync_reset src env s = some (r, s')) : (s.synced = true ∧ r = .ok none ∧ s' = s) ∨
      s.synced = false ∧ ((∃ e, r = .error e ∧ Forwards src env 0 s (.error e) s') ∨
        ∃ t r', Forwards src env 0 s (.ok ()) t ∧ trace_next_sync src env t.resynced = some (r', s') ∧ r = r'.map some) := by
  simp only [trace_sync_reset, Proc.get_bind_apply, Proc.ite_apply] at h
  split at h
  · cases h
    exact .inl ⟨‹_›, rfl, rfl⟩
  refine .inr ⟨by simpa using ‹¬ s.synced = true›, ?_⟩
  rcases Proc.bind_eq_some.1 h with ⟨e, he, rfl⟩ | ⟨⟨⟩, t, ht, h⟩
  · exact .inl ⟨e, rfl, sync_forward_cases _ he⟩
  · rw [Proc.modify_bind_apply] at h
    rcases Proc.bind_eq_some.1 h with ⟨e, he, rfl⟩ | ⟨a, u, hu, h⟩
    · exact .inr ⟨t, .error e, sync_forward_cases _ ht, he, rfl⟩
    · cases h
      exact .inr ⟨t, .ok a, sync_forward_cases _ ht, hu, rfl⟩

end Laws

end nexusrv
