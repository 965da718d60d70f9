import NexusRv.LookAhead
import NexusRv.Split
/-!
# Two trace decoders side by side

What the trace decoder does depends on the messages that its message decoder delivers, and on no field of a message that its TCODE does not
carry. Two trace decoders, over message decoders of different kinds, are twins if they agree on everything else: twins do the same,
assertion for assertion, and stay twins.
-/

namespace nexusrv

section Messages
variable {a b : Msg}

theorem Msg.Same.refl (a : Msg) : a.Same a := ⟨rfl, rfl, rfl, rfl⟩

theorem Msg.Same.is_res (h : a.Same b) : msg_is_res a = msg_is_res b := by rw [msg_is_res, msg_is_res, h.1]
theorem Msg.Same.is_error (h : a.Same b) : msg_is_error a = msg_is_error b := by rw [msg_is_error, msg_is_error, h.1]
theorem Msg.Same.is_branch (h : a.Same b) : msg_is_branch a = msg_is_branch b := by rw [msg_is_branch, msg_is_branch, h.1]
theorem Msg.Same.is_indir_branch (h : a.Same b) : msg_is_indir_branch a = msg_is_indir_branch b := by
  rw [msg_is_indir_branch, msg_is_indir_branch, h.1]
theorem Msg.Same.is_sync (h : a.Same b) : msg_is_sync a = msg_is_sync b := by rw [msg_is_sync, msg_is_sync, h.1]
theorem Msg.Same.is_stop (h : a.Same b) : msg_is_stop a = msg_is_stop b := by rw [msg_is_stop, msg_is_stop, h.1]

theorem Msg.Same.res_code (h : a.Same b) (hr : msg_is_res a = true) : a.res_code = b.res_code := by
  obtain ⟨ht, -, hc, -⟩ := h
  have ha : a.tcode = .ResourceFull := by simpa [msg_is_res] using hr
  simp only [Msg.carried, ← ht, ha, List.cons.injEq] at hc
  exact hc.2.1

theorem Msg.Same.cdf (h : a.Same b) (hr : msg_is_stop a = true) : a.cdf = b.cdf := by
  obtain ⟨ht, -, hc, -⟩ := h
  have ha : a.tcode = .ProgTraceCorrelation := by simpa [msg_is_stop] using hr
  simp only [Msg.carried, ← ht, ha, List.cons.injEq] at hc
  exact hc.2.2.1

theorem Msg.Same.has_icnt (h : a.Same b) : msg_has_icnt a = msg_has_icnt b := by
  have hr := h.res_code
  obtain ⟨ht, -, -, -⟩ := h
  unfold msg_has_icnt
  unfold msg_is_res at hr
  rw [← ht]
  cases hta : a.tcode <;> simp_all

theorem Msg.Same.has_hist (h : a.Same b) : msg_has_hist a = msg_has_hist b := by
  have hr := h.res_code
  have hs := h.cdf
  obtain ⟨ht, -, -, -⟩ := h
  unfold msg_has_hist
  unfold msg_is_res at hr
  unfold msg_is_stop at hs
  rw [← ht]
  cases hta : a.tcode <;> simp_all

theorem Msg.Same.icnt (h : a.Same b) (hi : msg_has_icnt a = true) : a.icnt = b.icnt := by
  have hr := h.res_code
  obtain ⟨ht, -, hc, -⟩ := h
  rw [← UInt32.toNat_inj]
  simp only [Msg.carried, ← ht] at hc
  simp only [msg_has_icnt] at hi
  simp only [msg_is_res] at hr
  clear ht
  cases hta : a.tcode with
  | ResourceFull =>
    have hcode := hr (by simp [hta])
    simp only [hta, decide_eq_true_eq] at hi
    simp only [hta, ← hcode, hi, List.cons.injEq] at hc
    exact hc.2.2.1
  | _ => simp_all

theorem Msg.Same.hist (h : a.Same b) (hi : msg_has_hist a = true) : a.hist = b.hist := by
  have hr := h.res_code
  have hs := h.cdf
  obtain ⟨ht, -, hc, -⟩ := h
  rw [← UInt32.toNat_inj]
  simp only [Msg.carried, ← ht] at hc
  simp only [msg_has_hist] at hi
  simp only [msg_is_res] at hr
  simp only [msg_is_stop] at hs
  clear ht
  cases hta : a.tcode with
  | ResourceFull =>
    have hcode := hr (by simp [hta])
    simp only [hta, Bool.or_eq_true, decide_eq_true_eq] at hi
    rcases hi with hi | hi
    · simp only [hta, ← hcode, hi, List.cons.injEq] at hc
      exact hc.2.2.1
    · simp only [hta, ← hcode, hi, List.cons.injEq] at hc
      exact hc.2.2.1
  | _ => simp_all

theorem Msg.Same.hrepeat (h : a.Same b) (hi : msg_is_branch a = true ∨ msg_has_hist a = true) : a.hrepeat = b.hrepeat := by
  have hr := h.res_code
  obtain ⟨ht, -, -, hc⟩ := h
  rw [← UInt32.toNat_inj]
  simp only [Msg.cleared, ← ht] at hc
  simp only [msg_has_hist, msg_is_branch] at hi
  simp only [msg_is_res] at hr
  clear ht
  cases hta : a.tcode with
  | ResourceFull =>
    have hcode := hr (by simp [hta])
    simp only [hta, Bool.or_eq_true, decide_eq_true_eq, Bool.false_eq_true, false_or] at hi
    have hle : ¬ a.res_code > 2 := by omega
    simp only [hta, ← hcode, hle, if_false, List.cons.injEq] at hc
    exact hc.2.2.1
  | _ => simp_all

theorem Msg.Same.res_data (h : a.Same b) (hr : msg_is_res a = true) (hc : a.res_code > 2) : a.res_data = b.res_data := by
  have hcode := h.res_code hr
  obtain ⟨ht, -, hcar, -⟩ := h
  have ha : a.tcode = .ResourceFull := by simpa [msg_is_res] using hr
  obtain ⟨k, hk⟩ : ∃ k, a.res_code = k + 3 := ⟨a.res_code - 3, by omega⟩
  simp only [Msg.carried, ← ht, ha, ← hcode, hk, List.cons.injEq] at hcar
  exact UInt32.toNat_inj.1 hcar.2.2.1

theorem Msg.Same.xaddr (h : a.Same b) (hx : msg_has_xaddr a = true) : a.xaddr = b.xaddr := by
  obtain ⟨ht, -, hc, -⟩ := h
  rw [← UInt64.toNat_inj]
  simp only [Msg.carried, ← ht] at hc
  simp only [msg_has_xaddr] at hx
  clear ht
  cases hta : a.tcode <;> simp_all

theorem Msg.Same.branch_type (h : a.Same b) (hi : msg_is_indir_branch a = true) : a.branch_type = b.branch_type := by
  obtain ⟨ht, -, hc, -⟩ := h
  simp only [Msg.carried, ← ht] at hc
  simp only [msg_is_indir_branch] at hi
  clear ht
  cases hta : a.tcode <;> simp_all

theorem Msg.Same.sync_type (h : a.Same b) (hi : msg_is_sync a = true) : a.sync_type = b.sync_type := by
  obtain ⟨ht, -, hc, -⟩ := h
  simp only [Msg.carried, ← ht] at hc
  simp only [msg_is_sync] at hi
  clear ht
  cases hta : a.tcode <;> simp_all

theorem Msg.Same.error (h : a.Same b) (he : a.tcode = .Error) : a.error_code = b.error_code ∧ a.error_type = b.error_type := by
  obtain ⟨ht, -, hc, -⟩ := h
  simp only [Msg.carried, ← ht, he, List.cons.injEq] at hc
  exact ⟨UInt32.toNat_inj.1 hc.2.2.1, hc.2.1⟩

theorem Msg.Same.stop_code (h : a.Same b) (hs : a.tcode = .ProgTraceCorrelation) : a.stop_code = b.stop_code := by
  obtain ⟨ht, -, hc, -⟩ := h
  simp only [Msg.carried, ← ht, hs, List.cons.injEq] at hc
  exact hc.2.1

theorem Msg.Same.own_icnt (h : a.Same b) : a.own_icnt = b.own_icnt := by
  unfold Msg.own_icnt
  rw [h.has_icnt]
  split
  · rw [h.icnt (h.has_icnt.trans ‹_›)]
  · rfl

theorem Msg.Same.own_bits (h : a.Same b) : a.own_bits = b.own_bits := by
  unfold Msg.own_bits
  rw [h.has_hist]
  split
  · rw [h.hist (h.has_hist.trans ‹_›)]
  · rfl

theorem Msg.Same.check (h : a.Same b) : trace_check_msg a = trace_check_msg b := by
  have hacq : msg_is_data_acq a = msg_is_data_acq b := by rw [msg_is_data_acq, msg_is_data_acq, h.1]
  unfold trace_check_msg
  rw [h.known, hacq, h.has_icnt, h.has_hist]
  cases hi : msg_has_icnt b <;> cases hh : msg_has_hist b
  · rfl
  · rw [h.hist (h.has_hist.trans hh), h.hrepeat (.inr (h.has_hist.trans hh))]
    rfl
  · rw [h.icnt (h.has_icnt.trans hi)]
    rfl
  · rw [h.icnt (h.has_icnt.trans hi), h.hist (h.has_hist.trans hh), h.hrepeat (.inr (h.has_hist.trans hh))]

theorem Msg.Same.event (h : a.Same b) : msg_event a = msg_event b := by
  unfold msg_event
  rw [h.is_branch, h.is_indir_branch, h.is_sync, h.is_stop]
  cases hi : msg_is_indir_branch b
  · rfl
  · rw [h.branch_type (h.is_indir_branch.trans hi)]

theorem Msg.Same.repeatable (h : a.Same b) : repeatable a = repeatable b := by
  rw [nexusrv.repeatable, nexusrv.repeatable, h.is_branch, h.is_sync]

theorem sync_has_xaddr {m : Msg} (h : msg_is_sync m = true) : msg_has_xaddr m = true := by
  unfold msg_is_sync at h
  unfold msg_has_xaddr
  split at h <;> simp_all

theorem indir_has_xaddr {m : Msg} (h : msg_is_indir_branch m = true) : msg_has_xaddr m = true := by
  unfold msg_is_indir_branch at h
  unfold msg_has_xaddr
  split at h <;> simp_all

theorem Msg.Same.with_timestamp (h : a.Same b) (t : UInt64) : Msg.Same { a with timestamp := t } { b with timestamp := t } :=
  ⟨h.1, rfl, h.2.2.1, h.2.2.2⟩

theorem Msg.Same.with_hrepeat (h : a.Same b) (hb : msg_is_branch a = true) (k : UInt32) :
    Msg.Same { a with hrepeat := k } { b with hrepeat := k } := by
  obtain ⟨ht, hts, hc, ha⟩ := h
  refine ⟨ht, hts, ?_, ?_⟩
  · simp only [Msg.carried, ← ht] at hc ⊢
    simp only [msg_is_branch] at hb
    clear ht
    cases hta : a.tcode <;> simp_all [Msg.sync_type, Msg.branch_type]
  · simp only [Msg.cleared, ← ht] at ha ⊢
    simp only [msg_is_branch] at hb
    clear ht
    cases hta : a.tcode <;> simp_all

theorem Msg.Same.with_xaddr (h : a.Same b) (hb : msg_is_indir_branch a = true) (x : UInt64) :
    Msg.Same { a with xaddr := x } { b with xaddr := x } := by
  obtain ⟨ht, hts, hc, ha⟩ := h
  refine ⟨ht, hts, ?_, ?_⟩
  · simp only [Msg.carried, ← ht] at hc ⊢
    simp only [msg_is_indir_branch] at hb
    clear ht
    cases hta : a.tcode <;> simp_all [Msg.sync_type, Msg.branch_type]
  · exact ha

theorem Msg.Same.as_sync (h : a.Same b) (hy : msg_is_sync a = true) (v w : UInt32) :
    Msg.Same { a with tcode := .ProgTraceSync, icnt := 0, hist := v } { b with tcode := .ProgTraceSync, icnt := 0, hist := w } := by
  have hx := h.xaddr (sync_has_xaddr hy)
  have hst := h.sync_type hy
  have hsrc : a.src.toNat = b.src.toNat := h.src fun hidle => by simp [msg_is_sync, hidle] at hy
  obtain ⟨ht, hts, -, hc⟩ := h
  refine ⟨rfl, hts, ?_, ?_⟩
  · unfold Msg.sync_type at hst
    simp [Msg.carried, Msg.sync_type, hsrc, hx, hst]
  · simp only [Msg.cleared, ← ht] at hc ⊢
    simp only [msg_is_sync] at hy
    clear ht
    cases hta : a.tcode <;> simp_all

end Messages

section Fuel
variable {σ α : Type} {src : Source σ} {I : σ → Prop} {s : TraceDecoder σ} {env : Env} {f f' k : Nat}

/-- More fuel than the messages that are left makes no difference. -/
theorem pull_until_fuel (hlaw : src.Lawful I) {done : Trace σ (Option α)} (hasks : Asks done) (hI : I s.msg_decoder)
    (hf : src.left s.msg_decoder + 2 ≤ f) (hf' : src.left s.msg_decoder + 2 ≤ f') :
    pull_until src env done f k true s = pull_until src env done f' k true s := by
  rcases h : pull_until src env done f k true s with _ | ⟨r, u⟩
  · rcases h' : pull_until src env done f' k true s with _ | ⟨r, u⟩
    · rfl
    · cases h.symm.trans ((pull_until_cases f' h').run hlaw hasks hI f hf)
  · exact ((pull_until_cases f h).run hlaw hasks hI f' hf').symm

/-- A run of the loop of `sync_reset`, with fuel for every message that is left. -/
theorem Forwards.run (hlaw : src.Lawful I) {r : Except NexusError Unit} {u : TraceDecoder σ} (h : Forwards src env k s r u) :
    I s.msg_decoder → ∀ fuel, src.left s.msg_decoder + (if s.msg_present then 2 else 1) ≤ fuel →
      sync_forward src env fuel k s = some (r, u) := by
  induction h with
  | failed hf =>
    intro _ fuel hfuel
    obtain ⟨n, rfl⟩ : ∃ n, fuel = n + 1 := ⟨fuel - 1, by split at hfuel <;> omega⟩
    exact Proc.bind_error (fetch_of hf)
  | found hf hy =>
    intro _ fuel hfuel
    obtain ⟨n, rfl⟩ : ∃ n, fuel = n + 1 := ⟨fuel - 1, by split at hfuel <;> omega⟩
    rw [sync_forward, Proc.bind_ok (fetch_of hf), Proc.get_bind_apply, Proc.ite_apply, if_pos hy]
    rfl
  | skip hf hy _ ih =>
    intro hI fuel hfuel
    obtain ⟨n, rfl⟩ : ∃ n, fuel = n + 1 := ⟨fuel - 1, by split at hfuel <;> omega⟩
    obtain ⟨hI', -, hle, hlt⟩ := hf.left hlaw hI
    rw [sync_forward, Proc.bind_ok (fetch_of hf), Proc.get_bind_apply, Proc.ite_apply, if_neg (by simp [hy]), Proc.modify_bind_apply]
    apply ih hI'
    dsimp only
    rw [if_neg (by simp)]
    split at hfuel
    · omega
    · rename_i b _ _ _ _ hp
      have hb : b = true := by
        cases hf with
        | present hp' => exact absurd hp' hp
        | plain => rfl
        | ahead_other => rfl
        | repeated => rfl
      have := hlt (by rw [hb])
      omega

theorem sync_forward_fuel (hlaw : src.Lawful I) (hI : I s.msg_decoder) (hf : src.left s.msg_decoder + 2 ≤ f)
    (hf' : src.left s.msg_decoder + 2 ≤ f') : sync_forward src env f k s = sync_forward src env f' k s := by
  have hfuel : src.left s.msg_decoder + (if s.msg_present then 2 else 1) ≤ src.left s.msg_decoder + 2 := by split <;> omega
  rcases h : sync_forward src env f k s with _ | ⟨r, u⟩
  · rcases h' : sync_forward src env f' k s with _ | ⟨r, u⟩
    · rfl
    · cases h.symm.trans ((sync_forward_cases f' h').run hlaw hI f (Nat.le_trans hfuel hf))
  · exact ((sync_forward_cases f h).run hlaw hI f' (Nat.le_trans hfuel hf')).symm

end Fuel

section Step
variable {σ τ α β : Type} {src : Source σ} {src' : Source τ}

/-- What two calls of `next` into the messages `a` and `b` leave, that return `r`; at the end of the stream the messages are the same only
where they were before, and as `P` says. -/
structure Handed (src : Source σ) (src' : Source τ) (R : σ → τ → Prop) (P : Msg → Prop) (a b : Msg) (r : Except NexusError Nat) (x : σ × Msg)
    (y : τ × Msg) : Prop where
  behind : R x.1 y.1
  same : ∀ n, r = .ok n → n ≠ 0 ∨ a.Same b ∧ P b → x.2.Same y.2
  back : ∀ n, r = .ok n → ∃ d e, src.rewind_last x.1 = some d ∧ src'.rewind_last y.1 = some e ∧ R d e

/-- The same error, or lengths that `N` relates. -/
inductive SameRc (N : Nat → Nat → Prop) : Except NexusError Nat → Except NexusError Nat → Prop where
  | error (err : NexusError) : SameRc N (.error err) (.error err)
  | ok {n n' : Nat} : N n n' → SameRc N (.ok n) (.ok n')

theorem SameRc.of_eq {r r' : Except NexusError Nat} (h : r = r') : SameRc Eq r r' := by
  rw [h]
  cases r' with
  | error err => exact .error err
  | ok n => exact .ok rfl

theorem SameRc.eq {r r' : Except NexusError Nat} (h : SameRc Eq r r') : r = r' := by
  obtain - | rfl := h
  · rfl
  · rfl

/-- Message decoders that `R` relates deliver the same messages, in lengths that `N` relates. -/
structure Source.Pairs (src : Source σ) (src' : Source τ) (R : σ → τ → Prop) (N : Nat → Nat → Prop) (P : Msg → Prop) : Prop where
  hw_cfg : ∀ {d : σ} {e : τ}, R d e → src.hw_cfg d = src'.hw_cfg e
  lawful : src.Lawful fun d => ∃ e, R d e
  lawful' : src'.Lawful fun e => ∃ d, R d e
  at_end : ∀ {n n' : Nat}, N n n' → (n = 0 ↔ n' = 0)
  next : ∀ {d : σ} {e : τ}, R d e → ∀ a b, ∃ r r' x y, src.next (d, a) = some (r, x) ∧ src'.next (e, b) = some (r', y) ∧ SameRc N r r' ∧
    Handed src src' R P a b r x y

/-- The look-ahead messages of two calls are the same, and as `P` says. -/
def SameAhead (P : Msg → Prop) (env env' : Env) : Prop := env.msg2 = env'.msg2 ∧ ∀ k, P (env'.msg2 k)

/-- One side of a pairing. -/
theorem Source.Lawful.related {I : σ → Prop} (hI : src.Lawful I) {P : σ → Prop} (hP : ∀ {d : σ}, P d → I d)
    (hnext : ∀ {d : σ}, P d → ∀ a, ∃ r x, src.next (d, a) = some (r, x) ∧ P x.1 ∧
      ∀ n, r = .ok n → ∃ d₀, src.rewind_last x.1 = some d₀ ∧ P d₀) :
    src.Lawful P where
  next := by
    intro d d' m m' r hd h
    obtain ⟨r', x, hx, hbehind, -⟩ := hnext hd m
    cases hx.symm.trans h
    exact ⟨hbehind, (hI.next (hP hd) h).2⟩
  returns := fun m hd => hI.returns m (hP hd)
  rewind := by
    intro d d' m m' n hd h
    obtain ⟨r', x, hx, -, hback⟩ := hnext hd m
    cases hx.symm.trans h
    obtain ⟨d₀, hd₀, hkept⟩ := hback n rfl
    obtain ⟨d₁, hd₁, -, hcfg, hle⟩ := hI.rewind (hP hd) h
    cases hd₀.symm.trans hd₁
    exact ⟨d₀, hd₀, hkept, hcfg, hle⟩

/-- Lawful sources whose decoders deliver the same messages. -/
theorem Source.Pairs.of_lawful {I : σ → Prop} {J : τ → Prop} (hI : src.Lawful I) (hJ : src'.Lawful J) {R : σ → τ → Prop}
    {N : Nat → Nat → Prop} {P : Msg → Prop} (hN : ∀ {n n' : Nat}, N n n' → (n = 0 ↔ n' = 0))
    (hR : ∀ {d : σ} {e : τ}, R d e → I d ∧ J e) (hcfg : ∀ {d : σ} {e : τ}, R d e → src.hw_cfg d = src'.hw_cfg e)
    (hnext : ∀ {d : σ} {e : τ}, R d e → ∀ a b, ∃ r r' x y, src.next (d, a) = some (r, x) ∧ src'.next (e, b) = some (r', y) ∧ SameRc N r r' ∧
      Handed src src' R P a b r x y) : src.Pairs src' R N P where
  at_end := hN
  hw_cfg := hcfg
  lawful := by
    apply hI.related
    · rintro d ⟨e, h⟩
      exact (hR h).1
    · rintro d ⟨e, h⟩ a
      obtain ⟨r, r', x, y, hx, -, -, hdel⟩ := hnext h a Msg.zero
      refine ⟨r, x, hx, ⟨_, hdel.behind⟩, fun n hn => ?_⟩
      obtain ⟨d₀, e₀, hd₀, -, hr⟩ := hdel.back n hn
      exact ⟨d₀, hd₀, e₀, hr⟩
  lawful' := by
    apply hJ.related
    · rintro e ⟨d, h⟩
      exact (hR h).2
    · rintro e ⟨d, h⟩ b
      obtain ⟨r, r', x, y, -, hy, hrc, hdel⟩ := hnext h Msg.zero b
      refine ⟨r', y, hy, ⟨_, hdel.behind⟩, fun n hn => ?_⟩
      cases hn
      obtain - | hn := hrc
      obtain ⟨d₀, e₀, -, he₀, hr⟩ := hdel.back _ rfl
      exact ⟨e₀, he₀, d₀, hr⟩
  next := hnext

/-- Two decoders that differ in what no function looks at only. -/
inductive Twins (R : σ → τ → Prop) (Q : RetStack → RetStack → Prop) (s : TraceDecoder σ) : TraceDecoder τ → Prop where
  | mk (d : τ) (m : Msg) (stack : RetStack) : R s.msg_decoder d → (s.msg_present = true → s.msg.Same m) → Q s.return_stack stack →
    Twins R Q s ⟨d, s.res_hists, s.res_icnt, s.res_tnts, s.consumed_icnt, s.consumed_tnts, s.synced, s.msg_present, m, s.full_addr,
      s.timestamp, stack⟩

variable {R : σ → τ → Prop} {N : Nat → Nat → Prop} {P : Msg → Prop} {Q : RetStack → RetStack → Prop} {s : TraceDecoder σ} {t : TraceDecoder τ}

variable (R Q) in
abbrev Twinned (x : Option (Except NexusError α × TraceDecoder σ)) (y : Option (Except NexusError α × TraceDecoder τ)) : Prop :=
  Proc.Matches (fun _ => Twins R Q) x y

theorem Twinned.bind {x : Trace σ α} {y : Trace τ α} {f : α → Trace σ β} {g : α → Trace τ β} (hx : Twinned R Q (x s) (y t))
    (hf : ∀ a s' t', Twins R Q s' t' → Twinned R Q (f a s') (g a t')) : Twinned R Q ((x >>= f) s) ((y >>= g) t) :=
  Proc.Matches.bind hx hf fun _ _ _ h => h

section Fields
variable (h : Twins R Q s t)
include h

theorem Twins.res_hists : t.res_hists = s.res_hists := by cases h; rfl
theorem Twins.res_icnt : t.res_icnt = s.res_icnt := by cases h; rfl
theorem Twins.res_tnts : t.res_tnts = s.res_tnts := by cases h; rfl
theorem Twins.consumed_tnts : t.consumed_tnts = s.consumed_tnts := by cases h; rfl
theorem Twins.full_addr : t.full_addr = s.full_addr := by cases h; rfl
theorem Twins.synced : t.synced = s.synced := by cases h; rfl
theorem Twins.msg_present : t.msg_present = s.msg_present := by cases h; rfl
theorem Twins.msg_decoder : R s.msg_decoder t.msg_decoder := by cases h; assumption
theorem Twins.return_stack : Q s.return_stack t.return_stack := by cases h; assumption
theorem Twins.msg (hp : s.msg_present = true) : s.msg.Same t.msg := by
  obtain ⟨d, m, stack, hd, hm, hstack⟩ := h
  exact hm hp

end Fields

theorem available_icnt_twins (h : Twins R Q s t) : Twinned R Q (trace_available_icnt s) (trace_available_icnt t) := by
  have h0 := h
  obtain ⟨d, m, stack, hd, hm, hstack⟩ := h
  unfold trace_available_icnt
  simp only [Proc.get_bind_apply]
  refine .ite (fun _ => Proc.matches_assert fun _ => Proc.matches_some h0) fun hp => ?_
  have hs := hm (by simpa using hp)
  rw [← hs.is_res, ← hs.has_icnt]
  refine Proc.matches_assert fun _ => ?_
  cases hi : msg_has_icnt s.msg
  · exact Proc.matches_assert fun _ => Proc.matches_some h0
  · rw [← hs.icnt hi]
    exact Proc.matches_assert fun _ => Proc.matches_some h0

theorem available_tnts_twins (h : Twins R Q s t) : Twinned R Q (trace_available_tnts s) (trace_available_tnts t) := by
  have h0 := h
  obtain ⟨d, m, stack, hd, hm, hstack⟩ := h
  unfold trace_available_tnts
  simp only [Proc.get_bind_apply]
  refine .ite (fun _ => Proc.matches_assert fun _ => Proc.matches_some h0) fun hp => ?_
  have hs := hm (by simpa using hp)
  rw [← hs.is_res, ← hs.has_hist]
  refine Proc.matches_assert fun _ => ?_
  cases hh : msg_has_hist s.msg
  · exact Proc.matches_assert fun _ => Proc.matches_some h0
  · rw [← hs.hist hh]
    exact Proc.matches_assert fun _ => Proc.matches_some h0

theorem consume_icnt_twins (h : Twins R Q s t) (icnt : Nat) : Twinned R Q (trace_consume_icnt icnt s) (trace_consume_icnt icnt t) := by
  apply (available_icnt_twins h).bind
  intro a s t h
  obtain ⟨d, m, stack, hd, hm, hstack⟩ := h
  refine Proc.matches_assert fun _ => ?_
  simp only [Proc.get_bind_apply]
  refine Proc.matches_assert fun _ => .ite (fun _ => ?_) fun _ => Proc.matches_assert fun _ => ?_
  · exact Proc.matches_some ⟨d, m, stack, hd, hm, hstack⟩
  · exact Proc.matches_some ⟨d, m, stack, hd, hm, hstack⟩

theorem push_element_twins {env env' : Env} (halloc : env.alloc = env'.alloc) (h : Twins R Q s t) (e : HistElement) :
    Twinned R Q (push_element env e s) (push_element env' e t) := by
  have h0 := h
  obtain ⟨d, m, stack, hd, hm, hstack⟩ := h
  unfold push_element
  simp only [Proc.get_bind_apply, ← halloc]
  refine .ite (fun _ => Proc.matches_some h0) fun _ => Proc.matches_some ⟨d, m, stack, hd, ?_, hstack⟩
  intro hp
  cases hp

theorem retire_icnt_twins (h : Twins R Q s t) (icnt : Nat) : Twinned R Q (retire_icnt icnt s) (retire_icnt icnt t) := by
  apply (available_icnt_twins h).bind
  intro a s t h
  refine .ite (fun _ => ?_) fun _ => Proc.matches_some h
  exact (consume_icnt_twins h icnt).bind fun _ _ _ h => Proc.matches_some h

theorem nothing_available_twins (h : Twins R Q s t) : Twinned R Q (nothing_available s) (nothing_available t) := by
  apply (available_icnt_twins h).bind
  intro a s t h
  refine .ite (fun _ => Proc.matches_some h) fun _ => ?_
  apply (available_tnts_twins h).bind
  intro a s t h
  exact .ite (fun _ => Proc.matches_some h) fun _ => Proc.matches_some h

/-- What retiring the message asserts, it asserts of both. -/
theorem Twins.retirable (h : Twins R Q s t) : Retirable s ↔ Retirable t := by
  obtain ⟨d, m, stack, hd, hm, hstack⟩ := h
  constructor
  · intro hr
    have hs := hm hr.present
    refine ⟨hr.present, ?_, hr.res_icnt, hr.res_hists, hr.consumed_icnt.trans hs.own_icnt, hr.consumed_tnts.trans hs.own_bits, ?_⟩
    · exact fun he => hr.not_res (hs.1.trans he)
    · intro hb hy
      have hb' := hs.is_branch.trans hb
      exact (hs.hrepeat (.inl hb')).symm.trans (hr.hrepeat hb' (hs.is_sync.trans hy))
  · intro hr
    have hs := hm hr.present
    refine ⟨hr.present, ?_, hr.res_icnt, hr.res_hists, hr.consumed_icnt.trans hs.own_icnt.symm,
      hr.consumed_tnts.trans hs.own_bits.symm, ?_⟩
    · exact fun he => hr.not_res (hs.1.symm.trans he)
    · intro hb hy
      exact (hs.hrepeat (.inl hb)).trans (hr.hrepeat (hs.is_branch.symm.trans hb) (hs.is_sync.symm.trans hy))

theorem addressed_twins (h : Twins R Q s t) (hp : s.msg_present = true) (hind : msg_is_indir_branch s.msg = true) :
    Twins R Q s.addressed t.addressed := by
  have hs := h.msg hp
  obtain ⟨d, m, stack, hd, hm, hstack⟩ := h
  dsimp only at hs
  unfold TraceDecoder.addressed
  simp only [← hs.is_sync, ← hs.xaddr (indir_has_xaddr hind)]
  split
  · exact ⟨d, m, stack, hd, hm, hstack⟩
  · exact ⟨d, _, stack, hd, fun _ => hs.with_xaddr hind 0, hstack⟩

section Pairs
variable (hsrc : src.Pairs src' R N P)
include hsrc

theorem retire_timestamp_twins (h : Twins R Q s t) (timestamp : UInt64) :
    Twinned R Q (trace_retire_timestamp src timestamp s) (trace_retire_timestamp src' timestamp t) := by
  obtain ⟨d, m, stack, hd, hm, hstack⟩ := h
  have hcfg : (src'.hw_cfg d).quirk_sifive = (src.hw_cfg s.msg_decoder).quirk_sifive := by rw [hsrc.hw_cfg hd]
  rw [retire_timestamp_eq, retire_timestamp_eq]
  unfold TraceDecoder.sifive
  dsimp only
  rw [hcfg]
  exact Proc.matches_some ⟨d, m, stack, hd, hm, hstack⟩

theorem drain_empty_twins (l : List HistElement) : ∀ {s : TraceDecoder σ} {t : TraceDecoder τ}, Twins R Q s t →
    Twinned R Q (drain_empty src l s) (drain_empty src' l t) := by
  induction l with
  | nil => exact fun h => Proc.matches_some h
  | cons e l ih =>
    intro s t h
    refine .ite (fun _ => Proc.matches_some h) fun _ => Proc.matches_assert fun _ => ?_
    apply (retire_timestamp_twins hsrc h _).bind
    rintro _ s _ ⟨d, m, stack, hd, hm, hstack⟩
    exact ih ⟨d, m, stack, hd, hm, hstack⟩

theorem drain_all_twins (l : List HistElement) : ∀ {s : TraceDecoder σ} {t : TraceDecoder τ}, Twins R Q s t →
    Twinned R Q (drain_all src l s) (drain_all src' l t) := by
  induction l with
  | nil => exact fun h => Proc.matches_some h
  | cons e l ih =>
    intro s t h
    apply (retire_timestamp_twins hsrc h _).bind
    rintro _ s _ ⟨d, m, stack, hd, hm, hstack⟩
    exact ih ⟨d, m, stack, hd, hm, hstack⟩

theorem consume_tnt_twins (h : Twins R Q s t) : Twinned R Q (trace_consume_tnt src s) (trace_consume_tnt src' t) := by
  apply (available_tnts_twins h).bind
  intro a s t h
  refine Proc.matches_assert fun _ => ?_
  simp only [Proc.get_bind_apply, h.res_hists]
  apply (drain_empty_twins hsrc _ h).bind
  intro _ s t h
  have hone : ∀ n : Nat, Twins R Q { s with consumed_tnts := n } { t with consumed_tnts := n } := by
    intro n
    obtain ⟨d, m, stack, hd, hm, hstack⟩ := h
    exact ⟨d, m, stack, hd, hm, hstack⟩
  -- without a message both assertions fail
  have hhist : (s.msg_present && msg_has_hist t.msg) = (s.msg_present && msg_has_hist s.msg) := by
    by_cases hp : s.msg_present = true
    · rw [(h.msg hp).has_hist]
    · simp [hp]
  simp only [Proc.get_bind_apply, h.res_hists, h.res_tnts, h.consumed_tnts, h.msg_present, hhist]
  refine .ite (fun _ => ?_) fun _ => ?_
  · refine Proc.matches_assert fun hh => ?_
    obtain ⟨hp, hh⟩ := Bool.and_eq_true_iff.1 hh
    rw [← (h.msg hp).hist hh]
    exact Proc.matches_assert fun _ => Proc.matches_some (hone _)
  · rcases s.res_hists with _ | ⟨e, rest⟩
    · exact Proc.matches_none
    refine Proc.matches_assert fun _ => .ite (fun _ => Proc.matches_some (hone _)) fun _ => ?_
    simp only [Proc.modify_bind_apply]
    apply (retire_timestamp_twins hsrc (hone 0) _).bind
    rintro timestamp s _ ⟨d, m, stack, hd, hm, hstack⟩
    refine Proc.matches_assert fun _ => Proc.matches_assert fun _ => ?_
    exact Proc.matches_some ⟨d, m, stack, hd, hm, hstack⟩

theorem retire_tnt_twins (h : Twins R Q s t) : Twinned R Q (retire_tnt src s) (retire_tnt src' t) := by
  apply (available_tnts_twins h).bind
  intro a s t h
  refine .ite (fun _ => ?_) fun _ => Proc.matches_some h
  exact (consume_tnt_twins hsrc h).bind fun _ _ _ h => Proc.matches_some h

/-- A message is buffered behind a fetch that succeeds. -/
theorem fetch_twins (h : Twins R Q s t) {msg2 : Msg} (hmsg2 : P msg2) :
    Proc.Matches (fun r s t => Twins R Q s t ∧ ∀ b, r = .ok b → s.msg_present = true)
    (trace_fetch_msg src msg2 s) (trace_fetch_msg src' msg2 t) := by
  by_cases hp : s.msg_present = true
  · rw [fetch_of (.present hp), fetch_of (.present (h.msg_present.trans hp))]
    exact Proc.matches_some ⟨h, fun _ _ => hp⟩
  have hp : s.msg_present = false := by simpa using hp
  have hpt : t.msg_present = false := h.msg_present.trans hp
  have hput : ∀ {d : σ} {e : τ} {a b : Msg} {p : Bool}, R d e → (p = true → a.Same b) →
      Twins R Q { s with msg_decoder := d, msg := a, msg_present := p } { t with msg_decoder := e, msg := b, msg_present := p } := by
    intro d e a b p hr hm
    obtain ⟨-, -, stack, -, -, hstack⟩ := h
    exact ⟨e, b, stack, hr, hm, hstack⟩
  have hkeep : ∀ {d : σ} {e : τ} {a b : Msg}, R d e →
      Twins R Q { s with msg_decoder := d, msg := a } { t with msg_decoder := e, msg := b } := by
    intro d e a b hr
    obtain ⟨-, -, stack, -, -, hstack⟩ := h
    refine ⟨e, b, stack, hr, fun h => ?_, hstack⟩
    rw [hp] at h
    cases h
  obtain ⟨r, r', ⟨d, a⟩, ⟨e, b⟩, hx, hy, hrc, hdel⟩ := hsrc.next h.msg_decoder s.msg t.msg
  obtain err | hn := hrc
  · rw [fetch_of (.failed err d a hp hx), fetch_of (.failed err e b hpt hy)]
    exact Proc.matches_some ⟨hkeep hdel.behind, fun _ h => by cases h⟩
  rename_i n n'
  by_cases h0 : n = 0
  · obtain rfl := (hsrc.at_end hn).1 h0
    subst h0
    rw [fetch_of (.eof d a hp hx), fetch_of (.eof e b hpt hy)]
    exact Proc.matches_some ⟨hkeep hdel.behind, fun _ h => by cases h⟩
  have h0' : n' ≠ 0 := fun h => h0 ((hsrc.at_end hn).2 h)
  have hsame := hdel.same n rfl (.inl h0)
  dsimp only at hsame
  rw [fetch_first hp hx h0, fetch_first hpt hy h0', ← hsame.check, ← hsame.repeatable]
  split
  · obtain ⟨d₁, e₁, hback, hback', hr⟩ := hdel.back n rfl
    dsimp only at hback hback'
    rw [hback, hback']
    exact Proc.matches_some ⟨hkeep hr, fun _ h => by cases h⟩
  split
  · exact Proc.matches_some ⟨hput hdel.behind fun _ => hsame, fun _ _ => rfl⟩
  rename_i hrep
  have hb : msg_is_branch a = true := by
    rw [nexusrv.repeatable, Bool.eq_false_iff, not_not, Bool.and_eq_true] at hrep
    exact hrep.1
  obtain ⟨r₂, r₂', ⟨d₂, a₂⟩, ⟨e₂, b₂⟩, hx₂, hy₂, hrc₂, hdel₂⟩ := hsrc.next hdel.behind msg2 msg2
  dsimp only at hx₂ hy₂
  rw [hx₂, hy₂, Option.bind_some, Option.bind_some]
  obtain err | hn₂ := hrc₂
  · exact Proc.matches_some ⟨hput hdel₂.behind fun _ => hsame.with_hrepeat hb 0, fun _ h => by cases h⟩
  have hsame₂ := hdel₂.same _ rfl (.inr ⟨.refl msg2, hmsg2⟩)
  dsimp only at hsame₂ ⊢
  rw [← hsame₂.1]
  split
  · obtain ⟨d₃, e₃, hback, hback', hr⟩ := hdel₂.back _ rfl
    dsimp only at hback hback'
    rw [hback, hback']
    exact Proc.matches_some ⟨hput hr fun _ => hsame.with_hrepeat hb 0, fun _ _ => rfl⟩
  · rename_i ht
    have ht : a₂.tcode = .RepeatBranch := Decidable.of_not_not ht
    have hk : a₂.hrepeat = b₂.hrepeat := by
      have hrepeats := hsame₂.repeats
      rw [repeats_eq_some.2 ⟨ht, rfl⟩, eq_comm, repeats_eq_some] at hrepeats
      exact hrepeats.2.symm
    rw [hk]
    exact Proc.matches_some ⟨hput hdel₂.behind fun _ => hsame.with_hrepeat hb _, fun _ _ => rfl⟩

theorem pull_msg_twins {env env' : Env} (hmsg2 : SameAhead P env env') (halloc : env.alloc = env'.alloc) (h : Twins R Q s t) (k : Nat) :
    Twinned R Q (trace_pull_msg src env k s) (trace_pull_msg src' env' k t) := by
  unfold trace_pull_msg
  rw [hmsg2.1]
  apply (fetch_twins hsrc h (hmsg2.2 k)).bind (fun b s t hst => ?_) fun _ _ _ h => h.1
  obtain ⟨h, hp⟩ := hst
  have hs := h.msg (hp b rfl)
  have hcfg : src'.hw_cfg t.msg_decoder = src.hw_cfg s.msg_decoder := (hsrc.hw_cfg h.msg_decoder).symm
  have hpush : ∀ e, Twinned R Q (push_element env e s) (push_element env' e t) := push_element_twins halloc h
  simp only [Proc.get_bind_apply, h.res_hists, hcfg, ← hs.is_res, ← hs.has_icnt, ← hs.has_hist, ← hs.2.1]
  refine .ite (fun _ => Proc.matches_some h) fun hres => .ite (fun _ => Proc.matches_some h) fun _ => ?_
  have hres : msg_is_res s.msg = true := by simpa using hres
  have hcode := hs.res_code hres
  refine .ite (fun hi => ?_) fun _ => .ite (fun hh => ?_) fun _ => .ite (fun _ => ?_) fun _ => Proc.matches_some h
  · rw [← hs.icnt hi, h.res_icnt]
    have hgrown : ∀ n : Nat, Twins R Q { s with res_icnt := n } { t with res_icnt := n } := by
      intro n
      obtain ⟨d, m, stack, hd, hm, hstack⟩ := h
      exact ⟨d, m, stack, hd, hm, hstack⟩
    simp only [Proc.modify_bind_apply]
    exact .ite (fun _ => Proc.matches_some (hgrown _)) fun _ => push_element_twins halloc (hgrown _) _
  · rw [← hs.hist hh, ← hs.hrepeat (.inr hh)]
    exact hpush _
  · rw [← hcode]
    have hdata : s.msg.res_code > 2 → s.msg.res_data = t.msg.res_data := hs.res_data hres
    generalize s.msg.res_code = code at hdata
    split
    · rw [← hdata (by decide)]
      exact .ite (fun _ => Proc.matches_some h) fun _ => hpush _
    · rw [← hdata (by decide)]
      exact .ite (fun _ => Proc.matches_some h) fun _ => hpush _
    · exact Proc.matches_some h

theorem pull_until_twins {env env' : Env} (hmsg2 : SameAhead P env env') (halloc : env.alloc = env'.alloc) {done : Trace σ (Option α)}
    {done' : Trace τ (Option α)}
    (hdone : ∀ {s : TraceDecoder σ} {t : TraceDecoder τ}, Twins R Q s t → Twinned R Q (done s) (done' t)) (fuel : Nat) :
    ∀ {k : Nat} {rc : Bool} {s : TraceDecoder σ} {t : TraceDecoder τ}, Twins R Q s t →
      Twinned R Q (pull_until src env done fuel k rc s) (pull_until src' env' done' fuel k rc t) := by
  induction fuel with
  | zero => exact fun _ => Proc.matches_none
  | succ fuel ih =>
    intro k rc s t h
    apply (hdone h).bind
    intro r s t h
    rcases r with _ | a
    · refine .ite (fun _ => Proc.matches_some h) fun _ => ?_
      apply (pull_msg_twins hsrc hmsg2 halloc h k).bind
      intro rc s t h
      exact ih h
    · exact Proc.matches_some h

/-- The loops of the two decoders, that may have a different number of messages left to skip. -/
theorem pull_all_twins {env env' : Env} (hmsg2 : SameAhead P env env') (halloc : env.alloc = env'.alloc) {done : Trace σ (Option α)}
    {done' : Trace τ (Option α)} (hasks : Asks done) (hasks' : Asks done')
    (hdone : ∀ {s : TraceDecoder σ} {t : TraceDecoder τ}, Twins R Q s t → Twinned R Q (done s) (done' t)) (h : Twins R Q s t) :
    Twinned R Q (pull_until src env done (src.left s.msg_decoder + 2) 0 true s)
      (pull_until src' env' done' (src'.left t.msg_decoder + 2) 0 true t) := by
  rw [pull_until_fuel hsrc.lawful hasks ⟨_, h.msg_decoder⟩ (Nat.le_refl _) (Nat.le_max_left _ (src'.left t.msg_decoder + 2)),
    pull_until_fuel hsrc.lawful' hasks' ⟨_, h.msg_decoder⟩ (Nat.le_refl _) (Nat.le_max_right (src.left s.msg_decoder + 2) _)]
  exact pull_until_twins hsrc hmsg2 halloc hdone _ h

section Clears
variable (hclear : ∀ r r', Q r r' → Q (retstack_clear r) (retstack_clear r'))
include hclear

theorem retired_twins (h : Twins R Q s t) (hp : s.msg_present = true) : Twins R Q (s.retired src) (t.retired src') := by
  have hs := h.msg hp
  obtain ⟨d, m, stack, hd, hm, hstack⟩ := h
  have hcfg : src'.hw_cfg d = src.hw_cfg s.msg_decoder := (hsrc.hw_cfg hd).symm
  dsimp only at hs
  unfold TraceDecoder.retired TraceDecoder.pass_time TraceDecoder.sifive
  simp only [← hs.is_branch, ← hs.is_sync, ← hs.2.1, hcfg]
  split
  · rename_i hb
    split
    · rename_i hy
      exact ⟨d, m.downgraded, stack, hd, fun _ => hs.as_sync hy 0 0, hstack⟩
    · rw [← hs.hrepeat (.inl hb)]
      split
      · refine ⟨d, _, stack, hd, fun _ => ?_, hstack⟩
        exact (hs.with_timestamp (time_left (src.hw_cfg s.msg_decoder).quirk_sifive s.msg.timestamp)).with_hrepeat hb (s.msg.hrepeat - 1)
      · refine ⟨d, _, stack, hd, ?_, hstack⟩
        intro h
        cases h
  · split
    · rename_i hy
      rw [← hs.xaddr (sync_has_xaddr hy)]
      refine ⟨d, m, _, hd, ?_, hclear _ _ hstack⟩
      intro h
      cases h
    · refine ⟨d, _, stack, hd, ?_, hstack⟩
      intro h
      cases h

theorem retire_msg_twins (h : Twins R Q s t) : Twinned R Q (trace_retire_msg src s) (trace_retire_msg src' t) := by
  have hnone : ∀ {ρ : Type} {src : Source ρ} {s : TraceDecoder ρ}, ¬ Retirable s → trace_retire_msg src s = none := by
    intro ρ src s hr
    rcases he : trace_retire_msg src s with _ | ⟨r, u⟩
    · rfl
    · exact absurd (retire_msg_iff.1 he).1 hr
  by_cases hr : Retirable s
  · rw [retire_msg_iff.2 ⟨hr, rfl, rfl⟩, retire_msg_iff.2 ⟨h.retirable.1 hr, rfl, rfl⟩]
    exact Proc.matches_some (retired_twins hsrc hclear h hr.present)
  · rw [hnone hr, hnone (mt h.retirable.2 hr)]
    exact Proc.matches_none

omit hclear in
theorem try_retire_twins {env env' : Env} (hmsg2 : SameAhead P env env') (halloc : env.alloc = env'.alloc) (h : Twins R Q s t) (icnt : Nat) :
    Twinned R Q (trace_try_retire src env icnt s) (trace_try_retire src' env' icnt t) := by
  unfold trace_try_retire
  simp only [Proc.get_bind_apply, h.synced]
  refine .ite (fun _ => Proc.matches_some h) fun _ => ?_
  apply Twinned.bind (pull_all_twins hsrc hmsg2 halloc (asks_icnt _) (asks_icnt _) (fun h => retire_icnt_twins h _) h)
  intro r s t h
  rcases r with _ | n
  · simp only [Proc.get_bind_apply, h.msg_present]
    refine Proc.matches_assert fun hp => ?_
    have hs := h.msg hp
    have hconsumed := h.consumed_tnts
    apply (available_icnt_twins h).bind
    intro n s₁ t₁ h
    apply (consume_icnt_twins h n).bind
    intro _ s₁ t₁ h
    rw [← hs.is_error]
    refine .ite (fun _ => Proc.matches_some h) fun _ => ?_
    apply (available_tnts_twins h).bind
    intro tnts s₁ t₁ h
    refine .ite (fun _ => Proc.matches_some h) fun _ => ?_
    rw [← hs.has_hist, hconsumed, ← hs.event]
    cases hh : msg_has_hist s.msg
    · exact Proc.matches_assert fun _ => Proc.matches_some h
    · rw [← hs.hist hh]
      exact Proc.matches_assert fun _ => Proc.matches_some h
  · exact Proc.matches_some h

theorem next_tnt_twins {env env' : Env} (hmsg2 : SameAhead P env env') (halloc : env.alloc = env'.alloc) (h : Twins R Q s t) :
    Twinned R Q (trace_next_tnt src env s) (trace_next_tnt src' env' t) := by
  unfold trace_next_tnt
  simp only [Proc.get_bind_apply, h.synced]
  refine .ite (fun _ => Proc.matches_some h) fun _ => ?_
  apply Twinned.bind (pull_all_twins hsrc hmsg2 halloc asks_tnt asks_tnt (retire_tnt_twins hsrc) h)
  intro r s t h
  rcases r with _ | b
  · simp only [Proc.get_bind_apply, h.msg_present]
    refine Proc.matches_assert fun hp => ?_
    have hs := h.msg hp
    apply (available_icnt_twins h).bind
    intro n s₁ t₁ h
    rw [← hs.is_branch, ← hs.is_indir_branch]
    refine .ite (fun _ => Proc.matches_some h) fun _ => .ite (fun _ => Proc.matches_some h) fun _ => ?_
    exact (retire_msg_twins hsrc hclear h).bind fun _ _ _ h => Proc.matches_some h
  · exact Proc.matches_some h

omit hclear in
theorem next_msg2_twins {f : Nat × Msg → Trace σ α} {g : Nat × Msg → Trace τ α} (h : Twins R Q s t) {msg2 : Msg} (hmsg2 : P msg2)
    (hf : ∀ (n n' : Nat) (a b : Msg) (s : TraceDecoder σ) (t : TraceDecoder τ), Twins R Q s t → a.Same b →
      (∃ d e, src.rewind_last s.msg_decoder = some d ∧ src'.rewind_last t.msg_decoder = some e ∧ R d e) →
        Twinned R Q (f (n, a) s) (g (n', b) t)) : Twinned R Q ((next_msg2 src msg2 >>= f) s) ((next_msg2 src' msg2 >>= g) t) := by
  obtain ⟨r, r', ⟨d, a⟩, ⟨e, b⟩, hx, hy, hrc, hdel⟩ := hsrc.next h.msg_decoder msg2 msg2
  have hput : Twins R Q { s with msg_decoder := d } { t with msg_decoder := e } := by
    obtain ⟨-, m, stack, -, hm, hstack⟩ := h
    exact ⟨e, m, stack, hdel.behind, hm, hstack⟩
  obtain err | hn := hrc
  · have hfail : ∀ {ρ : Type} {src : Source ρ} {s : TraceDecoder ρ} {d : ρ} {m : Msg} {f : Nat × Msg → Trace ρ α},
        src.next (s.msg_decoder, msg2) = some (.error err, d, m) →
          (next_msg2 src msg2 >>= f) s = some (.error err, { s with msg_decoder := d }) := by
      intro ρ src s d m f h
      apply Proc.bind_error
      rw [next_msg2_apply, h]
      rfl
    rw [hfail hx, hfail hy]
    exact Proc.matches_some hput
  · rw [Proc.bind_ok (next_msg2_of hx), Proc.bind_ok (next_msg2_of hy)]
    exact hf _ _ a b _ _ hput (hdel.same _ rfl (.inr ⟨.refl msg2, hmsg2⟩)) (hdel.back _ rfl)

omit hclear in
/-- What `next_indirect`, `next_sync` and `next_stop` check first, with the messages that `p` rejects. -/
theorem checked_twins {env env' : Env} (hmsg2 : SameAhead P env env') (h : Twins R Q s t) {p : Msg → Prop} [DecidablePred p]
    (hp : ∀ a b, a.Same b → (p a ↔ p b)) {f : TraceDecoder σ → Trace σ α}
    {g : TraceDecoder τ → Trace τ α} (hf : ∀ s t, Twins R Q s t → s.msg_present = true → ¬ p s.msg → Twinned R Q (f s s) (g t t)) :
    Twinned R Q ((do
      let s ← Proc.get
      if !s.synced then Proc.fail .trace_not_synced
      else do
        let _ ← trace_fetch_msg src (env.msg2 0)
        nothing_available
        let s ← Proc.get
        if p s.msg then Proc.fail .trace_mismatch else f s : Trace σ α) s)
      ((do
      let s ← Proc.get
      if !s.synced then Proc.fail .trace_not_synced
      else do
        let _ ← trace_fetch_msg src' (env'.msg2 0)
        nothing_available
        let s ← Proc.get
        if p s.msg then Proc.fail .trace_mismatch else g s : Trace τ α) t) := by
  simp only [Proc.get_bind_apply, h.synced, hmsg2.1]
  refine .ite (fun _ => Proc.matches_some h) fun _ => ?_
  apply (fetch_twins hsrc h (hmsg2.2 _)).bind (fun b s t hst => ?_) fun _ _ _ h => h.1
  obtain ⟨h, hfilled⟩ := hst
  have hfilled := hfilled b rfl
  have hleft : ∀ r u, nothing_available s = some (r, u) → u.msg_present = true := by
    intro r u hu
    rw [(nothing_available_cases hu).1, hfilled]
  apply ((nothing_available_twins h).with hleft).bind (fun _ s t hst => ?_) fun _ _ _ h => h.1
  obtain ⟨h, hfilled⟩ := hst
  simp only [Proc.get_bind_apply, ← hp _ _ (h.msg hfilled)]
  exact .ite (fun _ => Proc.matches_some h) fun hno => hf s t h hfilled hno

theorem next_indirect_twins {env env' : Env} (hmsg2 : SameAhead P env env') (h : Twins R Q s t) :
    Twinned R Q (trace_next_indirect src env s) (trace_next_indirect src' env' t) := by
  unfold trace_next_indirect
  apply checked_twins hsrc hmsg2 h (p := fun m => (!msg_is_branch m || !msg_is_indir_branch m) = true)
  · intro a b hab
    rw [hab.is_branch, hab.is_indir_branch]
  intro s t h hp hno
  have hind : msg_is_indir_branch s.msg = true := by
    rw [Bool.or_eq_true, not_or] at hno
    simpa using hno.2
  have hs := h.msg hp
  change Twinned R Q ((Proc.modify TraceDecoder.addressed >>= fun _ => _) s) ((Proc.modify TraceDecoder.addressed >>= fun _ => _) t)
  simp only [Proc.modify_bind_apply, Proc.get_bind_apply]
  have ha := addressed_twins h hp hind
  have haddr : t.addressed.full_addr = s.addressed.full_addr := ha.full_addr
  have hcfg : src'.hw_cfg t.addressed.msg_decoder = src.hw_cfg s.addressed.msg_decoder := (hsrc.hw_cfg ha.msg_decoder).symm
  have htype : t.addressed.msg.branch_type = s.addressed.msg.branch_type := by
    rw [addressed_branch_type, addressed_branch_type, hs.branch_type hind]
  apply (retire_msg_twins hsrc hclear ha).bind
  intro _ s₁ t₁ h
  rw [hmsg2.1]
  apply next_msg2_twins hsrc h (hmsg2.2 1)
  intro n n' a b s t h hsame hback
  simp only [haddr, hcfg, htype, ← hsame.1]
  refine .ite (fun _ => ?_) fun hown => ?_
  · obtain ⟨d, e, hd, he, hr⟩ := hback
    rw [Proc.bind_ok (rewind_msg_of hd), Proc.bind_ok (rewind_msg_of he)]
    obtain ⟨-, m, stack, -, hm, hstack⟩ := h
    exact Proc.matches_some ⟨e, m, stack, hr, hm, hstack⟩
  · have hown : a.tcode = .Ownership := Decidable.of_not_not hown
    have hsame' := hsame.owned
    rw [owned_eq_some hown, owned_eq_some (hsame.1.symm.trans hown)] at hsame'
    simp only [Msg.ownership, Option.some.injEq, TraceOwnership.mk.injEq] at hsame'
    obtain ⟨h1, h2, h3, h4⟩ := hsame'
    rw [h1, h2, h3, h4]
    exact Proc.matches_some h

theorem next_sync_twins {env env' : Env} (hmsg2 : SameAhead P env env') (h : Twins R Q s t) :
    Twinned R Q (trace_next_sync src env s) (trace_next_sync src' env' t) := by
  unfold trace_next_sync
  apply checked_twins hsrc hmsg2 h (p := fun m => (!msg_is_sync m || msg_is_branch m) = true)
  · intro a b hab
    rw [hab.is_branch, hab.is_sync]
  intro s t h hp hno
  have hy : msg_is_sync s.msg = true := by
    rw [Bool.or_eq_true, not_or] at hno
    simpa using hno.1
  have hs := h.msg hp
  simp only [← hsrc.hw_cfg h.msg_decoder, ← hs.xaddr (sync_has_xaddr hy), ← hs.sync_type hy]
  apply (retire_msg_twins hsrc hclear h).bind
  intro _ s t h
  simp only [Proc.get_bind_apply, h.msg_present]
  exact Proc.matches_assert fun _ => Proc.matches_some h

theorem next_stop_twins {env env' : Env} (hmsg2 : SameAhead P env env') (h : Twins R Q s t) :
    Twinned R Q (trace_next_stop src env s) (trace_next_stop src' env' t) := by
  unfold trace_next_stop
  apply checked_twins hsrc hmsg2 h (p := fun m => m.tcode ≠ .ProgTraceCorrelation)
  · intro a b hab
    rw [hab.1]
  intro s t h hp hstop
  have hs := h.msg hp
  simp only [← hs.stop_code (Decidable.of_not_not hstop)]
  apply (retire_msg_twins hsrc hclear h).bind
  intro _ s t h
  simp only [Proc.get_bind_apply, h.msg_present]
  refine Proc.matches_assert fun _ => ?_
  obtain ⟨d, m, stack, hd, hm, hstack⟩ := h
  exact Proc.matches_some ⟨d, m, stack, hd, hm, hstack⟩

theorem next_error_twins {env env' : Env} (hmsg2 : SameAhead P env env') (h : Twins R Q s t) :
    Twinned R Q (trace_next_error src env s) (trace_next_error src' env' t) := by
  unfold trace_next_error
  simp only [Proc.get_bind_apply, h.synced, hmsg2.1]
  refine .ite (fun _ => Proc.matches_some h) fun _ => ?_
  apply (fetch_twins hsrc h (hmsg2.2 _)).bind (fun b s t hst => ?_) fun _ _ _ h => h.1
  obtain ⟨h, hfilled⟩ := hst
  have hs := h.msg (hfilled b rfl)
  simp only [Proc.get_bind_apply, h.res_hists, ← hs.1]
  refine .ite (fun _ => Proc.matches_some h) fun herr => ?_
  obtain ⟨hcode, htype⟩ := hs.error (Decidable.of_not_not herr)
  rw [← hcode, ← htype]
  apply Twinned.bind (drain_all_twins hsrc _ _)
  · intro _ s t h
    apply (retire_msg_twins hsrc hclear h).bind
    intro _ s t h
    simp only [Proc.get_bind_apply, h.msg_present]
    refine Proc.matches_assert fun _ => ?_
    obtain ⟨d, m, stack, hd, hm, hstack⟩ := h
    exact Proc.matches_some ⟨d, m, stack, hd, hm, hstack⟩
  · obtain ⟨d, m, stack, hd, hm, hstack⟩ := h
    exact ⟨d, m, stack, hd, hm, hstack⟩

omit hclear in
theorem sync_forward_twins {env env' : Env} (hmsg2 : SameAhead P env env') (fuel : Nat) : ∀ {k : Nat} {s : TraceDecoder σ} {t : TraceDecoder τ},
    Twins R Q s t → Twinned R Q (sync_forward src env fuel k s) (sync_forward src' env' fuel k t) := by
  induction fuel with
  | zero => exact fun _ => Proc.matches_none
  | succ fuel ih =>
    intro k s t h
    unfold sync_forward
    rw [hmsg2.1]
    apply (fetch_twins hsrc h (hmsg2.2 _)).bind (fun b s t hst => ?_) fun _ _ _ h => h.1
    obtain ⟨h, hfilled⟩ := hst
    have hs := h.msg (hfilled b rfl)
    simp only [Proc.get_bind_apply, ← hs.is_sync]
    refine .ite (fun _ => Proc.matches_some h) fun _ => ih ?_
    obtain ⟨d, m, stack, hd, hm, hstack⟩ := h
    refine ⟨d, m, stack, hd, ?_, hstack⟩
    intro h
    cases h

omit hclear in
theorem sync_forward_all_twins {env env' : Env} (hmsg2 : SameAhead P env env') (h : Twins R Q s t) :
    Twinned R Q (sync_forward src env (src.left s.msg_decoder + 2) 0 s) (sync_forward src' env' (src'.left t.msg_decoder + 2) 0 t) := by
  rw [sync_forward_fuel hsrc.lawful ⟨_, h.msg_decoder⟩ (Nat.le_refl _) (Nat.le_max_left _ (src'.left t.msg_decoder + 2)),
    sync_forward_fuel hsrc.lawful' ⟨_, h.msg_decoder⟩ (Nat.le_refl _) (Nat.le_max_right (src.left s.msg_decoder + 2) _)]
  exact sync_forward_twins hsrc hmsg2 _ h

theorem sync_reset_twins {env env' : Env} (hmsg2 : SameAhead P env env') (h : Twins R Q s t) :
    Twinned R Q (trace_sync_reset src env s) (trace_sync_reset src' env' t) := by
  unfold trace_sync_reset
  simp only [Proc.get_bind_apply, h.synced]
  refine .ite (fun _ => Proc.matches_some h) fun hsync => ?_
  have hsync : s.synced = false := by simpa using hsync
  have hfound : ∀ r u, sync_forward src env (src.left s.msg_decoder + 2) 0 s = some (r, u) →
      ∀ a, r = .ok a → u.msg_present = true ∧ msg_is_sync u.msg = true := by
    intro r u hu a hr
    exact ((sync_forward_cases _ hu).micros hsync).2.2 hr
  apply ((sync_forward_all_twins hsrc hmsg2 h).with hfound).bind (fun _ s t hst => ?_) fun _ _ _ h => h.1
  obtain ⟨h, hfound⟩ := hst
  obtain ⟨hp, hy⟩ := hfound _ rfl
  have hs := h.msg hp
  have hresync : Twins R Q s.resynced t.resynced := by
    obtain ⟨d, m, stack, hd, hm, hstack⟩ := h
    exact ⟨d, _, stack, hd, fun _ => hs.as_sync hy s.msg.hist m.hist, hstack⟩
  change Twinned R Q ((trace_next_sync src env >>= fun sync => pure (some sync)) s.resynced)
    ((trace_next_sync src' env' >>= fun sync => pure (some sync)) t.resynced)
  exact (next_sync_twins hsrc hclear hmsg2 hresync).bind fun _ _ _ h => Proc.matches_some h

end Clears

end Pairs

end Step

/-! ## Whole calls -/

section Exec
variable {σ τ : Type} {src : Source σ} {src' : Source τ} {R : σ → τ → Prop} {N : Nat → Nat → Prop} {P : Msg → Prop} {Q : RetStack → RetStack → Prop} {s : TraceDecoder σ}
  {t : TraceDecoder τ} {env env' : Env}

theorem Twinned.map {α β : Type} {x : Trace σ α} {y : Trace τ α} (f : α → β) (h : Twinned R Q (x s) (y t)) :
    Twinned R Q ((f <$> x) s) ((f <$> y) t) :=
  Twinned.bind h fun _ _ _ h => Proc.matches_some h

/-- The return stacks after a push or a pop. -/
theorem stack_twins {α : Type} {x y : Proc RetStack NexusError α} (h : Twins R Q s t)
    (hxy : Proc.Matches (fun _ => Q) (x s.return_stack) (y t.return_stack)) :
    Twinned R Q (Proc.zoom (·.return_stack) (fun r s => { s with return_stack := r }) x s)
      (Proc.zoom (·.return_stack) (fun r s => { s with return_stack := r }) y t) := by
  rcases hxy with ⟨hx, hy⟩ | ⟨r, p, q, hx, hy, hq⟩
  · left
    simp only [Proc.zoom, hx, hy, Option.map_none, and_self]
  · right
    refine ⟨r, { s with return_stack := p }, { t with return_stack := q }, ?_, ?_, ?_⟩
    · simp only [Proc.zoom, hx, Option.map_some]
    · simp only [Proc.zoom, hy, Option.map_some]
    · obtain ⟨d, m, stack, hd, hm, -⟩ := h
      exact ⟨d, m, q, hd, hm, hq⟩

/-- Twins stay twins, and a call returns the same from both. -/
theorem exec_twins (hsrc : src.Pairs src' R N P) (hclear : ∀ r r', Q r r' → Q (retstack_clear r) (retstack_clear r'))
    (hpush : ∀ {r r'} a, Q r r' → Proc.Matches (fun _ => Q) (retstack_push env.mem a r) (retstack_push env'.mem a r'))
    (hpop : ∀ {r r'}, Q r r' → Proc.Matches (fun _ => Q) (retstack_pop r) (retstack_pop r')) (hmsg2 : SameAhead P env env')
    (halloc : env.alloc = env'.alloc) (h : Twins R Q s t) {c : Call} (hc : c ≠ .skip) : Twinned R Q (exec src env c s) (exec src' env' c t) := by
  cases c with
  | sync_reset => exact (sync_reset_twins hsrc hclear hmsg2 h).map _
  | try_retire icnt => exact (try_retire_twins hsrc hmsg2 halloc h icnt).map _
  | next_tnt => exact (next_tnt_twins hsrc hclear hmsg2 halloc h).map _
  | next_indirect => exact (next_indirect_twins hsrc hclear hmsg2 h).map _
  | next_sync => exact (next_sync_twins hsrc hclear hmsg2 h).map _
  | next_error => exact (next_error_twins hsrc hclear hmsg2 h).map _
  | next_stop => exact (next_stop_twins hsrc hclear hmsg2 h).map _
  | push_call a => exact (stack_twins h (hpush a h.return_stack)).map _
  | pop_ret => exact (stack_twins h (hpop h.return_stack)).map _
  | add_timestamp ts =>
    apply Twinned.map
    exact (retire_timestamp_twins hsrc h ts).bind fun _ _ _ h => Proc.matches_some h
  | skip => exact absurd rfl hc

end Exec

end nexusrv
