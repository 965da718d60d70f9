import NexusRv.ReplayLoop
import NexusRv.Progress
/-!
# A replay that does not end

Every round of the replayer consumes something: a message, a repetition of one, the sync behind a branch, or some of the I-CNT and of the
history bits. The exception is a message that no event stands for, where no code is known.
-/

namespace nexusrv

/-! ## Blocks -/

section Blocks
variable {σ α β : Type} {src : Source σ} {I : σ → Prop} {b : InstBlock} {env : Nat → Env} {s t : TraceDecoder σ}

theorem Plays.consumes (hlaw : src.Lawful I) (h : Plays src s t) (hs : Metered I s) : Metered I t ∧ t.amount src ≤ s.amount src := by
  obtain ⟨calls, rs, hplay⟩ := h
  refine play_keeps (P := fun u => Metered I u ∧ u.amount src ≤ s.amount src) ?_ calls hplay ⟨hs, le_rfl⟩
  rintro env c u r v hexec ⟨hu, hle⟩
  obtain ⟨os, hm, -⟩ := exec_micros hexec
  obtain ⟨hv, hle'⟩ := hm.consumes hlaw hu
  exact ⟨hv, hle'.trans hle⟩

/-- A procedure that first of all retires the I-CNT of the block. -/
def RetiresFirst (src : Source σ) (b : InstBlock) (env : Nat → Env) (x : Replay σ α) : Prop :=
  ∀ s a t, x s = some (.ok a, t) → ∃ ev u, check_exc src b env s = some (.ok ev, u) ∧ Plays src u t

theorem first_check {f : TraceEvent → Replay σ α} (hf : ∀ ev, OnlyCalls src (f ev)) : RetiresFirst src b env (check_exc src b env >>= f) := by
  intro s a t h
  obtain ⟨ev, u, hu, h⟩ := Proc.bind_eq_ok.1 h
  exact ⟨ev, u, hu, hf ev u _ t h⟩

theorem RetiresFirst.bind {x : Replay σ α} {f : α → Replay σ β} (hx : RetiresFirst src b env x) (hf : ∀ a, OnlyCalls src (f a)) :
    RetiresFirst src b env (x >>= f) := by
  intro s a t h
  obtain ⟨a', v, hv, h⟩ := Proc.bind_eq_ok.1 h
  obtain ⟨ev, u, hu, hplays⟩ := hx s a' v hv
  exact ⟨ev, u, hu, hplays.trans (hf a' v _ t h)⟩

theorem first_indir_jmp : RetiresFirst src b env (indir_jmp_retire src b env) :=
  first_check fun _ => .ite (only_fail _) ((only_next_indirect _).throwing.bind fun _ => only_pure _)

theorem first_indir_call : RetiresFirst src b env (indir_call_retire src b env) :=
  first_indir_jmp.bind fun _ => (only_push_call _ _).ignoring.bind fun _ => only_pure _

theorem first_ret : RetiresFirst src b env (ret_retire src b env) := by
  refine first_check fun _ => .ite (only_fail _) (.ite ?_ only_pop_ret.throwing)
  exact only_pop_ret.ignoring.bind fun _ => (only_next_indirect _).throwing.bind fun _ => only_pure _

/-- Only at an `ecall` or `ebreak` less is retired than the block. -/
theorem first_block_retire (hint : b.cls ≠ .int) : RetiresFirst src b env (block_retire src b env) := by
  unfold block_retire
  split
  · exact first_check fun _ => only_pure _
  · exact first_check fun _ => only_pure _
  · exact first_check fun _ => .ite (only_fail _) ((only_next_tnt _).throwing.bind fun _ => only_pure _)
  · refine RetiresFirst.bind (x := dir_jmp_retire src b env _) (first_check fun _ => only_pure _) fun _ => ?_
    exact (only_push_call _ _).ignoring.bind fun _ => only_pure _
  · exact first_indir_jmp
  · exact first_indir_jmp
  · exact first_indir_call
  · exact first_ret
  · intro s a t h
    rw [co_swap_retire, Proc.get_bind_apply, Proc.ite_apply] at h
    split at h
    · exact first_indir_call s a t h
    · exact first_ret.bind (fun _ => (only_push_call _ _).ignoring.bind fun _ => only_pure _) s a t h
  · exact absurd ‹_› hint

theorem check_exc_all {ev : TraceEvent} (h : check_exc src b env s = some (.ok ev, t)) :
    ∃ n, b.icnt ≤ n ∧ trace_try_retire src (env 0) b.icnt s = some (.ok (n, ev), t) := by
  obtain ⟨⟨n, ev'⟩, u, hu, h⟩ := Proc.bind_eq_ok.1 h
  rw [Proc.ite_apply] at h
  split at h
  · rw [Proc.ite_apply] at h
    split at h <;> cases h
  · cases h
    exact ⟨n, Nat.le_of_not_lt ‹_›, throwing_eq_ok hu⟩

/-- A block that is retired consumes. -/
theorem block_retire_consumes (hlaw : src.Lawful I) {next : UInt64} (h : block_retire src b env s = some (.ok next, t)) (hs : Metered I s)
    (h0 : 0 < b.icnt) : t.amount src < s.amount src := by
  by_cases hint : b.cls = .int
  · -- the exception is taken
    simp only [block_retire, hint] at h
    obtain ⟨⟨n, ev⟩, u, hu, h⟩ := Proc.bind_eq_ok.1 h
    obtain ⟨hm, hle⟩ := (only_try_retire (env 0) _ _ _ _ (throwing_eq_ok hu)).consumes hlaw hs
    rw [Proc.ite_apply] at h
    split at h
    · cases h
    rw [Proc.ite_apply] at h
    split at h
    · cases h
    · obtain ⟨i, v, hv, h⟩ := Proc.bind_eq_ok.1 h
      cases h
      exact (next_indirect_consumes hlaw (throwing_eq_ok hv) hm).trans_le hle
  · obtain ⟨ev, u, hu, hplays⟩ := first_block_retire hint s next t h
    obtain ⟨n, hn, htry⟩ := check_exc_all hu
    have hm := ((only_try_retire (env 0) _ _ _ _ htry).consumes hlaw hs).1
    exact (hplays.consumes hlaw hm).2.trans_lt (try_retire_consumes hlaw htry hs (Nat.lt_of_lt_of_le h0 hn))

/-- An event is thrown where `try_retire` has reported it. -/
def ThrownAt (e : InstExc) (t : TraceDecoder σ) : Prop := ∀ a ev, e = .event a ev → ev ≠ .None → AtEvent ev t

theorem failed_thrown (rc : NexusError) (t : TraceDecoder σ) : ThrownAt (.failed rc) t := fun _ _ h => by cases h

theorem throwing_thrown {P : TraceDecoder σ → Prop} (x : Trace σ α) : Proc.Post P (throwing x) (fun _ _ => True) ThrownAt := by
  refine fun s _ => ⟨fun _ _ _ => trivial, fun e t h => ?_⟩
  obtain ⟨⟨r, t'⟩, -, he⟩ := Option.map_eq_some_iff.1 h
  rcases r with rc | a <;> cases he
  exact failed_thrown rc _

theorem ignoring_thrown {P : TraceDecoder σ → Prop} (x : Trace σ α) : Proc.Post P (ignoring x) (fun _ _ => True) ThrownAt := by
  refine fun s _ => ⟨fun _ _ _ => trivial, fun e t h => ?_⟩
  obtain ⟨⟨r, t'⟩, -, he⟩ := Option.map_eq_some_iff.1 h
  cases he

theorem try_retire_thrown {P : TraceDecoder σ → Prop} (icnt : Nat) : Proc.Post P (throwing (trace_try_retire src (env 0) icnt))
    (fun r u => r.2 ≠ .None → AtEvent r.2 u) ThrownAt := by
  refine fun s hs => ⟨fun r u h hev => try_retire_event hev (throwing_eq_ok h), ?_⟩
  exact (throwing_thrown (P := P) (trace_try_retire src (env 0) icnt) s hs).2

theorem event_thrown {a : UInt64} {ev : TraceEvent} {P : TraceDecoder σ → Prop} {Q : α → TraceDecoder σ → Prop}
    (h : ∀ u, P u → ev ≠ .None → AtEvent ev u) : Proc.Post P (Proc.fail (.event a ev) : Replay σ α) Q ThrownAt := by
  refine Proc.post_fail fun u hu a' ev' he hev => ?_
  cases he
  exact h u hu hev

theorem check_exc_thrown {P : TraceDecoder σ → Prop} : Proc.Post P (check_exc src b env) (fun ev u => ev ≠ .None → AtEvent ev u) ThrownAt := by
  refine (try_retire_thrown _).bind fun r => .ite (fun _ => .ite (fun _ => ?_) fun _ => ?_) fun _ => ?_
  · exact event_thrown fun _ h => h
  · exact Proc.post_fail fun u _ => failed_thrown _ u
  · exact Proc.post_pure fun _ h => h

theorem next_thrown {P : TraceDecoder σ → Prop} (x : Trace σ α) (f : α → β) :
    Proc.Post P (throwing x >>= fun a => pure (f a)) (fun _ _ => True) ThrownAt :=
  (throwing_thrown x).bind fun _ => Proc.post_pure fun _ _ => trivial

theorem push_thrown {P : TraceDecoder σ → Prop} (x : Trace σ α) (a : UInt64) :
    Proc.Post P (ignoring x >>= fun _ => pure a) (fun _ _ => True) ThrownAt :=
  (ignoring_thrown x).bind fun _ => Proc.post_pure fun _ _ => trivial

theorem indir_jmp_thrown {P : TraceDecoder σ → Prop} : Proc.Post P (indir_jmp_retire src b env) (fun _ _ => True) ThrownAt :=
  check_exc_thrown.bind fun _ => .ite (fun _ => Proc.post_fail fun u _ => failed_thrown _ u) fun _ => next_thrown _ _

theorem indir_call_thrown {P : TraceDecoder σ → Prop} : Proc.Post P (indir_call_retire src b env) (fun _ _ => True) ThrownAt :=
  indir_jmp_thrown.bind fun _ => push_thrown _ _

theorem ret_thrown {P : TraceDecoder σ → Prop} : Proc.Post P (ret_retire src b env) (fun _ _ => True) ThrownAt := by
  refine check_exc_thrown.bind fun ev => .ite (fun _ => event_thrown fun _ h => h) fun _ => .ite (fun _ => ?_) fun _ => throwing_thrown _
  exact (ignoring_thrown _).bind fun _ => next_thrown _ _

theorem block_retire_thrown : Proc.Post (fun _ => True) (block_retire src b env) (fun _ _ => True) ThrownAt := by
  unfold block_retire
  split
  · exact check_exc_thrown.bind fun _ => Proc.post_pure fun _ _ => trivial
  · exact check_exc_thrown.bind fun _ => Proc.post_pure fun _ _ => trivial
  · exact check_exc_thrown.bind fun ev => .ite (fun _ => event_thrown fun _ h => h) fun _ => next_thrown _ _
  · refine Proc.Post.bind (x := dir_jmp_retire src b env _) (Q := fun _ _ => True) ?_ fun _ => push_thrown _ _
    exact check_exc_thrown.bind fun _ => Proc.post_pure fun _ _ => trivial
  · exact indir_jmp_thrown
  · exact indir_jmp_thrown
  · exact indir_call_thrown
  · exact ret_thrown
  · refine .get_bind fun s _ => .ite (fun _ => indir_call_thrown) fun _ => ?_
    exact ret_thrown.bind fun _ => push_thrown _ _
  · refine (try_retire_thrown _).bind fun r => .ite (fun _ => event_thrown fun _ h => h) fun _ => ?_
    exact .ite (fun _ => Proc.post_fail fun u _ => failed_thrown _ u) fun _ => next_thrown _ _

theorem block_event {a : UInt64} {ev : TraceEvent} (h : block_retire src b env s = some (.error (.event a ev), t)) (hev : ev ≠ .None) :
    AtEvent ev t :=
  (block_retire_thrown s trivial).2 _ t h a ev rfl hev

end Blocks

/-! ## Rounds -/

/-- No mapping has so many bytes that the I-CNT of a block wraps. -/
def Code.Small (code : Code) : Prop := ∀ va addr len, code.vm.try_map va = .ok (some addr, len) → len.toNat < 2 ^ 33

/-- The blocks that are kept are those that are fetched. -/
def Replayer.Coherent {σ : Type} (code : Code) (s : Replayer σ) : Prop := ∀ e ∈ s.insts, code.fetch e.1 = .ok e.2

/-- Nothing is left in front of a message without an event, and no code is known. -/
structure Idle {σ : Type} (code : Code) (s : Replayer σ) : Prop where
  synced : s.trace_decoder.synced = true
  present : s.trace_decoder.msg_present = true
  silent : msg_is_silent s.trace_decoder.msg = true
  exhausted : s.trace_decoder.Exhausted
  nowhere : ∀ ip, s.lastip = some ip → code.fetch ip = .ok none

theorem fetch_icnt_pos {code : Code} (hcs : code.cs.Lawful) (hsmall : code.Small) {va : UInt64} {b : InstBlock}
    (h : code.fetch va = .ok (some b)) : 0 < b.icnt := by
  obtain ⟨addr, size, hmap, k, y, len, cls, -, h2, hl, -, rfl⟩ := fetch_spans hcs h
  have hlen : (mapped_bytes code.mem addr size).length = size.toNat := by simp [mapped_bytes]
  obtain ⟨hsize, hle⟩ := hl.size hcs
  have hlt := hsmall va addr size hmap
  rw [hlen] at hle
  change 0 < (k + len) / 2 % 2 ^ 32
  omega

section Rounds
variable {σ : Type} {src : Source σ} {I : σ → Prop} {offset : σ → Nat} {code : Code} {s t u : Replayer σ}

/-- What is found is what is fetched. -/
theorem Found.fetches {block : Option InstBlock} (h : Found code s block u) (hc : s.Coherent code) :
    u.Coherent code ∧ (s.lastip = none ∧ block = none ∨ ∃ ip, s.lastip = some ip ∧ code.fetch ip = .ok block) := by
  cases h with
  | nowhere hip => exact ⟨hc, .inl ⟨hip, rfl⟩⟩
  | @known ip block hip hl =>
    obtain ⟨l₁, l₂, hl, -⟩ := List.lookup_eq_some_iff.1 hl
    exact ⟨hc, .inr ⟨ip, hip, hc (ip, block) (by simp [hl])⟩⟩
  | @fetched ip block hip _ hf =>
    refine ⟨fun e he => ?_, .inr ⟨ip, hip, hf⟩⟩
    rcases List.mem_cons.1 he with rfl | he
    · exact hf
    · exact hc e he

/-- Without a block there is no code. -/
theorem Found.no_code (h : Found code s none u) (hc : s.Coherent code) {ip : UInt64} (hip : s.lastip = some ip) : code.fetch ip = .ok none := by
  obtain ⟨-, ⟨hnone, -⟩ | ⟨ip', hip', hfetch⟩⟩ := h.fetches hc
  · rw [hnone] at hip
    cases hip
  · rw [hip'] at hip
    cases hip
    exact hfetch

theorem Attended.of_none {env : Env} (h : Attended src offset env s .None t) : t = s := by
  generalize hev : TraceEvent.None = ev at h
  cases h with
  | none => rfl
  | tnt hd => rcases hd with rfl | rfl <;> cases hev
  | indirect hd => rcases hd with rfl | rfl | rfl <;> cases hev
  | _ => cases hev

theorem Attended.insts {env : Env} {ev : TraceEvent} (h : Attended src offset env s ev t) : t.insts = s.insts := by
  have hask : (s.asks_tnt src offset).insts = s.insts := by
    unfold Replayer.asks_tnt
    dsimp only
    split <;> rfl
  cases h with
  | tnt => exact hask
  | _ => rfl

theorem checked_insts (s : Replayer σ) : (s.checked src offset).insts = s.insts := by
  unfold Replayer.checked
  dsimp only
  split <;> rfl

theorem checked_lastip (s : Replayer σ) : (s.checked src offset).lastip = s.lastip := by
  unfold Replayer.checked
  dsimp only
  split <;> rfl

theorem passed_insts (n : Nat) (s : Replayer σ) : (s.passed src offset n).insts = s.insts := by
  unfold Replayer.passed
  dsimp only
  split <;> rfl

theorem passed_zero (s : Replayer σ) : s.passed src offset 0 = s := by
  have hip : (s.lastip.map fun ip => ip + .ofNat (0 * 2 % 2 ^ 32)) = s.lastip := by
    cases s.lastip <;> simp
  rw [Replayer.passed, if_neg (by simp), hip]
  rfl

theorem Rounded.coherent {env : Nat → Env} (h : Rounded src offset code env s t) (hc : s.Coherent code) : t.Coherent code := by
  have hsame : ∀ {x y : Replayer σ}, y.insts = x.insts → x.Coherent code → y.Coherent code := fun h hx e he => hx e (h ▸ he)
  cases h with
  | resync => exact hsame (checked_insts _) hc
  | block _ hf => exact hsame rfl (hf.fetches hc).1
  | event _ hf _ _ _ _ _ hev => exact hsame ((checked_insts _).trans hev.insts) (hf.fetches hc).1
  | skip_block _ hf _ hskip =>
    cases hskip
    exact hsame rfl (hf.fetches hc).1
  | retire _ hf _ hev => exact hsame ((checked_insts _).trans (hev.insts.trans (passed_insts _ _))) (hf.fetches hc).1
  | skip _ hf _ hskip =>
    cases hskip
    exact hsame rfl (hf.fetches hc).1

theorem take_icnt_zero (d : TraceDecoder σ) : d.take_icnt 0 = d := by
  rw [TraceDecoder.take_icnt, if_pos (Nat.zero_le _)]
  rfl

/-- Where `try_retire` hands out nothing, it has stopped at a message. -/
theorem try_retire_zero {env : Env} {ev : TraceEvent} {n : Nat} {d e : TraceDecoder σ}
    (h : trace_try_retire src env UINT32_MAX d = some (.ok (n, ev), e)) (h0 : n = 0) : AtEvent ev e := by
  obtain hat | ⟨-, u, -, -, -, hlt, -, hu⟩ := try_retire_stops h
  · exact hat
  cases try_retire_cases h with
  | early _ _ hsync hloop =>
    -- as much as an `int32_t` holds was asked for
    obtain ⟨v, -, -, hd⟩ := hloop.micros_found (c := .try_retire UINT32_MAX) (asks_icnt _) rfl hsync
    obtain ⟨-, -, ⟨-, hr, -⟩ | ⟨-, -, -, hr, -⟩⟩ := retire_icnt_cases hd
    · cases hr
    · cases hr
      exact absurd h0 (by decide)
  | event v =>
    rw [h0, take_icnt_zero, take_icnt_zero] at hu
    rw [h0, ← hu, h0] at hlt
    exact absurd hlt (Nat.lt_irrefl 0)

/-- Without an event either, the message is a silent one. -/
theorem try_retire_nothing {env : Env} {d e : TraceDecoder σ} (h : trace_try_retire src env UINT32_MAX d = some (.ok (0, .None), e)) :
    e.synced = true ∧ e.msg_present = true ∧ msg_is_silent e.msg = true ∧ e.Exhausted := by
  have hat : AtEvent .None e := try_retire_zero h rfl
  have h0 : e.tnts_left = 0 := by
    refine Classical.byContradiction fun h0 => ?_
    have hev := hat.event
    rw [TraceDecoder.event, hat.not_error (by simp), if_neg Bool.false_ne_true, if_pos h0] at hev
    cases hev
  exact ⟨hat.synced, hat.present, event_none hat.event hat.settled hat.present, hat.exhausted (by simp) h0⟩

section Lawful
variable (hlaw : src.Lawful I)
include hlaw

theorem Attended.consumes {env : Env} {ev : TraceEvent} (h : Attended src offset env s ev t) (hs : Metered I s.trace_decoder)
    (hat : AtEvent ev s.trace_decoder) (hev : ev ≠ .None) : t.trace_decoder.amount src < s.trace_decoder.amount src := by
  cases h with
  | none => exact absurd rfl hev
  | tnt _ hd =>
    have h0 : s.trace_decoder.icnt_left = 0 := by rw [TraceDecoder.icnt_left, hat.icnt, Nat.sub_self]
    exact next_tnt_consumes hlaw hd hs hat.present hat.settled h0
  | indirect _ hd => exact next_indirect_consumes hlaw hd hs
  | sync hd => exact next_sync_consumes hlaw hd hs
  | stop hd => exact next_stop_consumes hlaw hd hs
  | error hd => exact next_error_consumes hlaw hd hs

theorem Skipped.consumes {env : Env} (h : Skipped src offset env s t) (hs : Metered I s.trace_decoder) :
    t.trace_decoder.amount src < s.trace_decoder.amount src := by
  cases h with
  | @next n d m d' hd h0 hd' =>
    rw [next_msg2_apply] at hd
    obtain ⟨⟨r, e, m'⟩, hn, hr⟩ := Option.map_eq_some_iff.1 hd
    rcases r with rc | n' <;> cases hr
    rw [trace_add_timestamp, retire_timestamp_bind] at hd'
    cases hd'
    exact amount_lt_left ((hlaw.next hs.inv hn).2.2.2 n rfl h0)

/-- A round consumes, or nothing is left that a round could consume. -/
theorem Rounded.consumes {env : Nat → Env} (h : Rounded src offset code env s t) (hs : Metered I s.trace_decoder) (hc : s.Coherent code)
    (hcs : code.cs.Lawful) (hsmall : code.Small) : t.trace_decoder.amount src < s.trace_decoder.amount src ∨ Idle code t := by
  cases h with
  | resync hd =>
    rw [checked_decoder]
    exact .inl (sync_reset_consumes hlaw hd hs)
  | @block u b next d _ hf hd =>
    obtain ⟨-, ⟨-, hb⟩ | ⟨ip, -, hb⟩⟩ := hf.fetches hc
    · cases hb
    · exact .inl (block_retire_consumes hlaw hd hs (fetch_icnt_pos hcs hsmall hb))
  | event _ _ hd hev _ _ _ ht =>
    rw [checked_decoder]
    obtain ⟨hm, hle⟩ := (only_block_retire _ _ _ hd).consumes hlaw hs
    exact .inl ((ht.consumes hlaw hm (block_event hd hev) hev).trans_le hle)
  | skip_block _ _ hd hskip =>
    obtain ⟨hm, hle⟩ := (only_block_retire _ _ _ hd).consumes hlaw hs
    exact .inl ((hskip.consumes hlaw hm).trans_le hle)
  | @retire u n ev d t _ hf hd ht =>
    obtain ⟨hm, hle⟩ := (only_try_retire _ _ _ _ _ hd).consumes hlaw hs
    have hdec : ((u.after d).passed src offset n).trace_decoder = d := passed_decoder n _
    rw [checked_decoder]
    rcases Nat.eq_zero_or_pos n with rfl | hpos
    · rw [passed_zero] at ht
      by_cases hev : ev = .None
      · -- no event: the round changes nothing
        rw [hev] at ht hd
        rw [ht.of_none]
        obtain ⟨h1, h2, h3, h4⟩ := try_retire_nothing hd
        have hdone : ((u.after d).checked src offset).trace_decoder = d := checked_decoder _
        refine .inr ⟨by rw [hdone, h1], by rw [hdone, h2], by rw [hdone, h3], by rw [hdone]; exact h4, ?_⟩
        intro ip hip
        have hlast : s.lastip = some ip := by
          rw [← hip, checked_lastip, Replayer.after, hf.frame]
        exact hf.no_code hc hlast
      · exact .inl ((ht.consumes hlaw hm (try_retire_zero hd rfl) hev).trans_le hle)
    · have hlt := try_retire_consumes hlaw hd hs hpos
      have hplays := ht.plays
      rw [hdec] at hplays
      exact .inl ((hplays.consumes hlaw hm).2.trans_lt hlt)
  | skip _ _ hd hskip =>
    obtain ⟨hm, hle⟩ := (only_try_retire _ _ _ _ _ hd).consumes hlaw hs
    exact .inl ((hskip.consumes hlaw hm).trans_le hle)

end Lawful

end Rounds

/-! ## The idle state -/

section Idle
variable {σ : Type} {src : Source σ} {I : σ → Prop} {offset : σ → Nat} {code : Code} {s t : Replayer σ} {d : TraceDecoder σ}

theorem silent_event {m : Msg} (h : msg_is_silent m = true) :
    msg_is_error m = false ∧ msg_is_res m = false ∧ msg_has_hist m = false ∧ msg_event m = .None := by
  simp only [msg_is_silent, Bool.not_eq_true', Bool.or_eq_false_iff] at h
  obtain ⟨⟨⟨⟨herr, hb⟩, hy⟩, hstop⟩, hres⟩ := h
  refine ⟨herr, hres, ?_, by simp [msg_event, hb, hy, hstop]⟩
  unfold msg_has_hist
  cases ht : m.tcode <;> first | rfl | simp [msg_is_branch, msg_is_stop, msg_is_res, ht] at hb hstop hres

/-- In front of a silent message, `try_retire` hands out nothing, and changes nothing. -/
theorem try_retire_silent_none (hlaw : src.Lawful I) (hm : Metered I d) (hsync : d.synced = true) (hp : d.msg_present = true)
    (hsilent : msg_is_silent d.msg = true) (hex : d.Exhausted) (env : Env) (icnt : Nat) :
    trace_try_retire src env icnt d = some (.ok (0, .None), d) := by
  obtain ⟨herr, hres, hhist, hev⟩ := silent_event hsilent
  have hset : d.settled := fun _ => hres
  have hfew : retire_icnt (retire_limit icnt) d = some (.ok none, d) := retire_icnt_few hset hex.icnt_le (by rw [hex.icnt]; exact Nat.zero_le _)
  have hpull : trace_pull_msg src env 0 d = some (.ok false, d) := pull_of (.other false d (.present hp) hres)
  have hevent : d.event = .None := by
    rw [TraceDecoder.event, herr, if_neg Bool.false_ne_true, if_neg (by simp [hex.tnts]), hev]
  have htried : TriedRetire src env icnt d (.ok (d.icnt_left, d.event)) (d.take_icnt d.icnt_left) :=
    .event d hsync (.pull hfew hpull (.stop hfew)) hp hset hex.icnt_le hm.booked.one (fun _ => hex.tnts_le)
      fun _ _ hh => absurd (hh.symm.trans hhist) (by simp)
  rw [hex.icnt, hevent, take_icnt_zero] at htried
  exact try_retire_of hlaw hm.inv htried

theorem find_nothing (hc : s.Coherent code) (h : ∀ ip, s.lastip = some ip → code.fetch ip = .ok none) :
    ∃ u, find_block code s = some (.ok none, u) := by
  rw [find_block, Proc.get_bind_apply]
  rcases hip : s.lastip with _ | ip
  · exact ⟨s, rfl⟩
  have hfetch := h ip hip
  dsimp only
  rcases hl : s.insts.lookup ip with _ | block
  · exact ⟨_, running_bind.2 ⟨none, hfetch, rfl⟩⟩
  · obtain ⟨l₁, l₂, hl, -⟩ := List.lookup_eq_some_iff.1 hl
    have hblock := hc (ip, block) (by simp [hl])
    cases hblock.symm.trans hfetch
    exact ⟨s, rfl⟩

/-- An idle round comes back, with the decoder as it was. -/
theorem Idle.round (h : Idle code s) (offset : σ → Nat) (hlaw : src.Lawful I) (hm : Metered I s.trace_decoder) (hc : s.Coherent code)
    (env : Nat → Env) :
    ∃ t, replay_round src offset code env s = some (.ok (), t) ∧ Idle code t ∧ t.trace_decoder = s.trace_decoder := by
  obtain ⟨u, hu⟩ := find_nothing hc h.nowhere
  have hframe := (find_block_cases hu).frame
  have hreset : trace_sync_reset src (env 0) s.trace_decoder = some (.ok none, s.trace_decoder) := by
    rw [trace_sync_reset, Proc.get_bind_apply, Proc.ite_apply, if_pos h.synced]
    rfl
  have hdec : u.trace_decoder = s.trace_decoder := by rw [hframe]
  have htry := try_retire_silent_none hlaw hm h.synced h.present h.silent h.exhausted (env 4) UINT32_MAX
  have hrun : at_block src offset code env none u = some (.ok (), u.checked src offset) := by
    refine calling_bind.2 ⟨.ok (0, .None), s.trace_decoder, by rw [hdec, htry], ?_⟩
    rw [retire_unknown_ok, passed_zero, at_event]
    have hsame : u.after s.trace_decoder = u := by rw [← hdec]; rfl
    rw [hsame]
    exact (Proc.pure_bind_apply () _ u).trans (check_time_eq u)
  have hdone : (u.checked src offset).trace_decoder = s.trace_decoder := (checked_decoder u).trans hdec
  have hlast : (u.checked src offset).lastip = s.lastip := (checked_lastip u).trans (by rw [hframe])
  refine ⟨u.checked src offset, must_bind.2 ⟨none, s.trace_decoder, hreset, (Proc.bind_ok hu).trans hrun⟩, ?_, hdone⟩
  exact ⟨hdone ▸ h.synced, hdone ▸ h.present, hdone ▸ h.silent, hdone ▸ h.exhausted, hlast ▸ h.nowhere⟩

end Idle

/-! ## A replay from the start -/

section Forever
variable {σ : Type} {src : Source σ} {I : σ → Prop} {offset : σ → Nat} {code : Code} {env : Nat → Nat → Env} {s t u : Replayer σ}

theorem replay_rounds_succ {k n : Nat} : replay_rounds src offset code env k (n + 1) s = some (.ok (), u) ↔
    ∃ t, replay_round src offset code (env k) s = some (.ok (), t) ∧ replay_rounds src offset code env (k + 1) n t = some (.ok (), u) := by
  rw [replay_rounds, Proc.bind_eq_ok]
  constructor
  · rintro ⟨⟨⟩, t, h⟩
    exact ⟨t, h⟩
  · rintro ⟨t, h⟩
    exact ⟨(), t, h⟩

/-- What holds between the rounds. -/
structure Rolling (I : σ → Prop) (code : Code) (s : Replayer σ) : Prop where
  metered : Metered I s.trace_decoder
  coherent : s.Coherent code

theorem Rounded.rolling (hlaw : src.Lawful I) {env : Nat → Env} (h : Rounded src offset code env s t) (hs : Rolling I code s) : Rolling I code t :=
  ⟨(h.plays.consumes hlaw hs.metered).1, h.coherent hs.coherent⟩

/-- A replay that goes on for ever is idle at some time. -/
theorem idles (hlaw : src.Lawful I) (hcs : code.cs.Lawful) (hsmall : code.Small) (m : ℕ ×ₗ ℕ ×ₗ ℕ ×ₗ ℕ) : ∀ {k : Nat} {s : Replayer σ},
    s.trace_decoder.amount src = m → Rolling I code s → (∀ n, ∃ t, replay_rounds src offset code env k n s = some (.ok (), t)) →
    ∃ n t, replay_rounds src offset code env k n s = some (.ok (), t) ∧ Idle code t := by
  induction m using WellFoundedLT.induction with
  | ind m ih =>
    intro k s hm hs hforever
    obtain ⟨u, hu⟩ := hforever 1
    obtain ⟨t, ht, -⟩ := replay_rounds_succ.1 hu
    have hround := replay_round_cases ht
    rcases hround.consumes hlaw hs.metered hs.coherent hcs hsmall with hlt | hidle
    · have hrest : ∀ n, ∃ u, replay_rounds src offset code env (k + 1) n t = some (.ok (), u) := by
        intro n
        obtain ⟨v, hv⟩ := hforever (n + 1)
        obtain ⟨t', ht', hv⟩ := replay_rounds_succ.1 hv
        cases ht.symm.trans ht'
        exact ⟨v, hv⟩
      obtain ⟨n, v, hv, hidle⟩ := ih _ (hm ▸ hlt) rfl (hround.rolling hlaw hs) hrest
      exact ⟨n + 1, v, replay_rounds_succ.2 ⟨t, ht, hv⟩, hidle⟩
    · exact ⟨1, t, replay_rounds_succ.2 ⟨t, ht, rfl⟩, hidle⟩

/-- Once idle, for ever idle, in front of the same message. -/
theorem Idle.rounds (hlaw : src.Lawful I) (n : Nat) : ∀ {k : Nat} {s : Replayer σ}, Rolling I code s → Idle code s →
    ∃ t, replay_rounds src offset code env k n s = some (.ok (), t) ∧ Idle code t ∧ t.trace_decoder = s.trace_decoder := by
  induction n with
  | zero =>
    intro k s _ hidle
    exact ⟨s, rfl, hidle, rfl⟩
  | succ n ih =>
    intro k s hs hidle
    obtain ⟨t, ht, hidle, hd⟩ := hidle.round offset hlaw hs.metered hs.coherent (env k)
    obtain ⟨u, hu, hidle, hd'⟩ := ih (k := k + 1) ((replay_round_cases ht).rolling hlaw hs) hidle
    exact ⟨u, replay_rounds_succ.2 ⟨t, ht, hu⟩, hidle, hd'.trans hd⟩

/-- Rounds up to an idle state, and all the rounds behind it. -/
theorem idle_from (hlaw : src.Lawful I) (m : Nat) : ∀ {k : Nat} {s : Replayer σ}, Rolling I code s →
    replay_rounds src offset code env k m s = some (.ok (), t) → Idle code t →
      ∀ n, m ≤ n → ∃ u, replay_rounds src offset code env k n s = some (.ok (), u) ∧ Idle code u ∧ u.trace_decoder = t.trace_decoder := by
  induction m with
  | zero =>
    intro k s hs h hidle n _
    cases h
    exact hidle.rounds hlaw n hs
  | succ m ih =>
    intro k s hs h hidle n hn
    obtain ⟨v, hv, h⟩ := replay_rounds_succ.1 h
    obtain ⟨n, rfl⟩ : ∃ n', n = n' + 1 := ⟨n - 1, by omega⟩
    obtain ⟨u, hu, hdone⟩ := ih ((replay_round_cases hv).rolling hlaw hs) h hidle n (by omega)
    exact ⟨u, replay_rounds_succ.2 ⟨v, hv, hu⟩, hdone⟩

/-- Rounds that come back came back before. -/
theorem rounds_before (m : Nat) : ∀ {n k : Nat} {s : Replayer σ}, n ≤ m → replay_rounds src offset code env k m s = some (.ok (), t) →
    ∃ u, replay_rounds src offset code env k n s = some (.ok (), u) := by
  induction m with
  | zero =>
    intro n k s hn _
    obtain rfl := Nat.le_zero.1 hn
    exact ⟨s, rfl⟩
  | succ m ih =>
    intro n k s hn h
    cases n with
    | zero => exact ⟨s, rfl⟩
    | succ n =>
      obtain ⟨v, hv, h⟩ := replay_rounds_succ.1 h
      obtain ⟨u, hu⟩ := ih (Nat.le_of_succ_le_succ hn) h
      exact ⟨u, replay_rounds_succ.2 ⟨v, hv, hu⟩⟩

end Forever

/-- Every round comes back. -/
def ReplaysForever {σ : Type} (src : Source σ) (offset : σ → Nat) (code : Code) (env : Nat → Nat → Env) (s : TraceDecoder σ) : Prop :=
  ∀ n, ∃ t, replay_rounds src offset code env 0 n (replay_start s) = some (.ok (), t)

theorem Reachable.metered {s : TraceDecoder MsgDecoder} (h : Reachable s) : Metered DecoderInv s := ⟨h.inv, h.booked, h.tallied.1⟩

/-- A replay goes on for ever exactly where it comes to a message that no event stands for, with nothing left in front of it and no code known:
it comes back to that message in every round. Every other replay ends. -/
theorem replay_forever_iff {code : Code} (hcs : code.cs.Lawful) (hsmall : code.Small) {s : TraceDecoder MsgDecoder} (hs : Reachable s)
    (env : Nat → Nat → Env) :
    (ReplaysForever msg_source msg_decoder_offset code env s ↔
      ∃ n t, replay_rounds msg_source msg_decoder_offset code env 0 n (replay_start s) = some (.ok (), t) ∧ Idle code t) ∧
    ∀ n t, replay_rounds msg_source msg_decoder_offset code env 0 n (replay_start s) = some (.ok (), t) → Idle code t →
      ∀ m, n ≤ m → ∃ u, replay_rounds msg_source msg_decoder_offset code env 0 m (replay_start s) = some (.ok (), u) ∧ Idle code u ∧
        u.trace_decoder = t.trace_decoder := by
  have hrolling : Rolling DecoderInv code (replay_start s) := ⟨hs.metered, fun e he => absurd he List.not_mem_nil⟩
  refine ⟨⟨idles msg_source_lawful hcs hsmall _ rfl hrolling, ?_⟩, fun n t => idle_from msg_source_lawful n hrolling⟩
  rintro ⟨m, t, h, hidle⟩ n
  obtain ⟨u, hu, -⟩ := idle_from msg_source_lawful m hrolling h hidle (max m n) (Nat.le_max_left m n)
  exact rounds_before _ (Nat.le_max_right m n) hu

/-- No code is loaded. -/
def bare_code : Code := ⟨.new, fun _ => 0, ret_capstone⟩

/-- What an idle state asks of the decoder. -/
def TraceDecoder.stays_idle (d : TraceDecoder MsgDecoder) : Bool :=
  d.synced && d.msg_present && msg_is_silent d.msg && d.icnt_left = 0 && d.tnts_left = 0 && d.consumed_icnt ≤ d.icnt_total &&
    d.consumed_tnts ≤ d.tnt_total

theorem idle_of {s : Replayer MsgDecoder} (h : s.trace_decoder.stays_idle = true) : Idle bare_code s := by
  simp only [TraceDecoder.stays_idle, Bool.and_eq_true, decide_eq_true_eq] at h
  obtain ⟨⟨⟨⟨⟨⟨h1, h2⟩, h3⟩, h4⟩, h5⟩, h6⟩, h7⟩ := h
  exact ⟨h1, h2, h3, ⟨h4, h5, h6, h7⟩, fun _ _ => rfl⟩

/-- Behind a sync, an Ownership message that stands alone. -/
theorem replay_forever_iff_two : ReplaysForever msg_source msg_decoder_offset bare_code (fun _ _ => env_of Msg.zero)
    (fresh_decoder plain_cfg [0x24, 0x01, 0x07, 0x08, 0x8c, 0x0b]) := by
  have hrun : (replay_rounds msg_source msg_decoder_offset bare_code (fun _ _ => env_of Msg.zero) 0 2
      (replay_start (fresh_decoder plain_cfg [0x24, 0x01, 0x07, 0x08, 0x8c, 0x0b]))).map
        (fun r => (r.1.toOption, r.2.trace_decoder.stays_idle)) = some (some (), true) := by decide +kernel
  obtain ⟨⟨r, t⟩, ht, he⟩ := Option.map_eq_some_iff.1 hrun
  rcases r with e | ⟨⟩
  · cases he
  obtain ⟨-, hidle⟩ := Prod.mk.inj he
  have hsmall : bare_code.Small := by
    intro va addr len h
    cases h
  exact (replay_forever_iff ret_capstone_lawful hsmall (fresh_initial rfl _).reachable _).1.2 ⟨2, t, ht, idle_of hidle⟩

end nexusrv
