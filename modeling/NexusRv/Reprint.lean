import NexusRv.Erasure
import NexusRv.Paths
import NexusRv.Text
/-!
# Two replays side by side

What the replayer prints depends on the messages that its message decoder delivers, and on where they are. So two replays of one file print
the same lines, whatever their buffers.
-/

namespace nexusrv

/-! ## Texts -/

section Texts
variable {a b : Msg}

theorem print_if_congr {p : Bool} {x y : List Char} (h : p = true → x = y) : print_if p x = print_if p y := by
  cases p
  · rfl
  · exact h rfl

theorem Msg.Same.has_xaddr (h : a.Same b) : msg_has_xaddr a = msg_has_xaddr b := by rw [msg_has_xaddr, msg_has_xaddr, h.1]

theorem Msg.Same.print_common (h : a.Same b) : print_common a = print_common b := by
  unfold nexusrv.print_common
  rw [← h.is_sync, ← h.is_indir_branch, ← h.has_icnt, ← h.has_xaddr, ← h.has_hist]
  rw [print_if_congr fun hp => congrArg NEXUS_FMT_SYNC.print (h.sync_type hp)]
  rw [print_if_congr fun hp => congrArg NEXUS_FMT_BTYPE.print (h.branch_type hp)]
  rw [print_if_congr fun hp => congrArg (fun v : UInt32 => NEXUS_FMT_ICNT.print v.toNat) (h.icnt hp)]
  rw [print_if_congr fun hp => congrArg (fun v : UInt64 => NEXUS_FMT_XADDR.print v.toNat) (h.xaddr hp)]
  rw [print_if_congr fun hp => congrArg (fun v : UInt32 => NEXUS_FMT_HIST.print v.toNat) (h.hist hp)]

/-- What is printed of a message is what its TCODE carries. -/
theorem Msg.Same.print_rest (h : a.Same b) : print_rest a = print_rest b := by
  have hcommon := h.print_common
  obtain ⟨ht, -, hc, -⟩ := h
  unfold nexusrv.print_rest
  simp only [Msg.carried, ← ht] at hc ⊢
  clear ht
  cases hta : a.tcode with
  | ResourceFull =>
    simp only [hta, List.cons.injEq] at hc ⊢
    obtain ⟨-, hcode, hc⟩ := hc
    rw [hcode] at hc ⊢
    rcases hb : b.res_code with _ | _ | _ | k
    · simp_all
    · simp_all
    · simp_all
    · simp_all
  | ProgTraceCorrelation =>
    simp only [hta, List.cons.injEq] at hc ⊢
    obtain ⟨-, hstop, hcdf, hicnt, hc⟩ := hc
    rw [← hcdf] at hc ⊢
    rw [hstop, hicnt]
    refine congrArg _ (congrArg _ (congrArg _ (print_if_congr fun hp => ?_)))
    simp only [of_decide_eq_true hp, if_true, List.cons.injEq] at hc
    rw [hc.1]
  | ICT =>
    simp only [hta, List.cons.injEq] at hc ⊢
    obtain ⟨-, hsrc, hdf, hdata, hc⟩ := hc
    rw [← hdf] at hc ⊢
    rw [hsrc, hdata]
    refine congrArg _ (congrArg _ (congrArg _ (print_if_congr fun hp => ?_)))
    rw [if_pos (by simpa using hp), if_pos (by simpa using hp)] at hc
    rw [(List.cons.inj hc).1]
  | Idle => rfl
  | Ownership => simp_all
  | Error => simp_all
  | DataAcquisition => simp_all
  | RepeatBranch => simp_all
  | _ => exact hcommon

/-- The same message has the same text. -/
theorem Msg.Same.print (h : a.Same b) : print_msg a = print_msg b := by
  have hsrc : msg_has_src a = true → a.src.toNat = b.src.toNat := by
    intro hp
    apply h.src
    intro hidle
    simp [msg_has_src, msg_idle, hidle] at hp
  have hhas : msg_has_src a = msg_has_src b := by simp only [msg_has_src, msg_idle, h.1]
  unfold print_msg print_fields
  rw [← hhas, print_if_congr fun hp => congrArg NEXUS_FMT_SRC.print (hsrc hp), h.print_rest, h.1, h.2.1]

end Texts

/-! ## Blocks -/

section Blocks
variable {σ τ α : Type} {src : Source σ} {src' : Source τ} {R : σ → τ → Prop} {N : Nat → Nat → Prop} {P : Msg → Prop} {s : TraceDecoder σ}
  {t : TraceDecoder τ}

/-- Twins with the same call stack. -/
abbrev SameStack (R : σ → τ → Prop) : TraceDecoder σ → TraceDecoder τ → Prop := Twins R fun r r' => r = r'

theorem throwing_twins {x : Trace σ α} {y : Trace τ α} (h : Twinned R (fun r r' => r = r') (x s) (y t)) :
    Proc.Matches (fun _ => SameStack R) (throwing x s) (throwing y t) := by
  rcases h with ⟨hx, hy⟩ | ⟨r, u, v, hx, hy, huv⟩
  · left
    simp [throwing, hx, hy]
  · right
    refine ⟨r.mapError .failed, u, v, ?_, ?_, huv⟩
    · simp [throwing, hx]
    · simp [throwing, hy]

theorem ignoring_twins {x : Trace σ α} {y : Trace τ α} (h : Twinned R (fun r r' => r = r') (x s) (y t)) :
    Proc.Matches (fun _ => SameStack R) (ignoring x s) (ignoring y t) := by
  rcases h with ⟨hx, hy⟩ | ⟨r, u, v, hx, hy, huv⟩
  · left
    simp [ignoring, hx, hy]
  · right
    refine ⟨.ok (), u, v, ?_, ?_, huv⟩
    · simp [ignoring, hx]
    · simp [ignoring, hy]

/-- The same stack is left by the same operation. -/
theorem same_stack (h : SameStack R s t) (x : Proc RetStack NexusError α) :
    Twinned R (fun r r' => r = r') (Proc.zoom (·.return_stack) (fun r s => { s with return_stack := r }) x s)
      (Proc.zoom (·.return_stack) (fun r s => { s with return_stack := r }) x t) := by
  apply stack_twins h
  rw [← h.return_stack]
  rcases x s.return_stack with _ | ⟨r, p⟩
  · exact Proc.matches_none
  · exact Proc.matches_some rfl

variable (hsrc : src.Pairs src' R N P) {env : Nat → Env} (hP : ∀ i k, P ((env i).msg2 k)) (b : InstBlock)
include hsrc hP

theorem check_exc_twins (h : SameStack R s t) : Proc.Matches (fun _ => SameStack R) (check_exc src b env s) (check_exc src' b env t) := by
  apply Proc.Matches.bind (throwing_twins (try_retire_twins hsrc ⟨rfl, hP 0⟩ rfl h b.icnt))
  · intro r s t h
    refine .ite (fun _ => .ite (fun _ => ?_) fun _ => ?_) fun _ => ?_
    · exact Proc.matches_some h
    · exact Proc.matches_some h
    · exact Proc.matches_some h
  · exact fun _ _ _ h => h

theorem throwing_indirect_twins (h : SameStack R s t) : Proc.Matches (fun _ => SameStack R)
    ((throwing (trace_next_indirect src (env 1)) >>= fun i => pure i.target) s)
    ((throwing (trace_next_indirect src' (env 1)) >>= fun i => pure i.target) t) := by
  apply Proc.Matches.bind (throwing_twins (next_indirect_twins hsrc (fun _ _ h => by rw [h]) ⟨rfl, hP 1⟩ h))
  · exact fun i s t h => Proc.matches_some h
  · exact fun _ _ _ h => h

omit hsrc hP in
/-- A call site is pushed behind what comes to a target. -/
theorem pushing_twins {x : Replay σ UInt64} {y : Replay τ UInt64} (h : Proc.Matches (fun _ => SameStack R) (x s) (y t)) :
    Proc.Matches (fun _ => SameStack R)
      ((do
        let target ← x
        ignoring (trace_push_call (env 2) b.behind)
        pure target : Replay σ UInt64) s)
      ((do
        let target ← y
        ignoring (trace_push_call (env 2) b.behind)
        pure target : Replay τ UInt64) t) := by
  apply h.bind
  · intro target s t h
    apply Proc.Matches.bind (ignoring_twins (same_stack h (retstack_push (env 2).mem b.behind)))
    · exact fun _ s t h => Proc.matches_some h
    · exact fun _ _ _ h => h
  · exact fun _ _ _ h => h

theorem dir_jmp_twins (off : UInt64) (h : SameStack R s t) :
    Proc.Matches (fun _ => SameStack R) (dir_jmp_retire src b env off s) (dir_jmp_retire src' b env off t) :=
  (check_exc_twins hsrc hP b h).bind (fun _ _ _ h => Proc.matches_some h) fun _ _ _ h => h

theorem cond_branch_twins (off : UInt64) (h : SameStack R s t) :
    Proc.Matches (fun _ => SameStack R) (cond_branch_retire src b env off s) (cond_branch_retire src' b env off t) := by
  apply (check_exc_twins hsrc hP b h).bind
  · intro event s t h
    refine .ite (fun _ => Proc.matches_some h) fun _ => ?_
    apply Proc.Matches.bind (throwing_twins (next_tnt_twins hsrc (fun _ _ h => by rw [h]) ⟨rfl, hP 1⟩ rfl h))
    · exact fun _ _ _ h => Proc.matches_some h
    · exact fun _ _ _ h => h
  · exact fun _ _ _ h => h

theorem indir_jmp_twins (h : SameStack R s t) :
    Proc.Matches (fun _ => SameStack R) (indir_jmp_retire src b env s) (indir_jmp_retire src' b env t) := by
  apply (check_exc_twins hsrc hP b h).bind
  · intro event s t h
    exact .ite (fun _ => Proc.matches_some h) fun _ => throwing_indirect_twins hsrc hP h
  · exact fun _ _ _ h => h

theorem ret_twins (h : SameStack R s t) : Proc.Matches (fun _ => SameStack R) (ret_retire src b env s) (ret_retire src' b env t) := by
  apply (check_exc_twins hsrc hP b h).bind
  · intro event s t h
    refine .ite (fun _ => Proc.matches_some h) fun _ => .ite (fun _ => ?_) fun _ => ?_
    · apply Proc.Matches.bind (ignoring_twins (same_stack h retstack_pop))
      · exact fun _ s t h => throwing_indirect_twins hsrc hP h
      · exact fun _ _ _ h => h
    · exact throwing_twins (same_stack h retstack_pop)
  · exact fun _ _ _ h => h

theorem co_swap_twins (h : SameStack R s t) :
    Proc.Matches (fun _ => SameStack R) (co_swap_retire src b env s) (co_swap_retire src' b env t) := by
  simp only [co_swap_retire, Proc.get_bind_apply, ← hsrc.hw_cfg h.msg_decoder]
  exact .ite (fun _ => pushing_twins b (indir_jmp_twins hsrc hP b h)) fun _ => pushing_twins b (ret_twins hsrc hP b h)

theorem int_twins (h : SameStack R s t) : Proc.Matches (fun _ => SameStack R) (int_retire src b env s) (int_retire src' b env t) := by
  apply Proc.Matches.bind (throwing_twins (try_retire_twins hsrc ⟨rfl, hP 0⟩ rfl h _))
  · intro r s t h
    refine .ite (fun _ => ?_) fun _ => .ite (fun _ => ?_) fun _ => ?_
    · exact Proc.matches_some h
    · exact Proc.matches_some h
    · exact throwing_indirect_twins hsrc hP h
  · exact fun _ _ _ h => h

/-- A block retires the same way over both. -/
theorem block_twins (h : SameStack R s t) : Proc.Matches (fun _ => SameStack R) (block_retire src b env s) (block_retire src' b env t) := by
  unfold block_retire
  cases b.cls with
  | plain => exact (check_exc_twins hsrc hP b h).bind (fun _ _ _ h => Proc.matches_some h) fun _ _ _ h => h
  | dir_jmp off => exact dir_jmp_twins hsrc hP b off h
  | cond_branch off => exact cond_branch_twins hsrc hP b off h
  | dir_call off => exact pushing_twins b (dir_jmp_twins hsrc hP b off h)
  | indir_jmp => exact indir_jmp_twins hsrc hP b h
  | iret => exact indir_jmp_twins hsrc hP b h
  | indir_call => exact pushing_twins b (indir_jmp_twins hsrc hP b h)
  | ret => exact ret_twins hsrc hP b h
  | co_swap => exact co_swap_twins hsrc hP b h
  | int => exact int_twins hsrc hP b h

end Blocks

/-! ## The loop -/

/-- What is looked at of the time and the offset. -/
def Stamp.seen (place : Nat → Nat) (p : Stamp) : Stamp := ⟨p.time, place p.offset⟩

/-- What a line shows: of the offset, what `place` tells, and of a message that is not known, the text that `nexusrv_print_msg` writes. -/
def Line.shown (place : Nat → Nat) : Line → Line × List Char
  | .sync p i => (.sync (p.seen place) i, [])
  | .block p b depth => (.block (p.seen place) b depth, [])
  | .cut p b retired insn => (.cut (p.seen place) b retired insn, [])
  | .icnt p n => (.icnt (p.seen place) n, [])
  | .tnts p => (.tnts (p.seen place), [])
  | .tnt taken => (.tnt taken, [])
  | .indirect p i => (.indirect (p.seen place) i, [])
  | .stop p i => (.stop (p.seen place) i, [])
  | .error p i => (.error (p.seen place) i, [])
  | .backward last_time time => (.backward last_time time, [])
  | .unknown time msg => (.unknown time Msg.zero, print_msg msg)

/-- Two lines that show the same behind stamps that look the same. -/
def Shows (place : Nat → Nat) (line line' : Stamp → Line) : Prop :=
  ∀ p p', p.seen place = p'.seen place → (line p).shown place = (line' p').shown place

/-- A line shows its stamp as it is seen. -/
theorem Shows.of {place : Nat → Nat} {line : Stamp → Line} (f : Stamp → Line × List Char) (h : ∀ p, (line p).shown place = f (p.seen place)) :
    Shows place line line := by
  intro p p' hp
  rw [h, h, hp]

section Loop
variable {σ τ α : Type} {src : Source σ} {src' : Source τ} {offset : σ → Nat} {offset' : τ → Nat} {place : Nat → Nat} {R : σ → τ → Prop}
  {N : Nat → Nat → Prop} {P : Msg → Prop} {code : Code} {s : Replayer σ} {t : Replayer τ}

/-- Two replayers that have printed the same and go on the same way. -/
inductive Abreast (place : Nat → Nat) (R : σ → τ → Prop) (s : Replayer σ) : Replayer τ → Prop where
  | mk (d : TraceDecoder τ) (lines : List Line) : SameStack R s.trace_decoder d → s.lines.map (Line.shown place) = lines.map (Line.shown place) →
    Abreast place R s ⟨d, s.tnt_time, s.last_time, s.lastip, s.insts, lines⟩

variable (place) (R) in
abbrev Reprints (x : Option (Except Halt α × Replayer σ)) (y : Option (Except Halt α × Replayer τ)) : Prop :=
  Proc.Matches (fun _ => Abreast place R) x y

theorem Reprints.bind {β : Type} {x : Replaying σ α} {y : Replaying τ α} {f : α → Replaying σ β} {g : α → Replaying τ β}
    (hx : Reprints place R (x s) (y t)) (hf : ∀ a s' t', Abreast place R s' t' → Reprints place R (f a s') (g a t')) :
    Reprints place R ((x >>= f) s) ((y >>= g) t) :=
  Proc.Matches.bind hx hf fun _ _ _ h => h

theorem Abreast.decoders (h : Abreast place R s t) : SameStack R s.trace_decoder t.trace_decoder := by
  cases h
  assumption

theorem Abreast.lastip (h : Abreast place R s t) : t.lastip = s.lastip := by cases h; rfl

theorem Abreast.insts (h : Abreast place R s t) : t.insts = s.insts := by cases h; rfl

theorem Abreast.going (h : Abreast place R s t) (ip : Option UInt64) : Abreast place R { s with lastip := ip } { t with lastip := ip } := by
  obtain ⟨d, lines, hd, hl⟩ := h
  exact ⟨d, lines, hd, hl⟩

theorem calling_reprints {ε : Type} {x : Proc (TraceDecoder σ) ε α} {y : Proc (TraceDecoder τ) ε α} (h : Abreast place R s t)
    (hx : Proc.Matches (fun _ => SameStack R) (x s.trace_decoder) (y t.trace_decoder)) : Reprints place R (calling x s) (calling y t) := by
  obtain ⟨d, lines, hd, hl⟩ := h
  rcases hx with ⟨hx, hy⟩ | ⟨r, u, v, hx, hy, huv⟩
  · left
    simp [calling, hx, hy]
  · right
    refine ⟨.ok r, { s with trace_decoder := u }, ⟨v, s.tnt_time, s.last_time, s.lastip, s.insts, lines⟩, ?_, ?_, ⟨v, lines, huv, hl⟩⟩
    · simp [calling, hx]
    · simp [calling, hy]

theorem must_reprints {call : String} {x : Trace σ α} {y : Trace τ α} (h : Abreast place R s t)
    (hx : Twinned R (fun r r' => r = r') (x s.trace_decoder) (y t.trace_decoder)) : Reprints place R (must call x s) (must call y t) := by
  apply (calling_reprints h hx).bind
  rintro (rc | a) s t h
  · exact Proc.matches_some h
  · exact Proc.matches_some h

theorem running_reprints (x : Except Exit α) (h : Abreast place R s t) :
    Reprints place R ((running x : Replaying σ α) s) ((running x : Replaying τ α) t) := by
  rcases x with (text | _) | a
  · exact Proc.matches_some h
  · exact Proc.matches_none
  · exact Proc.matches_some h

theorem find_block_reprints (h : Abreast place R s t) : Reprints place R (find_block code s) (find_block code t) := by
  simp only [find_block, Proc.get_bind_apply, h.lastip]
  rcases s.lastip with _ | ip
  · exact Proc.matches_some h
  dsimp only
  rw [h.insts]
  rcases s.insts.lookup ip with _ | block
  · apply (running_reprints (code.fetch ip) h).bind
    intro block s t h
    obtain ⟨d, lines, hd, hl⟩ := h
    exact Proc.matches_some ⟨d, lines, hd, hl⟩
  · exact Proc.matches_some h

variable (hsrc : src.Pairs src' R N P) (hoffset : ∀ {d e}, R d e → place (offset d) = place (offset' e))

include hsrc in
theorem trace_time_twins {s : TraceDecoder σ} {t : TraceDecoder τ} (h : SameStack R s t) : trace_time src s = trace_time src' t := by
  have hcfg := hsrc.hw_cfg h.msg_decoder
  obtain ⟨d, m, stack, hd, hm, hstack⟩ := h
  simp only [trace_time, hcfg]

include hsrc hoffset

theorem Abreast.stamp (h : Abreast place R s t) : (nexusrv.stamp src offset s).seen place = (nexusrv.stamp src' offset' t).seen place := by
  simp only [nexusrv.stamp, Stamp.seen, trace_time_twins hsrc h.decoders, hoffset h.decoders.msg_decoder]

theorem Abreast.printed {line line' : Stamp → Line} (hline : Shows place line line') (h : Abreast place R s t) :
    Abreast place R (s.printed src offset line) (t.printed src' offset' line') := by
  have hstamp := h.stamp hsrc hoffset
  obtain ⟨d, lines, hd, hl⟩ := h
  refine ⟨d, _, hd, ?_⟩
  rw [Replayer.printed, List.map_cons, List.map_cons, hline _ _ hstamp, hl]

theorem prints_reprints {line line' : Stamp → Line} (hline : Shows place line line') (h : Abreast place R s t) :
    Reprints place R (prints src offset line s) (prints src' offset' line' t) :=
  Proc.matches_some (h.printed hsrc hoffset hline)

theorem check_time_reprints (h : Abreast place R s t) : Reprints place R (check_time src offset s) (check_time src' offset' t) := by
  have htime := trace_time_twins hsrc h.decoders
  have hlast : t.last_time = s.last_time := by cases h; rfl
  rw [check_time_eq, check_time_eq]
  apply Proc.matches_some
  have hput : ∀ {s : Replayer σ} {t : Replayer τ} (time : UInt64), Abreast place R s t →
      Abreast place R { s with last_time := time } { t with last_time := time } := by
    rintro s - time ⟨d, lines, hd, hl⟩
    exact ⟨d, lines, hd, hl⟩
  simp only [Replayer.checked, hlast, ← htime]
  apply hput
  split
  · exact h.printed hsrc hoffset fun _ _ _ => rfl
  · exact h

theorem tnt_label_reprints (h : Abreast place R s t) : Reprints place R (tnt_label src offset s) (tnt_label src' offset' t) := by
  have htime := trace_time_twins hsrc h.decoders
  have htnt : t.tnt_time = s.tnt_time := by cases h; rfl
  rw [tnt_label_eq, tnt_label_eq]
  apply Proc.matches_some
  have hput : ∀ {s : Replayer σ} {t : Replayer τ} (time : UInt64), Abreast place R s t →
      Abreast place R { s with lastip := none, tnt_time := time } { t with lastip := none, tnt_time := time } := by
    rintro s - time ⟨d, lines, hd, hl⟩
    exact ⟨d, lines, hd, hl⟩
  simp only [Replayer.asks_tnt, htnt, ← htime]
  apply hput
  split
  · exact h.printed hsrc hoffset (.of (fun p => (.tnts p, [])) fun _ => rfl)
  · exact h

section Event
variable {env : Env} (hP : ∀ k, P (env.msg2 k))
include hP

omit hP in
/-- A message that is not known is printed, up to what its TCODE does not carry. -/
theorem unknown_msg_reprints (h : Abreast place R s t) : Reprints place R (unknown_msg src offset env s) (unknown_msg src' offset' env t) := by
  obtain ⟨r, r', ⟨d, a⟩, ⟨e, b⟩, hx, hy, hrc, hdel⟩ := hsrc.next h.decoders.msg_decoder (env.msg2 0) (env.msg2 0)
  have hput : Abreast place R { s with trace_decoder := { s.trace_decoder with msg_decoder := d } }
      { t with trace_decoder := { t.trace_decoder with msg_decoder := e } } := by
    obtain ⟨v, lines, hd, hl⟩ := h
    obtain ⟨-, m, stack, -, hm, hstack⟩ := hd
    exact ⟨_, lines, ⟨e, m, stack, hdel.behind, hm, hstack⟩, hl⟩
  have hcall : ∀ {ρ : Type} {src : Source ρ} {w : Replayer ρ} {d : ρ} {m : Msg} {r : Except NexusError Nat},
      src.next (w.trace_decoder.msg_decoder, env.msg2 0) = some (r, d, m) → must "msg_decoder_next" (next_msg2 src (env.msg2 0)) w =
        some ((r.mapError (.failed "msg_decoder_next".toList)).map fun n => (n, m),
          { w with trace_decoder := { w.trace_decoder with msg_decoder := d } }) := by
    intro ρ src w d m r hn
    have hmsg2 : next_msg2 src (env.msg2 0) w.trace_decoder = some (r.map fun n => (n, m), { w.trace_decoder with msg_decoder := d }) := by
      rw [next_msg2_apply, hn]
      rfl
    have hcalling : calling (next_msg2 src (env.msg2 0)) w =
        some (.ok (r.map fun n => (n, m)), { w with trace_decoder := { w.trace_decoder with msg_decoder := d } }) := by
      rw [calling, hmsg2]
      rfl
    rw [must, Proc.bind_ok hcalling]
    rcases r with rc | n
    · rfl
    · rfl
  rw [unknown_msg, unknown_msg, Proc.bind_apply, Proc.bind_apply, hcall hx, hcall hy]
  obtain rc | hnn := hrc
  · exact Proc.matches_some hput
  rename_i n n'
  dsimp only [Except.mapError, Except.map]
  have hpos : decide (n' > 0) = decide (n > 0) := by
    have hzero := hsrc.at_end hnn
    exact decide_eq_decide.2 (by omega)
  rw [hpos]
  refine Proc.matches_assert fun hn => ?_
  have hn : n ≠ 0 := Nat.pos_iff_ne_zero.1 (by simpa using hn)
  have hsame : a.Same b := hdel.same n rfl (.inl hn)
  rw [← hsame.2.1]
  apply Reprints.bind
  · apply calling_reprints hput
    exact (retire_timestamp_twins hsrc hput.decoders a.timestamp).bind fun _ _ _ h => Proc.matches_some h
  · intro _ s t h
    apply prints_reprints hsrc hoffset _ h
    intro p p' hp
    have htime : p.time = p'.time := (Stamp.mk.inj hp).1
    simp only [Line.shown, htime, hsame.print]

omit hP in
theorem handle_error_reprints (rc : NexusError) (h : Abreast place R s t) :
    Reprints place R (handle_error src offset env rc s) (handle_error src' offset' env rc t) := by
  unfold handle_error
  split
  · exact Proc.matches_some h
  · exact unknown_msg_reprints hsrc hoffset h
  · exact Proc.matches_some h

theorem handle_event_reprints (ev : TraceEvent) (h : Abreast place R s t) :
    Reprints place R (handle_event src offset env ev s) (handle_event src' offset' env ev t) := by
  have hclear : ∀ r r' : RetStack, r = r' → retstack_clear r = retstack_clear r' := fun _ _ h => by rw [h]
  have hset : ∀ {ip : Option UInt64} {line : Stamp → Line} {s : Replayer σ} {t : Replayer τ}, Shows place line line → Abreast place R s t →
      Reprints place R ((set_lastip ip >>= fun _ => prints src offset line) s) ((set_lastip ip >>= fun _ => prints src' offset' line) t) :=
    fun hline h => Reprints.bind (Proc.matches_some (h.going _)) fun _ _ _ h => prints_reprints hsrc hoffset hline h
  have htnt : Reprints place R (handle_event src offset env .Direct s) (handle_event src' offset' env .Direct t) := by
    apply (tnt_label_reprints hsrc hoffset h).bind
    intro _ s t h
    apply (must_reprints h (next_tnt_twins hsrc hclear ⟨rfl, hP⟩ rfl h.decoders)).bind
    exact fun _ _ _ h => prints_reprints hsrc hoffset (fun _ _ _ => rfl) h
  have hindirect : Reprints place R (handle_event src offset env .Indirect s) (handle_event src' offset' env .Indirect t) :=
    (must_reprints h (next_indirect_twins hsrc hclear ⟨rfl, hP⟩ h.decoders)).bind fun i _ _ h =>
      hset (.of (fun p => (.indirect p i, [])) fun _ => rfl) h
  cases ev with
  | None => exact Proc.matches_some h
  | Direct => exact htnt
  | DirectSync => exact htnt
  | Indirect => exact hindirect
  | IndirectSync => exact hindirect
  | Trap => exact hindirect
  | Sync =>
    apply (must_reprints h (next_sync_twins hsrc hclear ⟨rfl, hP⟩ h.decoders)).bind
    exact fun sync _ _ h => hset (.of (fun p => (.sync p sync, [])) fun _ => rfl) h
  | Stop =>
    apply Reprints.bind (Proc.matches_some (h.going none))
    intro _ s t h
    apply (must_reprints h (next_stop_twins hsrc hclear ⟨rfl, hP⟩ h.decoders)).bind
    exact fun stop _ _ h => prints_reprints hsrc hoffset (.of (fun p => (.stop p stop, [])) fun _ => rfl) h
  | Error =>
    apply Reprints.bind (Proc.matches_some (h.going none))
    intro _ s t h
    apply (must_reprints h (next_error_twins hsrc hclear ⟨rfl, hP⟩ h.decoders)).bind
    exact fun err _ _ h => prints_reprints hsrc hoffset (.of (fun p => (.error p err, [])) fun _ => rfl) h

theorem at_event_reprints (ev : TraceEvent) (h : Abreast place R s t) :
    Reprints place R (at_event src offset env ev s) (at_event src' offset' env ev t) :=
  (handle_event_reprints hsrc hoffset hP ev h).bind fun _ _ _ h => check_time_reprints hsrc hoffset h

end Event

section Round
variable {env : Nat → Env} (hP : ∀ i k, P ((env i).msg2 k))
include hP

theorem retire_unknown_reprints (r : Except NexusError (Nat × TraceEvent)) (h : Abreast place R s t) :
    Reprints place R (retire_unknown src offset env r s) (retire_unknown src' offset' env r t) := by
  rcases r with rc | ⟨n, ev⟩
  · exact handle_error_reprints hsrc hoffset rc h
  rw [retire_unknown_ok, retire_unknown_ok]
  apply at_event_reprints hsrc hoffset (hP 5) ev
  unfold Replayer.passed
  rw [h.lastip]
  dsimp only
  split
  · have hput : Abreast place R { s with lastip := s.lastip.map fun ip => ip + .ofNat (n * 2 % 2 ^ 32), tnt_time := 0 }
        { t with lastip := s.lastip.map fun ip => ip + .ofNat (n * 2 % 2 ^ 32), tnt_time := 0 } := by
      obtain ⟨d, lines, hd, hl⟩ := h
      exact ⟨d, lines, hd, hl⟩
    exact hput.printed hsrc hoffset (.of (fun p => (.icnt p n, [])) fun _ => rfl)
  · exact h.going _

theorem block_retired_reprints (b : InstBlock) (depth : Nat) (r : Except InstExc UInt64) (h : Abreast place R s t) :
    Reprints place R (block_retired src offset code env b depth r s) (block_retired src' offset' code env b depth r t) := by
  rcases r with (⟨addr, ev⟩ | rc) | next
  · simp only [block_retired, set_lastip, Proc.modify_bind_apply]
    refine Proc.matches_assert fun _ => Proc.matches_assert fun _ => ?_
    apply (running_reprints (code.disasm1 addr) (h.going _)).bind
    intro insn s t h
    apply (prints_reprints hsrc hoffset (.of (fun p => (.cut p b ((addr - b.addr) / 2) insn, [])) fun _ => rfl) h).bind
    exact fun _ s t h => at_event_reprints hsrc hoffset (hP 5) ev h
  · exact handle_error_reprints hsrc hoffset rc h
  · simp only [block_retired, set_lastip, Proc.modify_bind_apply]
    exact prints_reprints hsrc hoffset (.of (fun p => (.block p b depth, [])) fun _ => rfl) (h.going _)

theorem replay_round_reprints (h : Abreast place R s t) :
    Reprints place R (replay_round src offset code env s) (replay_round src' offset' code env t) := by
  apply (must_reprints h (sync_reset_twins hsrc (fun _ _ h => by rw [h]) ⟨rfl, hP 0⟩ h.decoders)).bind
  rintro (_ | sync) s t h
  · apply (find_block_reprints h).bind
    rintro (_ | b) s t h
    · apply (calling_reprints h (try_retire_twins hsrc ⟨rfl, hP 4⟩ rfl h.decoders _)).bind
      exact fun r s t h => retire_unknown_reprints hsrc hoffset hP r h
    · simp only [at_block, Proc.get_bind_apply, ← h.decoders.return_stack]
      apply (calling_reprints h (block_twins hsrc (fun i => hP (i + 1)) b h.decoders)).bind
      exact fun r s t h => block_retired_reprints hsrc hoffset hP b _ r h
  · simp only [reset_done, set_lastip, Proc.modify_bind_apply]
    apply (prints_reprints hsrc hoffset (.of (fun p => (.sync p sync, [])) fun _ => rfl) (h.going _)).bind
    exact fun _ s t h => check_time_reprints hsrc hoffset h

end Round

/-- Replayers over paired message decoders print the same, round for round. -/
theorem replay_rounds_reprints {env : Nat → Nat → Env} (hP : ∀ k i j, P ((env k i).msg2 j)) (n : Nat) : ∀ {k : Nat} {s : Replayer σ} {t : Replayer τ},
    Abreast place R s t → Reprints place R (replay_rounds src offset code env k n s) (replay_rounds src' offset' code env k n t) := by
  induction n with
  | zero => exact fun h => Proc.matches_some h
  | succ n ih =>
    intro k s t h
    apply (replay_round_reprints hsrc hoffset (hP k) h).bind
    exact fun _ s t h => ih h

end Loop

/-! ## Two buffers -/

section Buffers
variable {d e d' : MsgDecoder} {a b : Msg} {r : Except NexusError Nat}

theorem next_lastmsg_len (hinv : DecoderInv d) (h : msg_decoder_next (d, a) = some (r, d', b)) : d'.lastmsg_len = delivered r := by
  have htotal := msg_decoder_next_total hinv a
  rw [h] at htotal
  generalize hx : (some (r, d', b) : Option (Except NexusError Nat × MsgDecoder × Msg)) = x at htotal
  cases htotal with
  | message n src m m' h0 hn =>
    cases hx
    rfl
  | eof d₁ m₁ hinv' hs hl =>
    cases hx
    exact hl
  | failed err d₁ m₁ hinv' hs hl =>
    cases hx
    exact hl

/-- A message that was put back is the last one no more. -/
theorem rewind_lastmsg_len {n : Nat} {d₀ : MsgDecoder} (hinv : DecoderInv d) (h : msg_decoder_next (d, a) = some (.ok n, d', b))
    (hback : msg_source.rewind_last d' = some d₀) : d₀.lastmsg_len = 0 := by
  obtain ⟨d₁, hd₁, -, -, hl⟩ := next_rewinds hinv h
  cases hback.symm.trans hd₁
  exact hl

/-- Two decoders at one point that have the same bytes in the last message. -/
structure SamePlace (d e : MsgDecoder) : Prop where
  point : SamePoint d e
  lastmsg_len : d.lastmsg_len = e.lastmsg_len

theorem SamePlace.offset (h : SamePlace d e) : msg_decoder_offset d = msg_decoder_offset e := by
  rw [offset_eq, offset_eq, h.lastmsg_len]
  cases h.point with
  | same => rfl
  | placed hd he => rw [hd.place, he.place]

theorem same_place_pairs : msg_source.Pairs msg_source SamePlace Eq fun _ => True := by
  apply Source.Pairs.of_lawful msg_source_lawful msg_source_lawful
  · exact fun h => by rw [h]
  · exact fun h => h.point.inv
  · exact fun h => same_point_pairs.hw_cfg h.point
  · intro d e h a b
    obtain ⟨r, r', x, y, ha, hb, hrc, hdel⟩ := same_point_pairs.next h.point a b
    obtain rfl := hrc.eq
    refine ⟨r, r, x, y, ha, hb, hrc, ⟨hdel.behind, ?_⟩, hdel.same, ?_⟩
    · exact (next_lastmsg_len h.point.inv.1 ha).trans (next_lastmsg_len h.point.inv.2 hb).symm
    · rintro n rfl
      obtain ⟨d₀, e₀, hd₀, he₀, hpoint⟩ := hdel.back n rfl
      exact ⟨d₀, e₀, hd₀, he₀, hpoint, (rewind_lastmsg_len h.point.inv.1 ha hd₀).trans (rewind_lastmsg_len h.point.inv.2 hb he₀).symm⟩

end Buffers

/-- How a replay ends, and what is looked at of the lines that it has printed by then. -/
def printout {σ : Type} (place : Nat → Nat) (x : Option (Except Halt Unit × Replayer σ)) : Option (Except Halt Unit × List (Line × List Char)) :=
  x.map fun r => (r.1, r.2.lines.map (Line.shown place))

theorem Reprints.printout {σ τ : Type} {place : Nat → Nat} {R : σ → τ → Prop} {x : Option (Except Halt Unit × Replayer σ)}
    {y : Option (Except Halt Unit × Replayer τ)}
    (h : Reprints place R x y) : nexusrv.printout place x = nexusrv.printout place y := by
  rcases h with ⟨rfl, rfl⟩ | ⟨r, s, t, rfl, rfl, hst⟩
  · rfl
  · obtain ⟨d, lines, -, hl⟩ := hst
    simp only [nexusrv.printout, Option.map_some, hl]

/-- Fresh decoders in the same memory. -/
theorem init_same_stack {R : MsgDecoder → MsgDecoder → Prop} {env : Env} {d e : MsgDecoder} {s t : TraceDecoder MsgDecoder}
    (h : trace_decoder_init msg_source env d = .ok s) (h' : trace_decoder_init msg_source env e = .ok t) (hcfg : d.hw_cfg = e.hw_cfg) (hR : R d e) :
    SameStack R s t := by
  unfold trace_decoder_init at h h'
  split at h
  · cases h
  rename_i halloc
  rw [if_neg halloc] at h'
  change (retstack_init env.mem d.hw_cfg.max_stack).map _ = _ at h
  change (retstack_init env.mem e.hw_cfg.max_stack).map _ = _ at h'
  rw [← hcfg] at h'
  rcases hr : retstack_init env.mem d.hw_cfg.max_stack with err | stack
  · rw [hr] at h
    cases h
  · rw [hr] at h h'
    cases h
    cases h'
    exact .mk _ Msg.zero stack hR (fun _ => .refl _) rfl

/-- A replay prints the same lines and ends the same way, whatever buffer its message decoder has. -/
theorem replay_reprints {hwcfg : HwCfg} {S buffer buffer' : List UInt8}
    (hsize : buffer.length = buffer'.length ∨ Fits buffer.length S ∧ Fits buffer'.length S) {env₀ : Env} {s t : TraceDecoder MsgDecoder}
    (h : trace_decoder_init msg_source env₀ (msg_decoder_init hwcfg ⟨S, []⟩ (-1) buffer buffer.length) = .ok s)
    (h' : trace_decoder_init msg_source env₀ (msg_decoder_init hwcfg ⟨S, []⟩ (-1) buffer' buffer'.length) = .ok t)
    (code : Code) (env : Nat → Nat → Env) (n : Nat) :
    printout id (replay_rounds msg_source msg_decoder_offset code env 0 n (replay_start s)) =
      printout id (replay_rounds msg_source msg_decoder_offset code env 0 n (replay_start t)) := by
  have hpoint : SamePlace (msg_decoder_init hwcfg ⟨S, []⟩ (-1) buffer buffer.length) (msg_decoder_init hwcfg ⟨S, []⟩ (-1) buffer' buffer'.length) :=
    ⟨.placed (init_placed hwcfg S (by decide) buffer) (init_placed hwcfg S (by decide) buffer') hsize, rfl⟩
  have hstart : Abreast id SamePlace (replay_start s) (replay_start t) := .mk t [] (init_same_stack h h' rfl hpoint) rfl
  exact (replay_rounds_reprints same_place_pairs (fun h => h.offset) (fun _ _ _ => trivial) n hstart).printout

def ret_bytes : List UInt8 := [0x24, 0x01, 0x00, 0x83, 0x10, 0x21, 0x0f]

/-- A buffer of four bytes and one of sixteen, before a sync and a return. -/
theorem replay_reprints_two : ∃ s t : TraceDecoder MsgDecoder, s.msg_decoder.bufsz = 4 ∧ t.msg_decoder.bufsz = 16 ∧
    printout id (replay_rounds msg_source msg_decoder_offset ret_code (fun _ _ => roomy_env) 0 2 (replay_start s)) =
      printout id (replay_rounds msg_source msg_decoder_offset ret_code (fun _ _ => roomy_env) 0 2 (replay_start t)) := by
  have hinit : ∀ n : Nat, trace_decoder_init msg_source roomy_env
      (msg_decoder_init plain_cfg ⟨ret_bytes, []⟩ (-1) (List.replicate n 0xff) (List.replicate n 0xff).length) =
      .ok ⟨msg_decoder_init plain_cfg ⟨ret_bytes, []⟩ (-1) (List.replicate n 0xff) (List.replicate n 0xff).length, [], 0, 0, 0, 0,
        false, false, Msg.zero, 0, 0, ⟨[], 0, 0, 0, 0⟩⟩ := by
    intro n
    rfl
  refine ⟨_, _, rfl, rfl, replay_reprints (.inr ⟨?_, ?_⟩) (hinit 4) (hinit 16) ret_code (fun _ _ => roomy_env) 2⟩
  · exact ⟨by decide, by decide⟩
  · exact ⟨by decide, by decide⟩

end nexusrv
