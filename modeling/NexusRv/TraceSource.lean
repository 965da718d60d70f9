import NexusRv.TraceInv
/-!
# What the trace decoder needs of its messages

`Source.Lawful`: a message decoder delivers only finitely many messages, and never
fails an assertion. A call is then determined by what it reads, and its loops come
to an end.
-/

namespace nexusrv

section Sources
variable {σ α : Type} {src : Source σ}

/-- What `next` and `rewind_last` keep, from states in `I` on. -/
structure Source.Lawful (src : Source σ) (I : σ → Prop) : Prop where
  next : ∀ {d d' : σ} {m m' : Msg} {r : Except NexusError Nat}, I d → src.next (d, m) = some (r, d', m') →
    I d' ∧ src.hw_cfg d' = src.hw_cfg d ∧ src.left d' ≤ src.left d ∧ ∀ n, r = .ok n → n ≠ 0 → src.left d' < src.left d
  returns : ∀ {d : σ} (m : Msg), I d → src.next (d, m) ≠ none
  rewind : ∀ {d d' : σ} {m m' : Msg} {n : Nat}, I d → src.next (d, m) = some (.ok n, d', m') →
    ∃ d'', src.rewind_last d' = some d'' ∧ I d'' ∧ src.hw_cfg d'' = src.hw_cfg d ∧ src.left d'' ≤ src.left d

theorem rewind_eof {d : MsgDecoder} (h : DecoderInv d) (h0 : d.lastmsg_len = 0) :
    (msg_decoder_rewind_last d).map Prod.snd = some d := by
  have hpos := h.pos_le
  have hfilled := h.filled_le
  simp only [msg_decoder_rewind_last, Proc.get_bind_apply, Proc.assert_bind_apply, hpos, hfilled, h0, decide_true, if_true, ne_eq, not_true,
    decide_false, Proc.when_false]
  rfl

theorem msg_source_lawful : msg_source.Lawful DecoderInv where
  next := by
    intro d d' m m' r hinv h
    obtain ⟨hinv', hs, hle, hlt⟩ := next_left hinv h
    refine ⟨hinv', hs.1, hle, fun n hr h0 => hlt (n - 1) ?_⟩
    rw [hr, Nat.sub_add_cancel (Nat.pos_of_ne_zero h0)]
  returns := by
    intro d m hinv h
    have htotal := msg_decoder_next_total hinv m
    rw [show msg_decoder_next (d, m) = none from h] at htotal
    cases htotal
  rewind := by
    intro d d' m m' n hinv h
    have htotal := msg_decoder_next_total hinv m
    rw [show msg_decoder_next (d, m) = some (.ok n, d', m') from h] at htotal
    generalize hx : (some (.ok n, d', m') : Option (Except NexusError Nat × MsgDecoder × Msg)) = x at htotal
    cases htotal with
    | message n₁ d₁ _ _ h0 hn hinv₁ hs hb =>
      cases hx
      refine ⟨{ d₁ with lastmsg_len := 0 }, ?_, ⟨hinv₁.pos_le, hinv₁.filled_le, hinv₁.buffer_len, .inl (Nat.zero_le _)⟩, hs.1, hb⟩
      change (msg_decoder_rewind_last (d₁.advance n)).map Prod.snd = _
      rw [rewind_advance hinv₁ h0 hn]
      rfl
    | eof _ _ hinv₁ hs hl hb =>
      cases hx
      exact ⟨_, rewind_eof hinv₁ hl, hinv₁, hs.1, hb⟩
    | failed => cases hx

/-! ## Running a call again -/

theorem rewind_msg_of {s : TraceDecoder σ} {d : σ} (h : src.rewind_last s.msg_decoder = some d) :
    rewind_msg src s = some (.ok (), { s with msg_decoder := d }) := by
  rw [rewind_msg_apply, h]
  rfl

theorem next_msg2_of {s : TraceDecoder σ} {msg2 m : Msg} {n : Nat} {d : σ} (h : src.next (s.msg_decoder, msg2) = some (.ok n, d, m)) :
    next_msg2 src msg2 s = some (.ok (n, m), { s with msg_decoder := d }) := by
  rw [next_msg2_apply, h]
  rfl

theorem fetch_first {msg2 : Msg} {s : TraceDecoder σ} {n : Nat} {d : σ} {m : Msg} (hp : s.msg_present = false)
    (hn : src.next (s.msg_decoder, s.msg) = some (.ok n, d, m)) (h0 : n ≠ 0) :
    trace_fetch_msg src msg2 s =
      if trace_check_msg m = false then
        (src.rewind_last d).map fun d => (.error .msg_unsupported, { s with msg_decoder := d, msg := m })
      else if repeatable m = false then some (.ok true, { s with msg_decoder := d, msg := m, msg_present := true })
      else (src.next (d, msg2)).bind fun r =>
        match r.1 with
        | .error e => some (.error e, { s with msg_decoder := r.2.1, msg := { m with hrepeat := 0 }, msg_present := true })
        | .ok _ => if r.2.2.tcode ≠ .RepeatBranch then (src.rewind_last r.2.1).map fun d =>
              (.ok true, { s with msg_decoder := d, msg := { m with hrepeat := 0 }, msg_present := true })
            else some (.ok true, { s with msg_decoder := r.2.1, msg := { m with hrepeat := r.2.2.hrepeat }, msg_present := true }) := by
  have hnext : next_msg src s = some (.ok n, { s with msg_decoder := d, msg := m }) := by rw [next_msg_apply, hn]; rfl
  rw [trace_fetch_msg, Proc.get_bind_apply, Proc.ite_apply, if_neg (by simp [hp]), Proc.bind_ok hnext, Proc.ite_apply, if_neg h0]
  simp only [Proc.get_bind_apply, Proc.ite_apply]
  rw [repeatable_eq]
  cases hc : trace_check_msg m
  · simp only [Bool.not_false, if_true, Proc.bind_apply, rewind_msg_apply]
    cases src.rewind_last d <;> rfl
  simp only [Bool.not_true, Bool.false_eq_true, if_false, Bool.true_eq_false, Proc.modify_bind_apply, Proc.ite_apply, Bool.not_eq_false']
  split
  · rfl
  simp only [Proc.bind_apply, next_msg2_apply]
  rcases src.next (d, msg2) with _ | ⟨e | n₂, d₂, m₂⟩
  · rfl
  · rfl
  · simp only [Option.map_some, Except.map, Option.bind_some, Proc.ite_apply, Proc.bind_apply, rewind_msg_apply]
    split
    · cases src.rewind_last d₂ <;> rfl
    · rfl

theorem fetch_of {msg2 : Msg} {s t : TraceDecoder σ} {r : Except NexusError Bool} (h : Fetched src msg2 s r t) :
    trace_fetch_msg src msg2 s = some (r, t) := by
  cases h with
  | present hp => rw [trace_fetch_msg, Proc.get_bind_apply, Proc.ite_apply, if_pos hp]; rfl
  | failed e d m hp hn =>
    rw [trace_fetch_msg, Proc.get_bind_apply, Proc.ite_apply, if_neg (by simp [hp])]
    exact Proc.bind_error (by rw [next_msg_apply, hn]; rfl)
  | eof d m hp hn =>
    have hnext : next_msg src s = some (.ok 0, { s with msg_decoder := d, msg := m }) := by rw [next_msg_apply, hn]; rfl
    rw [trace_fetch_msg, Proc.get_bind_apply, Proc.ite_apply, if_neg (by simp [hp]), Proc.bind_ok hnext]
    rfl
  | unsupported n d d' m hp hn h0 hc hback => rw [fetch_first hp hn h0, if_pos hc, hback]; rfl
  | plain n d m hp hn h0 hc hb => rw [fetch_first hp hn h0, if_neg (by simp [hc]), if_pos hb]
  | ahead_failed n d m e d₂ m₂ hp hn h0 hc hb hn₂ =>
    rw [fetch_first hp hn h0, if_neg (by simp [hc]), if_neg (by simp [hb]), hn₂]
    rfl
  | ahead_other n d m n₂ d₂ m₂ d₃ hp hn h0 hc hb hn₂ hk hback =>
    rw [fetch_first hp hn h0, if_neg (by simp [hc]), if_neg (by simp [hb]), hn₂, Option.bind_some]
    dsimp only
    rw [if_pos hk, hback]
    rfl
  | repeated n d m n₂ d₂ m₂ hp hn h0 hc hb hn₂ hk =>
    rw [fetch_first hp hn h0, if_neg (by simp [hc]), if_neg (by simp [hb]), hn₂, Option.bind_some]
    dsimp only
    rw [if_neg (by simp [hk])]

theorem push_element_eq {env : Env} {e : HistElement} {s : TraceDecoder σ} (h : env.alloc s.res_hists.length = true) :
    push_element env e s = some (.ok true, { s with
      res_hists := s.res_hists ++ [e], res_tnts := (s.res_tnts + e.bits % 2 ^ 32) % 2 ^ 32, msg_present := false }) := by
  rw [push_element, Proc.get_bind_apply, Proc.ite_apply, h]
  rfl

/-- A pull that succeeds, again. -/
theorem pull_of {env : Env} {k : Nat} {s t : TraceDecoder σ} {b : Bool} (h : Pulled src env k s (.ok b) t) :
    trace_pull_msg src env k s = some (.ok b, t) := by
  cases h with
  | other b _ hf hres =>
    rw [trace_pull_msg, Proc.bind_ok (fetch_of hf), Proc.get_bind_apply, Proc.ite_apply, if_pos (by simp [hres])]
    rfl
  | taken b u e hf hres hel hlen hgrown hal =>
    rw [trace_pull_msg, Proc.bind_ok (fetch_of hf), Proc.get_bind_apply, Proc.ite_apply, if_neg (by simp [hres]), Proc.ite_apply,
      if_neg (by omega)]
    unfold res_element at hel
    dsimp only
    rw [Proc.ite_apply]
    split at hel
    · rename_i hi
      have hg : u.grown = (u.res_icnt + u.msg.icnt.toNat) % 2 ^ 32 := if_pos hi
      have hle := hgrown hi
      cases hel
      rw [if_pos hi, Proc.modify_bind_apply, Proc.ite_apply, if_neg (by omega)]
      rw [← hg]
      exact push_element_eq (s := { u with res_icnt := u.grown }) hal
    rename_i hi
    have hg : u.grown = u.res_icnt := if_neg hi
    have hab : ∀ x : HistElement, u.absorbed x = { u with
      res_hists := u.res_hists ++ [x], res_tnts := (u.res_tnts + x.bits % 2 ^ 32) % 2 ^ 32, msg_present := false } := fun x => by
      rw [TraceDecoder.absorbed, hg]
    rw [if_neg hi, Proc.ite_apply, hab]
    split at hel
    · rename_i hh
      cases hel
      rw [if_pos hh]
      exact push_element_eq hal
    rename_i hh
    rw [if_neg hh, Proc.ite_apply]
    split at hel
    · rename_i hq
      simp only [Bool.and_eq_true, decide_eq_true_eq] at hq
      obtain ⟨⟨hq, h8⟩, hd⟩ := hq
      have hq : (src.hw_cfg u.msg_decoder).quirk_sifive = true := hq
      cases hel
      rw [if_pos hq, h8]
      change (if u.msg.res_data = 0 then Proc.fail .msg_unsupported else push_element env ⟨2, _, _⟩ : Trace σ Bool) u = _
      rw [Proc.ite_apply, if_neg hd]
      exact push_element_eq hal
    split at hel
    · rename_i hq
      simp only [Bool.and_eq_true, decide_eq_true_eq] at hq
      obtain ⟨⟨hq, h9⟩, hd⟩ := hq
      have hq : (src.hw_cfg u.msg_decoder).quirk_sifive = true := hq
      cases hel
      rw [if_pos hq, h9]
      change (if u.msg.res_data = 0 then Proc.fail .msg_unsupported else push_element env ⟨3, _, _⟩ : Trace σ Bool) u = _
      rw [Proc.ite_apply, if_neg hd]
      exact push_element_eq hal
    · cases hel

/-! ## The loops come to an end -/

section Lawful
variable {I : σ → Prop} (hlaw : src.Lawful I)
include hlaw

theorem Fetched.left {msg2 : Msg} {s t : TraceDecoder σ} {r : Except NexusError Bool} (h : Fetched src msg2 s r t) (hI : I s.msg_decoder) :
    I t.msg_decoder ∧ src.hw_cfg t.msg_decoder = src.hw_cfg s.msg_decoder ∧ src.left t.msg_decoder ≤ src.left s.msg_decoder ∧
      (r = .ok true → src.left t.msg_decoder < src.left s.msg_decoder) := by
  cases h with
  | present => exact ⟨hI, rfl, Nat.le_refl _, fun h => nomatch h⟩
  | failed e d m _ hn => obtain ⟨h1, h2, h3, -⟩ := hlaw.next hI hn; exact ⟨h1, h2, h3, fun h => nomatch h⟩
  | eof d m _ hn => obtain ⟨h1, h2, h3, -⟩ := hlaw.next hI hn; exact ⟨h1, h2, h3, fun h => nomatch h⟩
  | unsupported n d d' m _ hn _ _ hback =>
    obtain ⟨d'', hd, h1, h2, h3⟩ := hlaw.rewind hI hn
    cases hd.symm.trans hback
    exact ⟨h1, h2, h3, fun h => nomatch h⟩
  | plain n d m _ hn h0 => obtain ⟨h1, h2, h3, h4⟩ := hlaw.next hI hn; exact ⟨h1, h2, h3, fun _ => h4 n rfl h0⟩
  | ahead_failed n d m e d₂ m₂ _ hn h0 _ _ hn₂ =>
    obtain ⟨h1, h2, h3, -⟩ := hlaw.next hI hn
    obtain ⟨g1, g2, g3, -⟩ := hlaw.next h1 hn₂
    exact ⟨g1, g2.trans h2, Nat.le_trans g3 h3, fun h => nomatch h⟩
  | ahead_other n d m n₂ d₂ m₂ d₃ _ hn h0 _ _ hn₂ _ hback =>
    obtain ⟨h1, h2, -, h4⟩ := hlaw.next hI hn
    obtain ⟨d'', hd, g1, g2, g3⟩ := hlaw.rewind h1 hn₂
    cases hd.symm.trans hback
    have hlt := h4 n rfl h0
    exact ⟨g1, g2.trans h2, by dsimp only; omega, fun _ => by dsimp only; omega⟩
  | repeated n d m n₂ d₂ m₂ _ hn h0 _ _ hn₂ =>
    obtain ⟨h1, h2, -, h4⟩ := hlaw.next hI hn
    obtain ⟨g1, g2, g3, -⟩ := hlaw.next h1 hn₂
    have hlt := h4 n rfl h0
    exact ⟨g1, g2.trans h2, by dsimp only; omega, fun _ => by dsimp only; omega⟩

/-- A pull that absorbs a message leaves fewer of them. -/
theorem Pulled.left {env : Env} {k : Nat} {s t : TraceDecoder σ} {b : Bool} (h : Pulled src env k s (.ok b) t) (hI : I s.msg_decoder)
    (hset : s.settled) : I t.msg_decoder ∧ src.left t.msg_decoder ≤ src.left s.msg_decoder ∧
      (b = true → src.left t.msg_decoder < src.left s.msg_decoder) := by
  cases h with
  | other b _ hf =>
    obtain ⟨h1, -, h3, -⟩ := hf.left hlaw hI
    exact ⟨h1, h3, fun h => nomatch h⟩
  | taken b u e hf hres =>
    obtain ⟨h1, -, h3, h4⟩ := hf.left hlaw hI
    refine ⟨h1, h3, fun _ => h4 ?_⟩
    cases hf with
    | present hp => exact nomatch (hset hp).symm.trans hres
    | plain => rfl
    | ahead_other => rfl
    | repeated => rfl

/-- A run of the loop, with fuel for every message that is left. -/
theorem Loop.run {env : Env} {done : Trace σ (Option α)} (hasks : Asks done) {k : Nat} {rc : Bool} {s s' : TraceDecoder σ}
    {r : Except NexusError (Option α)} (h : Loop src env done k rc s r s') : I s.msg_decoder → ∀ fuel,
      (if rc then src.left s.msg_decoder + 2 else 1) ≤ fuel → pull_until src env done fuel k rc s = some (r, s') := by
  have hsucc : ∀ {fuel n : Nat} {rc : Bool}, (if rc then n + 2 else 1) ≤ fuel → ∃ f, fuel = f + 1 ∧ (rc = true → n + 1 ≤ f) := by
    intro fuel n rc h
    cases rc
    · exact ⟨fuel - 1, (Nat.sub_add_cancel h).symm, fun h => nomatch h⟩
    · rw [if_pos rfl] at h
      exact ⟨fuel - 1, by omega, fun _ => by omega⟩
  induction h with
  | found h =>
    intro hI fuel hfuel
    obtain ⟨f, rfl, -⟩ := hsucc hfuel
    rw [pull_until, Proc.bind_ok h]
    rfl
  | failed h =>
    intro hI fuel hfuel
    obtain ⟨f, rfl, -⟩ := hsucc hfuel
    rw [pull_until, Proc.bind_error h]
  | stop h =>
    intro hI fuel hfuel
    obtain ⟨f, rfl, -⟩ := hsucc hfuel
    rw [pull_until, Proc.bind_ok h]
    rfl
  | pull_failed h hpull =>
    intro hI fuel hfuel
    obtain ⟨f, rfl, -⟩ := hsucc hfuel
    rw [pull_until, Proc.bind_ok h]
    exact Proc.bind_error hpull
  | @pull k s t u s' rc r h hpull _ ih =>
    intro hI fuel hfuel
    obtain ⟨f, rfl, hf⟩ := hsucc hfuel
    have hf := hf rfl
    obtain ⟨-, hts, hset⟩ | ⟨a, ha⟩ := hasks _ _ _ h
    · have hleft := hpull
      rw [hts] at hleft
      obtain ⟨h1, h2, h3⟩ := (pull_cases hleft).left hlaw hI hset
      rw [pull_until, Proc.bind_ok h]
      refine (Proc.bind_ok hpull).trans (ih h1 f ?_)
      split
      · have := h3 ‹_›
        omega
      · omega
    · cases ha

/-- A call of `try_retire` that returns, again. -/
theorem try_retire_of {env : Env} {icnt : Nat} {s s' : TraceDecoder σ} {a : Nat × TraceEvent} (hI : I s.msg_decoder)
    (h : TriedRetire src env icnt s (.ok a) s') : trace_try_retire src env icnt s = some (.ok a, s') := by
  have hsync : ∀ {x : Trace σ (Nat × TraceEvent)} {r}, s.synced = true → x s = r →
      (if !s.synced then Proc.fail .trace_not_synced else x : Trace σ (Nat × TraceEvent)) s = r := fun h hx => by
    rw [Proc.ite_apply, if_neg (by simp [h]), hx]
  have hfuel : (if true = true then src.left s.msg_decoder + 2 else 1) ≤ src.left s.msg_decoder + 2 := Nat.le_refl _
  cases h with
  | early n _ hs hloop =>
    rw [trace_try_retire, Proc.get_bind_apply]
    refine hsync hs ?_
    exact Proc.bind_ok (hloop.run hlaw (asks_icnt _) hI _ hfuel)
  | event t hs hloop hp hset hle hone hle' hbits =>
    rw [trace_try_retire, Proc.get_bind_apply]
    refine hsync hs ((Proc.bind_ok (hloop.run hlaw (asks_icnt _) hI _ hfuel)).trans ?_)
    dsimp only
    have hleft : trace_available_icnt t = some (.ok t.icnt_left, t) := available_icnt_iff.2 ⟨hset, hle, rfl, rfl⟩
    have htake : trace_consume_icnt t.icnt_left t = some (.ok (), t.take_icnt t.icnt_left) :=
      consume_icnt_iff.2 ⟨hset, hle, Nat.le_refl _, hone, fun _ => hp, rfl, rfl⟩
    rw [Proc.get_bind_apply, Proc.assert_bind_apply, hp, if_pos rfl, Proc.bind_ok hleft, Proc.bind_ok htake, Proc.ite_apply]
    split
    · rename_i herr
      rw [TraceDecoder.event, if_pos herr]
      rfl
    · rename_i herr
      have herr : msg_is_error t.msg = false := by simpa using herr
      have hsame : (t.take_icnt t.icnt_left).settled ∧ (t.take_icnt t.icnt_left).tnt_total = t.tnt_total ∧
          (t.take_icnt t.icnt_left).consumed_tnts = t.consumed_tnts := by
        unfold TraceDecoder.take_icnt
        split <;> exact ⟨hset, rfl, rfl⟩
      have htnts : trace_available_tnts (t.take_icnt t.icnt_left) = some (.ok t.tnts_left, t.take_icnt t.icnt_left) :=
        available_tnts_iff.2 ⟨hsame.1, by rw [hsame.2.1, hsame.2.2]; exact hle' herr, by rw [hsame.2.1, hsame.2.2]; rfl, rfl⟩
      rw [Proc.bind_ok htnts, Proc.ite_apply, TraceDecoder.event, herr, if_neg Bool.false_ne_true]
      split
      · rfl
      · rename_i h0
        rw [Proc.assert_bind_apply, if_pos]
        · rfl
        · cases hh : msg_has_hist t.msg
          · rfl
          · simp [hbits herr (Decidable.of_not_not h0) hh]

theorem Micro.lawful {c : Call} {s t : TraceDecoder σ} {o : List Out} (h : Micro src c s o t) (hI : I s.msg_decoder) :
    I t.msg_decoder ∧ src.hw_cfg t.msg_decoder = src.hw_cfg s.msg_decoder := by
  have hsame : t.msg_decoder = s.msg_decoder → I t.msg_decoder ∧ src.hw_cfg t.msg_decoder = src.hw_cfg s.msg_decoder := fun h => by
    rw [h]
    exact ⟨hI, rfl⟩
  cases h with
  | fetch hf => exact ⟨(hf.left hlaw hI).1, (hf.left hlaw hI).2.1⟩
  | pull _ _ _ hf => exact ⟨(hf.left hlaw hI).1, (hf.left hlaw hI).2.1⟩
  | stuck => exact hsame rfl
  | take =>
    refine hsame ?_
    unfold TraceDecoder.take_icnt
    split <;> rfl
  | tnt _ _ _ _ _ htook => exact hsame htook.frame.2.2.2.2.2.1
  | retire => exact hsame (retired_msg_decoder s)
  | indirect => exact hsame ((retired_msg_decoder _).trans (addressed_msg_decoder s))
  | stop => exact hsame (retired_msg_decoder s)
  | error => exact hsame (retired_msg_decoder (s.emptied src))
  | past _ hn => exact ⟨(hlaw.next hI hn).1, (hlaw.next hI hn).2.1⟩
  | peek _ hn hback =>
    obtain ⟨d, hd, hId, hcfg, -⟩ := hlaw.rewind hI hn
    cases hd.symm.trans hback
    exact ⟨hId, hcfg⟩
  | skip _ hn => exact ⟨(hlaw.next hI hn).1, (hlaw.next hI hn).2.1⟩
  | drop => exact hsame rfl
  | resync => exact hsame rfl
  | stack => exact hsame rfl
  | time => exact hsame rfl

end Lawful

/-! ## Reachable states -/

theorem trace_decoder_init_eq {env : Env} {d : σ} {s : TraceDecoder σ} (h : trace_decoder_init src env d = .ok s) :
    ∃ stack, s = ⟨d, [], 0, 0, 0, 0, false, false, Msg.zero, 0, 0, stack⟩ := by
  unfold trace_decoder_init at h
  split at h
  · cases h
  · rcases hr : retstack_init env.mem (src.hw_cfg d).max_stack with e | stack <;> rw [hr] at h <;> cases h
    exact ⟨stack, rfl⟩

theorem init_booked {env : Env} {d : σ} {s : TraceDecoder σ} (h : trace_decoder_init src env d = .ok s) : Booked s := by
  obtain ⟨stack, rfl⟩ := trace_decoder_init_eq h
  exact .of_cleared ⟨rfl, rfl, rfl, rfl, rfl⟩ fun h => nomatch h

end Sources

/-- What `trace_decoder_init` leaves on a fresh message decoder. -/
def Initial (s : TraceDecoder MsgDecoder) : Prop :=
  ∃ (hwcfg : HwCfg) (fd : Fd) (filter : Int16) (buffer : List UInt8) (env : Env),
    trace_decoder_init msg_source env (msg_decoder_init hwcfg fd filter buffer buffer.length) = .ok s

/-- A state that calls lead to, from `trace_decoder_init` on a fresh message decoder on. -/
def Reachable (s : TraceDecoder MsgDecoder) : Prop :=
  ∃ (hwcfg : HwCfg) (fd : Fd) (filter : Int16) (buffer : List UInt8) (env : Env) (s₀ : TraceDecoder MsgDecoder) (calls : List (Env × Call))
    (rs : List (Except NexusError Result)),
    trace_decoder_init msg_source env (msg_decoder_init hwcfg fd filter buffer buffer.length) = .ok s₀ ∧ play msg_source calls s₀ = some (rs, s)

theorem Reachable.play {s t : TraceDecoder MsgDecoder} (h : Reachable s) {calls : List (Env × Call)} {rs : List (Except NexusError Result)}
    (hplay : play msg_source calls s = some (rs, t)) : Reachable t := by
  obtain ⟨hwcfg, fd, filter, buffer, env, s₀, calls₀, rs₀, hinit, hplay₀⟩ := h
  exact ⟨hwcfg, fd, filter, buffer, env, s₀, calls₀ ++ calls, rs₀ ++ rs, hinit, play_append hplay₀ hplay⟩

theorem Reachable.booked {s : TraceDecoder MsgDecoder} (h : Reachable s) : Booked s := by
  obtain ⟨hwcfg, fd, filter, buffer, env, s₀, calls, rs, hinit, hplay⟩ := h
  exact play_micros_keep (fun _ _ _ _ => Micro.booked) hplay (init_booked hinit)

theorem Reachable.inv {s : TraceDecoder MsgDecoder} (h : Reachable s) : DecoderInv s.msg_decoder := by
  obtain ⟨hwcfg, fd, filter, buffer, env, s₀, calls, rs, hinit, hplay⟩ := h
  refine play_micros_keep (fun _ _ _ _ hm hI => (hm.lawful msg_source_lawful hI).1) hplay ?_
  obtain ⟨stack, rfl⟩ := trace_decoder_init_eq hinit
  exact init_inv hwcfg fd filter rfl

theorem Initial.reachable {s : TraceDecoder MsgDecoder} (h : Initial s) : Reachable s := by
  obtain ⟨hwcfg, fd, filter, buffer, env, hinit⟩ := h
  exact ⟨hwcfg, fd, filter, buffer, env, s, [], [], hinit, rfl⟩

theorem Initial.cleared {s : TraceDecoder MsgDecoder} (h : Initial s) : s.Cleared := by
  obtain ⟨hwcfg, fd, filter, buffer, env, hinit⟩ := h
  obtain ⟨stack, rfl⟩ := trace_decoder_init_eq hinit
  exact ⟨rfl, rfl, rfl, rfl, rfl⟩

/-- A fresh trace decoder on the bytes `bs`, without call stack. -/
def fresh_decoder (hwcfg : HwCfg) (bs : List UInt8) : TraceDecoder MsgDecoder :=
  ⟨msg_decoder_init hwcfg ⟨bs, []⟩ (-1) (List.replicate 8 0) 8, [], 0, 0, 0, 0, false, false, Msg.zero, 0, 0, ⟨[], 0, 0, 0, 0⟩⟩

theorem fresh_initial {hwcfg : HwCfg} (h0 : hwcfg.max_stack = 0) (bs : List UInt8) : Initial (fresh_decoder hwcfg bs) := by
  refine ⟨hwcfg, ⟨bs, []⟩, -1, List.replicate 8 0, ⟨fun _ => Msg.zero, fun _ => true, fun _ => none⟩, ?_⟩
  simp [trace_decoder_init, retstack_init, msg_source, msg_decoder_init, h0, fresh_decoder, Except.map]

theorem fresh_reachable {hwcfg : HwCfg} (h0 : hwcfg.max_stack = 0) {bs : List UInt8} {calls : List (Env × Call)}
    {rs : List (Except NexusError Result)} {s : TraceDecoder MsgDecoder} (h : play msg_source calls (fresh_decoder hwcfg bs) = some (rs, s)) :
    Reachable s := by
  obtain ⟨cfg, fd, filter, buffer, env, hinit⟩ := fresh_initial h0 bs
  exact ⟨cfg, fd, filter, buffer, env, fresh_decoder hwcfg bs, calls, rs, hinit, h⟩

def plain_cfg : HwCfg := ⟨0, 0, 8, 0, 0, false, false, false⟩

/-- An environment in which the look-ahead messages hold `mem` before. -/
def env_of (mem : Msg) : Env := ⟨fun _ => mem, fun _ => true, fun _ => none⟩

def stale_repeat : Msg := { Msg.zero with tcode := .RepeatBranch, hrepeat := 7 }

/-- A run, from what is shown of it. -/
theorem play_shown {σ β : Type} {src : Source σ} {calls : List (Env × Call)} {s : TraceDecoder σ} (f : TraceDecoder σ → β)
    {rs : List (Except NexusError Result)} {b : β} (h : (play src calls s).map (fun r => (r.1, f r.2)) = some (rs, b)) :
    ∃ t, play src calls s = some (rs, t) ∧ f t = b := by
  obtain ⟨⟨rs', t⟩, ht, he⟩ := Option.map_eq_some_iff.1 h
  cases he
  exact ⟨t, ht, rfl⟩

/-- A run behind a run, from what is shown of the states between and behind. -/
theorem plays_shown {σ β γ : Type} {src : Source σ} {calls calls' : List (Env × Call)} {s : TraceDecoder σ}
    (f : TraceDecoder σ → β) (g : TraceDecoder σ → γ) {rs rs' : List (Except NexusError Result)} {b : β} {a : γ}
    (h : ((play src calls s).bind fun p => (play src calls' p.2).map fun q => (p.1, f p.2, q.1, g q.2)) = some (rs, b, rs', a)) :
    ∃ t u, play src calls s = some (rs, t) ∧ play src calls' t = some (rs', u) ∧ f t = b ∧ g u = a := by
  obtain ⟨⟨rs₁, t⟩, ht, he⟩ := Option.bind_eq_some_iff.1 h
  obtain ⟨⟨rs₂, u⟩, hu, he⟩ := Option.map_eq_some_iff.1 he
  cases he
  exact ⟨t, u, ht, hu, rfl, rfl⟩

/-- A run and the call behind it. -/
theorem exec_shown {σ β γ : Type} {src : Source σ} {calls : List (Env × Call)} {s : TraceDecoder σ} {env : Env} {c : Call}
    (f : TraceDecoder σ → β) (g : TraceDecoder σ → γ) {rs : List (Except NexusError Result)} {r : Except NexusError Result} {b : β} {a : γ}
    (h : ((play src calls s).bind fun p => (play src [(env, c)] p.2).map fun q => (p.1, f p.2, q.1, g q.2)) = some (rs, b, [r], a)) :
    ∃ t u, play src calls s = some (rs, t) ∧ exec src env c t = some (r, u) ∧ f t = b ∧ g u = a := by
  obtain ⟨t, u, ht, hu, hb, ha⟩ := plays_shown f g h
  obtain ⟨v, hv, hnil⟩ := play_head hu
  cases hnil
  exact ⟨t, _, ht, hv, hb, ha⟩

end nexusrv
