import NexusRv.Slicing
import NexusRv.Tnts
/-!
# No assertion fails

A fetch or a pull fails no assertion over a lawful source, and the loops come to
an end. `Solid` is what the assertions on the counters need; a call from a solid
state fails none.
-/

namespace nexusrv

section Total
variable {σ α : Type} {src : Source σ} {I : σ → Prop} {s t : TraceDecoder σ}

theorem fetch_total (hlaw : src.Lawful I) (hI : I s.msg_decoder) (msg2 : Msg) : ∃ r t, Fetched src msg2 s r t := by
  have hnext : ∀ {d : σ} (m : Msg), I d → ∃ r d' m', src.next (d, m) = some (r, d', m') := fun {d} m hd => by
    rcases h : src.next (d, m) with _ | ⟨r, d', m'⟩
    · exact absurd h (hlaw.returns m hd)
    · exact ⟨r, d', m', rfl⟩
  cases hp : s.msg_present with
  | true => exact ⟨_, _, .present hp⟩
  | false =>
    obtain ⟨r, d, m, hn⟩ := hnext s.msg hI
    have hId := (hlaw.next hI hn).1
    rcases r with e | n
    · exact ⟨_, _, .failed e d m hp hn⟩
    by_cases h0 : n = 0
    · rw [h0] at hn
      exact ⟨_, _, .eof d m hp hn⟩
    cases hc : trace_check_msg m with
    | false =>
      obtain ⟨d', hd', -⟩ := hlaw.rewind hI hn
      exact ⟨_, _, .unsupported n d d' m hp hn h0 hc hd'⟩
    | true =>
      cases hb : repeatable m with
      | false => exact ⟨_, _, .plain n d m hp hn h0 hc hb⟩
      | true =>
        obtain ⟨r₂, d₂, m₂, hn₂⟩ := hnext msg2 hId
        rcases r₂ with e | n₂
        · exact ⟨_, _, .ahead_failed n d m e d₂ m₂ hp hn h0 hc hb hn₂⟩
        by_cases hk : m₂.tcode = .RepeatBranch
        · exact ⟨_, _, .repeated n d m n₂ d₂ m₂ hp hn h0 hc hb hn₂ hk⟩
        · obtain ⟨d₃, hd₃, -⟩ := hlaw.rewind hId hn₂
          exact ⟨_, _, .ahead_other n d m n₂ d₂ m₂ d₃ hp hn h0 hc hb hn₂ hk hd₃⟩

theorem pull_total (hlaw : src.Lawful I) (hI : I s.msg_decoder) (env : Env) (k : Nat) : ∃ r t, trace_pull_msg src env k s = some (r, t) := by
  have hpush : ∀ (e : HistElement) (u : TraceDecoder σ), ∃ r t, push_element env e u = some (r, t) := by
    intro e u
    rw [push_element, Proc.get_bind_apply, Proc.ite_apply]
    split
    · exact ⟨_, _, rfl⟩
    · exact ⟨_, _, rfl⟩
  have hfail : ∀ (e : NexusError) (u : TraceDecoder σ), ∃ r t, (Proc.fail e : Trace σ Bool) u = some (r, t) := fun e u => ⟨_, _, rfl⟩
  obtain ⟨r, t, hf⟩ := fetch_total hlaw hI (env.msg2 k)
  rcases r with e | b
  · exact ⟨_, _, Proc.bind_error (fetch_of hf)⟩
  rw [trace_pull_msg, Proc.bind_ok (fetch_of hf), Proc.get_bind_apply, Proc.ite_apply]
  split
  · exact ⟨_, _, rfl⟩
  rw [Proc.ite_apply]
  split
  · exact hfail _ _
  dsimp only
  rw [Proc.ite_apply]
  split
  · rw [Proc.modify_bind_apply, Proc.ite_apply]
    split
    · exact hfail _ _
    · exact hpush _ _
  rw [Proc.ite_apply]
  split
  · exact hpush _ _
  rw [Proc.ite_apply]
  split
  · have hdata : ∀ (x : HistElement) (u : TraceDecoder σ), ∃ r t,
        (if u.msg.res_data = 0 then Proc.fail .msg_unsupported else push_element env x : Trace σ Bool) u = some (r, t) := by
      intro x u
      rw [Proc.ite_apply]
      split
      · exact hfail _ _
      · exact hpush _ _
    by_cases h8 : t.msg.res_code = 8
    · simp only [h8]
      exact hdata _ _
    by_cases h9 : t.msg.res_code = 9
    · simp only [h9]
      exact hdata _ _
    · simp only
      exact hfail _ _
  · exact hfail _ _

/-- What a fetch or a pull leaves is settled, if it found no ResourceFull message. -/
theorem Pulled.settled {env : Env} {k : Nat} {b : Bool} (h : Pulled src env k s (.ok b) t) :
    t.settled ∧ (b = false → t.msg_present = true) := by
  cases h with
  | other _ _ hf hres => exact ⟨fun _ => hres, fun _ => hf.filled⟩
  | taken => exact ⟨(fun h => nomatch h), (fun h => nomatch h)⟩

/-- What every pull keeps, the loop keeps up to what it finds. -/
theorem Loop.keeps {P : TraceDecoder σ → Prop} {env : Env} {done : Trace σ (Option α)} (hasks : Asks done)
    (hpull : ∀ s k b t, P s → s.settled → Pulled src env k s (.ok b) t → P t) {k : Nat} {rc : Bool} {r : Except NexusError (Option α)}
    (h : Loop src env done k rc s r t) : P s → (rc = false → s.msg_present = true) → ∀ {x}, r = .ok x →
      ∃ u, P u ∧ done u = some (.ok x, t) ∧ (x = none → u.msg_present = true) := by
  induction h with
  | found h =>
    intro hs _ x hx
    cases hx
    exact ⟨_, hs, h, fun h => nomatch h⟩
  | stop h =>
    intro hs hp x hx
    cases hx
    exact ⟨_, hs, h, fun _ => hp rfl⟩
  | failed => intro _ _ _ hx; cases hx
  | pull_failed => intro _ _ _ hx; cases hx
  | @pull k s s₁ u t rc r h hpl _ ih =>
    intro hs _ x hx
    obtain ⟨-, rfl, hset⟩ | ⟨a, ha⟩ := hasks _ _ _ h
    · have hpulled := pull_cases hpl
      refine ih (hpull _ k rc u hs hset hpulled) ?_ hx
      intro hrc
      rw [hrc] at hpulled
      exact hpulled.settled.2 rfl
    · cases ha

/-- The loop comes to an end, from states that an invariant of the pulls holds of. -/
theorem loop_total (hlaw : src.Lawful I) {P : TraceDecoder σ → Prop} {env : Env} {done : Trace σ (Option α)} (hasks : Asks done)
    (hinv : ∀ s, P s → I s.msg_decoder) (hdone : ∀ s, P s → ∃ r t, done s = some (r, t))
    (hpull : ∀ s k b t, P s → s.settled → Pulled src env k s (.ok b) t → P t) :
    ∀ (n : Nat) {s : TraceDecoder σ} {k : Nat} {rc : Bool}, P s → src.left s.msg_decoder ≤ n → ∃ r t, Loop src env done k rc s r t := by
  -- with no message to pull
  have hstop : ∀ {s : TraceDecoder σ} {k : Nat}, P s → ∃ r t, Loop src env done k false s r t := by
    intro s k hs
    obtain ⟨r, t, hd⟩ := hdone s hs
    rcases r with e | _ | a
    · exact ⟨_, _, .failed hd⟩
    · exact ⟨_, _, .stop hd⟩
    · exact ⟨_, _, .found hd⟩
  -- one round
  have hround : ∀ {s : TraceDecoder σ} {k : Nat}, P s →
      (∃ r t, Loop src env done k true s r t) ∨ ∃ u, P u ∧ src.left u.msg_decoder < src.left s.msg_decoder ∧
        ∀ r t, Loop src env done (k + 1) true u r t → Loop src env done k true s r t := by
    intro s k hs
    obtain ⟨r, t, hd⟩ := hdone s hs
    rcases r with e | _ | a
    · exact .inl ⟨_, _, .failed hd⟩
    · obtain ⟨-, hts, hset⟩ | ⟨a, ha⟩ := hasks _ _ _ hd
      · rw [hts] at hd
        obtain ⟨r, u, hu⟩ := pull_total hlaw (hinv s hs) env k
        rcases r with e | b
        · exact .inl ⟨_, _, .pull_failed hd hu⟩
        · have hpulled := pull_cases hu
          have hPu := hpull s k b u hs hset hpulled
          cases b with
          | false =>
            obtain ⟨r, v, hv⟩ := hstop (k := k + 1) hPu
            exact .inl ⟨_, _, .pull hd hu hv⟩
          | true => exact .inr ⟨u, hPu, (hpulled.left hlaw (hinv s hs) hset).2.2 rfl, fun _ _ h => .pull hd hu h⟩
      · cases ha
    · exact .inl ⟨_, _, .found hd⟩
  intro n
  induction n with
  | zero =>
    intro s k rc hs hn
    cases rc with
    | false => exact hstop hs
    | true =>
      obtain h | ⟨u, -, hlt, -⟩ := hround (k := k) hs
      · exact h
      · omega
  | succ n ih =>
    intro s k rc hs hn
    cases rc with
    | false => exact hstop hs
    | true =>
      obtain h | ⟨u, hu, hlt, hgo⟩ := hround (k := k) hs
      · exact h
      · obtain ⟨r, t, h⟩ : ∃ r t, Loop src env done (k + 1) true u r t := ih hu (by omega)
        exact ⟨r, t, hgo r t h⟩

/-! ## Solid states -/

/-- What the assertions need: the books are right, no bit is missing in an element, no ResourceFull
message is buffered, and the addition of the TNTs does not wrap. -/
structure Solid (s : TraceDecoder σ) : Prop where
  booked : Booked s
  counted : Counted s
  settled : s.settled
  elems : ∀ e ∈ s.res_hists, e.hist ≠ 0 → msg_hist_bits e.hist ≠ 0
  fits : s.queued_bits + s.buffered_bits < 2 ^ 32

theorem Solid.tnts_total (h : Solid s) : s.tnt_total = s.queued_bits + s.buffered_bits := by
  have hfits := h.fits
  unfold TraceDecoder.tnt_total TraceDecoder.buffered_bits Msg.own_bits at *
  rw [h.counted.sum]
  cases hp : s.msg_present <;> cases hh : msg_has_hist s.msg <;>
    simp only [hp, hh, Bool.and_true, Bool.and_false, if_true, if_false, Bool.false_eq_true, Nat.add_zero] at hfits ⊢
  exact Nat.mod_eq_of_lt hfits

theorem Solid.tnts_le (h : Solid s) : s.consumed_tnts ≤ s.tnt_total := by
  rw [h.tnts_total, ← h.counted.sum]
  exact h.counted.consumed_le

theorem Solid.icnt_le (h : Solid s) : s.consumed_icnt ≤ s.icnt_total := by
  have := h.booked.own
  rw [h.booked.total h.settled]
  omega

/-- With no TNT left, the bits of the message are consumed. -/
theorem Solid.own_consumed (h : Solid s) (hp : s.msg_present = true) (h0 : s.tnts_left = 0) : s.res_tnts = 0 ∧ s.consumed_tnts = s.msg.own_bits := by
  have hle : s.tnt_total - s.consumed_tnts = 0 := h0
  have hsum := h.counted.sum
  rw [h.tnts_total] at hle
  have hown : s.buffered_bits = s.msg.own_bits := if_pos hp
  have hnone : s.res_tnts = 0 := by
    refine Classical.byContradiction fun hne => ?_
    rcases hu : unspent s.res_hists with _ | ⟨e, rest⟩
    · rw [TraceDecoder.queued_bits, ← queue_bits_unspent, hu] at hsum
      exact hne hsum
    · have he : e ∈ s.res_hists := mem_of_unspent (hu ▸ List.mem_cons_self)
      have hbits : msg_hist_bits e.hist ≤ e.bits := Nat.le_mul_of_pos_left _ (Nat.pos_of_ne_zero (h.counted.elems e he).1)
      rw [TraceDecoder.queued_bits, ← queue_bits_unspent, hu, queue_bits_cons] at hsum hle
      rcases h.counted.front hne e rest hu with hc | hc <;> omega
  have := h.counted.own hnone
  exact ⟨hnone, by omega⟩

/-- Where a TNT is left, it can be consumed. -/
theorem Solid.took (h : Solid s) (hne : s.tnts_left ≠ 0) : ∃ b t, TookTnt src s b t := by
  have hleft : s.tnt_total - s.consumed_tnts ≠ 0 := hne
  rw [h.tnts_total] at hleft
  have hsum := h.counted.sum
  by_cases h0 : s.res_tnts = 0
  · have hbuf : s.consumed_tnts < s.buffered_bits := by omega
    unfold TraceDecoder.buffered_bits Msg.own_bits at hbuf
    split at hbuf
    · split at hbuf
      · exact ⟨_, _, .own h0 ‹_› ‹_› hbuf⟩
      · omega
    · omega
  · rcases hu : unspent s.res_hists with _ | ⟨e, rest⟩
    · rw [TraceDecoder.queued_bits, ← queue_bits_unspent, hu] at hsum
      exact absurd hsum h0
    · have he : e ∈ s.res_hists := mem_of_unspent (hu ▸ List.mem_cons_self)
      have hhist : e.hist ≠ 0 := fun h => by
        have hhead := List.head?_dropWhile_not (fun e : HistElement => decide (e.hist = 0)) s.res_hists
        rw [show s.res_hists.dropWhile _ = e :: rest from hu] at hhead
        simp [h] at hhead
      have hbits := h.elems e he hhist
      obtain ⟨hrep, -⟩ := h.counted.elems e he
      have hlt : s.consumed_tnts < msg_hist_bits e.hist := by
        rcases h.counted.front h0 e rest hu with hc | hc <;> omega
      have hle : msg_hist_bits e.hist ≤ s.res_tnts := by
        rw [hsum, TraceDecoder.queued_bits, ← queue_bits_unspent, hu, queue_bits_cons]
        exact Nat.le_trans (Nat.le_mul_of_pos_left _ (Nat.pos_of_ne_zero hrep)) (Nat.le_add_right _ _)
      by_cases hlast : s.consumed_tnts + 1 = msg_hist_bits e.hist
      · exact ⟨_, _, .last e rest h0 hu hlast hle hrep⟩
      · exact ⟨_, _, .bit e rest h0 hu (by omega)⟩

theorem Solid.spent_once (h : Solid s) : ∀ e ∈ spent s.res_hists, e.repeat_ = 1 := by
  intro e he
  have hhist : e.hist = 0 := by simpa using List.all_eq_true.1 List.all_takeWhile e he
  exact (h.counted.elems e ((List.takeWhile_sublist _).subset he)).2 hhist

theorem retire_tnt_total (h : Solid s) : ∃ r t, retire_tnt src s = some (r, t) := by
  by_cases h0 : s.tnts_left = 0
  · exact ⟨_, _, retire_tnt_none h.settled h.tnts_le h0⟩
  · obtain ⟨b, t, ht⟩ : ∃ b t, TookTnt src s b t := h.took h0
    exact ⟨_, _, retire_tnt_some h.settled h.tnts_le h0 h.spent_once ht⟩

theorem retire_icnt_total (hb : Booked s) (hset : s.settled) (hsync : s.synced = true) (n : Nat) : ∃ r t, retire_icnt n s = some (r, t) := by
  by_cases hle : s.icnt_left ≤ n
  · exact ⟨_, _, retire_icnt_none hb hset hle⟩
  · refine ⟨_, _, retire_icnt_some ⟨hb, hsync, hset, by omega, fun hlt => ?_⟩ (by omega)⟩
    -- without a message, all that is left is accumulated
    cases hp : s.msg_present with
    | true => rfl
    | false =>
      rw [hb.left hset, hb.consumed_zero hp, TraceDecoder.buffered_icnt, hp] at hle
      simp only [Bool.false_eq_true, if_false] at hle
      omega

/-! ## The calls -/

section Calls
variable {P : TraceDecoder σ → Prop} {env : Env}

theorem loop_returns (hlaw : src.Lawful I) {done : Trace σ (Option α)} (hasks : Asks done) (hinv : ∀ s, P s → I s.msg_decoder)
    (hdone : ∀ s, P s → ∃ r t, done s = some (r, t)) (hpull : ∀ s k b t, P s → s.settled → Pulled src env k s (.ok b) t → P t) (hs : P s) :
    (∃ e t, pull_until src env done (src.left s.msg_decoder + 2) 0 true s = some (.error e, t)) ∨
      (∃ a t, pull_until src env done (src.left s.msg_decoder + 2) 0 true s = some (.ok (some a), t)) ∨
      ∃ t, pull_until src env done (src.left s.msg_decoder + 2) 0 true s = some (.ok none, t) ∧ P t ∧ t.msg_present = true ∧
        done t = some (.ok none, t) := by
  obtain ⟨r, t, hloop⟩ : ∃ r t, Loop src env done 0 true s r t := loop_total hlaw hasks hinv hdone hpull (src.left s.msg_decoder) hs (Nat.le_refl _)
  have hrun := hloop.run hlaw hasks (hinv s hs) (src.left s.msg_decoder + 2) (Nat.le_refl _)
  rcases r with e | _ | a
  · exact .inl ⟨e, t, hrun⟩
  · obtain ⟨u, hu, hd, hp⟩ := hloop.keeps hasks hpull hs (fun h => nomatch h) rfl
    obtain ⟨-, rfl, -⟩ | ⟨a, ha⟩ := hasks _ _ _ hd
    · exact .inr (.inr ⟨t, hrun, hu, hp rfl, hd⟩)
    · cases ha
  · exact .inr (.inl ⟨a, t, hrun⟩)

/-- No assertion of `try_retire` fails. -/
theorem try_retire_total (hlaw : src.Lawful I) (hinv : ∀ s, P s → I s.msg_decoder ∧ Solid s ∧ s.synced = true)
    (hpull : ∀ s k b t, P s → s.settled → Pulled src env k s (.ok b) t → P t) (hs : P s) (icnt : Nat) :
    ∃ r t, trace_try_retire src env icnt s = some (r, t) := by
  obtain ⟨-, -, hsync⟩ := hinv s hs
  rw [trace_try_retire, Proc.get_bind_apply, Proc.ite_apply, if_neg (by simp [hsync])]
  have hdone : ∀ u, P u → ∃ r t, retire_icnt (retire_limit icnt) u = some (r, t) := by
    intro u hu
    obtain ⟨-, hsol, hsync⟩ := hinv u hu
    exact retire_icnt_total hsol.booked hsol.settled hsync _
  obtain ⟨e, t, h⟩ | ⟨a, t, h⟩ | ⟨t, h, ht, hp, -⟩ :=
    loop_returns hlaw (asks_icnt _) (fun s hs => (hinv s hs).1) hdone hpull hs
  · exact ⟨_, _, Proc.bind_error h⟩
  · exact ⟨_, _, Proc.bind_ok h⟩
  · obtain ⟨-, hsol, -⟩ := hinv t ht
    have hleft : trace_available_icnt t = some (.ok t.icnt_left, t) := available_icnt_iff.2 ⟨hsol.settled, hsol.icnt_le, rfl, rfl⟩
    have htake : trace_consume_icnt t.icnt_left t = some (.ok (), t.take_icnt t.icnt_left) :=
      consume_icnt_iff.2 ⟨hsol.settled, hsol.icnt_le, Nat.le_refl _, hsol.booked.one, fun _ => hp, rfl, rfl⟩
    refine (Proc.bind_ok h).symm ▸ ?_
    dsimp only
    rw [Proc.get_bind_apply, Proc.assert_bind_apply, hp, if_pos rfl, Proc.bind_ok hleft, Proc.bind_ok htake, Proc.ite_apply]
    split
    · exact ⟨_, _, rfl⟩
    obtain ⟨h1, h2, -, -, h5, h6, -⟩ := take_icnt_frame t.icnt_left t
    have htotal : (t.take_icnt t.icnt_left).tnt_total = t.tnt_total := by
      rw [TraceDecoder.tnt_total, TraceDecoder.tnt_total, h1, h2, h5]
    have htnts : trace_available_tnts (t.take_icnt t.icnt_left) = some (.ok t.tnts_left, t.take_icnt t.icnt_left) :=
      available_tnts_iff.2 ⟨take_settled hsol.settled, by rw [htotal, h6]; exact hsol.tnts_le, by rw [htotal, h6]; rfl, rfl⟩
    rw [Proc.bind_ok htnts, Proc.ite_apply]
    split
    · exact ⟨_, _, rfl⟩
    · rename_i h0
      rw [Proc.assert_bind_apply, if_pos]
      · exact ⟨_, _, rfl⟩
      · cases hh : msg_has_hist t.msg with
        | false => rfl
        | true => simp [(hsol.own_consumed hp (Decidable.of_not_not h0)).2, Msg.own_bits, hh]

/-- No assertion of `next_tnt` fails, if the message can be retired where it is a direct branch with nothing left. -/
theorem next_tnt_total (hlaw : src.Lawful I) (hinv : ∀ s, P s → I s.msg_decoder ∧ Solid s ∧ s.synced = true)
    (hpull : ∀ s k b t, P s → s.settled → Pulled src env k s (.ok b) t → P t)
    (hbranch : ∀ s, P s → s.msg_present = true → s.tnts_left = 0 → s.icnt_left = 0 → msg_is_dir_branch s.msg = true → Retirable s) (hs : P s) :
    ∃ r t, trace_next_tnt src env s = some (r, t) := by
  obtain ⟨-, -, hsync⟩ := hinv s hs
  rw [trace_next_tnt, Proc.get_bind_apply, Proc.ite_apply, if_neg (by simp [hsync])]
  obtain ⟨e, t, h⟩ | ⟨a, t, h⟩ | ⟨t, h, ht, hp, hd⟩ :=
    loop_returns hlaw asks_tnt (fun s hs => (hinv s hs).1) (fun u hu => retire_tnt_total (hinv u hu).2.1) hpull hs
  · exact ⟨_, _, Proc.bind_error h⟩
  · exact ⟨_, _, Proc.bind_ok h⟩
  · obtain ⟨-, hsol, -⟩ := hinv t ht
    have hleft : trace_available_icnt t = some (.ok t.icnt_left, t) := available_icnt_iff.2 ⟨hsol.settled, hsol.icnt_le, rfl, rfl⟩
    refine (Proc.bind_ok h).symm ▸ ?_
    dsimp only
    rw [Proc.get_bind_apply, Proc.assert_bind_apply, hp, if_pos rfl, Proc.bind_ok hleft, Proc.ite_apply]
    split
    · exact ⟨_, _, rfl⟩
    rename_i hi
    rw [Proc.ite_apply]
    split
    · exact ⟨_, _, rfl⟩
    rename_i hb
    obtain ⟨-, -, ⟨h0, -, -⟩ | ⟨-, b, hr, -⟩⟩ := retire_tnt_cases hd
    · have hret := hbranch t ht hp h0 (Decidable.of_not_not hi) (by rw [dir_branch_eq, Bool.eq_false_of_not_eq_true hb]; rfl)
      rw [Proc.bind_ok (retire_msg_iff.2 ⟨hret, rfl, rfl⟩)]
      exact ⟨_, _, rfl⟩
    · cases hr

end Calls

end Total

end nexusrv
