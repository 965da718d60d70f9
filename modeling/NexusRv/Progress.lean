import NexusRv.Amount
import NexusRv.Pulls
/-!
# Progress of `try_retire`

A call of `try_retire` that retires less than it was asked for has pulled the ResourceFull messages in front of another one. It reports an
event, and a function consumes something, unless no event stands for the message, or its queue is in the way.
-/

namespace nexusrv

/-- Idle, Ownership, RepeatBranch and ICT messages: `trace_check_msg` accepts them, and `try_retire` has
no event for them. -/
def msg_is_silent (m : Msg) : Bool := !(msg_is_error m || msg_is_branch m || msg_is_sync m || msg_is_stop m || msg_is_res m)

/-- The functions that hand out what an event announces. -/
def Call.next : Call → Bool
  | .next_tnt | .next_indirect | .next_sync | .next_error | .next_stop => true
  | _ => false

section Progress
variable {σ : Type} {src : Source σ} {I : σ → Prop} {s t u : TraceDecoder σ} {env : Env} {ev : TraceEvent} {k n : Nat} {b : Bool}

/-- One of these functions returns, and leaves less than there was. -/
def Consumable (src : Source σ) (t : TraceDecoder σ) : Prop :=
  ∃ c env r u, c.next = true ∧ exec src env c t = some (r, u) ∧ u.amount src < t.amount src

/-- What is asserted of the TNTs in front of a message. -/
structure TraceDecoder.Accounted (s : TraceDecoder σ) : Prop where
  le : msg_is_error s.msg = false → s.consumed_tnts ≤ s.tnt_total
  own : msg_is_error s.msg = false → s.tnts_left = 0 → msg_has_hist s.msg = true → s.consumed_tnts = msg_hist_bits s.msg.hist

/-- The message is an Error, or a TNT is left and can be taken, or none is left, the queue is empty and an event stands for the message. -/
def TraceDecoder.yields (s : TraceDecoder σ) : Bool := s.ready && (msg_is_error s.msg || s.tnts_left ≠ 0 || !msg_is_silent s.msg)

/-! ## What an event hands out -/

/-- Without an event, no TNT is left and the message is silent. -/
theorem event_none (h : s.event = .None) (hset : s.settled) (hp : s.msg_present = true) : msg_is_silent s.msg = true := by
  have hres := hset hp
  unfold TraceDecoder.event at h
  split at h
  · cases h
  rename_i herr
  split at h
  · cases h
  unfold msg_event at h
  split at h
  · split at h
    · split at h
      · cases h
      · split at h <;> cases h
    · split at h <;> cases h
  rename_i hb
  split at h
  · cases h
  rename_i hy
  split at h
  · cases h
  rename_i hstop
  simp only [msg_is_silent, herr, hb, hy, hstop, hres]
  rfl

theorem error_yields (h : msg_is_error t.msg = true) : t.yields = true := by
  simp [TraceDecoder.yields, TraceDecoder.ready, h]

theorem yields_tnt (hne : t.tnts_left ≠ 0) (h : t.has_tnt = true) : t.yields = true := by
  simp [TraceDecoder.yields, TraceDecoder.ready, hne, h]

theorem yields_retirable (hret : Retirable t) (h0 : t.tnts_left = 0) (hk : msg_is_silent t.msg = false) : t.yields = true := by
  simp [TraceDecoder.yields, TraceDecoder.ready, h0, hk, hret.res_hists]

theorem branch_not_silent {m : Msg} (h : msg_is_branch m = true) : msg_is_silent m = false := by
  simp [msg_is_silent, h]

/-- Where a message is buffered, `next_tnt` takes a TNT of those that are left, and pulls nothing. -/
theorem tnt_loop_present (h : Loop src env (retire_tnt src) k true t r u) (hp : t.msg_present = true) :
    t.tnts_left ≠ 0 ∧ (∃ b, TookTnt src t b u) ∨ t.tnts_left = 0 ∧ u = t := by
  have h' : Loop src env (retire_tnt src) 0 false t r u := h.stands asks_tnt hp
  cases h' with
  | found hd | failed hd | stop hd =>
    obtain ⟨-, -, ⟨h0, -, hu⟩ | ⟨hne, b, -, -, htook⟩⟩ := retire_tnt_cases hd
    · exact .inr ⟨h0, hu⟩
    · exact .inl ⟨hne, b, htook⟩

/-- What a function consumes is handed out. -/
theorem Consumable.yields (h : Consumable src t) (hat : AtEvent ev t) (ht : Tallied t) : t.yields = true := by
  obtain ⟨c, env, r, u, hc, hx, hlt⟩ := h
  -- a call that leaves the state consumes nothing
  have hstays : ∀ {x}, u = t → x := fun hu => absurd hlt (by rw [hu]; exact lt_irrefl _)
  have hsync : ∀ {x}, t.synced = false → x := fun h => absurd (h.symm.trans hat.synced) Bool.false_ne_true
  have hchecked : ∀ {env e} {kind : Msg → Bool}, Checked src env kind t (.error e) u → t.yields = true := by
    intro env e kind hc
    cases hc with
    | unsynced h => exact hsync h
    | fetch_failed _ _ _ hf => exact hstays (hf.of_present hat.present)
    | mismatch _ _ _ hf => exact hstays (hf.of_present hat.present)
  have hpassed : ∀ {env v} {kind : Msg → Bool}, Checked src env kind t (.ok v) v → v = t ∧ t.Exhausted ∧ kind t.msg = true := by
    intro env v kind hc
    cases hc with
    | passed _ _ _ hf _ hex hk =>
      cases hf.of_present hat.present
      exact ⟨rfl, hex, hk⟩
  cases c with
  | next_tnt =>
    obtain ⟨r, hr, -⟩ := Proc.map_eq_some.1 hx
    cases next_tnt_cases hr with
    | unsynced h => exact hsync h
    | failed _ _ _ hl | bit _ _ _ hl | waiting _ _ hl | mismatch _ _ hl =>
      obtain ⟨hne, htook⟩ | ⟨-, hu⟩ := tnt_loop_present hl hat.present
      · exact yields_tnt hne ((took_iff ht hne).1 (htook.imp fun b h => ⟨_, h⟩))
      · exact hstays hu
    | branch v _ hl _ hk hret =>
      obtain ⟨hne, htook⟩ | ⟨h0, rfl⟩ := tnt_loop_present hl hat.present
      · exact yields_tnt hne ((took_iff ht hne).1 (htook.imp fun b h => ⟨_, h⟩))
      · exact yields_retirable hret h0 (branch_not_silent (Bool.and_eq_true_iff.1 hk).1)
  | next_indirect =>
    obtain ⟨r, hr, -⟩ := Proc.map_eq_some.1 hx
    cases next_indirect_cases hr with
    | unsynced h => exact hsync h
    | fetch_failed _ _ _ hf => exact hstays (hf.of_present hat.present)
    | mismatch _ _ _ hf => exact hstays (hf.of_present hat.present)
    | ahead_failed _ _ _ _ _ _ hf _ hex hk hret | other _ _ _ _ _ _ _ hf _ hex hk hret | ownership _ _ _ _ _ _ hf _ hex hk hret =>
      cases hf.of_present hat.present
      exact yields_retirable hret hex.tnts (branch_not_silent (indir_is_branch hk))
  | next_sync =>
    obtain ⟨r, hr, -⟩ := Proc.map_eq_some.1 hx
    obtain ⟨e, -, hc⟩ | ⟨v, hc, hret, -⟩ := next_sync_cases hr
    · exact hchecked hc
    · obtain ⟨rfl, hex, hk⟩ := hpassed hc
      exact yields_retirable hret hex.tnts (by simp [msg_is_silent, (Bool.and_eq_true_iff.1 hk).1])
  | next_stop =>
    obtain ⟨r, hr, -⟩ := Proc.map_eq_some.1 hx
    obtain ⟨e, -, hc⟩ | ⟨v, hc, hret, -⟩ := next_stop_cases hr
    · exact hchecked hc
    · obtain ⟨rfl, hex, hk⟩ := hpassed hc
      exact yields_retirable hret hex.tnts (by simp [msg_is_silent, hk])
  | next_error =>
    obtain ⟨r, hr, -⟩ := Proc.map_eq_some.1 hx
    cases next_error_cases hr with
    | unsynced h => exact hsync h
    | fetch_failed _ _ _ hf => exact hstays (hf.of_present hat.present)
    | mismatch _ _ _ hf => exact hstays (hf.of_present hat.present)
    | passed _ v _ hf hk =>
      cases hf.of_present hat.present
      exact error_yields (by simp [msg_is_error, hk])
  | _ => cases hc

/-- An indirect branch is consumed, also where what is behind it is no message. -/
theorem AtIndirect.consumable (hlaw : src.Lawful I) (h : AtIndirect t) (hret : Retirable t) (hs : Metered I t) : Consumable src t := by
  rcases hn : src.next (t.msg_decoder, (env_of Msg.zero).msg2 1) with _ | ⟨e | n, d, m⟩
  · exact absurd hn (hlaw.returns _ hs.inv)
  · have hmsg2 : next_msg2 src ((env_of Msg.zero).msg2 1) (t.addressed.retired src) =
        some (.error e, { t.addressed.retired src with msg_decoder := d }) := by
      rw [next_msg2_apply, retired_msg_decoder, addressed_msg_decoder, hn]
      rfl
    have hrun : trace_next_indirect src (env_of Msg.zero) t = _ := h.reads (env_of Msg.zero) hret
    rw [Proc.bind_error hmsg2] at hrun
    exact ⟨.next_indirect, env_of Msg.zero, _, _, rfl, Proc.map_eq_some.2 ⟨_, hrun, rfl⟩, indirect_amount hret (hlaw.next hs.inv hn).2.2.1⟩
  · obtain ⟨d', hd', -⟩ := hlaw.rewind hs.inv hn
    obtain ⟨i, u, hu, -⟩ := h.next hret ⟨n, d, m, hn, fun _ => by rw [hd']; rfl⟩
    exact ⟨.next_indirect, env_of Msg.zero, _, u, rfl, Proc.map_eq_some.2 ⟨_, hu, rfl⟩, next_indirect_consumes hlaw hu hs⟩

/-- What is handed out is consumed by the function of its kind. -/
theorem Stopped.consumable (hlaw : src.Lawful I) (h : Stopped ev t) (hs : Metered I t) (hy : t.yields = true) : Consumable src t := by
  have hat := h.at_event
  have hp := hat.present
  obtain ⟨hready, hkind⟩ := Bool.and_eq_true_iff.1 hy
  by_cases herr : msg_is_error t.msg = true
  · have hrun : ∃ e u, trace_next_error src (env_of Msg.zero) t = some (.ok e, u) :=
      next_error_retires hat.synced hp (by simpa [msg_is_error] using herr)
    obtain ⟨e, u, hu⟩ := hrun
    exact ⟨.next_error, env_of Msg.zero, _, u, rfl, Proc.map_eq_some.2 ⟨_, hu, rfl⟩, next_error_consumes hlaw hu hs⟩
  have hev : ev ≠ .Error := by
    rw [← hat.event, TraceDecoder.event, if_neg herr]
    split
    · simp
    · exact msg_event_ne_error _
  have hicnt : t.icnt_left = 0 := by rw [TraceDecoder.icnt_left, hat.icnt, Nat.sub_self]
  by_cases hne : t.tnts_left ≠ 0
  · have htnt : t.has_tnt = true := by simpa [TraceDecoder.ready, herr, hne] using hready
    have hrun : ∃ b u, trace_next_tnt src (env_of Msg.zero) t = some (.ok b, u) := (next_tnt_left h hev hne).2 htnt
    obtain ⟨b, u, hu⟩ := hrun
    exact ⟨.next_tnt, env_of Msg.zero, _, u, rfl, Proc.map_eq_some.2 ⟨_, hu, rfl⟩, next_tnt_consumes hlaw hu hs hp hat.settled hicnt⟩
  have h0 : t.tnts_left = 0 := Decidable.of_not_not hne
  have hex := hat.exhausted hev h0
  have hret : Retirable t := by
    rw [retirable_iff hp hat.settled h.booked h.tallied h.lone hat.icnt hex.tnts_le h0]
    simpa [TraceDecoder.ready, herr, h0] using hready
  have hsilent : msg_is_silent t.msg = false := by simpa [herr, h0] using hkind
  have hres := hat.settled hp
  by_cases hb : msg_is_branch t.msg = true
  · by_cases hi : msg_is_indir_branch t.msg = true
    · have hindir : AtIndirect t := ⟨hat.synced, hp, hat.settled, hex, hi⟩
      exact hindir.consumable hlaw hret hs
    · have hdir : msg_is_dir_branch t.msg = true := by simp [msg_is_dir_branch, hb, hi]
      have hrun : ∃ b u, trace_next_tnt src (env_of Msg.zero) t = some (.ok b, u) :=
        (next_tnt_branch hat.synced hp hat.settled hex hdir).2 hret
      obtain ⟨b, u, hu⟩ := hrun
      exact ⟨.next_tnt, env_of Msg.zero, _, u, rfl, Proc.map_eq_some.2 ⟨_, hu, rfl⟩, next_tnt_consumes hlaw hu hs hp hat.settled hicnt⟩
  by_cases hsync : msg_is_sync t.msg = true
  · have hplain : msg_is_plain_sync t.msg = true := by simp [msg_is_plain_sync, hb, hsync]
    have hrun : ∃ y u, trace_next_sync src (env_of Msg.zero) t = some (.ok y, u) :=
      (next_sync_retires hat.synced hp hat.settled hex hplain).2 hret
    obtain ⟨y, u, hu⟩ := hrun
    exact ⟨.next_sync, env_of Msg.zero, _, u, rfl, Proc.map_eq_some.2 ⟨_, hu, rfl⟩, next_sync_consumes hlaw hu hs⟩
  · have hstop : msg_is_stop t.msg = true := by simpa [msg_is_silent, herr, hb, hsync, hres] using hsilent
    have hrun : ∃ y u, trace_next_stop src (env_of Msg.zero) t = some (.ok y, u) :=
      (next_stop_retires hat.synced hp hat.settled hex hstop).2 hret
    obtain ⟨y, u, hu⟩ := hrun
    exact ⟨.next_stop, env_of Msg.zero, _, u, rfl, Proc.map_eq_some.2 ⟨_, hu, rfl⟩, next_stop_consumes hlaw hu hs⟩

/-- Taking I-CNT leaves what is handed out. -/
theorem yields_take (m : Nat) (s : TraceDecoder σ) : (s.take_icnt m).yields = s.yields := by
  unfold TraceDecoder.take_icnt
  split <;> rfl

end Progress

/-- The law of progress, for one call: what is retired is at most what is asked for, and where it is less, an event is reported, and some
function consumes something of what is buffered. -/
def Progresses (env : Env) (icnt : Nat) (s : TraceDecoder MsgDecoder) : Prop :=
  ∀ r e t, trace_try_retire msg_source env icnt s = some (.ok (r, e), t) →
    r ≤ min icnt INT32_MAX ∧ (r < min icnt INT32_MAX → e ≠ .None ∧ Consumable msg_source t)

/-- The law holds exactly where the message that is arrived at with fewer instructions than asked for has something to hand out. -/
theorem try_retire_progress {s : TraceDecoder MsgDecoder} (hs : Reachable s) (hsync : s.synced = true) (env : Env) (icnt : Nat) :
    Progresses env icnt s ↔
      ∀ u, s.settled → Comes msg_source env 0 s u → u.icnt_left < min icnt INT32_MAX → u.Accounted → u.yields = true := by
  have hlim := retire_limit_eq icnt
  have hconsumable : ∀ {r e t}, e ≠ .None → trace_try_retire msg_source env icnt s = some (.ok (r, e), t) →
      (Consumable msg_source t ↔ t.yields = true) := by
    intro r e t he h
    have hexec : exec msg_source env (.try_retire icnt) s = some (.ok (.retired r e), t) := Proc.map_eq_some.2 ⟨_, h, rfl⟩
    have ht : Reachable t := hs.play (play_one hexec)
    have hat := try_retire_event he h
    exact ⟨fun hc => hc.yields hat ht.tallied.1, Stopped.consumable msg_source_lawful ⟨hat, ht.booked, ht.tallied.1, ht.tallied.2⟩
      ⟨ht.inv, ht.booked, ht.tallied.1⟩⟩
  constructor
  · intro hprog u hset hcomes hlt hacc
    obtain ⟨hrun, hsetu, hp, -⟩ := hcomes.spec hset hsync hs.booked
    have hbu : Booked u := hrun.keeps (fun _ _ _ => Micro.booked) hs.booked
    have hloop : Loop msg_source env (retire_icnt (retire_limit icnt)) 0 true s (.ok none) u :=
      hcomes.retires hset hsync hs.booked (by rw [hlim]; exact hlt.le)
    have hown : u.consumed_icnt ≤ u.icnt_total := by
      have := hbu.own
      rw [hbu.total hsetu]
      omega
    have htry : trace_try_retire msg_source env icnt s = some (.ok (u.icnt_left, u.event), u.take_icnt u.icnt_left) :=
      try_retire_of msg_source_lawful hs.inv (.event u hsync hloop hp hsetu hown hbu.one hacc.le hacc.own)
    obtain ⟨hne, hcons⟩ := (hprog _ _ _ htry).2 hlt
    have hyields := (hconsumable hne htry).1 hcons
    rw [yields_take] at hyields
    exact hyields
  · intro hyields r e t h
    have hcases := try_retire_cases h
    generalize hr : (Except.ok (r, e) : Except NexusError (Nat × TraceEvent)) = x at hcases
    cases hcases with
    | unsynced => cases hr
    | failed => cases hr
    | early n _ _ hloop =>
      cases hr
      obtain ⟨u, -, -, hd⟩ := hloop.micros_found (c := .try_retire icnt) (asks_icnt _) rfl hsync
      obtain ⟨-, -, ⟨-, hr, -⟩ | ⟨-, -, -, hr, -⟩⟩ := retire_icnt_cases hd
      · cases hr
      · cases hr
        rw [hlim]
        exact ⟨Nat.le_refl _, fun h => absurd h (Nat.lt_irrefl _)⟩
    | event u _ hloop hp hset hle hone htnt hown =>
      cases hr
      have hcomes : Comes msg_source env 0 s u := hloop.comes rfl rfl
      have hsets : s.settled := hloop.settled
      obtain ⟨-, -, hd⟩ := hloop.micros_stop (c := .try_retire icnt) (asks_icnt _) rfl hsync
      obtain ⟨-, -, ⟨hfew, -⟩ | ⟨-, -, -, hr, -⟩⟩ := retire_icnt_cases hd
      · rw [hlim] at hfew
        refine ⟨hfew, fun hlt => ?_⟩
        have hy : u.yields = true := hyields u hsets hcomes hlt ⟨htnt, hown⟩
        have hne : u.event ≠ .None := by
          intro hnone
          have hsilent := event_none hnone hset hp
          obtain ⟨-, hkind⟩ := Bool.and_eq_true_iff.1 hy
          rw [TraceDecoder.event] at hnone
          split at hnone
          · cases hnone
          rename_i herr
          split at hnone
          · cases hnone
          rename_i h0
          simp [herr, h0, hsilent] at hkind
        refine ⟨hne, (hconsumable hne h).2 ?_⟩
        rw [yields_take]
        exact hy
      · cases hr

/-- Three instructions are left of a DirectBranch. -/
theorem try_retire_progress_three : ∃ s : TraceDecoder MsgDecoder, Reachable s ∧ (Progresses (env_of Msg.zero) 6 s ↔
    ∀ u, s.settled → Comes msg_source (env_of Msg.zero) 0 s u → u.icnt_left < min 6 INT32_MAX → u.Accounted → u.yields = true) := by
  have hrun : (play msg_source [(env_of Msg.zero, .sync_reset), (env_of Msg.zero, .try_retire 2)] slicing_start).map
      (fun r => (r.1, r.2.synced)) = some ([.ok (.reset (some ⟨2, 0⟩)), .ok (.retired 2 .None)], true) := by decide +kernel
  obtain ⟨s, hplay, hsync⟩ := play_shown (·.synced) hrun
  have hs : Reachable s := fresh_reachable rfl hplay
  exact ⟨s, hs, try_retire_progress hs hsync _ 6⟩

/-- A stand-alone Ownership message stays in front of the decoder without an event. -/
theorem try_retire_silent : ¬ ∀ (s : TraceDecoder MsgDecoder) (env : Env) (icnt : Nat), Reachable s → s.synced = true → Progresses env icnt s := by
  intro hall
  have hrun : ((play msg_source [(env_of Msg.zero, .sync_reset)] (fresh_decoder plain_cfg [0x24, 0x01, 0x07, 0x08, 0x8c, 0x0b])).bind fun p =>
      (play msg_source [(env_of Msg.zero, .try_retire 1)] p.2).map fun q => (p.1, p.2.synced, q.1, ())) =
      some ([.ok (.reset (some ⟨2, 0⟩))], true, [.ok (.retired 0 .None)], ()) := by decide +kernel
  obtain ⟨s, t, hs, h, hsync, -⟩ := exec_shown (·.synced) (fun _ => ()) hrun
  exact ((hall s _ 1 (fresh_reachable rfl hs) hsync 0 .None t (try_retire_of_exec h)).2 (by decide)).1 rfl

end nexusrv
