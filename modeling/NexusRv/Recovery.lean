import NexusRv.LookAhead
import NexusRv.Unsupported
/-!
# Getting past an unsupported message

A message that `trace_fetch_msg` refuses is put back: the caller reads it himself, and calls
the trace decoder again. A ResourceFull message that `trace_pull_msg` refuses has passed that
check and stays buffered.
-/

namespace nexusrv

/-! ## The rest of a call -/

section Rest
variable {σ α : Type} (src : Source σ)

/-- `trace_try_retire` behind its loop. -/
def try_retire_end : Option Nat → Trace σ (Nat × TraceEvent)
  | some icnt => pure (icnt, .None)
  | none => do
    let s ← Proc.get
    Proc.assert s.msg_present
    let icnt ← trace_available_icnt
    trace_consume_icnt icnt
    if msg_is_error s.msg then pure (icnt, .Error)
    else do
      let tnts ← trace_available_tnts
      if tnts ≠ 0 then pure (icnt, .Direct)
      else do
        Proc.assert (!msg_has_hist s.msg || s.consumed_tnts = msg_hist_bits s.msg.hist)
        pure (icnt, msg_event s.msg)

/-- `trace_next_tnt` behind its loop. -/
def next_tnt_end : Option Bool → Trace σ Bool
  | some tnt => pure tnt
  | none => do
    let s ← Proc.get
    Proc.assert s.msg_present
    let icnt ← trace_available_icnt
    if icnt ≠ 0 then pure false
    else if !msg_is_branch s.msg || msg_is_indir_branch s.msg then Proc.fail .trace_mismatch
    else do
      trace_retire_msg src
      pure true

/-- `trace_sync_reset` behind its loop. -/
def sync_reset_end (env : Env) : Trace σ (Option TraceSync) := do
  Proc.modify TraceDecoder.resynced
  let sync ← trace_next_sync src env
  pure (some sync)

/-- The call `c` from where it fetches a message on, behind `k` others. -/
def Call.rest (env : Env) (k fuel : Nat) : Call → Trace σ Result
  | .sync_reset => Result.reset <$> (sync_forward src env (fuel + 1) k >>= fun _ => sync_reset_end src env)
  | .try_retire icnt => (fun r => .retired r.1 r.2) <$> (trace_pull_msg src env k >>= fun rc =>
      pull_until src env (retire_icnt (retire_limit icnt)) fuel (k + 1) rc >>= try_retire_end)
  | .next_tnt => Result.tnt <$> (trace_pull_msg src env k >>= fun rc =>
      pull_until src env (retire_tnt src) fuel (k + 1) rc >>= next_tnt_end src)
  | c => exec src env c

/-- The next message behind `d` that is no ResourceFull message which `trace_pull_msg` takes over. `mem` is what the message
that is written holds. -/
def next_other : Nat → σ → Msg → Option Msg
  | 0, _, _ => none
  | fuel + 1, d, mem =>
    match src.next (d, mem) with
    | some (.ok (_ + 1), d, m) =>
      if trace_check_msg m && msg_is_res m && (res_element (src.hw_cfg d).quirk_sifive m).isSome then next_other fuel d m else some m
    | _ => none

variable {src} {env : Env} {s u : TraceDecoder σ}

theorem try_retire_loop (hsync : s.synced = true) (icnt : Nat) : trace_try_retire src env icnt s =
    (pull_until src env (retire_icnt (retire_limit icnt)) (src.left s.msg_decoder + 2) 0 true >>= try_retire_end) s := by
  rw [trace_try_retire, Proc.get_bind_apply, Proc.ite_apply, if_neg (by simp [hsync])]
  rfl

theorem next_tnt_loop (hsync : s.synced = true) : trace_next_tnt src env s =
    (pull_until src env (retire_tnt src) (src.left s.msg_decoder + 2) 0 true >>= next_tnt_end src) s := by
  rw [trace_next_tnt, Proc.get_bind_apply, Proc.ite_apply, if_neg (by simp [hsync])]
  rfl

theorem sync_reset_loop (hsync : s.synced = false) : trace_sync_reset src env s =
    (sync_forward src env (src.left s.msg_decoder + 2) 0 >>= fun _ => sync_reset_end src env) s := by
  rw [trace_sync_reset, Proc.get_bind_apply, Proc.ite_apply, if_neg (by simp [hsync])]
  rfl

/-- With nothing to find, the loop pulls a message. -/
theorem pull_until_asks {done : Trace σ (Option α)} (hd : done u = some (.ok none, u)) (fuel k : Nat) :
    pull_until src env done (fuel + 1) k true u = (trace_pull_msg src env k >>= pull_until src env done fuel (k + 1)) u := by
  rw [pull_until, Proc.bind_ok hd]
  rfl

end Rest

/-! ## Where a call is refused -/

section Refused
variable {σ α : Type} {src : Source σ} {I : σ → Prop} {env : Env} {s t u : TraceDecoder σ}

/-- In `u` the message `m` comes next, and the decoder does not take it: the call puts it back, or leaves it in the buffer. -/
inductive RefusedAt (src : Source σ) (u t : TraceDecoder σ) (d : σ) (m : Msg) : Prop where
  | back : trace_check_msg m = false → src.rewind_last d = some t.msg_decoder → t = { u with msg_decoder := t.msg_decoder, msg := m } →
      RefusedAt src u t d m
  | held : trace_check_msg m = true → msg_is_res m = true → res_element (src.hw_cfg d).quirk_sifive m = none → t.msg_present = true →
      RefusedAt src u t d m

/-- A ResourceFull message that is fetched passes the check. -/
theorem Fetched.checked_res {msg2 : Msg} {b : Bool} (h : Fetched src msg2 u (.ok b) t) (hp : u.msg_present = false) (hres : msg_is_res t.msg = true) :
    ∃ n, src.next (u.msg_decoder, u.msg) = some (.ok (n + 1), t.msg_decoder, t.msg) ∧ trace_check_msg t.msg = true := by
  obtain ⟨n, d, m, hn, h0, hd, hm⟩ := h.next_res hp hres
  obtain ⟨hp', -⟩ | ⟨-, n', d', m', -, hn', -, hc, -⟩ := h.buffered h.filled
  · rw [hp] at hp'
    cases hp'
  · rw [hn] at hn'
    cases hn'
    obtain ⟨k, rfl⟩ := Nat.exists_eq_succ_of_ne_zero h0
    rw [hd, hm]
    exact ⟨k, hn, hc⟩

section Lawful
variable (hlaw : src.Lawful I)
include hlaw

/-- The loop pulls messages up to the one that is refused. -/
theorem Loop.refused_at {c : Call} (hc : c.pulls = true) {done : Trace σ (Option α)} (hasks : Asks done) {k : Nat} {rc : Bool}
    {r : Except NexusError (Option α)} (h : Loop src env done k rc s r t) : I s.msg_decoder → s.synced = true → rc = true →
    r = .error .msg_unsupported → ∃ u k', I u.msg_decoder ∧ Micros src c s [] u ∧ u.synced = true ∧ done u = some (.ok none, u) ∧
      Pulled src env k' u (.error .msg_unsupported) t ∧
      (∀ f, src.left s.msg_decoder + 2 ≤ f → ∃ f', pull_until src env done f k true s =
        (trace_pull_msg src env k' >>= pull_until src env done f' (k' + 1)) u) ∧
      ∀ f, src.left s.msg_decoder + 1 ≤ f → ∃ f', next_other src f s.msg_decoder s.msg = next_other src (f' + 1) u.msg_decoder u.msg := by
  -- the loop goes on only behind a message that was pulled
  have hstop : ∀ {k s r t}, Loop src env done k false s r t → r ≠ .error .msg_unsupported := by
    intro k s r t h he
    cases h with
    | found => cases he
    | failed hd => obtain ⟨hr, -⟩ | ⟨a, hr⟩ := hasks _ _ _ hd <;> cases hr
    | stop => cases he
  induction h with
  | found => intro _ _ _ he; cases he
  | failed hd => obtain ⟨hr, -⟩ | ⟨a, hr⟩ := hasks _ _ _ hd <;> cases hr
  | stop => intro _ _ hrc; cases hrc
  | @pull_failed k s s₁ t e hd hpull =>
    intro hI hsync _ he
    cases he
    obtain ⟨-, rfl, hset⟩ | ⟨a, ha⟩ := hasks _ _ _ hd
    · refine ⟨_, k, hI, .refl, hsync, hd, pull_cases hpull, fun f hf => ?_, fun f hf => ?_⟩
      · obtain ⟨f', rfl⟩ : ∃ f', f = f' + 1 := ⟨f - 1, by omega⟩
        exact ⟨f', pull_until_asks hd f' k⟩
      · exact ⟨f - 1, by rw [Nat.sub_add_cancel (by omega)]⟩
    · cases ha
  | @pull k s s₁ v t rc r hd hpull hrest ih =>
    intro hI hsync _ he
    obtain ⟨-, rfl, hset⟩ | ⟨a, ha⟩ := hasks _ _ _ hd
    · have hp := pull_cases hpull
      cases rc with
      | false => exact absurd he (hstop hrest)
      | true =>
        obtain ⟨hIv, -, hlt⟩ := hp.left hlaw hI hset
        have hlt := hlt rfl
        obtain ⟨u, k', hIu, hm, hu, hdone, hpu, hloop, hother⟩ := ih hIv (hp.synced.trans hsync) rfl he
        refine ⟨u, k', hIu, (hp.micros hsync hset hc).trans hm, hu, hdone, hpu, fun f hf => ?_, fun f hf => ?_⟩
        · obtain ⟨f', rfl⟩ : ∃ f', f = f' + 1 := ⟨f - 1, by omega⟩
          obtain ⟨f'', hf''⟩ := hloop f' (by omega)
          refine ⟨f'', ?_⟩
          rw [pull_until_asks hd, Proc.bind_ok hpull, hf'']
        · obtain ⟨f', rfl⟩ : ∃ f', f = f' + 1 := ⟨f - 1, by omega⟩
          cases hp with
          | taken b w e hf' hres hel =>
            have hsp : s₁.msg_present = false := by
              refine Bool.eq_false_of_not_eq_true fun hp => ?_
              rw [hf'.of_present hp, hset hp] at hres
              cases hres
            obtain ⟨n, hn, hcheck⟩ := hf'.checked_res hsp hres
            have hel : res_element (src.hw_cfg w.msg_decoder).quirk_sifive w.msg = some e := hel
            obtain ⟨f'', hf''⟩ := hother f' (by change src.left w.msg_decoder < _ at hlt; change src.left w.msg_decoder + 1 ≤ _; omega)
            refine ⟨f'', ?_⟩
            rw [← hf'', next_other, hn]
            simp only [hcheck, hres, hel, Bool.and_self, Option.isSome_some, if_true]
            rfl
    · cases ha

/-- The loop of `sync_reset` skips messages up to the one that is refused. -/
theorem Forwards.refused_at {k : Nat} {r : Except NexusError Unit} (h : Forwards src env k s r t) : I s.msg_decoder → s.synced = false →
    r = .error .msg_unsupported → ∃ u k', I u.msg_decoder ∧ Micros src .sync_reset s [] u ∧ u.synced = false ∧
      Fetched src (env.msg2 k') u (.error .msg_unsupported) t ∧
      ∀ f, src.left s.msg_decoder + 1 + (if s.msg_present then 1 else 0) ≤ f →
        ∃ f', sync_forward src env f k s = sync_forward src env (f' + 1) k' u := by
  induction h with
  | @failed k s e t hf =>
    intro hI hsync he
    cases he
    exact ⟨s, k, hI, .refl, hsync, hf, fun f hf => ⟨f - 1, by rw [Nat.sub_add_cancel (by omega)]⟩⟩
  | found => intro _ _ he; cases he
  | @skip k s b v r t hf hk _ ih =>
    intro hI hsync he
    have hv := hf.synced.trans hsync
    obtain ⟨hIv, -, hle, hlt⟩ := hf.left hlaw hI
    obtain ⟨u, k', hIu, hm, hu, hfu, hloop⟩ := ih hIv hv he
    have hmicros : Micros src .sync_reset s [] { v with msg_present := false } := (Micros.single (.fetch hf)).then (.drop rfl hv hf.filled hk)
    refine ⟨u, k', hIu, hmicros.trans hm, hu, hfu, fun f hfuel => ?_⟩
    obtain ⟨f', rfl⟩ : ∃ f', f = f' + 1 := ⟨f - 1, by omega⟩
    have henough : src.left v.msg_decoder + 1 ≤ f' := by
      cases hf with
      | present hp =>
        rw [if_pos hp] at hfuel
        omega
      | _ =>
        have := hlt rfl
        omega
    obtain ⟨f'', hf''⟩ := hloop f' henough
    refine ⟨f'', ?_⟩
    rw [sync_forward, Proc.bind_ok (fetch_of hf), Proc.get_bind_apply, Proc.ite_apply, if_neg (by simp [hk]), Proc.modify_bind_apply, hf'']

variable (hsup : src.Supports I)
include hsup

theorem Fetched.refused_at {msg2 : Msg} (h : Fetched src msg2 u (.error .msg_unsupported) t) (hI : I u.msg_decoder) :
    u.msg_present = false ∧ ∃ n d m, src.next (u.msg_decoder, u.msg) = some (.ok (n + 1), d, m) ∧ trace_check_msg m = false ∧
      RefusedAt src u t d m := by
  cases h with
  | failed e d m _ hn => exact absurd rfl (hsup hI hn)
  | unsupported n d d' m hp hn h0 hc hback =>
    obtain ⟨k, rfl⟩ := Nat.exists_eq_succ_of_ne_zero h0
    exact ⟨hp, k, d, m, hn, hc, .back hc hback rfl⟩
  | ahead_failed n d m e d₂ m₂ _ hn _ _ _ hn₂ => exact absurd rfl (hsup (hlaw.next hI hn).1 hn₂)

theorem Pulled.refused_at {k : Nat} (h : Pulled src env k u (.error .msg_unsupported) t) (hI : I u.msg_decoder) (hset : u.settled) :
    u.msg_present = false ∧ ∃ n d m, src.next (u.msg_decoder, u.msg) = some (.ok (n + 1), d, m) ∧ RefusedAt src u t d m := by
  cases h with
  | failed e _ hf =>
    obtain ⟨hp, n, d, m, hn, -, href⟩ := hf.refused_at hlaw hsup hI
    exact ⟨hp, n, d, m, hn, href⟩
  | unsupported b _ hf hres hel =>
    cases hp : u.msg_present with
    | true =>
      rw [hf.of_present hp, hset hp] at hres
      cases hres
    | false =>
      obtain ⟨n, hn, hc⟩ := hf.checked_res hp hres
      exact ⟨rfl, n, _, _, hn, .held hc hres hel hf.filled⟩

end Lawful

/-! ## Where a call goes on -/

/-- In this state the call `c` has nothing to do before it fetches a message. -/
def Call.waits (src : Source σ) (c : Call) (u : TraceDecoder σ) : Prop :=
  match c with
  | .try_retire icnt => u.synced = true ∧ retire_icnt (retire_limit icnt) u = some (.ok none, u)
  | .next_tnt => u.synced = true ∧ retire_tnt src u = some (.ok none, u)
  | .sync_reset => u.synced = false
  | _ => True

theorem Call.waits_rest {c : Call} (h : c.waits src u) : exec src env c u = c.rest src env 0 (src.left u.msg_decoder + 1) u := by
  cases c with
  | sync_reset => exact Proc.map_of_eq (sync_reset_loop h) _
  | try_retire icnt =>
    obtain ⟨hsync, hd⟩ := h
    apply Proc.map_of_eq
    rw [try_retire_loop hsync, Proc.bind_of_eq (pull_until_asks hd _ 0), Proc.bind_assoc_apply]
  | next_tnt =>
    obtain ⟨hsync, hd⟩ := h
    apply Proc.map_of_eq
    rw [next_tnt_loop hsync, Proc.bind_of_eq (pull_until_asks hd _ 0), Proc.bind_assoc_apply]
  | _ => rfl

/-- What the buffer holds does not matter while no message is there. -/
theorem Call.waits_behind {c : Call} (h : c.waits src u) (hp : u.msg_present = false) (d : σ) (m : Msg) :
    c.waits src { u with msg_decoder := d, msg := m } := by
  have hset : ({ u with msg_decoder := d, msg := m } : TraceDecoder σ).settled := fun h => by
    rw [show u.msg_present = true from h] at hp
    cases hp
  have hicnt : ({ u with msg_decoder := d, msg := m } : TraceDecoder σ).icnt_total = u.icnt_total := by simp [TraceDecoder.icnt_total, hp]
  have htnts : ({ u with msg_decoder := d, msg := m } : TraceDecoder σ).tnt_total = u.tnt_total := by simp [TraceDecoder.tnt_total, hp]
  cases c with
  | try_retire icnt =>
    obtain ⟨hsync, hd⟩ := h
    obtain ⟨-, hle, ⟨hfew, -⟩ | ⟨-, -, -, hr, -⟩⟩ := retire_icnt_cases hd
    · refine ⟨hsync, retire_icnt_few hset ?_ ?_⟩
      · rw [hicnt]
        exact hle
      · rw [TraceDecoder.icnt_left, hicnt]
        exact hfew
    · cases hr
  | next_tnt =>
    obtain ⟨hsync, hd⟩ := h
    obtain ⟨-, hle, ⟨h0, -⟩ | ⟨-, b, hr, -⟩⟩ := retire_tnt_cases hd
    · refine ⟨hsync, retire_tnt_none hset ?_ ?_⟩
      · rw [htnts]
        exact hle
      · rw [TraceDecoder.tnts_left, htnts]
        exact h0
    · cases hr
  | sync_reset => exact h
  | _ => trivial

/-- A call that is refused has come to `u`, where `m` is the next message. -/
structure Meets (src : Source σ) (env : Env) (c : Call) (s t u : TraceDecoder σ) (n : Nat) (d : σ) (m : Msg) : Prop where
  run : Micros src c s [] u
  rest : ∃ k fuel, exec src env c s = c.rest src env k fuel u
  waits : c.waits src u
  empty : u.msg_present = false
  read : src.next (u.msg_decoder, u.msg) = some (.ok (n + 1), d, m)
  refused : RefusedAt src u t d m
  checked : c.pulls = false → trace_check_msg m = false
  ahead : c.pulls = true → next_other src (src.left s.msg_decoder + 1) s.msg_decoder s.msg = some m

/-- A message that is not taken ends the search. -/
theorem RefusedAt.next_other {n : Nat} {d : σ} {m : Msg} (h : RefusedAt src u t d m)
    (hn : src.next (u.msg_decoder, u.msg) = some (.ok (n + 1), d, m)) (fuel : Nat) : next_other src (fuel + 1) u.msg_decoder u.msg = some m := by
  rw [nexusrv.next_other, hn]
  cases h with
  | back hcheck => simp [hcheck]
  | held _ _ hel => simp [hel]

section Calls
variable (hlaw : src.Lawful I) (hsup : src.Supports I) (hI : I s.msg_decoder)
include hlaw hsup hI

/-- A function with one fetch. -/
theorem Fetched.meets {msg2 : Msg} {c : Call} (h : Fetched src msg2 s (.error .msg_unsupported) t) (hc : c.pulls = false) (hw : c.waits src s)
    (hrest : exec src env c s = c.rest src env 0 0 s) : ∃ u n d m, I u.msg_decoder ∧ Meets src env c s t u n d m := by
  obtain ⟨hp, n, d, m, hn, hcheck, href⟩ := h.refused_at hlaw hsup hI
  exact ⟨s, n, d, m, hI, .refl, ⟨0, 0, hrest⟩, hw, hp, hn, href, fun _ => hcheck, fun h => by rw [h] at hc; cases hc⟩

/-- A function with a loop of pulls. -/
theorem Loop.meets {c : Call} (hc : c.pulls = true) {done : Trace σ (Option α)} (hasks : Asks done)
    (h : Loop src env done 0 true s (.error .msg_unsupported) t) (hsync : s.synced = true)
    (hw : ∀ u : TraceDecoder σ, u.synced = true → done u = some (.ok none, u) → c.waits src u)
    (hrest : ∀ u k fuel, pull_until src env done (src.left s.msg_decoder + 2) 0 true s =
      (trace_pull_msg src env k >>= pull_until src env done fuel (k + 1)) u → exec src env c s = c.rest src env k fuel u) :
    ∃ u n d m, I u.msg_decoder ∧ Meets src env c s t u n d m := by
  obtain ⟨u, k, hIu, hm, hu, hd, hpull, hloop, hnext⟩ := h.refused_at hlaw hc hasks hI hsync rfl rfl
  have hset : u.settled := by
    obtain ⟨-, -, hset⟩ | ⟨a, ha⟩ := hasks _ _ _ hd
    · exact hset
    · cases ha
  obtain ⟨hp, n, d, m, hn, href⟩ := hpull.refused_at hlaw hsup hIu hset
  obtain ⟨f, hf⟩ := hloop _ (Nat.le_refl _)
  obtain ⟨f', hf'⟩ := hnext _ (Nat.le_refl _)
  refine ⟨u, n, d, m, hIu, hm, ⟨k, f, hrest u k f hf⟩, hw u hu hd, hp, hn, href, fun h => ?_, fun _ => ?_⟩
  · rw [hc] at h
    cases h
  · rw [hf', href.next_other hn]

theorem exec_meets {c : Call} (hc : c.reads = true) (h : exec src env c s = some (.error .msg_unsupported, t)) :
    ∃ u n d m, I u.msg_decoder ∧ Meets src env c s t u n d m := by
  have hmap : ∀ {β : Type} {f : β → Result} {x : Trace σ β}, (f <$> x) s = some (.error .msg_unsupported, t) →
      x s = some (.error .msg_unsupported, t) := by
    intro β f x h
    obtain ⟨r, hr, he⟩ := Proc.map_eq_some.1 h
    rcases r with e | b <;> cases he
    exact hr
  cases c with
  | sync_reset =>
    obtain ⟨hsync, hf⟩ := sync_reset_forwards (hmap h)
    obtain ⟨u, k, hIu, hm, hu, hfu, hloop⟩ := hf.refused_at hlaw hI hsync rfl
    obtain ⟨f, hf⟩ := hloop (src.left s.msg_decoder + 2) (by split <;> omega)
    obtain ⟨hp, n, d, m, hn, hcheck, href⟩ := hfu.refused_at hlaw hsup hIu
    refine ⟨u, n, d, m, hIu, hm, ⟨k, f, ?_⟩, hu, hp, hn, href, fun _ => hcheck, fun h => by cases h⟩
    apply Proc.map_of_eq
    rw [sync_reset_loop hsync, Proc.bind_of_eq hf]
  | try_retire icnt =>
    cases try_retire_cases (hmap h) with
    | failed e _ hsync hloop =>
      refine hloop.meets hlaw hsup hI rfl (asks_icnt _) hsync (fun _ hu hd => ⟨hu, hd⟩) fun u k f hf => ?_
      apply Proc.map_of_eq
      rw [try_retire_loop hsync, Proc.bind_of_eq hf, Proc.bind_assoc_apply]
  | next_tnt =>
    cases next_tnt_cases (hmap h) with
    | failed e _ hsync hloop =>
      refine hloop.meets hlaw hsup hI rfl asks_tnt hsync (fun _ hu hd => ⟨hu, hd⟩) fun u k f hf => ?_
      apply Proc.map_of_eq
      rw [next_tnt_loop hsync, Proc.bind_of_eq hf, Proc.bind_assoc_apply]
  | next_indirect =>
    cases next_indirect_cases (hmap h) with
    | fetch_failed e _ _ hf => exact hf.meets hlaw hsup hI rfl trivial rfl
    | ahead_failed b u e d m₂ _ hf _ _ _ _ hn => exact absurd rfl (hsup (hf.left hlaw hI).1 hn)
  | next_sync =>
    obtain ⟨e, he, hk⟩ | ⟨v, -, -, he, -⟩ := next_sync_cases (hmap h)
    · cases he
      cases hk with
      | fetch_failed e _ _ hf => exact hf.meets hlaw hsup hI rfl trivial rfl
    · cases he
  | next_stop =>
    obtain ⟨e, he, hk⟩ | ⟨v, -, -, he, -⟩ := next_stop_cases (hmap h)
    · cases he
      cases hk with
      | fetch_failed e _ _ hf => exact hf.meets hlaw hsup hI rfl trivial rfl
    · cases he
  | next_error =>
    cases next_error_cases (hmap h) with
    | fetch_failed e _ _ hf => exact hf.meets hlaw hsup hI rfl trivial rfl
  | _ => cases hc

end Calls

/-- With a ResourceFull message in the buffer, the retry of a call that pulls fails an assertion. -/
theorem held_fails {c : Call} (hc : c.pulls = true) (hsync : s.synced = true) (hp : s.msg_present = true) (hres : msg_is_res s.msg = true) :
    exec src env c s = none := by
  have hset : ¬ s.settled := fun h => by
    rw [h hp] at hres
    cases hres
  -- the loop fails where it starts
  have hstop : ∀ {α β : Type} {done : Trace σ (Option α)} (f : Option α → Trace σ β), (∀ r t, done s = some (r, t) → s.settled) →
      (pull_until src env done (src.left s.msg_decoder + 2) 0 true >>= f) s = none := by
    intro α β done f hd
    rcases h : done s with _ | ⟨r, t⟩
    · rw [pull_until, Proc.bind_assoc_apply, Proc.bind_none h]
    · exact absurd (hd r t h) hset
  cases c with
  | try_retire icnt =>
    rw [exec, Proc.map_apply, try_retire_loop hsync, hstop _ fun r t h => (retire_icnt_cases h).1]
    rfl
  | next_tnt =>
    rw [exec, Proc.map_apply, next_tnt_loop hsync, hstop _ fun r t h => (retire_tnt_cases h).1]
    rfl
  | _ => cases hc

end Refused

/-! ## Recovering -/

section Recovers
variable {σ : Type} (src : Source σ)

/-- The call `c`, made in `s`, has come to an unsupported message and stopped in front of it in `t`: the caller can read the
message, and the same call then goes on behind it. -/
inductive Recovers (env : Env) (c : Call) (s t : TraceDecoder σ) : Prop where
  /-- `u` is the state in which the message `m` of `n + 1` bytes was read; behind it the message decoder is `d` -/
  | intro (u : TraceDecoder σ) (k fuel n : Nat) (d : σ) (m : Msg)
    (run : Micros src c s [] u) (rest : exec src env c s = c.rest src env k fuel u)
    (empty : u.msg_present = false) (read : src.next (u.msg_decoder, u.msg) = some (.ok (n + 1), d, m))
    (unsupported : trace_check_msg m = false ∨ msg_is_res m = true ∧ res_element (src.hw_cfg d).quirk_sifive m = none)
    (kept : t = { u with msg_decoder := t.msg_decoder, msg := m })
    (front : src.left d + (n + 1) = src.left t.msg_decoder)
    (skip : ∀ env', ∃ m', exec src env' .skip t = some (.ok (.skipped (n + 1) m'), { t with msg_decoder := d }) ∧ m'.Same m)
    (retry : ∀ env', exec src env' c { t with msg_decoder := d } = c.rest src env' 0 (src.left d + 1) { t with msg_decoder := d }) :
    Recovers env c s t

/-- The next message that the loop of `c` does not take over fails the check, so that it is not buffered. -/
def PutsBack (c : Call) (s : TraceDecoder σ) : Prop :=
  c.pulls = true → ∀ m, next_other src (src.left s.msg_decoder + 1) s.msg_decoder s.msg = some m → trace_check_msg m = false

end Recovers

theorem check_idle {m : Msg} (h : trace_check_msg m = false) : m.tcode ≠ .Idle := by
  intro hidle
  simp [trace_check_msg, msg_known, msg_is_data_acq, msg_has_icnt, msg_has_hist, hidle] at h

/-- A call that is refused recovers, unless it has come to a ResourceFull message that it fetches and cannot take over. -/
theorem unsupported_recovers {env : Env} {c : Call} {s t : TraceDecoder MsgDecoder} (hs : Reachable s) (hc : c.reads = true)
    (h : exec msg_source env c s = some (.error .msg_unsupported, t)) : Recovers msg_source env c s t ↔ PutsBack msg_source c s := by
  obtain ⟨u, n, d, m, hI, hmeets⟩ := exec_meets msg_source_lawful msg_source_supports hs.inv hc h
  obtain ⟨k, fuel, hrest⟩ := hmeets.rest
  constructor
  · rintro ⟨v, k', fuel', n', d', m', run, rest, empty, read, unsupported, kept, front, skip, retry⟩ hpulls x hx
    rw [hmeets.ahead hpulls] at hx
    cases hx
    cases hmeets.refused with
    | back hcheck => exact hcheck
    | held _ _ _ hp =>
      -- what is kept has no message in the buffer
      rw [kept] at hp
      rw [show v.msg_present = true from hp] at empty
      cases empty
  · intro hputs
    have hcheck : trace_check_msg m = false := by
      cases hp : c.pulls with
      | false => exact hmeets.checked hp
      | true => exact hputs hp m (hmeets.ahead hp)
    cases hmeets.refused with
    | held hc' => rw [hcheck] at hc'; cases hc'
    | back _ hback hkept =>
      obtain ⟨hfront, hagain⟩ := next_put_back hI hmeets.read (.inr (check_idle hcheck)) hback
      refine ⟨u, k, fuel, n, d, m, hmeets.run, hrest, hmeets.empty, hmeets.read, .inl hcheck, hkept, hfront, fun env' => ?_, fun env' => ?_⟩
      · obtain ⟨b, hb, hsame⟩ := hagain (env'.msg2 0)
        refine ⟨b, ?_, hsame⟩
        rw [exec, Proc.map_apply, next_msg2_apply, show msg_source.next (t.msg_decoder, env'.msg2 0) = _ from hb]
        rfl
      · rw [hkept]
        exact Call.waits_rest (Call.waits_behind hmeets.waits hmeets.empty d m)

/-- A ProgTraceSync, a DataAcquisition and a DirectBranch message. -/
def data_start : TraceDecoder MsgDecoder := fresh_decoder plain_cfg [0x24, 0x01, 0x07, 0x1c, 0x05, 0x07, 0x0c, 0x17]

/-- A ProgTraceSync, a ResourceFull message with RCODE 8 and a DirectBranch message. -/
def held_start : TraceDecoder MsgDecoder := fresh_decoder plain_cfg [0x24, 0x01, 0x07, 0x6c, 0xe3, 0x0c, 0x17]

/-- The next message that is not taken over fails the check. -/
def fails_check (s : TraceDecoder MsgDecoder) : Bool :=
  (next_other msg_source (msg_source.left s.msg_decoder + 1) s.msg_decoder s.msg).all fun m => !trace_check_msg m

/-- `try_retire` at the DataAcquisition message. -/
theorem unsupported_recovers_acquired : ∃ s t : TraceDecoder MsgDecoder, Reachable s ∧
    exec msg_source (env_of Msg.zero) (.try_retire 8) s = some (.error .msg_unsupported, t) ∧
    Recovers msg_source (env_of Msg.zero) (.try_retire 8) s t := by
  have hrun : ((play msg_source [(env_of Msg.zero, .sync_reset)] data_start).bind fun p =>
      (play msg_source [(env_of Msg.zero, .try_retire 8)] p.2).map fun q => (p.1, fails_check p.2, q.1, q.2.msg_present)) =
      some ([.ok (.reset (some ⟨2, 0⟩))], true, [.error .msg_unsupported], false) := by decide +kernel
  obtain ⟨s, t, hplay, hexec, hchecked, -⟩ := exec_shown fails_check TraceDecoder.msg_present hrun
  have hs : Reachable s := fresh_reachable rfl hplay
  refine ⟨s, t, hs, hexec, (unsupported_recovers hs rfl hexec).2 fun _ m hm => ?_⟩
  rw [fails_check, hm] at hchecked
  simpa using hchecked

/-- The ResourceFull message stays buffered. -/
theorem unsupported_stays_buffered : ¬ ∀ (env : Env) (c : Call) (s t : TraceDecoder MsgDecoder), Reachable s → c.reads = true →
    exec msg_source env c s = some (.error .msg_unsupported, t) → Recovers msg_source env c s t := by
  intro hall
  have hrun : ((play msg_source [(env_of Msg.zero, .sync_reset)] held_start).bind fun p =>
      (play msg_source [(env_of Msg.zero, .try_retire 8)] p.2).map fun q => (p.1, p.2.synced, q.1, q.2.msg_present)) =
      some ([.ok (.reset (some ⟨2, 0⟩))], true, [.error .msg_unsupported], true) := by decide +kernel
  obtain ⟨s, t, hplay, hexec, -, hp⟩ := exec_shown TraceDecoder.synced TraceDecoder.msg_present hrun
  obtain ⟨u, k, fuel, n, d, m, -, -, hempty, -, -, hkept, -⟩ := hall _ _ s t (fresh_reachable rfl hplay) rfl hexec
  rw [hkept] at hp
  rw [hempty] at hp
  cases hp

end nexusrv
