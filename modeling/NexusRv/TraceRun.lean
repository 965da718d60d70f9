import NexusRv.TraceLaws
/-!
# Runs of the trace decoder

A run is a list of calls of `trace-decoder.h`, each in its own environment, from a
state on. Every call is taken apart into the steps that it makes, `Micro`: what
each step keeps, a run keeps.
-/

namespace nexusrv

/-- The calls of a user. `skip` is his own `nexusrv_msg_decoder_next`, with which he gets past
an unsupported message. -/
inductive Call where
  | sync_reset
  | try_retire (icnt : Nat)
  | next_tnt
  | next_indirect
  | next_sync
  | next_error
  | next_stop
  | push_call (callsite : UInt64)
  | pop_ret
  | add_timestamp (timestamp : UInt64)
  | skip

inductive Result where
  | reset (sync : Option TraceSync)
  | retired (icnt : Nat) (event : TraceEvent)
  | tnt (taken : Bool)
  | indirect (i : TraceIndirect)
  | sync (sync : TraceSync)
  | error (error : TraceError)
  | stop (stop : TraceStop)
  | done
  | callsite (callsite : UInt64)
  | skipped (len : Nat) (msg : Msg)
  deriving DecidableEq, Repr

section Runs
variable {σ α : Type} (src : Source σ)

def exec (env : Env) : Call → Trace σ Result
  | .sync_reset => Result.reset <$> trace_sync_reset src env
  | .try_retire icnt => (fun r => .retired r.1 r.2) <$> trace_try_retire src env icnt
  | .next_tnt => Result.tnt <$> trace_next_tnt src env
  | .next_indirect => Result.indirect <$> trace_next_indirect src env
  | .next_sync => Result.sync <$> trace_next_sync src env
  | .next_error => Result.error <$> trace_next_error src env
  | .next_stop => Result.stop <$> trace_next_stop src env
  | .push_call callsite => (fun _ => .done) <$> trace_push_call env callsite
  | .pop_ret => Result.callsite <$> trace_pop_ret
  | .add_timestamp timestamp => (fun _ => .done) <$> trace_add_timestamp src timestamp
  | .skip => (fun r => .skipped r.1 r.2) <$> next_msg2 src (env.msg2 0)

/-- The results of the calls and the state left; `none` when an assertion fails. -/
def play : List (Env × Call) → TraceDecoder σ → Option (List (Except NexusError Result) × TraceDecoder σ)
  | [], s => some ([], s)
  | (env, c) :: calls, s => do
    let (r, t) ← exec src env c s
    let (rs, u) ← play calls t
    pure (r :: rs, u)

variable {src}

theorem play_cons {env : Env} {c : Call} {calls : List (Env × Call)} {s u : TraceDecoder σ} {rs : List (Except NexusError Result)} :
    play src ((env, c) :: calls) s = some (rs, u) ↔
      ∃ r t rs', exec src env c s = some (r, t) ∧ play src calls t = some (rs', u) ∧ rs = r :: rs' := by
  simp only [play, Option.bind_eq_bind, Option.bind_eq_some_iff, Prod.exists, Option.pure_def, Option.some.injEq, Prod.mk.injEq]
  constructor
  · rintro ⟨r, t, h, rs', u', h', rfl, rfl⟩
    exact ⟨r, t, rs', h, h', rfl⟩
  · rintro ⟨r, t, rs', h, h', rfl⟩
    exact ⟨r, t, h, rs', u, h', rfl, rfl⟩

/-- The first call of a run. -/
theorem play_head {env : Env} {c : Call} {calls : List (Env × Call)} {s u : TraceDecoder σ} {r : Except NexusError Result}
    {rs : List (Except NexusError Result)} (h : play src ((env, c) :: calls) s = some (r :: rs, u)) :
    ∃ t, exec src env c s = some (r, t) ∧ play src calls t = some (rs, u) := by
  obtain ⟨r', t, rs', h₁, h₂, he⟩ := play_cons.1 h
  cases he
  exact ⟨t, h₁, h₂⟩

theorem play_one {env : Env} {c : Call} {s t : TraceDecoder σ} {r : Except NexusError Result} (h : exec src env c s = some (r, t)) :
    play src [(env, c)] s = some ([r], t) :=
  play_cons.2 ⟨r, t, [], h, rfl, rfl⟩

/-- A run behind a run. -/
theorem play_append {calls calls' : List (Env × Call)} : ∀ {s t u : TraceDecoder σ} {rs rs' : List (Except NexusError Result)},
    play src calls s = some (rs, t) → play src calls' t = some (rs', u) → play src (calls ++ calls') s = some (rs ++ rs', u) := by
  induction calls with
  | nil =>
    intro s t u rs rs' h h'
    cases h
    exact h'
  | cons c calls ih =>
    intro s t u rs rs' h h'
    obtain ⟨r, v, rs₁, hc, hrest, rfl⟩ := play_cons.1 h
    exact play_cons.2 ⟨r, v, rs₁ ++ rs', hc, ih hrest h', rfl⟩

/-- The last call of a run. -/
theorem play_last {calls : List (Env × Call)} {c : Env × Call} : ∀ {s u : TraceDecoder σ} {rs : List (Except NexusError Result)},
    play src (calls ++ [c]) s = some (rs, u) → ∃ rs' r t, rs = rs' ++ [r] ∧ exec src c.1 c.2 t = some (r, u) := by
  induction calls with
  | nil =>
    intro s u rs h
    obtain ⟨r, t, rs', hc, hnil, rfl⟩ := play_cons.1 h
    cases hnil
    exact ⟨[], r, s, rfl, hc⟩
  | cons c' calls ih =>
    intro s u rs h
    obtain ⟨r', v, rs₁, -, hrest, rfl⟩ := play_cons.1 h
    obtain ⟨rs', r, t, rfl, hc⟩ := ih hrest
    exact ⟨r' :: rs', r, t, rfl, hc⟩

/-- What every call keeps, every run keeps. -/
theorem play_keeps {P : TraceDecoder σ → Prop}
    (hstep : ∀ env c s r t, exec src env c s = some (r, t) → P s → P t) (calls : List (Env × Call)) :
    ∀ {s u : TraceDecoder σ} {rs : List (Except NexusError Result)}, play src calls s = some (rs, u) → P s → P u := by
  induction calls with
  | nil =>
    intro s u rs h hs
    cases h
    exact hs
  | cons c calls ih =>
    intro s u rs h hs
    obtain ⟨r, t, rs', hc, hrest, -⟩ := play_cons.1 h
    exact ih hrest (hstep c.1 c.2 s r t hc hs)

variable (src) in
/-- What holds of every call of a run, and of the states around it. -/
def along (cond : Call → TraceDecoder σ → TraceDecoder σ → Bool) : List (Env × Call) → TraceDecoder σ → Bool
  | [], _ => true
  | (env, c) :: calls, s =>
    match exec src env c s with
    | none => true
    | some (_, t) => cond c s t && along cond calls t

/-- What every call keeps that meets the condition, a run keeps whose calls meet it. -/
theorem play_along {P : TraceDecoder σ → Prop} {cond : Call → TraceDecoder σ → TraceDecoder σ → Bool}
    (hstep : ∀ env c s r t, exec src env c s = some (r, t) → cond c s t = true → P s → P t) (calls : List (Env × Call)) :
    ∀ {s u : TraceDecoder σ} {rs : List (Except NexusError Result)}, play src calls s = some (rs, u) → along src cond calls s = true →
      P s → P u := by
  induction calls with
  | nil =>
    intro s u rs h _ hs
    cases h
    exact hs
  | cons c calls ih =>
    intro s u rs h hcond hs
    obtain ⟨r, t, rs', hc, hrest, -⟩ := play_cons.1 h
    rw [along, hc] at hcond
    obtain ⟨h1, h2⟩ := Bool.and_eq_true_iff.1 hcond
    exact ih hrest h2 (hstep c.1 c.2 s r t hc h1 hs)

/-! ## The steps inside a call -/

/-- What a step hands to the caller. -/
inductive Out where
  | icnt (n : Nat)
  | tnt (b : Bool)

/-- `try_retire` and `next_tnt` pull ResourceFull messages. -/
def Call.pulls : Call → Bool
  | .try_retire _ => true
  | .next_tnt => true
  | _ => false

/-- A step inside the call `c`. -/
inductive Micro (src : Source σ) (c : Call) (s : TraceDecoder σ) : List Out → TraceDecoder σ → Prop where
  | fetch {t msg2 r} : Fetched src msg2 s r t → Micro src c s [] t
  /-- a ResourceFull message is fetched and absorbed -/
  | pull {t msg2 e} : c.pulls = true → s.synced = true → s.msg_present = false → Fetched src msg2 s (.ok true) t → msg_is_res t.msg = true →
      res_element (t.sifive src) t.msg = some e → t.res_hists.length < MSG_ICNT_MAX →
      (msg_has_icnt t.msg = true → t.grown ≤ UINT32_MAX - MSG_ICNT_MAX) → Micro src c s [] (t.absorbed e)
  /-- a ResourceFull message stays buffered where an overflow or the allocation fails -/
  | stuck : s.synced = true → s.msg_present = true → msg_is_res s.msg = true → Micro src c s [] { s with res_icnt := s.grown }
  | take {n} : s.synced = true → s.settled → s.consumed_icnt ≤ s.icnt_total → n ≤ s.icnt_left →
      (s.res_icnt = 0 ∨ s.consumed_icnt = 0) → (s.res_icnt < n → s.msg_present = true) → Micro src c s [.icnt n] (s.take_icnt n)
  | tnt {t b} : s.synced = true → s.settled → s.consumed_tnts ≤ s.tnt_total → s.tnts_left ≠ 0 → (∀ e ∈ spent s.res_hists, e.repeat_ = 1) →
      TookTnt src s b t → Micro src c s [.tnt b] t
  | retire : s.synced = true → s.icnt_left = 0 → s.tnts_left = 0 → Retirable s → (msg_is_branch s.msg || msg_is_sync s.msg) = true →
      msg_is_indir_branch s.msg = false → Micro src c s [] (s.retired src)
  | indirect : s.synced = true → s.Exhausted → msg_is_indir_branch s.msg = true → Retirable s → Micro src c s [] (s.addressed.retired src)
  | stop : c = .next_stop → s.synced = true → s.Exhausted → msg_is_stop s.msg = true → Retirable s →
      Micro src c s [] { s.retired src with synced := false }
  | error : c = .next_error → s.synced = true → s.msg_present = true → s.msg.tcode = .Error →
      Micro src c s [] { (s.emptied src).retired src with synced := false }
  /-- an Ownership message behind an indirect branch is taken, or none is read -/
  | past {m₂ r d m} : c = .next_indirect → src.next (s.msg_decoder, m₂) = some (r, d, m) → (∀ n, r = .ok n → m.tcode = .Ownership) →
      Micro src c s [] { s with msg_decoder := d }
  /-- a message is read past the buffer and put back -/
  | peek {m₂ n d m d'} : c = .next_indirect → src.next (s.msg_decoder, m₂) = some (.ok n, d, m) → src.rewind_last d = some d' →
      Micro src c s [] { s with msg_decoder := d' }
  /-- the caller skips a message -/
  | skip {m₂ r d m} : c = .skip → src.next (s.msg_decoder, m₂) = some (r, d, m) → Micro src c s [] { s with msg_decoder := d }
  | drop : c = .sync_reset → s.synced = false → s.msg_present = true → msg_is_sync s.msg = false → Micro src c s [] { s with msg_present := false }
  | resync : c = .sync_reset → s.synced = false → s.msg_present = true → msg_is_sync s.msg = true → Micro src c s [] s.resynced
  | stack {r} : Micro src c s [] { s with return_stack := r }
  | time (timestamp : UInt64) : c = .add_timestamp timestamp →
      Micro src c s [] { s with timestamp := combine_time (s.sifive src) s.timestamp timestamp }

inductive Micros (src : Source σ) (c : Call) : TraceDecoder σ → List Out → TraceDecoder σ → Prop where
  | refl {s} : Micros src c s [] s
  | head {s o t os u} : Micro src c s o t → Micros src c t os u → Micros src c s (o ++ os) u

variable {c : Call}

theorem Micros.single {s t : TraceDecoder σ} {o : List Out} (h : Micro src c s o t) : Micros src c s o t := by
  have := Micros.head h .refl
  rwa [List.append_nil] at this

theorem Micros.trans {s t u : TraceDecoder σ} {o o' : List Out} (h : Micros src c s o t) (h' : Micros src c t o' u) :
    Micros src c s (o ++ o') u := by
  induction h with
  | refl => exact h'
  | head h _ ih =>
    rw [List.append_assoc]
    exact .head h (ih h')

/-- Steps behind steps that hand nothing out. -/
theorem Micros.then {s t u : TraceDecoder σ} {o : List Out} (h : Micros src c s [] t) (h' : Micro src c t o u) : Micros src c s o u :=
  h.trans (.single h')

theorem Micros.keeps {P : TraceDecoder σ → Prop} (hstep : ∀ s o t, Micro src c s o t → P s → P t) {s t : TraceDecoder σ} {o : List Out}
    (h : Micros src c s o t) : P s → P t := by
  induction h with
  | refl => exact id
  | head h _ ih => exact fun hs => ih (hstep _ _ _ h hs)

/-- Fetching changes the message decoder and the buffer only. -/
theorem Fetched.frame {msg2 : Msg} {s t : TraceDecoder σ} {r : Except NexusError Bool} (h : Fetched src msg2 s r t) :
    t = { s with msg_decoder := t.msg_decoder, msg := t.msg, msg_present := t.msg_present } := by
  cases h <;> rfl

theorem Fetched.synced {msg2 : Msg} {s t : TraceDecoder σ} {r : Except NexusError Bool} (h : Fetched src msg2 s r t) :
    t.synced = s.synced := by
  cases h <;> rfl

section Fields
variable {msg2 : Msg} {s t : TraceDecoder σ} {r : Except NexusError Bool} (h : Fetched src msg2 s r t)
include h

theorem Fetched.res_icnt : t.res_icnt = s.res_icnt := by rw [h.frame]
theorem Fetched.consumed_icnt : t.consumed_icnt = s.consumed_icnt := by rw [h.frame]
theorem Fetched.res_tnts : t.res_tnts = s.res_tnts := by rw [h.frame]
theorem Fetched.consumed_tnts : t.consumed_tnts = s.consumed_tnts := by rw [h.frame]
theorem Fetched.res_hists : t.res_hists = s.res_hists := by rw [h.frame]
theorem Fetched.timestamp : t.timestamp = s.timestamp := by rw [h.frame]

end Fields

/-- A message is buffered behind a fetch that succeeds. -/
theorem Fetched.filled {msg2 : Msg} {s t : TraceDecoder σ} {b : Bool} (h : Fetched src msg2 s (.ok b) t) : t.msg_present = true := by
  cases h with
  | present hp => exact hp
  | plain => rfl
  | ahead_other => rfl
  | repeated => rfl

theorem Pulled.micros {env : Env} {k : Nat} {s s' : TraceDecoder σ} {r : Except NexusError Bool} (hsync : s.synced = true) (hset : s.settled)
    (hc : c.pulls = true) (h : Pulled src env k s r s') : Micros src c s [] s' := by
  cases h with
  | failed e _ hf => exact .single (.fetch hf)
  | other b _ hf => exact .single (.fetch hf)
  | hist_overflow b _ hf => exact .single (.fetch hf)
  | unsupported b _ hf => exact .single (.fetch hf)
  | icnt_overflow b t hf hres =>
    exact (Micros.single (.fetch hf)).then (.stuck (hf.synced.trans hsync) hf.filled hres)
  | no_mem b t e hf hres =>
    exact (Micros.single (.fetch hf)).then (.stuck (hf.synced.trans hsync) hf.filled hres)
  | taken b t e hf hres hel hlen hgrown =>
    -- a buffered message is none of ResourceFull, so this one was fetched now
    cases hp : s.msg_present with
    | true =>
      cases hf with
      | present => exact nomatch (hset hp).symm.trans hres
      | _ => exact nomatch hp.symm.trans ‹s.msg_present = false›
    | false =>
      have hb : b = true := by
        cases hf with
        | present hp' => exact nomatch hp.symm.trans hp'
        | _ => rfl
      rw [hb] at hf
      exact .single (.pull hc hsync hp hf hres hel hlen hgrown)

theorem Pulled.synced {env : Env} {k : Nat} {s s' : TraceDecoder σ} {r : Except NexusError Bool} (h : Pulled src env k s r s') :
    s'.synced = s.synced := by
  cases h with
  | failed e _ hf => exact hf.synced
  | other b _ hf => exact hf.synced
  | hist_overflow b _ hf => exact hf.synced
  | unsupported b _ hf => exact hf.synced
  | icnt_overflow b t hf => exact hf.synced
  | no_mem b t e hf => exact hf.synced
  | taken b t e hf => exact hf.synced

/-- What is asked for in the loop of `try_retire` and `next_tnt` changes nothing where it finds nothing. -/
def Asks (done : Trace σ (Option α)) : Prop := ∀ s r s', done s = some (r, s') →
  (r = .ok none ∧ s' = s ∧ s.settled) ∨ ∃ a, r = .ok (some a)

theorem asks_icnt (n : Nat) : Asks (retire_icnt n : Trace σ (Option Nat)) := by
  intro s r s' h
  obtain ⟨hset, -, ⟨-, hr, hs⟩ | ⟨-, -, -, hr, -⟩⟩ := retire_icnt_cases h
  · exact .inl ⟨hr, hs, hset⟩
  · exact .inr ⟨n, hr⟩

theorem asks_tnt : Asks (retire_tnt src) := by
  intro s r s' h
  obtain ⟨hset, -, ⟨-, hr, hs⟩ | ⟨-, b, hr, -⟩⟩ := retire_tnt_cases h
  · exact .inl ⟨hr, hs, hset⟩
  · exact .inr ⟨b, hr⟩

/-- The loop pulls messages, and then finds what is asked for or stops. -/
theorem Loop.micros {env : Env} {done : Trace σ (Option α)} (hasks : Asks done) {k : Nat} {rc : Bool} {s s' : TraceDecoder σ}
    {r : Except NexusError (Option α)} (hc : c.pulls = true) (h : Loop src env done k rc s r s') (hsync : s.synced = true) :
    ∃ t, Micros src c s [] t ∧ t.synced = true ∧ (done t = some (r, s') ∨ ∃ e, r = .error e ∧ s' = t) := by
  induction h with
  | found h => exact ⟨_, .refl, hsync, .inl h⟩
  | failed h => exact ⟨_, .refl, hsync, .inl h⟩
  | stop h => exact ⟨_, .refl, hsync, .inl h⟩
  | @pull_failed k s t s' e h hpull =>
    obtain ⟨-, hts, hset⟩ | ⟨a, ha⟩ := hasks _ _ _ h
    · rw [hts] at hpull
      have hp := pull_cases hpull
      exact ⟨s', hp.micros hsync hset hc, hp.synced.trans hsync, .inr ⟨e, rfl, rfl⟩⟩
    · cases ha
  | @pull k s t u s' rc r h hpull _ ih =>
    obtain ⟨-, hts, hset⟩ | ⟨a, ha⟩ := hasks _ _ _ h
    · rw [hts] at hpull
      have hp := pull_cases hpull
      obtain ⟨v, hv, hsv, hd⟩ := ih (hp.synced.trans hsync)
      exact ⟨v, (hp.micros hsync hset hc).trans hv, hsv, hd⟩
    · cases ha

theorem Loop.micros_failed {env : Env} {done : Trace σ (Option α)} (hasks : Asks done) {k : Nat} {rc : Bool} {s s' : TraceDecoder σ} {e : NexusError}
    (hc : c.pulls = true) (h : Loop src env done k rc s (.error e) s') (hsync : s.synced = true) : Micros src c s [] s' := by
  obtain ⟨t, ht, -, hd | ⟨e, -, hs⟩⟩ := h.micros hasks hc hsync
  · obtain ⟨hr, -⟩ | ⟨a, hr⟩ := hasks _ _ _ hd <;> cases hr
  · rw [hs]
    exact ht

theorem Loop.micros_found {env : Env} {done : Trace σ (Option α)} (hasks : Asks done) {k : Nat} {rc : Bool} {s s' : TraceDecoder σ} {a : α}
    (hc : c.pulls = true) (h : Loop src env done k rc s (.ok (some a)) s') (hsync : s.synced = true) :
    ∃ t, Micros src c s [] t ∧ t.synced = true ∧ done t = some (.ok (some a), s') := by
  obtain ⟨t, ht, hst, hd | ⟨e, hr, -⟩⟩ := h.micros hasks hc hsync
  · exact ⟨t, ht, hst, hd⟩
  · cases hr

theorem Loop.micros_stop {env : Env} {done : Trace σ (Option α)} (hasks : Asks done) {k : Nat} {rc : Bool} {s s' : TraceDecoder σ}
    (hc : c.pulls = true) (h : Loop src env done k rc s (.ok none) s') (hsync : s.synced = true) :
    Micros src c s [] s' ∧ s'.synced = true ∧ done s' = some (.ok none, s') := by
  obtain ⟨t, ht, hst, hd | ⟨e, hr, -⟩⟩ := h.micros hasks hc hsync
  · obtain ⟨-, hs, -⟩ | ⟨a, hr⟩ := hasks _ _ _ hd
    · rw [← hs] at ht hst hd
      exact ⟨ht, hst, hd⟩
    · cases hr
  · cases hr

/-! ## The steps of the calls -/

/-- The instructions handed out. -/
def outs_icnt : List Out → Nat
  | [] => 0
  | .icnt n :: os => n + outs_icnt os
  | .tnt _ :: os => outs_icnt os

theorem outs_icnt_append (os os' : List Out) : outs_icnt (os ++ os') = outs_icnt os + outs_icnt os' := by
  induction os with
  | nil => exact (Nat.zero_add _).symm
  | cons o os ih =>
    cases o with
    | icnt n => rw [List.cons_append, outs_icnt, outs_icnt, ih, Nat.add_assoc]
    | tnt b => exact ih

/-- The instructions that a call reports. -/
def Result.icnt : Except NexusError Result → Nat
  | .ok (.retired n _) => n
  | _ => 0

theorem TriedRetire.micros {env : Env} {icnt : Nat} {s s' : TraceDecoder σ} {r : Except NexusError (Nat × TraceEvent)}
    (h : TriedRetire src env icnt s r s') :
    (∃ e, r = .error e ∧ Micros src (.try_retire icnt) s [] s') ∨ ∃ n ev, r = .ok (n, ev) ∧ Micros src (.try_retire icnt) s [.icnt n] s' := by
  cases h with
  | unsynced => exact .inl ⟨_, rfl, .refl⟩
  | failed e _ hsync hloop => exact .inl ⟨e, rfl, hloop.micros_failed (asks_icnt _) rfl hsync⟩
  | early n _ hsync hloop =>
    obtain ⟨t, ht, hst, hd⟩ := hloop.micros_found (c := .try_retire icnt) (asks_icnt _) rfl hsync
    obtain ⟨hset, hle, ⟨-, hr, -⟩ | ⟨hlt, hone, hp, hr, hs⟩⟩ := retire_icnt_cases hd
    · cases hr
    · cases hr
      rw [hs]
      exact .inr ⟨_, _, rfl, ht.then (.take hst hset hle (Nat.le_of_lt hlt) hone hp)⟩
  | event t hsync hloop hp hset hle hone =>
    obtain ⟨ht, hst, -⟩ := hloop.micros_stop (c := .try_retire icnt) (asks_icnt _) rfl hsync
    exact .inr ⟨_, _, rfl, ht.then (.take hst hset hle (Nat.le_refl _) hone fun _ => hp)⟩

theorem TriedTnt.micros {env : Env} {s s' : TraceDecoder σ} {r : Except NexusError Bool} (h : TriedTnt src env s r s') :
    (∃ e, r = .error e ∧ Micros src .next_tnt s [] s') ∨ ∃ b os, r = .ok b ∧ Micros src .next_tnt s os s' ∧ outs_icnt os = 0 := by
  cases h with
  | unsynced => exact .inl ⟨_, rfl, .refl⟩
  | failed e _ hsync hloop => exact .inl ⟨e, rfl, hloop.micros_failed asks_tnt rfl hsync⟩
  | bit b _ hsync hloop =>
    obtain ⟨t, ht, hst, hd⟩ := hloop.micros_found (c := .next_tnt) asks_tnt rfl hsync
    obtain ⟨hset, hle, ⟨-, hr, -⟩ | ⟨hne, c, hr, hrep, htook⟩⟩ := retire_tnt_cases hd
    · cases hr
    · cases hr
      exact .inr ⟨b, [.tnt b], rfl, ht.then (.tnt hst hset hle hne hrep htook), rfl⟩
  | waiting _ hsync hloop =>
    obtain ⟨ht, -⟩ := hloop.micros_stop (c := .next_tnt) asks_tnt rfl hsync
    exact .inr ⟨_, [], rfl, ht, rfl⟩
  | mismatch _ hsync hloop =>
    obtain ⟨ht, -⟩ := hloop.micros_stop (c := .next_tnt) asks_tnt rfl hsync
    exact .inl ⟨_, rfl, ht⟩
  | branch t hsync hloop hleft hb hret =>
    obtain ⟨ht, hst, hd⟩ := hloop.micros_stop (c := .next_tnt) asks_tnt rfl hsync
    obtain ⟨-, -, ⟨h0, -⟩ | ⟨-, b, hr, -⟩⟩ := retire_tnt_cases hd
    · obtain ⟨hbranch, hdir⟩ := Bool.and_eq_true_iff.1 hb
      exact .inr ⟨_, [], rfl, ht.then (.retire hst hleft h0 hret (by rw [hbranch, Bool.true_or]) (by simpa using hdir)), rfl⟩
    · cases hr

theorem NextIndirect.micros {env : Env} {s s' : TraceDecoder σ} {r : Except NexusError TraceIndirect} (h : NextIndirect src env s r s') :
    Micros src .next_indirect s [] s' := by
  have hdec : ∀ t : TraceDecoder σ, (t.addressed.retired src).msg_decoder = t.msg_decoder := fun t => by
    rw [retired_msg_decoder, addressed_msg_decoder]
  have hretire : ∀ {b : Bool} {t : TraceDecoder σ}, s.synced = true → Fetched src (env.msg2 0) s (.ok b) t → t.Exhausted →
      msg_is_indir_branch t.msg = true → Retirable t → Micros src .next_indirect s [] (t.addressed.retired src) := fun hsync hf hex hind hret =>
    (Micros.single (.fetch hf)).then (.indirect (hf.synced.trans hsync) hex hind hret)
  cases h with
  | unsynced => exact .refl
  | fetch_failed e _ _ hf => exact .single (.fetch hf)
  | mismatch b _ _ hf => exact .single (.fetch hf)
  | ahead_failed b t e d m₂ hsync hf _ hex hind hret hnext =>
    exact (hretire hsync hf hex hind hret).then (.past rfl (by rw [hdec]; exact hnext) fun _ h => by cases h)
  | other b t n d d' m₂ hsync hf _ hex hind hret hnext _ hback =>
    exact (hretire hsync hf hex hind hret).then (.peek rfl (by rw [hdec]; exact hnext) hback)
  | ownership b t n d m₂ hsync hf _ hex hind hret hnext hk =>
    exact (hretire hsync hf hex hind hret).then (.past rfl (by rw [hdec]; exact hnext) fun _ _ => hk)

theorem Checked.micros {env : Env} {kind : Msg → Bool} {s s' : TraceDecoder σ} {r : Except NexusError (TraceDecoder σ)}
    (h : Checked src env kind s r s') : Micros src c s [] s' := by
  cases h with
  | unsynced => exact .refl
  | fetch_failed e _ _ hf => exact .single (.fetch hf)
  | mismatch b _ _ hf => exact .single (.fetch hf)
  | passed b t _ hf => exact .single (.fetch hf)

theorem Checked.passed_inv {env : Env} {kind : Msg → Bool} {s t t' : TraceDecoder σ} (h : Checked src env kind s (.ok t) t') :
    t' = t ∧ t.synced = true ∧ t.settled ∧ t.Exhausted ∧ kind t.msg = true := by
  cases h with
  | passed b t hsync hf hset hex hk => exact ⟨rfl, hf.synced.trans hsync, hset, hex, hk⟩

theorem next_sync_micros {env : Env} {s s' : TraceDecoder σ} {r : Except NexusError TraceSync} (h : trace_next_sync src env s = some (r, s')) :
    Micros src c s [] s' := by
  obtain ⟨e, -, hc⟩ | ⟨t, hc, hret, -, hs⟩ := next_sync_cases h
  · exact hc.micros
  · obtain ⟨-, hst, -, hex, hk⟩ := hc.passed_inv
    obtain ⟨hy, hb⟩ := Bool.and_eq_true_iff.1 hk
    have hdir : msg_is_indir_branch t.msg = false := Bool.eq_false_iff.2 fun hi => by simp [indir_is_branch hi] at hb
    rw [hs]
    exact hc.micros.then (.retire hst hex.icnt hex.tnts hret (by rw [hy, Bool.or_true]) hdir)

theorem next_stop_micros {env : Env} {s s' : TraceDecoder σ} {r : Except NexusError TraceStop} (h : trace_next_stop src env s = some (r, s')) :
    Micros src .next_stop s [] s' := by
  obtain ⟨e, -, hc⟩ | ⟨t, hc, hret, -, hs⟩ := next_stop_cases h
  · exact hc.micros
  · obtain ⟨-, hst, -, hex, hk⟩ := hc.passed_inv
    rw [hs]
    exact hc.micros.then (.stop rfl hst hex hk hret)

theorem NextError.micros {env : Env} {s s' : TraceDecoder σ} {r : Except NexusError TraceError} (h : NextError src env s r s') :
    Micros src .next_error s [] s' := by
  cases h with
  | unsynced => exact .refl
  | fetch_failed e _ _ hf => exact .single (.fetch hf)
  | mismatch b _ _ hf => exact .single (.fetch hf)
  | passed b t hsync hf hk hp => exact (Micros.single (.fetch hf)).then (.error rfl (hf.synced.trans hsync) hp hk)

theorem Forwards.micros {env : Env} {k : Nat} {s s' : TraceDecoder σ} {r : Except NexusError Unit} (h : Forwards src env k s r s')
    (hsync : s.synced = false) : Micros src .sync_reset s [] s' ∧ s'.synced = false ∧
      (r = .ok () → s'.msg_present = true ∧ msg_is_sync s'.msg = true) := by
  induction h with
  | failed hf => exact ⟨.single (.fetch hf), hf.synced.trans hsync, fun h => nomatch h⟩
  | found hf hk => exact ⟨.single (.fetch hf), hf.synced.trans hsync, fun _ => ⟨hf.filled, hk⟩⟩
  | @skip k s b t r s' hf hk _ ih =>
    have hst := hf.synced.trans hsync
    obtain ⟨hm, hu, hr⟩ := ih hst
    exact ⟨(Micros.single (.fetch hf)).trans (.head (.drop rfl hst hf.filled hk) hm), hu, hr⟩

theorem sync_reset_micros {env : Env} {s s' : TraceDecoder σ} {r : Except NexusError (Option TraceSync)}
    (h : trace_sync_reset src env s = some (r, s')) : Micros src .sync_reset s [] s' := by
  obtain ⟨-, -, hs⟩ | ⟨hsync, ⟨e, -, hf⟩ | ⟨t, r', hf, hn, -⟩⟩ := sync_reset_cases h
  · rw [hs]
    exact .refl
  · exact (hf.micros hsync).1
  · obtain ⟨hm, hst, hr⟩ := hf.micros hsync
    obtain ⟨hp, hk⟩ := hr rfl
    exact (hm.then (.resync rfl hst hp hk)).trans (next_sync_micros hn)

/-- Every call is a run of steps, which hand out what it reports. -/
theorem exec_micros {env : Env} {c : Call} {s s' : TraceDecoder σ} {r : Except NexusError Result} (h : exec src env c s = some (r, s')) :
    ∃ os, Micros src c s os s' ∧ outs_icnt os = Result.icnt r := by
  have hsilent : ∀ {α : Type} {f : α → Result} {x : Trace σ α}, (f <$> x) s = some (r, s') → (∀ a, Result.icnt (.ok (f a)) = 0) →
      (∀ r₁, x s = some (r₁, s') → Micros src c s [] s') → ∃ os, Micros src c s os s' ∧ outs_icnt os = Result.icnt r := by
    intro α f x h h0 hx
    obtain ⟨r₁, h₁, rfl⟩ := Proc.map_eq_some.1 h
    exact ⟨[], hx r₁ h₁, by cases r₁ with | error e => rfl | ok a => exact (h0 a).symm⟩
  cases c with
  | try_retire icnt =>
    obtain ⟨r₁, h₁, rfl⟩ := Proc.map_eq_some.1 h
    obtain ⟨e, rfl, hm⟩ | ⟨n, ev, rfl, hm⟩ := (try_retire_cases h₁).micros
    · exact ⟨[], hm, rfl⟩
    · exact ⟨_, hm, rfl⟩
  | next_tnt =>
    obtain ⟨r₁, h₁, rfl⟩ := Proc.map_eq_some.1 h
    obtain ⟨e, rfl, hm⟩ | ⟨b, os, rfl, hm, hos⟩ := (next_tnt_cases h₁).micros
    · exact ⟨[], hm, rfl⟩
    · exact ⟨os, hm, hos⟩
  | sync_reset => exact hsilent h (fun _ => rfl) fun _ => sync_reset_micros
  | next_indirect => exact hsilent h (fun _ => rfl) fun _ h => (next_indirect_cases h).micros
  | next_sync => exact hsilent h (fun _ => rfl) fun _ => next_sync_micros
  | next_error => exact hsilent h (fun _ => rfl) fun _ h => (next_error_cases h).micros
  | next_stop => exact hsilent h (fun _ => rfl) fun _ => next_stop_micros
  | push_call a =>
    refine hsilent h (fun _ => rfl) fun r₁ h₁ => ?_
    obtain ⟨q, -, hq⟩ := Option.map_eq_some_iff.1 h₁
    cases hq
    exact .single .stack
  | pop_ret =>
    refine hsilent h (fun _ => rfl) fun r₁ h₁ => ?_
    obtain ⟨q, -, hq⟩ := Option.map_eq_some_iff.1 h₁
    cases hq
    exact .single .stack
  | add_timestamp ts =>
    refine hsilent h (fun _ => rfl) fun r₁ h₁ => ?_
    rw [trace_add_timestamp, retire_timestamp_bind] at h₁
    cases h₁
    exact .single (.time ts rfl)
  | skip =>
    refine hsilent h (fun _ => rfl) fun r₁ h₁ => ?_
    rw [next_msg2_apply] at h₁
    obtain ⟨⟨q, d, m⟩, hq, he⟩ := Option.map_eq_some_iff.1 h₁
    cases he
    exact .single (.skip rfl hq)

/-- What every step keeps, every run keeps. -/
theorem play_micros_keep {P : TraceDecoder σ → Prop} (hstep : ∀ c s o t, Micro src c s o t → P s → P t) {calls : List (Env × Call)}
    {s u : TraceDecoder σ} {rs : List (Except NexusError Result)} (h : play src calls s = some (rs, u)) (hs : P s) : P u :=
  play_keeps (fun _ _ _ _ _ hc hs => let ⟨_, hm, _⟩ := exec_micros hc; hm.keeps (hstep _) hs) calls h hs

end Runs

end nexusrv
