import NexusRv.PastEnd
/-!
# A resync forgets what came before

`sync_reset` drops what is buffered, searches for a sync message and starts again from it. Nothing that happened before shows in what any
call returns behind it. Neither does the buffer of the message decoder: not how large it is, nor what it held before.
-/

namespace nexusrv

/-! ## Up to the sync message -/

section Meet
variable {s t u v : TraceDecoder MsgDecoder} {env env' : Env} {msg2 msg2' : Msg} {b b' : Bool}

/-- No message comes any more. -/
def Ended (d : MsgDecoder) : Prop := ∀ m, ∃ d' m', msg_decoder_next (d, m) = some (.ok 0, d', m')

/-- A fetch into an empty buffer takes a message, and looks ahead behind a branch. -/
theorem Fetched.takes {σ : Type} {src : Source σ} {s u : TraceDecoder σ} (h : Fetched src msg2 s (.ok b) u) (hp : s.msg_present = false) :
    ∃ n d m, n ≠ 0 ∧ src.next (s.msg_decoder, s.msg) = some (.ok n, d, m) ∧ u.msg.tcode = m.tcode ∧
      (repeatable m = false ∧ u.msg_decoder = d ∧ u.msg = m ∨
        repeatable m = true ∧ ∃ n₂ d₂ m₂, src.next (d, msg2) = some (.ok n₂, d₂, m₂) ∧
        (m₂.tcode ≠ .RepeatBranch ∧ src.rewind_last d₂ = some u.msg_decoder ∨ m₂.tcode = .RepeatBranch ∧ u.msg_decoder = d₂)) := by
  cases h with
  | present hp' => rw [hp] at hp'; cases hp'
  | plain n d m _ hn h0 hc hr => exact ⟨n, d, m, h0, hn, rfl, .inl ⟨hr, rfl, rfl⟩⟩
  | ahead_other n d m n₂ d₂ m₂ d₃ _ hn h0 hc hr hn₂ ht hback =>
    exact ⟨n, d, m, h0, hn, rfl, .inr ⟨hr, n₂, d₂, m₂, hn₂, .inl ⟨ht, hback⟩⟩⟩
  | repeated n d m n₂ d₂ m₂ _ hn h0 hc hr hn₂ ht =>
    exact ⟨n, d, m, h0, hn, rfl, .inr ⟨hr, n₂, d₂, m₂, hn₂, .inr ⟨ht, rfl⟩⟩⟩

/-- No sync message is repeated. -/
theorem repeatable_no_sync {m : Msg} (h : repeatable m = true) : msg_is_sync m = false := by
  rw [repeatable, Bool.and_eq_true, Bool.not_eq_true'] at h
  exact h.2

/-- Two fetches from one point take the same message, and come to one point or to the end. -/
theorem Fetched.meet (hu : Fetched msg_source msg2 s (.ok b) u) (hv : Fetched msg_source msg2' t (.ok b') v) (hs : s.msg_present = false)
    (ht : t.msg_present = false) (hpoint : SamePoint s.msg_decoder t.msg_decoder) : msg_is_sync u.msg = msg_is_sync v.msg ∧
      (SamePoint u.msg_decoder v.msg_decoder ∧ (msg_is_sync u.msg = true → u.msg.Same v.msg) ∨
        msg_is_sync u.msg = false ∧ Ended u.msg_decoder) := by
  obtain ⟨n, d, m, h0, hn, htc, hd⟩ := hu.takes hs
  obtain ⟨n', e, m', h0', hn', htc', he⟩ := hv.takes ht
  obtain ⟨r, r', ⟨x, x'⟩, ⟨y, y'⟩, hx, hy, -, hdel⟩ := same_point_pairs.next hpoint s.msg t.msg
  cases hx.symm.trans hn
  cases hy.symm.trans hn'
  have hsame : m.Same m' := hdel.same n rfl (.inl h0)
  have hbehind : SamePoint d e := hdel.behind
  have hsync : ∀ {w : TraceDecoder MsgDecoder} {c : Msg}, w.msg.tcode = c.tcode → msg_is_sync w.msg = msg_is_sync c := by
    intro w c hwc
    rw [msg_is_sync, msg_is_sync, hwc]
  refine ⟨(hsync htc).trans (hsame.is_sync.trans (hsync htc').symm), ?_⟩
  have hrep := hsame.repeatable
  rcases hd with ⟨hr, rfl, hum⟩ | ⟨hr, n₂, d₂, m₂, hn₂, hd⟩
  · rcases he with ⟨-, rfl, hvm⟩ | ⟨hr', -⟩
    · left
      rw [hum, hvm]
      exact ⟨hbehind, fun _ => hsame⟩
    · rw [hrep, hr'] at hr
      cases hr
  · rcases he with ⟨hr', -⟩ | ⟨-, n₃, e₂, m₃, hn₃, he⟩
    · rw [hrep, hr'] at hr
      cases hr
    have hno : msg_is_sync u.msg = false := (hsync htc).trans (repeatable_no_sync hr)
    by_cases hend : n₂ = 0
    · -- the look-ahead came to the end
      right
      rw [hend] at hn₂
      have hstop : msg_source.rewind_last d₂ = some d₂ := next_end hbehind.inv.1 hn₂
      have hud : u.msg_decoder = d₂ := by
        rcases hd with ⟨-, hback⟩ | ⟨-, hud⟩
        · exact Option.some.inj (hback.symm.trans hstop)
        · exact hud
      rw [hud]
      exact ⟨hno, fun m => next_ended hbehind.inv.1 hn₂ m⟩
    · left
      refine ⟨?_, fun hy => ?_⟩
      · obtain ⟨r, r', ⟨x, x'⟩, ⟨y, y'⟩, hx, hy, -, hdel⟩ := same_point_pairs.next hbehind msg2 msg2'
        cases hx.symm.trans hn₂
        cases hy.symm.trans hn₃
        have hsame₂ : m₂.Same m₃ := hdel.same n₂ rfl (.inl hend)
        obtain ⟨d₀, e₀, hd₀, he₀, hpoint₀⟩ := hdel.back n₂ rfl
        rcases hd with ⟨hnot, hback⟩ | ⟨htwo, hud⟩ <;> rcases he with ⟨hnot', hback'⟩ | ⟨htwo', hve⟩
        · cases hback.symm.trans hd₀
          cases hback'.symm.trans he₀
          exact hpoint₀
        · exact absurd (hsame₂.1.trans htwo') hnot
        · exact absurd (hsame₂.1.symm.trans htwo) hnot'
        · rw [hud, hve]
          exact hdel.behind
      · rw [hno] at hy
        cases hy

/-- At the end of the stream no sync message is found. -/
theorem Forwards.not_ended {k : Nat} (h : Forwards msg_source env k s (.ok ()) u) (hp : s.msg_present = false) : ¬ Ended s.msg_decoder := by
  intro hend
  obtain ⟨d', m', hn⟩ := hend s.msg
  have hno : ∀ {b : Bool} {w : TraceDecoder MsgDecoder}, ¬ Fetched msg_source (env.msg2 k) s (.ok b) w := by
    intro b w hw
    obtain ⟨n, d, m, h0, hn', -⟩ := hw.takes hp
    cases hn'.symm.trans hn
    exact h0 rfl
  cases h with
  | found hf => exact hno hf
  | skip hf => exact hno hf

/-- Two searches from one point find the same sync message. -/
theorem Forwards.meet {k : Nat} {r : Except NexusError Unit} (h : Forwards msg_source env k s r u) : r = .ok () →
    ∀ {k' : Nat} {t : TraceDecoder MsgDecoder}, Forwards msg_source env' k' t (.ok ()) v → s.msg_present = false →
      t.msg_present = false → SamePoint s.msg_decoder t.msg_decoder →
      SamePoint u.msg_decoder v.msg_decoder ∧ u.msg.Same v.msg := by
  induction h with
  | failed => intro hr; cases hr
  | found hu hyu =>
    intro _ k' t h' hs ht hpoint
    cases h' with
    | found hv hyv =>
      obtain ⟨-, ⟨hmeet, hsame⟩ | ⟨hno, -⟩⟩ := hu.meet hv hs ht hpoint
      · exact ⟨hmeet, hsame hyu⟩
      · rw [hno] at hyu
        cases hyu
    | skip hv hyv =>
      obtain ⟨hsync, -⟩ := hu.meet hv hs ht hpoint
      rw [hyu, hyv] at hsync
      cases hsync
  | skip hu hyu hrest ih =>
    intro hr k' t h' hs ht hpoint
    cases h' with
    | found hv hyv =>
      obtain ⟨hsync, -⟩ := hu.meet hv hs ht hpoint
      rw [hyu, hyv] at hsync
      cases hsync
    | skip hv hyv hrest' =>
      obtain ⟨-, ⟨hmeet, -⟩ | ⟨-, hend⟩⟩ := hu.meet hv hs ht hpoint
      · exact ih hr hrest' rfl rfl hmeet
      · rw [hr] at hrest
        exact absurd hend (hrest.not_ended rfl)

theorem Forwards.return_stack {σ : Type} {src : Source σ} {k : Nat} {r : Except NexusError Unit} {s u : TraceDecoder σ}
    (h : Forwards src env k s r u) : u.return_stack = s.return_stack := by
  induction h with
  | failed hf => rw [hf.frame]
  | found hf => rw [hf.frame]
  | skip hf _ _ ih =>
    rw [ih]
    dsimp only
    rw [hf.frame]

/-- A buffered message that is no sync message is dropped first. -/
theorem Forwards.empty {σ : Type} {src : Source σ} {k : Nat} {s u : TraceDecoder σ} (h : Forwards src env k s (.ok ()) u)
    (hs : s.msg_present = true → msg_is_sync s.msg = false) : ∃ k', Forwards src env k' { s with msg_present := false } (.ok ()) u := by
  cases hp : s.msg_present with
  | false =>
    refine ⟨k, ?_⟩
    rw [← hp]
    exact h
  | true =>
    cases h with
    | found hf hy =>
      rw [hf.of_present hp, hs hp] at hy
      cases hy
    | skip hf _ hrest =>
      rw [hf.of_present hp] at hrest
      exact ⟨_, hrest⟩

/-! ## Behind the sync message -/

/-- What `sync_reset` leaves, where the sync message is buffered in `u`. -/
theorem sync_reset_found {σ : Type} {src : Source σ} {s t : TraceDecoder σ} {y : Option TraceSync}
    (h : trace_sync_reset src env s = some (.ok y, t)) (hs : s.synced = false) :
    ∃ u, Forwards src env 0 s (.ok ()) u ∧ msg_is_sync u.msg = true ∧ y = some (u.resynced.sync_event src) ∧
      t = u.resynced.retired src := by
  obtain ⟨hsync, -⟩ | ⟨-, ⟨e, he, -⟩ | ⟨u, r, hf, hn, he⟩⟩ := sync_reset_cases h
  · rw [hs] at hsync
    cases hsync
  · cases he
  obtain ⟨hup, huy⟩ := (hf.micros hs).2.2 rfl
  obtain ⟨e, hr, -⟩ | ⟨v, hc, -, hr, ht⟩ := next_sync_cases hn
  · rw [hr] at he
    cases he
  have hv : v = u.resynced := by
    cases hc with
    | passed b _ _ hf' =>
      rw [fetch_of hf' |>.symm.trans (fetch_present _ hup) |> fun h => (Prod.mk.inj (Option.some.inj h)).2]
  rw [hr] at he
  cases he
  rw [ht, hv]
  exact ⟨u, hf, huy, rfl, rfl⟩

/-- Behind the same sync message, the decoders are twins. -/
theorem resynced_twins {σ τ : Type} {src : Source σ} {src' : Source τ} {R : σ → τ → Prop} {Q : RetStack → RetStack → Prop}
    {u : TraceDecoder σ} {v : TraceDecoder τ}
    (hpoint : R u.msg_decoder v.msg_decoder) (hsame : u.msg.Same v.msg) (hy : msg_is_sync u.msg = true)
    (hstack : Q (retstack_clear u.return_stack) (retstack_clear v.return_stack)) : Twins R Q (u.resynced.retired src) (v.resynced.retired src') := by
  have hretired : ∀ {ρ : Type} {src : Source ρ} (w : TraceDecoder ρ), w.resynced.retired src =
      ⟨w.msg_decoder, [], 0, 0, 0, 0, true, false, w.resynced.msg, w.msg.xaddr,
      w.msg.timestamp, retstack_clear w.return_stack⟩ := by
    intro ρ src w
    rfl
  rw [hretired, hretired, ← hsame.2.1, ← hsame.xaddr (sync_has_xaddr hy)]
  refine ⟨_, _, _, hpoint, ?_, hstack⟩
  intro h
  cases h

end Meet

/-! ## Runs of twins -/

/-- What two calls return, up to the lengths of messages; a message is not written at the end of the stream. -/
def SameReturn (N : Nat → Nat → Prop) : Except NexusError Result → Except NexusError Result → Prop
  | .ok (.skipped n a), .ok (.skipped n' b) => N n n' ∧ (n ≠ 0 → a.Same b)
  | r, r' => r = r'

/-- Two runs that both fail an assertion, or return the same, call for call, and end at the same time with the same call sites. -/
def SameRun (x y : Option (List (Except NexusError Result) × TraceDecoder MsgDecoder)) : Prop :=
  (x = none ∧ y = none) ∨ ∃ rs u rs' v, x = some (rs, u) ∧ y = some (rs', v) ∧ List.Forall₂ (SameReturn Eq) rs rs' ∧
    u.timestamp = v.timestamp ∧ u.return_stack.contents = v.return_stack.contents ∧ SamePoint u.msg_decoder v.msg_decoder

/-- The calls of two runs: no allocation of the call stack fails, the others fail in both, and the look-ahead messages are the same or are
all written, because no look-ahead runs past the end of the stream. -/
def Comparable : List (Env × Env × Call) → TraceDecoder MsgDecoder → Prop
  | [], _ => True
  | (env, env', c) :: calls, s => (env.alloc = env'.alloc ∧ (∀ n, (env.mem n).isSome) ∧ (∀ n, (env'.mem n).isSome) ∧
      (env.msg2 = env'.msg2 ∨ ¬ c.LooksPast env s)) ∧ ∀ r t, exec msg_source env c s = some (r, t) → Comparable calls t

/-- No look-ahead of the calls runs past the end of the stream. -/
def NeverPast : List (Env × Call) → TraceDecoder MsgDecoder → Prop
  | [], _ => True
  | (env, c) :: calls, s => ¬ c.LooksPast env s ∧ ∀ r t, exec msg_source env c s = some (r, t) → NeverPast calls t

/-- Allocations fail in both calls or in none, and those of the call stack do not fail. -/
def SameRoom (env env' : Env) : Prop := env.alloc = env'.alloc ∧ (∀ n, (env.mem n).isSome) ∧ ∀ n, (env'.mem n).isSome

/-- Calls that look at no message behind the one they take do not look past the end. -/
theorem never_past_of {calls : List (Env × Call)} (h : ∀ x ∈ calls, ∀ s, ¬ x.2.LooksPast x.1 s) (s : TraceDecoder MsgDecoder) :
    NeverPast calls s := by
  induction calls generalizing s with
  | nil => trivial
  | cons x calls ih => exact ⟨h x List.mem_cons_self s, fun _ t _ => ih (fun x hx => h x (List.mem_cons_of_mem _ hx)) t⟩

theorem Comparable.of_room {calls : List (Env × Env × Call)} : ∀ {s : TraceDecoder MsgDecoder}, (∀ x ∈ calls, SameRoom x.1 x.2.1) →
    NeverPast (calls.map fun x => (x.1, x.2.2)) s → Comparable calls s := by
  induction calls with
  | nil => exact fun _ _ => trivial
  | cons x calls ih =>
    rintro s hroom ⟨hnow, hlater⟩
    obtain ⟨halloc, hmem, hmem'⟩ := hroom x List.mem_cons_self
    exact ⟨⟨halloc, hmem, hmem', .inr hnow⟩, fun r t ht => ih (fun x hx => hroom x (List.mem_cons_of_mem _ hx)) (hlater r t ht)⟩

abbrev StackTwins (max : Nat) : TraceDecoder MsgDecoder → TraceDecoder MsgDecoder → Prop := Twins SamePoint (RetStack.Alike max)

section Runs
variable {s t : TraceDecoder MsgDecoder} {env env' : Env} {c : Call} {max : Nat} {N : Nat → Nat → Prop}

theorem SameReturn.refl (hN : ∀ n, N n n) (r : Except NexusError Result) : SameReturn N r r := by
  cases r with
  | error e => rfl
  | ok r =>
    cases r with
    | skipped n m => exact ⟨hN n, fun _ => .refl m⟩
    | _ => rfl

/-- Decoders that are paired do the same in a call that finds the same look-ahead messages. -/
theorem exec_paired {R : MsgDecoder → MsgDecoder → Prop} {P : Msg → Prop} (hpairs : msg_source.Pairs msg_source R N P) (hN : ∀ n, N n n)
    (hmax : max < 2 ^ 31) (h : Twins R (RetStack.Alike max) s t) (halloc : env.alloc = env'.alloc) (hmem : ∀ n, (env.mem n).isSome)
    (hmem' : ∀ n, (env'.mem n).isSome) (hmsg2 : c = .skip ∨ SameAhead P env env') :
    (exec msg_source env c s = none ∧ exec msg_source env' c t = none) ∨ ∃ r u r' v, exec msg_source env c s = some (r, u) ∧
      exec msg_source env' c t = some (r', v) ∧ SameReturn N r r' ∧ Twins R (RetStack.Alike max) u v := by
  by_cases hc : c = .skip
  · right
    rw [hc]
    obtain ⟨r, r', ⟨d, a⟩, ⟨e, b⟩, hx, hy, hrc, hdel⟩ := hpairs.next h.msg_decoder (env.msg2 0) (env'.msg2 0)
    have hput : Twins R (RetStack.Alike max) { s with msg_decoder := d } { t with msg_decoder := e } := by
      obtain ⟨-, m, stack, -, hm, hstack⟩ := h
      exact ⟨e, m, stack, hdel.behind, hm, hstack⟩
    have hrun : ∀ {w : TraceDecoder MsgDecoder} {r : Except NexusError Nat} {m₀ m : Msg} {d : MsgDecoder},
        msg_source.next (w.msg_decoder, m₀) = some (r, d, m) →
        ∀ e, e.msg2 0 = m₀ → exec msg_source e .skip w = some (r.map fun n => .skipped n m, { w with msg_decoder := d }) := by
      intro w r m₀ m d hn e he
      rw [← he] at hn
      have hmsg2 : next_msg2 msg_source (e.msg2 0) w = some (r.map fun n => (n, m), { w with msg_decoder := d }) := by
        rw [next_msg2_apply, hn]
        rfl
      change (next_msg2 msg_source (e.msg2 0) >>= fun r => pure (Result.skipped r.1 r.2)) w = _
      cases r with
      | error err => exact Proc.bind_error hmsg2
      | ok n => exact Proc.bind_ok hmsg2
    refine ⟨_, _, _, _, hrun hx env rfl, hrun hy env' rfl, ?_, hput⟩
    cases hrc with
    | error err => exact SameReturn.refl hN _
    | ok hnn => exact ⟨hnn, fun hn => hdel.same _ rfl (.inl hn)⟩
  · have htwin : Twinned R (RetStack.Alike max) (exec msg_source env c s) (exec msg_source env' c t) :=
      exec_twins hpairs (fun r r' hr => .clear ⟨hr.inv, hr.max_eq⟩ ⟨hr.inv', hr.max_eq'⟩) (fun a hr => hr.push hmem hmem' hmax a)
        (fun hr => hr.pop) (hmsg2.resolve_left hc) halloc h hc
    rcases htwin with hnone | ⟨r, u, v, hu, hv, huv⟩
    · exact .inl hnone
    · exact .inr ⟨r, u, r, v, hu, hv, .refl hN r, huv⟩

/-- A relation that every call keeps, of the calls to come and the two decoders, holds at the end of two runs. -/
theorem play_related {K : List (Env × Env × Call) → TraceDecoder MsgDecoder → TraceDecoder MsgDecoder → Prop}
    (hstep : ∀ {env env' : Env} {c : Call} {calls : List (Env × Env × Call)} {s t : TraceDecoder MsgDecoder}, K ((env, env', c) :: calls) s t →
      (exec msg_source env c s = none ∧ exec msg_source env' c t = none) ∨ ∃ r u r' v, exec msg_source env c s = some (r, u) ∧
        exec msg_source env' c t = some (r', v) ∧ SameReturn N r r' ∧ K calls u v) (calls : List (Env × Env × Call)) :
    ∀ {s t : TraceDecoder MsgDecoder}, K calls s t →
      (play msg_source (calls.map fun x => (x.1, x.2.2)) s = none ∧ play msg_source (calls.map fun x => (x.2.1, x.2.2)) t = none) ∨
        ∃ rs u rs' v, play msg_source (calls.map fun x => (x.1, x.2.2)) s = some (rs, u) ∧
          play msg_source (calls.map fun x => (x.2.1, x.2.2)) t = some (rs', v) ∧ List.Forall₂ (SameReturn N) rs rs' ∧ K [] u v := by
  induction calls with
  | nil => exact fun h => .inr ⟨[], _, [], _, rfl, rfl, .nil, h⟩
  | cons x calls ih =>
    intro s t h
    obtain ⟨env, env', c⟩ := x
    simp only [List.map_cons, play]
    rcases hstep h with ⟨hs, ht⟩ | ⟨r, u, r', v, hs, ht, hr, huv⟩
    · left
      rw [hs, ht]
      exact ⟨rfl, rfl⟩
    · rw [hs, ht]
      rcases ih huv with ⟨hu, hv⟩ | ⟨rs, u', rs', v', hu, hv, hrs, hend⟩
      · left
        simp [hu, hv]
      · right
        refine ⟨r :: rs, u', r' :: rs', v', ?_, ?_, .cons hr hrs, hend⟩
        · simp [hu]
        · simp [hv]

theorem exec_comparable (hmax : max < 2 ^ 31) (h : StackTwins max s t) (halloc : env.alloc = env'.alloc) (hmem : ∀ n, (env.mem n).isSome)
    (hmem' : ∀ n, (env'.mem n).isSome) (hpast : env.msg2 = env'.msg2 ∨ ¬ c.LooksPast env s) :
    (exec msg_source env c s = none ∧ exec msg_source env' c t = none) ∨ ∃ r u r' v, exec msg_source env c s = some (r, u) ∧
      exec msg_source env' c t = some (r', v) ∧ SameReturn Eq r r' ∧ StackTwins max u v := by
  by_cases hc : c = .skip
  · exact exec_paired same_point_pairs (fun _ => rfl) hmax h halloc hmem hmem' (.inl hc)
  -- the messages of the second run do as well for the first
  have hsame : ∃ e : Env, e.msg2 = env'.msg2 ∧ e.alloc = env.alloc ∧ e.mem = env.mem ∧ exec msg_source env c s = exec msg_source e c s := by
    rcases hpast with heq | hpast
    · exact ⟨env, heq, rfl, rfl, rfl⟩
    · refine ⟨⟨env'.msg2, env.alloc, env.mem⟩, rfl, rfl, rfl, ?_⟩
      apply exec_within (unfiltered_unblurred h.msg_decoder.unfiltered.1) _ _ ⟨h.msg_decoder.inv.1, rfl⟩ hc hpast
      · rfl
      · rfl
  obtain ⟨e, hemsg, healloc, hemem, heq⟩ := hsame
  rw [heq]
  exact exec_paired same_point_pairs (fun _ => rfl) hmax h (healloc.trans halloc) (hemem ▸ hmem) hmem' (.inr ⟨hemsg, fun _ => trivial⟩)

theorem play_comparable (hmax : max < 2 ^ 31) (calls : List (Env × Env × Call)) (h : StackTwins max s t) (hcomp : Comparable calls s) :
    SameRun (play msg_source (calls.map fun x => (x.1, x.2.2)) s) (play msg_source (calls.map fun x => (x.2.1, x.2.2)) t) := by
  have hrun := play_related (N := Eq) (K := fun calls s t => StackTwins max s t ∧ Comparable calls s) ?_ calls ⟨h, hcomp⟩
  · rcases hrun with hnone | ⟨rs, u, rs', v, hu, hv, hrs, hend, -⟩
    · exact .inl hnone
    · exact .inr ⟨rs, u, rs', v, hu, hv, hrs, by cases hend; rfl, hend.return_stack.contents_eq, hend.msg_decoder⟩
  · rintro env env' c calls s t ⟨h, ⟨halloc, hmem, hmem', hpast⟩, hrest⟩
    rcases exec_comparable hmax h halloc hmem hmem' hpast with hnone | ⟨r, u, r', v, hs, ht, hr, huv⟩
    · exact .inl hnone
    · exact .inr ⟨r, u, r', v, hs, ht, hr, huv, hrest r u hs⟩

/-! ## What is forgotten -/

/-- Two decoders that lost sync and come to the same point of the stream find the same sync message, and are twins behind it. -/
theorem resync_twins {s' t' : TraceDecoder MsgDecoder} {y y' : Option TraceSync} (hs : Reachable s) (ht : Reachable t)
    (hsync : s.synced = false) (hsync' : t.synced = false) (hpoint : SamePoint s.msg_decoder t.msg_decoder)
    (hmax : s.msg_decoder.hw_cfg.max_stack < 2 ^ 31) (h : trace_sync_reset msg_source env s = some (.ok y, s'))
    (h' : trace_sync_reset msg_source env' t = some (.ok y', t')) : y = y' ∧ StackTwins s.msg_decoder.hw_cfg.max_stack s' t' := by
  have hcfg : t.msg_decoder.hw_cfg = s.msg_decoder.hw_cfg := (same_point_pairs.hw_cfg hpoint).symm
  have hstack := hs.housed hpoint.unfiltered.1 hmax
  have hstack' := ht.housed hpoint.unfiltered.2 (hcfg.symm ▸ hmax)
  obtain ⟨u, hu, huy, hy, hs'⟩ := sync_reset_found h hsync
  obtain ⟨v, hv, -, hy', ht'⟩ := sync_reset_found h' hsync'
  -- a buffered message is dropped, and the searches start from the same point
  obtain ⟨k, hu⟩ := hu.empty (hs.unanchored hsync)
  obtain ⟨k', hv⟩ := hv.empty (ht.unanchored hsync')
  obtain ⟨hmeet, hsame⟩ := hu.meet rfl hv rfl rfl hpoint
  have hstacks : RetStack.Alike s.msg_decoder.hw_cfg.max_stack (retstack_clear u.return_stack) (retstack_clear v.return_stack) := by
    rw [hu.return_stack, hv.return_stack]
    exact .clear ⟨hstack.stack, hstack.max_eq⟩ ⟨hstack'.stack, hcfg ▸ hstack'.max_eq⟩
  have htwins : StackTwins s.msg_decoder.hw_cfg.max_stack s' t' := by
    rw [hs', ht']
    exact resynced_twins hmeet hsame huy hstacks
  refine ⟨?_, htwins⟩
  have hucfg : (u.resynced.sync_event msg_source) = v.resynced.sync_event msg_source := by
    have hxaddr : u.msg.xaddr = v.msg.xaddr := hsame.xaddr (sync_has_xaddr huy)
    have htype : u.msg.sync_type = v.msg.sync_type := hsame.sync_type huy
    have hcfg : msg_source.hw_cfg u.msg_decoder = msg_source.hw_cfg v.msg_decoder := same_point_pairs.hw_cfg hmeet
    change TraceSync.mk (extend_addr_bits (u.msg.xaddr <<< 1) (msg_source.hw_cfg u.msg_decoder).addr_bits) u.msg.sync_type = _
    rw [hxaddr, htype, hcfg]
    rfl
  rw [hy, hy', hucfg]

/-- A resync forgets what came before: two decoders that lost sync, whatever happened to them, and come to the same point of the stream, find
the same sync message, and nothing that is called behind it tells them apart. -/
theorem resync_erases {s' t' : TraceDecoder MsgDecoder} {y y' : Option TraceSync} (hs : Reachable s) (ht : Reachable t)
    (hsync : s.synced = false) (hsync' : t.synced = false) (hpoint : SamePoint s.msg_decoder t.msg_decoder)
    (hmax : s.msg_decoder.hw_cfg.max_stack < 2 ^ 31) (h : trace_sync_reset msg_source env s = some (.ok y, s'))
    (h' : trace_sync_reset msg_source env' t = some (.ok y', t')) :
    y = y' ∧ ∀ calls : List (Env × Env × Call), Comparable calls s' →
      SameRun (play msg_source (calls.map fun x => (x.1, x.2.2)) s') (play msg_source (calls.map fun x => (x.2.1, x.2.2)) t') := by
  obtain ⟨hy, htwins⟩ := resync_twins hs ht hsync hsync' hpoint hmax h h'
  exact ⟨hy, fun calls hcomp => play_comparable hmax calls htwins hcomp⟩

/-- Behind a resync only the stream from the sync message on shows in what is returned, where the call stack can always grow and no look-ahead
runs past the end of the stream. -/
theorem resync_forgets_history {s' t' : TraceDecoder MsgDecoder} {y y' : Option TraceSync} (hs : Reachable s) (ht : Reachable t)
    (hsync : s.synced = false) (hsync' : t.synced = false) (hpoint : SamePoint s.msg_decoder t.msg_decoder)
    (hmax : s.msg_decoder.hw_cfg.max_stack < 2 ^ 31) (h : trace_sync_reset msg_source env s = some (.ok y, s'))
    (h' : trace_sync_reset msg_source env' t = some (.ok y', t')) :
    y = y' ∧ ∀ calls : List (Env × Env × Call), (∀ x ∈ calls, SameRoom x.1 x.2.1) → NeverPast (calls.map fun x => (x.1, x.2.2)) s' →
      SameRun (play msg_source (calls.map fun x => (x.1, x.2.2)) s') (play msg_source (calls.map fun x => (x.2.1, x.2.2)) t') := by
  obtain ⟨hy, htwins⟩ := resync_twins hs ht hsync hsync' hpoint hmax h h'
  refine ⟨hy, fun calls hroom hpast => ?_⟩
  have hcomp : Comparable calls s' := .of_room hroom hpast
  exact play_comparable hmax calls htwins hcomp

deriving instance DecidableEq for Fd, MsgDecoder

/-- A sync message, an error, a sync message and five instructions up to a direct branch. -/
def resync_bytes : List UInt8 := [0x24, 0x01, 0x07, 0x20, 0x07, 0x24, 0x01, 0x07, 0x0c, 0x17]

/-- Behind the error, without sync, at the address `addr`. -/
def behind_error (addr : UInt64) (t : TraceDecoder MsgDecoder) : Bool :=
  !t.synced && t.full_addr == addr &&
    decide (t.msg_decoder = ⟨plain_cfg, ⟨[0x0c, 0x17], []⟩, -1, [0x24, 0x01, 0x07, 0x20, 0x07, 0x24, 0x01, 0x07], 8, 0, 8, 5, 2⟩)

/-- An environment in which no allocation fails. -/
def roomy_env : Env := ⟨fun _ => Msg.zero, fun _ => true, fun _ => some fun _ => 0⟩

theorem sync_reset_of_exec {σ : Type} {src : Source σ} {env : Env} {s t : TraceDecoder σ} {y : Option TraceSync}
    (h : exec src env .sync_reset s = some (.ok (.reset y), t)) : trace_sync_reset src env s = some (.ok y, t) := by
  obtain ⟨r, hr, he⟩ := Proc.map_eq_some.1 h
  rcases r with e | y' <;> cases he
  exact hr

/-- A decoder behind an error, and one whose caller skipped the messages up to there. -/
theorem behind_error_two : ∃ s t s' t' : TraceDecoder MsgDecoder, (Reachable s ∧ Reachable t ∧ s.synced = false ∧ t.synced = false ∧
    SamePoint s.msg_decoder t.msg_decoder ∧ s.msg_decoder.hw_cfg.max_stack < 2 ^ 31) ∧ s.full_addr ≠ t.full_addr ∧
    trace_sync_reset msg_source roomy_env s = some (.ok (some ⟨2, 0⟩), s') ∧ trace_sync_reset msg_source roomy_env t = some (.ok (some ⟨2, 0⟩), t') := by
  have hrun : ((play msg_source [(roomy_env, .sync_reset), (roomy_env, .next_error)] (fresh_decoder plain_cfg resync_bytes)).bind fun p =>
      (play msg_source [(roomy_env, .sync_reset)] p.2).map fun q => (p.1, behind_error 1 p.2, q.1, ())) =
      some ([.ok (.reset (some ⟨2, 0⟩)), .ok (.error ⟨0, 1⟩)], true, [.ok (.reset (some ⟨2, 0⟩))], ()) := by decide +kernel
  have hrun' : ((play msg_source [(roomy_env, .skip), (roomy_env, .skip)] (fresh_decoder plain_cfg resync_bytes)).bind fun p =>
      (play msg_source [(roomy_env, .sync_reset)] p.2).map fun q => (p.1, behind_error 0 p.2, q.1, ())) =
      some ([.ok (.skipped 3 { Msg.zero with tcode := .ProgTraceSync, xaddr := 1 }), .ok (.skipped 2 { Msg.zero with tcode := .Error, bits := 1 })],
        true, [.ok (.reset (some ⟨2, 0⟩))], ()) := by decide +kernel
  obtain ⟨s, s', hs, hreset, hbehind, -⟩ := exec_shown (behind_error 1) (fun _ => ()) hrun
  obtain ⟨t, t', ht, hreset', hbehind', -⟩ := exec_shown (behind_error 0) (fun _ => ()) hrun'
  simp only [behind_error, Bool.and_eq_true, Bool.not_eq_true', beq_iff_eq, decide_eq_true_eq] at hbehind hbehind'
  obtain ⟨⟨hsync, haddr⟩, hd⟩ := hbehind
  obtain ⟨⟨hsync', haddr'⟩, hd'⟩ := hbehind'
  have hreach : Reachable s := fresh_reachable rfl hs
  have hpoint : SamePoint s.msg_decoder t.msg_decoder := by
    rw [hd', ← hd]
    exact .same hreach.inv (by rw [hd]; decide)
  exact ⟨s, t, s', t', ⟨hreach, fresh_reachable rfl ht, hsync, hsync', hpoint, by rw [hd]; decide⟩, by rw [haddr, haddr']; decide,
    sync_reset_of_exec hreset, sync_reset_of_exec hreset'⟩

theorem resync_erases_two : ∃ (s t s' t' : TraceDecoder MsgDecoder) (y y' : Option TraceSync), s.full_addr ≠ t.full_addr ∧
    trace_sync_reset msg_source roomy_env s = some (.ok y, s') ∧ trace_sync_reset msg_source roomy_env t = some (.ok y', t') ∧
    y = y' ∧ ∀ calls : List (Env × Env × Call), Comparable calls s' →
      SameRun (play msg_source (calls.map fun x => (x.1, x.2.2)) s') (play msg_source (calls.map fun x => (x.2.1, x.2.2)) t') := by
  obtain ⟨s, t, s', t', ⟨hs, ht, hsync, hsync', hpoint, hmax⟩, haddr, hreset, hreset'⟩ := behind_error_two
  exact ⟨s, t, s', t', _, _, haddr, hreset, hreset', resync_erases hs ht hsync hsync' hpoint hmax hreset hreset'⟩

/-- A call and a return behind the resync. -/
theorem resync_forgets_history_two : ∃ (s t s' t' : TraceDecoder MsgDecoder) (y y' : Option TraceSync), s.full_addr ≠ t.full_addr ∧
    trace_sync_reset msg_source roomy_env s = some (.ok y, s') ∧ trace_sync_reset msg_source roomy_env t = some (.ok y', t') ∧
    y = y' ∧ SameRun (play msg_source [(roomy_env, .push_call 8), (roomy_env, .pop_ret)] s')
      (play msg_source [(roomy_env, .push_call 8), (roomy_env, .pop_ret)] t') := by
  obtain ⟨s, t, s', t', ⟨hs, ht, hsync, hsync', hpoint, hmax⟩, haddr, hreset, hreset'⟩ := behind_error_two
  obtain ⟨hy, hrun⟩ := resync_forgets_history hs ht hsync hsync' hpoint hmax hreset hreset'
  refine ⟨s, t, s', t', _, _, haddr, hreset, hreset', hy, ?_⟩
  have hroom : SameRoom roomy_env roomy_env := ⟨rfl, fun _ => rfl, fun _ => rfl⟩
  apply hrun [(roomy_env, roomy_env, .push_call 8), (roomy_env, roomy_env, .pop_ret)]
  · simp [hroom]
  · apply never_past_of
    simp [Call.LooksPast]

def stack_cfg : HwCfg := { plain_cfg with max_stack := 64 }

/-- A fresh trace decoder with a call stack of 32 slots, which may grow to 64. -/
def stack_decoder : TraceDecoder MsgDecoder := { fresh_decoder stack_cfg resync_bytes with return_stack := ⟨List.replicate 32 0, 32, 64, 0, 0⟩ }

theorem stack_decoder_reachable : Reachable stack_decoder :=
  Initial.reachable ⟨stack_cfg, ⟨resync_bytes, []⟩, -1, List.replicate 8 0, roomy_env, by rfl⟩

/-- An environment in which the call stack cannot grow. -/
def full_env : Env := { roomy_env with mem := fun _ => none }

/-- What a resync does not erase is the room that the call stack has: where it grew before, it takes 33 calls, and where it did not and cannot
grow any more, the last of them fails. -/
theorem resync_keeps_room : ∃ (s t s' t' : TraceDecoder MsgDecoder) (y : Option TraceSync) (calls : List (Env × Call))
    (rs rs' : List (Except NexusError Result)) (u v : TraceDecoder MsgDecoder), Reachable s ∧ Reachable t ∧ s.synced = false ∧ t.synced = false ∧
    SamePoint s.msg_decoder t.msg_decoder ∧ trace_sync_reset msg_source roomy_env s = some (.ok y, s') ∧
    trace_sync_reset msg_source roomy_env t = some (.ok y, t') ∧ NeverPast calls s' ∧ NeverPast calls t' ∧
    play msg_source calls s' = some (rs, u) ∧ play msg_source calls t' = some (rs', v) ∧ rs ≠ rs' := by
  have hgrown : ((play msg_source (List.replicate 33 (roomy_env, .push_call 8)) stack_decoder).bind fun p =>
      (play msg_source ((roomy_env, .sync_reset) :: List.replicate 33 (full_env, .push_call 8)) p.2).map fun q =>
        (p.1, (p.2.synced, p.2.msg_decoder), q.1, ())) =
      some (List.replicate 33 (.ok .done), (false, stack_decoder.msg_decoder), .ok (.reset (some ⟨2, 0⟩)) :: List.replicate 33 (.ok .done), ()) := by
    decide +kernel
  have hfresh : ((play msg_source [] stack_decoder).bind fun p =>
      (play msg_source ((roomy_env, .sync_reset) :: List.replicate 33 (full_env, .push_call 8)) p.2).map fun q =>
        (p.1, (p.2.synced, p.2.msg_decoder), q.1, ())) =
      some ([], (false, stack_decoder.msg_decoder),
        .ok (.reset (some ⟨2, 0⟩)) :: (List.replicate 32 (.ok .done) ++ [.error .no_mem]), ()) := by
    decide +kernel
  obtain ⟨s, u, hs, hu, hs₀, -⟩ := plays_shown (fun d => (d.synced, d.msg_decoder)) (fun _ => ()) hgrown
  obtain ⟨t, v, ht, hv, ht₀, -⟩ := plays_shown (fun d => (d.synced, d.msg_decoder)) (fun _ => ()) hfresh
  obtain ⟨s', hreset, hu⟩ := play_head hu
  obtain ⟨t', hreset', hv⟩ := play_head hv
  obtain ⟨hsync, hd⟩ := Prod.mk.inj hs₀
  obtain ⟨hsync', hd'⟩ := Prod.mk.inj ht₀
  have hreach : Reachable s := stack_decoder_reachable.play hs
  have hpoint : SamePoint s.msg_decoder t.msg_decoder := by
    rw [hd', ← hd]
    exact .same hreach.inv (by rw [hd]; decide)
  have hpast : ∀ w, NeverPast (List.replicate 33 (full_env, .push_call 8)) w := by
    apply never_past_of
    simp [Call.LooksPast]
  exact ⟨s, t, s', t', _, _, _, _, u, v, hreach, stack_decoder_reachable.play ht, hsync, hsync', hpoint, sync_reset_of_exec hreset,
    sync_reset_of_exec hreset', hpast s', hpast t', hu, hv, by decide⟩

/-- Two trace decoders from scratch, over message decoders that are paired. -/
theorem init_twins {R : MsgDecoder → MsgDecoder → Prop} {d e : MsgDecoder}
    (h : trace_decoder_init msg_source env d = .ok s) (h' : trace_decoder_init msg_source env' e = .ok t) (hcfg : d.hw_cfg = e.hw_cfg)
    (hR : R d e) :
    Twins R (RetStack.Alike d.hw_cfg.max_stack) s t := by
  have hinit : ∀ {env : Env} {d : MsgDecoder} {s : TraceDecoder MsgDecoder}, trace_decoder_init msg_source env d = .ok s →
      ∃ stack, RetStack.Inv stack ∧ stack.max = d.hw_cfg.max_stack ∧ stack.used = 0 ∧
        s = ⟨d, [], 0, 0, 0, 0, false, false, Msg.zero, 0, 0, stack⟩ := by
    intro env d s h
    unfold trace_decoder_init at h
    split at h
    · cases h
    · change (retstack_init env.mem d.hw_cfg.max_stack).map _ = _ at h
      rcases hr : retstack_init env.mem d.hw_cfg.max_stack with e | stack <;> rw [hr] at h <;> cases h
      obtain ⟨hi, hm, h0⟩ := RetStack.init_inv hr
      exact ⟨stack, hi, hm, h0, rfl⟩
  obtain ⟨stack, hi, hm, h0, rfl⟩ := hinit h
  obtain ⟨stack', hi', hm', h0', rfl⟩ := hinit h'
  refine ⟨_, _, _, hR, fun _ => .refl _, hi, hi', hm, hm'.trans (congrArg HwCfg.max_stack hcfg.symm), ?_⟩
  rw [List.eq_nil_of_length_eq_zero ((RetStack.contents_length _).trans h0),
    List.eq_nil_of_length_eq_zero ((RetStack.contents_length _).trans h0')]

/-- How large the buffer is, and what it held before, makes no difference to a user of the trace decoder. -/
theorem buffer_invisible {hwcfg : HwCfg} {S buffer buffer' : List UInt8}
    (hsize : buffer.length = buffer'.length ∨ Fits buffer.length S ∧ Fits buffer'.length S) (hmax : hwcfg.max_stack < 2 ^ 31)
    (h : trace_decoder_init msg_source env (msg_decoder_init hwcfg ⟨S, []⟩ (-1) buffer buffer.length) = .ok s)
    (h' : trace_decoder_init msg_source env' (msg_decoder_init hwcfg ⟨S, []⟩ (-1) buffer' buffer'.length) = .ok t)
    (calls : List (Env × Env × Call)) (hcomp : Comparable calls s) :
    SameRun (play msg_source (calls.map fun x => (x.1, x.2.2)) s) (play msg_source (calls.map fun x => (x.2.1, x.2.2)) t) := by
  have hpoint : SamePoint (msg_decoder_init hwcfg ⟨S, []⟩ (-1) buffer buffer.length) (msg_decoder_init hwcfg ⟨S, []⟩ (-1) buffer' buffer'.length) :=
    .placed (init_placed hwcfg S (by decide) buffer) (init_placed hwcfg S (by decide) buffer') hsize
  exact play_comparable hmax calls (init_twins h h' rfl hpoint) hcomp

/-- A buffer of eight bytes and one of sixteen. -/
theorem buffer_invisible_two : ∃ s t : TraceDecoder MsgDecoder,
    SameRun (play msg_source [(roomy_env, .sync_reset)] s) (play msg_source [(roomy_env, .sync_reset)] t) := by
  have hinit : ∀ n : Nat, trace_decoder_init msg_source roomy_env
      (msg_decoder_init plain_cfg ⟨resync_bytes, []⟩ (-1) (List.replicate n 0xff) (List.replicate n 0xff).length) =
      .ok ⟨msg_decoder_init plain_cfg ⟨resync_bytes, []⟩ (-1) (List.replicate n 0xff) (List.replicate n 0xff).length, [], 0, 0, 0, 0,
        false, false, Msg.zero, 0, 0, ⟨[], 0, 0, 0, 0⟩⟩ := by
    intro n
    rfl
  refine ⟨_, _, buffer_invisible (.inr ⟨?_, ?_⟩) (by decide) (hinit 8) (hinit 16) [(roomy_env, roomy_env, .sync_reset)] ?_⟩
  · exact ⟨by decide, by decide⟩
  · exact ⟨by decide, by decide⟩
  · exact ⟨⟨rfl, fun _ => rfl, fun _ => rfl, .inl rfl⟩, fun _ _ _ => trivial⟩

end Runs

end nexusrv
