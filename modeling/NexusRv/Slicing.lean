import NexusRv.TraceSource
/-!
# Slicing of retirement

Two calls of `try_retire` retire what one call retires that asks for both, and
leave the same state, where what is looked ahead into is the same message.
-/

namespace nexusrv

section Slicing
variable {σ α : Type} {src : Source σ}

/-! ## Fetching -/

/-- A fetch, with another `res_icnt`. -/
theorem Fetched.again {msg2 : Msg} {s t : TraceDecoder σ} {b : Bool} (h : Fetched src msg2 s (.ok b) t) (icnt : Nat) :
    Fetched src msg2 { s with res_icnt := icnt } (.ok b) { t with res_icnt := icnt } := by
  cases h with
  | present hp => exact .present hp
  | plain n d m hp hn h0 hc hb => exact .plain n d m hp hn h0 hc hb
  | ahead_other n d m n₂ d₂ m₂ d₃ hp hn h0 hc hb hn₂ hk hback => exact .ahead_other n d m n₂ d₂ m₂ d₃ hp hn h0 hc hb hn₂ hk hback
  | repeated n d m n₂ d₂ m₂ hp hn h0 hc hb hn₂ hk => exact .repeated n d m n₂ d₂ m₂ hp hn h0 hc hb hn₂ hk

theorem Fetched.of_present {msg2 : Msg} {r : Except NexusError Bool} {s t : TraceDecoder σ} (hp : s.msg_present = true)
    (h : Fetched src msg2 s r t) : t = s := by
  cases h with
  | present => rfl
  | failed _ _ _ h0 | eof _ _ h0 | unsupported _ _ _ _ h0 | plain _ _ _ h0 | ahead_failed _ _ _ _ _ _ h0 | ahead_other _ _ _ _ _ _ _ h0
  | repeated _ _ _ _ _ _ h0 => exact absurd hp (by simp [h0])

theorem res_not_repeatable {m : Msg} (hres : msg_is_res m = true) (hb : repeatable m = true) : False := by
  simp only [msg_is_res, decide_eq_true_eq] at hres
  simp [repeatable, msg_is_branch, hres] at hb

/-- A ResourceFull message is fetched without looking ahead. -/
theorem Fetched.next_res {msg2 : Msg} {s t : TraceDecoder σ} {b : Bool} (h : Fetched src msg2 s (.ok b) t) (hp : s.msg_present = false)
    (hres : msg_is_res t.msg = true) : ∃ n d m, src.next (s.msg_decoder, s.msg) = some (.ok n, d, m) ∧ n ≠ 0 ∧ t.msg_decoder = d ∧ t.msg = m := by
  cases h with
  | present hp' => exact Bool.noConfusion (hp.symm.trans hp')
  | plain n d m _ hn h0 => exact ⟨n, d, m, hn, h0, rfl, rfl⟩
  | ahead_other n d m n₂ d₂ m₂ d₃ _ _ _ _ hb => exact (res_not_repeatable hres hb).elim
  | repeated n d m n₂ d₂ m₂ _ _ _ _ hb => exact (res_not_repeatable hres hb).elim

/-! ## One call for two -/

/-- `a` of the instructions that are left can be taken. -/
structure Sliced (a : Nat) (s : TraceDecoder σ) : Prop where
  booked : Booked s
  synced : s.synced = true
  settled : s.settled
  le : a ≤ s.icnt_left
  present : s.res_icnt < a → s.msg_present = true

theorem Sliced.taken {a : Nat} {s : TraceDecoder σ} (h : Sliced a s) : Booked (s.take_icnt a) :=
  h.booked.take h.settled h.le h.synced h.present

/-- What is left behind a slice. -/
theorem Sliced.left {a : Nat} {s : TraceDecoder σ} (h : Sliced a s) : (s.take_icnt a).icnt_left = s.icnt_left - a := by
  have hlt := h.booked.sum_lt h.settled
  have hone := h.booked.one
  have hown := h.booked.own
  have hle := h.le
  have hb : (s.take_icnt a).buffered_icnt = s.buffered_icnt := by
    obtain ⟨h1, h2, -⟩ := take_icnt_frame a s
    unfold TraceDecoder.buffered_icnt
    rw [h1, h2]
  rw [h.taken.left (take_settled h.settled), hb]
  rw [h.booked.left h.settled] at hle ⊢
  unfold TraceDecoder.take_icnt
  split
  · dsimp only
    omega
  · dsimp only
    rw [Nat.mod_eq_of_lt (by omega)]
    omega

/-- Two slices are one. -/
theorem Sliced.take_take {a : Nat} {s : TraceDecoder σ} (h : Sliced a s) (b : Nat) :
    (s.take_icnt a).take_icnt b = s.take_icnt (a + b) := by
  have hlt := h.booked.sum_lt h.settled
  have hone := h.booked.one
  have hown := h.booked.own
  have hle := h.le
  rw [h.booked.left h.settled] at hle
  by_cases h1 : s.res_icnt ≥ a
  · rw [show s.take_icnt a = { s with res_icnt := s.res_icnt - a } from if_pos h1]
    by_cases h2 : s.res_icnt ≥ a + b
    · rw [show s.take_icnt (a + b) = { s with res_icnt := s.res_icnt - (a + b) } from if_pos h2]
      unfold TraceDecoder.take_icnt
      rw [if_pos (by dsimp only; omega), Nat.sub_sub]
    · rw [show s.take_icnt (a + b) = { s with consumed_icnt := (s.consumed_icnt + (a + b - s.res_icnt)) % 2 ^ 32, res_icnt := 0 } from
        if_neg h2]
      unfold TraceDecoder.take_icnt
      rw [if_neg (by dsimp only; omega)]
      dsimp only
      rw [show b - (s.res_icnt - a) = a + b - s.res_icnt by omega]
  · rw [show s.take_icnt a = { s with consumed_icnt := (s.consumed_icnt + (a - s.res_icnt)) % 2 ^ 32, res_icnt := 0 } from if_neg h1,
      show s.take_icnt (a + b) = { s with consumed_icnt := (s.consumed_icnt + (a + b - s.res_icnt)) % 2 ^ 32, res_icnt := 0 } from
        if_neg (by omega)]
    unfold TraceDecoder.take_icnt
    by_cases h2 : b = 0
    · rw [if_pos (by dsimp only; omega), h2]
      rfl
    · rw [if_neg (by dsimp only; omega)]
      dsimp only
      rw [Nat.mod_add_mod]
      rw [show s.consumed_icnt + (a - s.res_icnt) + (b - 0) = s.consumed_icnt + (a + b - s.res_icnt) by omega]

/-- A pull behind a slice is a pull in front of it. -/
theorem Sliced.pull {a : Nat} {s u : TraceDecoder σ} {b : Bool} (h : Sliced a s) (hmax : s.icnt_left ≤ INT32_MAX) {env env' : Env} {j : Nat}
    (hmem : ∀ j k, env.msg2 j = env'.msg2 k) (halloc : ∀ n, env.alloc n = true → env'.alloc n = true)
    (hp : Pulled src env j (s.take_icnt a) (.ok b) u) :
    ∃ t, (∀ k, Pulled src env' k s (.ok b) t) ∧ u = t.take_icnt a ∧ Sliced a t ∧ (b = true ∨ t.msg_present = true) := by
  obtain ⟨f1, f2, f3, f4, f5, f6, f7⟩ := take_icnt_frame a s
  cases hpres : s.msg_present with
  | true =>
    -- the buffered message is none of ResourceFull, and stays
    have hres : msg_is_res s.msg = false := h.settled hpres
    have hstay : ∀ {r v}, Fetched src (env.msg2 j) (s.take_icnt a) r v → v = s.take_icnt a := fun hf => hf.of_present (f1.trans hpres)
    cases hp with
    | other b' _ hf =>
      exact ⟨s, fun _ => .other false s (.present hpres) hres, hstay hf, h, .inr hpres⟩
    | taken b' v e hf hres' =>
      rw [hstay hf, f2] at hres'
      exact nomatch hres.symm.trans hres'
  | false =>
    have hge : s.res_icnt ≥ a := Nat.le_of_not_lt fun hlt => nomatch hpres.symm.trans (h.present hlt)
    have h0 := h.booked.consumed_zero hpres
    have hmax' : s.res_icnt ≤ INT32_MAX := by
      rw [h.booked.left h.settled, h0] at hmax
      omega
    rw [show s.take_icnt a = { s with res_icnt := s.res_icnt - a } from if_pos hge] at hp
    -- the same message is fetched in front of the slice
    have hfetch : ∀ {b' : Bool} {v : TraceDecoder σ}, Fetched src (env.msg2 j) { s with res_icnt := s.res_icnt - a } (.ok b') v →
        ∃ t, (∀ k, Fetched src (env'.msg2 k) s (.ok b') t) ∧ v = { t with res_icnt := s.res_icnt - a } ∧ t.res_icnt = s.res_icnt ∧
          t.consumed_icnt = 0 := by
      intro b' v hf
      have hf' : ∀ k, Fetched src (env'.msg2 k) s (.ok b') { v with res_icnt := s.res_icnt } := fun k => hmem j k ▸ hf.again s.res_icnt
      have hv : v.res_icnt = s.res_icnt - a := congrArg TraceDecoder.res_icnt hf.frame
      exact ⟨_, hf', by rw [← hv], rfl, (congrArg TraceDecoder.consumed_icnt (hf' 0).frame).trans h0⟩
    cases hp with
    | other b' _ hf hres =>
      obtain ⟨t, hfk, rfl, ht, ht0⟩ := hfetch hf
      have hf' := hfk 0
      have hset : t.settled := fun _ => hres
      have hbook := hf'.booked h.booked
      refine ⟨t, fun k => .other b' t (hfk k) hres, by rw [TraceDecoder.take_icnt, ht, if_pos hge],
        ⟨hbook, hf'.synced.trans h.synced, hset, ?_, fun hlt => absurd hge (by omega)⟩, .inr hf'.filled⟩
      rw [hbook.left hset]
      omega
    | taken b' v e hf hres hel hlen hgrown hal =>
      obtain ⟨t, hfk, rfl, ht, ht0⟩ := hfetch hf
      have hf' := hfk 0
      have hbook := hf'.booked h.booked
      have hicnt : msg_has_icnt t.msg = true → t.msg.icnt.toNat ≤ MSG_ICNT_MAX := fun hi => by
        have := hbook.icnt_le hf'.filled
        rwa [Msg.own_icnt, if_pos hi] at this
      have hbig : INT32_MAX + MSG_ICNT_MAX ≤ UINT32_MAX - MSG_ICNT_MAX ∧ UINT32_MAX - MSG_ICNT_MAX < 2 ^ 32 := by decide
      have hg : t.grown = s.res_icnt + (if msg_has_icnt t.msg then t.msg.icnt.toNat else 0) ∧ t.grown ≤ INT32_MAX + MSG_ICNT_MAX := by
        unfold TraceDecoder.grown
        split
        · have := hicnt ‹_›
          rw [ht, Nat.mod_eq_of_lt (by omega)]
          exact ⟨rfl, by omega⟩
        · exact ⟨ht, by omega⟩
      have hga : TraceDecoder.grown { t with res_icnt := s.res_icnt - a } = t.grown - a := by
        rw [hg.1]
        unfold TraceDecoder.grown
        dsimp only
        split
        · have := hicnt ‹_›
          rw [Nat.mod_eq_of_lt (by omega)]
          omega
        · rfl
      have hpull : ∀ k, Pulled src env' k s (.ok true) (t.absorbed e) := fun k =>
        .taken b' t e (hfk k) hres hel hlen (fun _ => by omega) (halloc _ hal)
      have hset : (t.absorbed e).settled := fun h => nomatch h
      have hbook' : Booked (t.absorbed e) := ((hpull 0).micros (c := .next_tnt) h.synced h.settled rfl).keeps (fun _ _ _ => Micro.booked) h.booked
      have hres' : (t.absorbed e).res_icnt = t.grown := rfl
      refine ⟨t.absorbed e, hpull, ?_, ⟨hbook', hf'.synced.trans h.synced, hset, ?_, fun hlt => ?_⟩, .inl rfl⟩
      · rw [TraceDecoder.take_icnt, hres', if_pos (by omega), TraceDecoder.absorbed, hga]
        rfl
      · rw [hbook'.left hset, hres', show (t.absorbed e).consumed_icnt = 0 from ht0]
        omega
      · rw [hres'] at hlt
        omega

theorem take_zero (s : TraceDecoder σ) : s.take_icnt 0 = s := if_pos (Nat.zero_le _)

theorem retire_icnt_some {n : Nat} {s : TraceDecoder σ} (h : Sliced n s) (hlt : n < s.icnt_left) :
    retire_icnt n s = some (.ok (some n), s.take_icnt n) := by
  have hle : s.consumed_icnt ≤ s.icnt_total := by
    have := h.booked.own
    rw [h.booked.total h.settled]
    omega
  have hav : trace_available_icnt s = some (.ok s.icnt_left, s) := available_icnt_iff.2 ⟨h.settled, hle, rfl, rfl⟩
  have htake : trace_consume_icnt n s = some (.ok (), s.take_icnt n) :=
    consume_icnt_iff.2 ⟨h.settled, hle, h.le, h.booked.one, h.present, rfl, rfl⟩
  rw [retire_icnt, Proc.bind_ok hav, Proc.ite_apply, if_pos hlt, Proc.bind_ok htake]
  rfl

theorem retire_icnt_none {n : Nat} {s : TraceDecoder σ} (hb : Booked s) (hset : s.settled) (hle : s.icnt_left ≤ n) :
    retire_icnt n s = some (.ok none, s) := by
  have hown : s.consumed_icnt ≤ s.icnt_total := by
    have := hb.own
    rw [hb.total hset]
    omega
  exact retire_icnt_few hset hown hle

/-- Where a message stands that is none of ResourceFull, the loop pulls nothing more. -/
theorem Loop.stands {env : Env} {done : Trace σ (Option α)} (hasks : Asks done) {k k' : Nat} {rc rc' : Bool} {s s' : TraceDecoder σ}
    {r : Except NexusError (Option α)} (hp : s.msg_present = true) (h : Loop src env done k rc s r s') : Loop src env done k' rc' s r s' := by
  have hpull : ∀ {k b u}, s.settled → trace_pull_msg src env k s = some (b, u) → b = .ok false ∧ u = s := by
    intro k b u hset h
    have hf : Fetched src (env.msg2 k) s (.ok false) s := .present hp
    have hother := pull_of (.other false s hf (hset hp))
    rw [h] at hother
    cases hother
    exact ⟨rfl, rfl⟩
  have hstop : done s = some (.ok none, s) → s.settled → Loop src env done k' rc' s (.ok none) s := by
    intro hd hset
    cases rc' with
    | false => exact .stop hd
    | true =>
      have hf : Fetched src (env.msg2 k') s (.ok false) s := .present hp
      exact .pull hd (pull_of (.other false s hf (hset hp))) (.stop hd)
  have hnone : ∀ {t}, done s = some (.ok none, t) → t = s ∧ s.settled := fun h => by
    obtain ⟨-, hts, hset⟩ | ⟨a, ha⟩ := hasks _ _ _ h
    · exact ⟨hts, hset⟩
    · cases ha
  cases h with
  | found h => exact .found h
  | failed h => exact .failed h
  | stop h =>
    obtain ⟨hts, hset⟩ := hnone h
    rw [hts] at h ⊢
    exact hstop h hset
  | pull_failed h hpl =>
    obtain ⟨hts, hset⟩ := hnone h
    rw [hts] at hpl
    exact nomatch (hpull hset hpl).1
  | @pull _ _ t u _ rc₁ _ h hpl hrest =>
    obtain ⟨hts, hset⟩ := hnone h
    rw [hts] at hpl h
    obtain ⟨hb, hu⟩ := hpull hset hpl
    cases hb
    rw [hu] at hrest
    cases hrest with
    | found h => exact .found h
    | failed h => exact .failed h
    | stop h =>
      obtain ⟨hts, -⟩ := hnone h
      rw [hts]
      rw [hts] at h
      exact hstop h hset

/-- The loop of a call that asks for more goes through where a loop ends. -/
theorem loop_through {a c : Nat} (hac : a ≤ c) (hc : c ≤ INT32_MAX) {env env' : Env} (hmem : ∀ j k, env.msg2 j = env'.msg2 k)
    (halloc : ∀ n, env.alloc n = true → env'.alloc n = true)
    {k : Nat} {rc : Bool} {s u : TraceDecoder σ} {r : Except NexusError (Option Nat)} (h : Loop src env (retire_icnt a) k rc s r u) :
    Booked s → s.synced = true → (rc = true ∨ s.msg_present = true) → ∀ x, r = .ok x →
    ∃ t, Booked t ∧ t.synced = true ∧ t.settled ∧ (t.res_icnt < a → t.msg_present = true) ∧
      (x = some a ∧ a < t.icnt_left ∧ u = t.take_icnt a ∨ x = none ∧ t.icnt_left ≤ a ∧ u = t ∧ t.msg_present = true) ∧
      ∀ r' v, (∀ k, Loop src env' (retire_icnt c) k true t r' v) → ∀ k, Loop src env' (retire_icnt c) k rc s r' v := by
  induction h with
  | @found k rc s u n h =>
    intro hb hsync hrc x hx
    cases hx
    obtain ⟨hset, -, ⟨-, hr, -⟩ | ⟨hlt, -, hp, hr, hu⟩⟩ := retire_icnt_cases h <;> cases hr
    refine ⟨s, hb, hsync, hset, hp, .inl ⟨rfl, hlt, hu⟩, fun r' v hv k => ?_⟩
    rcases hrc with rfl | hpres
    · exact hv k
    · exact (hv k).stands (asks_icnt c) hpres
  | failed => exact fun _ _ _ x hx => nomatch hx
  | @stop k s u h =>
    intro hb hsync hrc x hx
    cases hx
    have hpres : s.msg_present = true := hrc.resolve_left Bool.false_ne_true
    obtain ⟨hset, -, ⟨hle, -, hu⟩ | ⟨-, -, -, hr, -⟩⟩ := retire_icnt_cases h
    · exact ⟨s, hb, hsync, hset, fun _ => hpres, .inr ⟨rfl, hle, hu, hpres⟩, fun r' v hv k => (hv k).stands (asks_icnt c) hpres⟩
    · cases hr
  | pull_failed => exact fun _ _ _ x hx => nomatch hx
  | @pull k s t u v rc r h hpull _ ih =>
    intro hb hsync _ x hx
    obtain ⟨hset, -, ⟨hle, -, hts⟩ | ⟨-, -, -, hr, -⟩⟩ := retire_icnt_cases h
    · rw [hts] at hpull
      have hs : Sliced 0 s := ⟨hb, hsync, hset, Nat.zero_le _, fun h => nomatch h⟩
      have hpulled := pull_cases hpull
      rw [← take_zero s] at hpulled
      obtain ⟨w, hagain, hu, hsw, hrc⟩ := hs.pull (Nat.le_trans hle (Nat.le_trans hac hc)) hmem halloc hpulled
      rw [take_zero] at hu
      rw [← hu] at hagain hsw hrc
      obtain ⟨t', h1, h2, h3, h4, h5, h6⟩ := ih hsw.booked hsw.synced hrc x hx
      refine ⟨t', h1, h2, h3, h4, h5, fun r' v' hv k' => ?_⟩
      exact .pull (retire_icnt_none hb hset (Nat.le_trans hle hac)) (pull_of (hagain k')) (h6 r' v' hv (k' + 1))
    · cases hr

/-- The loop behind a slice, in front of it. -/
theorem Sliced.loop {a b : Nat} (hab : a + b ≤ INT32_MAX) {env env' : Env} (hmem : ∀ j k, env.msg2 j = env'.msg2 k)
    (halloc : ∀ n, env.alloc n = true → env'.alloc n = true)
    {j : Nat} {rc : Bool} {u v : TraceDecoder σ} {r : Except NexusError (Option Nat)} (h : Loop src env (retire_icnt b) j rc u r v) :
    ∀ s, u = s.take_icnt a → Sliced a s → (rc = true ∨ s.msg_present = true) → ∀ x, r = .ok x →
      x = some b ∧ (∀ k, Loop src env' (retire_icnt (a + b)) k true s (.ok (some (a + b))) v) ∨
      x = none ∧ ∃ t, Sliced a t ∧ v = t.take_icnt a ∧ ∀ k, Loop src env' (retire_icnt (a + b)) k true s (.ok none) t := by
  induction h with
  | @found j rc u v n h =>
    intro s hu hs _ x hx
    cases hx
    obtain ⟨-, -, ⟨-, hr, -⟩ | ⟨hlt, -, -, hr, hv⟩⟩ := retire_icnt_cases h <;> cases hr
    rw [hu, hs.left] at hlt
    rw [hv, hu, hs.take_take]
    have hsum : Sliced (a + b) s := ⟨hs.booked, hs.synced, hs.settled, by omega, fun hlt' => ?_⟩
    · exact .inl ⟨rfl, fun k => .found (retire_icnt_some hsum (by omega))⟩
    · cases hp : s.msg_present with
      | true => rfl
      | false =>
        rw [hs.booked.left hs.settled, hs.booked.consumed_zero hp, TraceDecoder.buffered_icnt, hp] at hlt
        simp only [Bool.false_eq_true, if_false] at hlt
        omega
  | failed => exact fun _ _ _ _ x hx => by cases hx
  | @stop j u v h =>
    intro s hu hs hrc x hx
    cases hx
    have hpres : s.msg_present = true := hrc.resolve_left Bool.false_ne_true
    obtain ⟨-, -, ⟨hle, -, hv⟩ | ⟨-, -, -, hr, -⟩⟩ := retire_icnt_cases h
    · rw [hu, hs.left] at hle
      have hnone : retire_icnt (a + b) s = some (.ok none, s) := retire_icnt_none hs.booked hs.settled (by omega)
      exact .inr ⟨rfl, s, hs, hv.trans hu, fun k => (Loop.stop (k := 0) hnone).stands (asks_icnt _) hpres⟩
    · cases hr
  | pull_failed => exact fun _ _ _ _ x hx => by cases hx
  | @pull j u t w v rc r h hpull _ ih =>
    intro s hu hs _ x hx
    obtain ⟨-, -, ⟨hle, -, ht⟩ | ⟨-, -, -, hr, -⟩⟩ := retire_icnt_cases h
    · rw [ht, hu] at hpull
      rw [hu, hs.left] at hle
      have hmax : s.icnt_left ≤ INT32_MAX := by omega
      have hnone : retire_icnt (a + b) s = some (.ok none, s) := retire_icnt_none hs.booked hs.settled (by omega)
      obtain ⟨s₁, hp₁, hw₁, hs₁, hrc⟩ := hs.pull hmax hmem halloc (pull_cases hpull)
      obtain ⟨hxb, hrun⟩ | ⟨hxn, t₁, ht₁, hv₁, hrun⟩ := ih s₁ hw₁ hs₁ hrc x hx
      · refine .inl ⟨hxb, fun k => .pull hnone (pull_of (hp₁ k)) ?_⟩
        rcases hrc with rfl | hpres
        · exact hrun (k + 1)
        · exact (hrun 0).stands (asks_icnt _) hpres
      · refine .inr ⟨hxn, t₁, ht₁, hv₁, fun k => .pull hnone (pull_of (hp₁ k)) ?_⟩
        rcases hrc with rfl | hpres
        · exact hrun (k + 1)
        · exact (hrun 0).stands (asks_icnt _) hpres
    · cases hr

/-- One call retires what two calls retire, where every look-ahead is into the same message. -/
theorem retire_slices {I : σ → Prop} (hlaw : src.Lawful I) {a b r : Nat} {e : TraceEvent} (hab : a + b ≤ INT32_MAX) {env₁ env₂ env : Env}
    (hal₁ : ∀ n, env₁.alloc n = true → env.alloc n = true) (hal₂ : ∀ n, env₂.alloc n = true → env.alloc n = true)
    {s u v : TraceDecoder σ} (hI : I s.msg_decoder) (hs : Booked s) (hmem₁ : ∀ j k, env₁.msg2 j = env.msg2 k)
    (hmem₂ : ∀ j k, env₂.msg2 j = env.msg2 k)
    (h₁ : trace_try_retire src env₁ a s = some (.ok (a, .None), u)) (h₂ : trace_try_retire src env₂ b u = some (.ok (r, e), v)) :
    trace_try_retire src env (a + b) s = some (.ok (a + r, e), v) := by
  -- the first call leaves a slice of a state `t`, which the one call reaches too
  obtain ⟨t, hsync, hst, hu, hrun⟩ : ∃ t, s.synced = true ∧ Sliced a t ∧ u = t.take_icnt a ∧
      ∀ r' v, (∀ k, Loop src env (retire_icnt (a + b)) k true t r' v) → Loop src env (retire_icnt (a + b)) 0 true s r' v := by
    have hone := try_retire_cases h₁
    generalize hr : (Except.ok (a, TraceEvent.None) : Except NexusError (Nat × TraceEvent)) = r₁ at hone
    cases hone with
    | unsynced => cases hr
    | failed => cases hr
    | early n _ hsync hloop =>
      rw [retire_limit_of_le (by omega)] at hloop
      obtain ⟨t, h1, h2, h3, h4, ⟨hx, hlt, hu⟩ | ⟨hx, -⟩, h6⟩ :=
        loop_through (Nat.le_add_right a b) hab hmem₁ hal₁ hloop hs hsync (.inl rfl) _ rfl
      · exact ⟨t, hsync, ⟨h1, h2, h3, Nat.le_of_lt hlt, h4⟩, hu, fun r' v hv => h6 r' v hv 0⟩
      · cases hx
    | event w hsync hloop hp =>
      rw [retire_limit_of_le (by omega)] at hloop
      simp only [Except.ok.injEq, Prod.mk.injEq] at hr
      obtain ⟨t, h1, h2, h3, h4, ⟨hx, -⟩ | ⟨-, hle, hu, hpres⟩, h6⟩ :=
        loop_through (Nat.le_add_right a b) hab hmem₁ hal₁ hloop hs hsync (.inl rfl) _ rfl
      · cases hx
      · rw [hu] at hr
        exact ⟨t, hsync, ⟨h1, h2, h3, Nat.le_of_eq hr.1, fun _ => hpres⟩, by rw [hu, hr.1], fun r' v hv => h6 r' v hv 0⟩
  have htwo := try_retire_cases h₂
  generalize hr : (Except.ok (r, e) : Except NexusError (Nat × TraceEvent)) = r₂ at htwo
  refine try_retire_of hlaw hI ?_
  cases htwo with
  | unsynced => cases hr
  | failed => cases hr
  | early n _ _ hloop =>
    cases hr
    rw [retire_limit_of_le (by omega)] at hloop
    obtain ⟨hx, hv⟩ | ⟨hx, -⟩ := Sliced.loop hab hmem₂ hal₂ hloop t hu hst (.inl rfl) _ rfl
    · cases hx
      exact .early _ v hsync (by rw [retire_limit_of_le hab]; exact hrun _ _ hv)
    · cases hx
  | event w _ hloop hp hset hle hone hle' hbits =>
    cases hr
    rw [retire_limit_of_le (by omega)] at hloop
    obtain ⟨hx, -⟩ | ⟨-, t₂, ht₂, hw, hv⟩ := Sliced.loop hab hmem₂ hal₂ hloop t hu hst (.inl rfl) _ rfl
    · cases hx
    obtain ⟨f1, f2, f3, f4, f5, f6, f7⟩ := take_icnt_frame a t₂
    have hpres : t₂.msg_present = true := by rw [← f1, ← hw]; exact hp
    have htnts : w.tnt_total = t₂.tnt_total ∧ w.consumed_tnts = t₂.consumed_tnts ∧ w.msg = t₂.msg := by
      rw [hw]
      unfold TraceDecoder.tnt_total
      rw [f1, f2, f5, f6]
      exact ⟨rfl, rfl, rfl⟩
    have hev : w.event = t₂.event := by
      unfold TraceDecoder.event TraceDecoder.tnts_left
      rw [htnts.1, htnts.2.1, htnts.2.2]
    have hleft : w.icnt_left = t₂.icnt_left - a := by rw [hw, ht₂.left]
    have hsum : a + w.icnt_left = t₂.icnt_left := by
      have := ht₂.le
      omega
    have hown : t₂.consumed_icnt ≤ t₂.icnt_total := by
      have := ht₂.booked.own
      rw [ht₂.booked.total ht₂.settled]
      omega
    unfold TraceDecoder.tnts_left at hbits
    rw [htnts.1, htnts.2.1, htnts.2.2] at hle' hbits
    rw [hsum, hev, show w.take_icnt w.icnt_left = t₂.take_icnt t₂.icnt_left by
      rw [← hsum]
      rw [hleft, hw, ht₂.take_take]]
    exact .event t₂ hsync (by rw [retire_limit_of_le hab]; exact hrun _ _ hv) hpres ht₂.settled hown ht₂.booked.one hle' hbits

end Slicing

/-- A ProgTraceSync, a DirectBranch of 5 instructions, and the end. -/
def slicing_start : TraceDecoder MsgDecoder := fresh_decoder plain_cfg [0x24, 0x01, 0x07, 0x0c, 0x17]

theorem try_retire_of_exec {σ : Type} {src : Source σ} {env : Env} {icnt n : Nat} {ev : TraceEvent} {s t : TraceDecoder σ}
    (h : exec src env (.try_retire icnt) s = some (.ok (.retired n ev), t)) : trace_try_retire src env icnt s = some (.ok (n, ev), t) := by
  obtain ⟨r, hr, he⟩ := Proc.map_eq_some.1 h
  rcases r with e | ⟨n', ev'⟩ <;> cases he
  exact hr

end nexusrv
