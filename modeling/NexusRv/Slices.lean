import NexusRv.LookAhead
import NexusRv.Pulls
/-!
# Slices of a call

Where two calls of `try_retire` retire in turn, one call that asks for both does the same
exactly where its look-ahead and theirs have the same effect. Each call looks ahead into a
message of its own, which is not cleared.
-/

namespace nexusrv

section Slices
variable {σ : Type} {src : Source σ} {s t u v : TraceDecoder σ} {env env' : Env} {a b c k : Nat} {d : σ}

/-! ## Where a call looks ahead -/

/-- A call that asks for `c` instructions and has `left` of them looks ahead behind a branch, with its `k`-th fetch. The ResourceFull messages
in front of the branch add to what is left, and a call that has more than it asks for fetches no more. -/
inductive AheadAt (src : Source σ) (c : Nat) : σ → Msg → Nat → Nat → σ → Prop where
  | here {d m left n d' m'} : left ≤ c → src.next (d, m) = some (.ok n, d', m') → n ≠ 0 → trace_check_msg m' = true → repeatable m' = true →
      AheadAt src c d m left 0 d'
  | behind {d m left n d' m' k d''} : left ≤ c → src.next (d, m) = some (.ok n, d', m') → n ≠ 0 → msg_is_res m' = true →
      AheadAt src c d' m' (left + m'.own_icnt) k d'' → AheadAt src c d m left (k + 1) d''

/-- A call that asks for `c` instructions looks ahead behind `d` with its `k`-th fetch. -/
def TraceDecoder.AheadAt (src : Source σ) (s : TraceDecoder σ) (c k : Nat) (d : σ) : Prop :=
  s.msg_present = false ∧ nexusrv.AheadAt src c s.msg_decoder s.msg s.icnt_left k d

/-- The look-ahead of one call has the effect of that of the first of two calls, or else of that of the second one. -/
structure AgreeAhead (src : Source σ) (s u : TraceDecoder σ) (a b : Nat) (env₁ env₂ env : Env) : Prop where
  first : ∀ k d, s.AheadAt src a k d → ahead src repeats 0 d (env₁.msg2 k) = ahead src repeats 0 d (env.msg2 k)
  second : ∀ j k d, u.AheadAt src b j d → s.AheadAt src (a + b) k d →
    ahead src repeats 0 d (env₂.msg2 j) = ahead src repeats 0 d (env.msg2 k)

/-- A call looks ahead once at most. -/
theorem AheadAt.unique {x : σ} {m : Msg} {left : Nat} (h : AheadAt src a x m left k d) :
    ∀ {b j d'}, AheadAt src b x m left j d' → j = k ∧ d' = d := by
  induction h with
  | here _ hn _ _ hb =>
    intro b j d' h'
    cases h' with
    | here _ hn' =>
      cases hn.symm.trans hn'
      exact ⟨rfl, rfl⟩
    | behind _ hn' _ hres =>
      cases hn.symm.trans hn'
      exact (res_not_repeatable hres hb).elim
  | behind _ hn _ hres _ ih =>
    intro b j d' h'
    cases h' with
    | here _ hn' _ _ hb =>
      cases hn.symm.trans hn'
      exact (res_not_repeatable hres hb).elim
    | behind _ hn' _ _ hrest =>
      cases hn.symm.trans hn'
      obtain ⟨hj, hd⟩ := ih hrest
      exact ⟨congrArg (· + 1) hj, hd⟩

/-- A call that asks for more looks ahead where one does that asks for less. -/
theorem AheadAt.more {x : σ} {m : Msg} {left : Nat} (h : AheadAt src a x m left k d) (hac : a ≤ c) : AheadAt src c x m left k d := by
  induction h with
  | here hle hn h0 hc hb => exact .here (Nat.le_trans hle hac) hn h0 hc hb
  | behind hle hn h0 hres _ ih => exact .behind (Nat.le_trans hle hac) hn h0 hres ih

/-- A slice of what is asked for, and of what is left. -/
theorem AheadAt.slice {x : σ} {m : Msg} {left : Nat} (h : AheadAt src (a + b) x m left k d) : a ≤ left → AheadAt src b x m (left - a) k d := by
  induction h with
  | here hle hn h0 hc hb => exact fun _ => .here (by omega) hn h0 hc hb
  | @behind _ m left _ _ m' _ _ hle hn h0 hres _ ih =>
    intro ha
    have hrest := ih (Nat.le_trans ha (Nat.le_add_right left _))
    rw [Nat.sub_add_comm ha] at hrest
    exact .behind (by omega) hn h0 hres hrest

theorem TraceDecoder.AheadAt.unique {j : Nat} {d' : σ} (h : s.AheadAt src a k d) (h' : s.AheadAt src b j d') : j = k ∧ d' = d := h.2.unique h'.2

theorem TraceDecoder.AheadAt.more (h : s.AheadAt src a k d) (hac : a ≤ c) : s.AheadAt src c k d := ⟨h.1, h.2.more hac⟩

theorem TraceDecoder.AheadAt.le (h : s.AheadAt src c k d) : s.icnt_left ≤ c := by
  obtain ⟨-, hplace⟩ := h
  cases hplace with
  | here hle | behind hle => exact hle

theorem TraceDecoder.Branches.ahead_at {m : Msg} (h : s.Branches src d m) (hle : s.icnt_left ≤ c) : s.AheadAt src c 0 d := by
  obtain ⟨n, h0, hn⟩ := h.next
  exact ⟨h.absent, .here hle hn h0 h.checked h.repeatable⟩

/-- Behind a ResourceFull message, the look-ahead is one fetch nearer. -/
theorem Absorbs.ahead_at (h : Absorbs src s t) (hle : s.icnt_left ≤ c) (hat : t.AheadAt src c k d) : s.AheadAt src c (k + 1) d := by
  obtain ⟨n, h0, hn⟩ := h.next
  have hrest := hat.2
  rw [h.left] at hrest
  exact ⟨h.absent, .behind hle hn h0 h.res hrest⟩

theorem Absorbs.ahead_behind (h : Absorbs src s t) (hat : s.AheadAt src c k d) : ∃ j, k = j + 1 ∧ t.AheadAt src c j d := by
  obtain ⟨n, h0, hn⟩ := h.next
  obtain ⟨-, hplace⟩ := hat
  cases hplace with
  | here _ hn' _ _ hb =>
    cases hn.symm.trans hn'
    exact (res_not_repeatable h.res hb).elim
  | behind _ hn' _ _ hrest =>
    cases hn.symm.trans hn'
    rw [← h.left] at hrest
    exact ⟨_, rfl, h.gone, hrest⟩

/-- In front of another message that is not there yet, the look-ahead is at the branch. -/
theorem TraceDecoder.AheadAt.branches (hat : s.AheadAt src c k d) {msg2 : Msg} {b : Bool} (hf : Fetched src msg2 s (.ok b) u)
    (hres : msg_is_res u.msg = false) : k = 0 ∧ s.icnt_left ≤ c ∧ ∃ m, s.Branches src d m := by
  obtain ⟨hp, hplace⟩ := hat
  cases hplace with
  | here hle hn h0 hc hb => exact ⟨rfl, hle, _, hp, ⟨_, h0, hn⟩, hc, hb⟩
  | behind hle hn h0 hres' _ =>
    -- a ResourceFull message is what is fetched
    have hkind : ∀ {m : Msg} {x : UInt32}, msg_is_res { m with hrepeat := x } = msg_is_res m := rfl
    cases hf with
    | present h => exact absurd (h.symm.trans hp) Bool.noConfusion
    | plain _ _ _ _ hn' =>
      cases hn.symm.trans hn'
      exact absurd (hres'.symm.trans hres) Bool.noConfusion
    | ahead_other _ _ _ _ _ _ _ _ hn' | repeated _ _ _ _ _ _ _ hn' =>
      cases hn.symm.trans hn'
      exact absurd (hres'.symm.trans hres) Bool.noConfusion

/-- A fetch that finds a branch leaves it as its look-ahead says. -/
theorem Fetched.looked {m msg2 : Msg} {b : Bool} (hf : Fetched src msg2 s (.ok b) u) (h : s.Branches src d m) :
    ahead src repeats 0 d msg2 = some (.ok u.msg.hrepeat, u.msg_decoder) := by
  have hrun := fetch_branch h msg2
  rw [fetch_of hf] at hrun
  obtain ⟨⟨e | x, d'⟩, hd, he⟩ := Option.map_eq_some_iff.1 hrun.symm
  · cases he
  · cases he
    exact hd

/-! ## Into another message -/

/-- A loop goes on into other messages, where the look-ahead has the same effect. -/
theorem Loop.elsewhere {rc : Bool} {r : Except NexusError (Option Nat)} (halloc : env.alloc = env'.alloc)
    (h : Loop src env (retire_icnt c) k rc s r t) {x : Option Nat} (hr : r = .ok x) : s.synced = true → Booked s →
    (rc = true → ∀ j d, s.AheadAt src c j d → ahead src repeats 0 d (env.msg2 (k + j)) = ahead src repeats 0 d (env'.msg2 (k + j))) →
    Loop src env' (retire_icnt c) k rc s r t := by
  induction h with
  | found hd => exact fun _ _ _ => .found hd
  | stop hd => exact fun _ _ _ => .stop hd
  | failed | pull_failed => cases hr
  | @pull k s t u v rc r hd hpull _ ih =>
    intro hsync hb hsame
    obtain ⟨hset, -, ⟨hle, -, rfl⟩ | ⟨-, -, -, hx, -⟩⟩ := retire_icnt_cases hd
    · have hfetch : trace_fetch_msg src (env.msg2 k) t = trace_fetch_msg src (env'.msg2 k) t :=
        fetch_same fun d m hdm => hsame rfl 0 d (hdm.ahead_at hle)
      have hpulled := pull_cases hpull
      rw [pull_same hfetch halloc] at hpull
      refine .pull hd hpull (ih hr (hpulled.synced.trans hsync) (hpulled.booked hset hsync hb) ?_)
      intro hrc j d hat
      cases hrc
      have hnext := hsame rfl (j + 1) d ((hpulled.absorbs hset hsync hb).ahead_at hle hat)
      rw [← Nat.add_assoc, Nat.add_right_comm] at hnext
      exact hnext
    · cases hx

/-- A loop that starts at a message leaves it there. -/
theorem Loop.buffered {rc : Bool} {r : Except NexusError (Option Nat)} (h : Loop src env (retire_icnt c) k rc s r t) (hp : s.msg_present = true)
    {x : Option Nat} (hr : r = .ok x) : t.msg_present = true ∧ t.msg.hrepeat = s.msg.hrepeat ∧ t.msg_decoder = s.msg_decoder := by
  have h' : Loop src env (retire_icnt c) 0 false s r t := h.stands (asks_icnt c) hp
  cases h' with
  | failed => cases hr
  | found hd | stop hd =>
    obtain ⟨-, -, ⟨-, -, rfl⟩ | ⟨-, -, -, -, rfl⟩⟩ := retire_icnt_cases hd
    · exact ⟨hp, rfl, rfl⟩
    · obtain ⟨h1, h2, h3, -⟩ := take_icnt_frame c s
      rw [h1, h2, h3]
      exact ⟨hp, rfl, rfl⟩

/-- A loop that looks ahead leaves what its look-ahead says. -/
theorem Loop.looked {rc : Bool} {r : Except NexusError (Option Nat)} (h : Loop src env (retire_icnt c) k rc s r t) {x : Option Nat}
    (hr : r = .ok x) (hrc : rc = true) {j : Nat} : s.synced = true → Booked s → s.AheadAt src c j d →
    ahead src repeats 0 d (env.msg2 (k + j)) = some (.ok t.msg.hrepeat, t.msg_decoder) ∧ t.msg_present = true := by
  induction h generalizing j with
  | found hd =>
    intro _ _ hat
    obtain ⟨-, -, ⟨-, hx, -⟩ | ⟨hlt, -⟩⟩ := retire_icnt_cases hd
    · cases hx
    · exact absurd hat.le (Nat.not_le.2 hlt)
  | stop => cases hrc
  | failed | pull_failed => cases hr
  | @pull k s t u v rc r hd hpull hrest ih =>
    intro hsync hb hat
    obtain ⟨hset, -, ⟨hle, -, rfl⟩ | ⟨-, -, -, hx, -⟩⟩ := retire_icnt_cases hd
    · have hpulled := pull_cases hpull
      cases hpulled with
      | other b _ hf hres =>
        obtain ⟨rfl, -, m, hbranch⟩ := hat.branches hf hres
        obtain ⟨hp, hhrepeat, hdec⟩ := hrest.buffered hf.filled hr
        rw [hhrepeat, hdec]
        exact ⟨hf.looked hbranch, hp⟩
      | taken b w e hf hres hel hlen hgrown hal =>
        have habs := (pull_cases hpull).absorbs hset hsync hb
        obtain ⟨i, rfl, hat'⟩ := habs.ahead_behind hat
        have hnext := ih hr rfl ((pull_cases hpull).synced.trans hsync) ((pull_cases hpull).booked hset hsync hb) hat'
        rw [← Nat.add_assoc, Nat.add_right_comm]
        exact hnext
    · cases hx

/-- Behind a slice, the second call looks ahead where one call for both does, if the first call does not. -/
theorem Loop.behind {rc : Bool} {r : Except NexusError (Option Nat)} (h : Loop src env (retire_icnt a) k rc s r t) {x : Option Nat}
    (hr : r = .ok x) (hrc : rc = true) {j : Nat} : s.synced = true → Booked s → s.AheadAt src (a + b) j d →
    (∀ j d, ¬ s.AheadAt src a j d) → x = some a ∧ ∃ i, t.AheadAt src b i d := by
  induction h generalizing j with
  | @found k rc s t n hd =>
    intro hsync hb hat _
    obtain ⟨hset, -, ⟨-, hx, -⟩ | ⟨hlt, -, hp, hx, rfl⟩⟩ := retire_icnt_cases hd
    · cases hx
    · cases hx
      cases hr
      have hs : Sliced a s := ⟨hb, hsync, hset, Nat.le_of_lt hlt, hp⟩
      have hplace := hat.2.slice hs.le
      rw [← hs.left] at hplace
      obtain ⟨h1, h2, h3, -⟩ := take_icnt_frame a s
      rw [← h2, ← h3] at hplace
      exact ⟨rfl, j, h1.trans hat.1, hplace⟩
  | stop => cases hrc
  | failed | pull_failed => cases hr
  | @pull k s t u v rc r hd hpull hrest ih =>
    intro hsync hb hat hnone
    obtain ⟨hset, -, ⟨hle, -, rfl⟩ | ⟨-, -, -, hx, -⟩⟩ := retire_icnt_cases hd
    · have hpulled := pull_cases hpull
      cases rc with
      | false =>
        cases hpulled with
        | other _ _ hf hres =>
          obtain ⟨-, -, m, hbranch⟩ := hat.branches hf hres
          exact absurd (hbranch.ahead_at hle) (hnone 0 d)
      | true =>
        have habs := hpulled.absorbs hset hsync hb
        obtain ⟨i, rfl, hat'⟩ := habs.ahead_behind hat
        exact ih hr rfl (hpulled.synced.trans hsync) (hpulled.booked hset hsync hb) hat' fun j d h => hnone (j + 1) d (habs.ahead_at hle h)
    · cases hx

/-! ## Whole calls -/

/-- The loop of a call that returns. -/
theorem try_retire_ends {n icnt : Nat} {e : TraceEvent} (h : trace_try_retire src env icnt s = some (.ok (n, e), t)) : s.synced = true ∧
    ∃ x w m, Loop src env (retire_icnt (retire_limit icnt)) 0 true s (.ok x) w ∧ t = w.take_icnt m ∧ (x = none ∨ t = w) := by
  have hcases := try_retire_cases h
  generalize hr : (Except.ok (n, e) : Except NexusError (Nat × TraceEvent)) = r at hcases
  cases hcases with
  | unsynced | failed => cases hr
  | early n w hsync hloop => exact ⟨hsync, some n, t, 0, hloop, (take_zero t).symm, .inr rfl⟩
  | event w hsync hloop => exact ⟨hsync, none, w, w.icnt_left, hloop, rfl, .inl rfl⟩

/-- A call that looks ahead leaves what its look-ahead says. -/
theorem try_retire_looked {n icnt j : Nat} {e : TraceEvent} (h : trace_try_retire src env icnt s = some (.ok (n, e), t)) (hb : Booked s)
    (hat : s.AheadAt src (retire_limit icnt) j d) :
    ahead src repeats 0 d (env.msg2 j) = some (.ok t.msg.hrepeat, t.msg_decoder) ∧ t.msg_present = true := by
  obtain ⟨hsync, x, w, m, hloop, rfl, -⟩ := try_retire_ends h
  obtain ⟨hlook, hp⟩ := hloop.looked rfl rfl hsync hb hat
  obtain ⟨h1, h2, h3, -⟩ := take_icnt_frame m w
  rw [h1, h2, h3]
  rw [Nat.zero_add] at hlook
  exact ⟨hlook, hp⟩

/-- A call that starts at a message leaves it there. -/
theorem try_retire_buffered {n icnt : Nat} {e : TraceEvent} (h : trace_try_retire src env icnt s = some (.ok (n, e), t))
    (hp : s.msg_present = true) : t.msg.hrepeat = s.msg.hrepeat ∧ t.msg_decoder = s.msg_decoder := by
  obtain ⟨-, x, w, m, hloop, rfl, -⟩ := try_retire_ends h
  obtain ⟨h1, h2, h3, -⟩ := take_icnt_frame m w
  rw [h2, h3]
  exact (hloop.buffered hp rfl).2

/-- Where the first call does not look ahead, the second one does where one call for both does. -/
theorem try_retire_behind {e : TraceEvent} (ha : retire_limit a = a) (h : trace_try_retire src env a s = some (.ok (a, e), u)) (hb : Booked s)
    (hat : s.AheadAt src (a + b) k d) (hnone : ∀ k d, ¬ s.AheadAt src a k d) : ∃ j, u.AheadAt src b j d := by
  obtain ⟨hsync, x, w, m, hloop, -, hend⟩ := try_retire_ends h
  rw [ha] at hloop
  obtain ⟨rfl, hatw⟩ := hloop.behind rfl rfl hsync hb hat hnone
  rcases hend with hx | rfl
  · cases hx
  · exact hatw

/-- A call does the same with other messages, where its look-ahead has the same effect. -/
theorem try_retire_elsewhere {I : σ → Prop} (hlaw : src.Lawful I) {n icnt : Nat} {e : TraceEvent} (halloc : env.alloc = env'.alloc)
    (hI : I s.msg_decoder) (hb : Booked s) (h : trace_try_retire src env icnt s = some (.ok (n, e), t))
    (hsame : ∀ j d, s.AheadAt src (retire_limit icnt) j d → ahead src repeats 0 d (env.msg2 j) = ahead src repeats 0 d (env'.msg2 j)) :
    trace_try_retire src env' icnt s = some (.ok (n, e), t) := by
  have hgoes : ∀ {x w}, s.synced = true → Loop src env (retire_icnt (retire_limit icnt)) 0 true s (.ok x) w →
      Loop src env' (retire_icnt (retire_limit icnt)) 0 true s (.ok x) w := by
    intro x w hsync hloop
    refine hloop.elsewhere halloc rfl hsync hb fun _ j d hat => ?_
    rw [Nat.zero_add]
    exact hsame j d hat
  refine try_retire_of hlaw hI ?_
  have hcases := try_retire_cases h
  generalize hr : (Except.ok (n, e) : Except NexusError (Nat × TraceEvent)) = r at hcases ⊢
  cases hcases with
  | unsynced | failed => cases hr
  | early _ _ hsync hloop => exact .early _ _ hsync (hgoes hsync hloop)
  | event w hsync hloop hp hset hle hone htnt hown => exact .event w hsync (hgoes hsync hloop) hp hset hle hone htnt hown

/-- Every local message holds `mem`. -/
def Env.holding (env : Env) (mem : Msg) : Env := { env with msg2 := fun _ => mem }

section Two
variable {I : σ → Prop} {r : Nat} {e : TraceEvent} {env₁ env₂ : Env}

/-- One call retires what two calls retire, where all look-aheads have the effect that they have into `mem`. -/
theorem retire_slices_held (hlaw : src.Lawful I) (hab : a + b ≤ INT32_MAX) (hal₁ : ∀ n, env₁.alloc n = true → env.alloc n = true)
    (hal₂ : ∀ n, env₂.alloc n = true → env.alloc n = true) (hI : I s.msg_decoder) (hs : Booked s) (hIu : I u.msg_decoder) (hu : Booked u)
    (h₁ : trace_try_retire src env₁ a s = some (.ok (a, .None), u)) (h₂ : trace_try_retire src env₂ b u = some (.ok (r, e), v)) (mem : Msg)
    (hmem₁ : ∀ k d, s.AheadAt src a k d → ahead src repeats 0 d (env₁.msg2 k) = ahead src repeats 0 d mem)
    (hmem₂ : ∀ k d, u.AheadAt src b k d → ahead src repeats 0 d (env₂.msg2 k) = ahead src repeats 0 d mem)
    (hmem : ∀ k d, s.AheadAt src (a + b) k d → ahead src repeats 0 d mem = ahead src repeats 0 d (env.msg2 k)) :
    trace_try_retire src env (a + b) s = some (.ok (a + r, e), v) := by
  have hal : ∀ {env : Env}, env.alloc = (env.holding mem).alloc := rfl
  have hheld₁ : ∀ n, (env₁.holding mem).alloc n = true → (env.holding mem).alloc n = true := hal₁
  have hheld₂ : ∀ n, (env₂.holding mem).alloc n = true → (env.holding mem).alloc n = true := hal₂
  have h₁' : trace_try_retire src (env₁.holding mem) a s = some (.ok (a, .None), u) :=
    try_retire_elsewhere hlaw hal hI hs h₁ (by rw [retire_limit_of_le (by omega)]; exact hmem₁)
  have h₂' : trace_try_retire src (env₂.holding mem) b u = some (.ok (r, e), v) :=
    try_retire_elsewhere hlaw hal hIu hu h₂ (by rw [retire_limit_of_le (by omega)]; exact hmem₂)
  have hone : trace_try_retire src (env.holding mem) (a + b) s = some (.ok (a + r, e), v) :=
    retire_slices hlaw hab hheld₁ hheld₂ hI hs (fun _ _ => rfl) (fun _ _ => rfl) h₁' h₂'
  exact try_retire_elsewhere hlaw hal.symm hI hs hone (by rw [retire_limit_of_le hab]; exact hmem)

/-- One call retires what two calls retire, exactly where its look-ahead has the effect of theirs. -/
theorem retire_slices_iff (hlaw : src.Lawful I) (hab : a + b ≤ INT32_MAX) (hal₁ : ∀ n, env₁.alloc n = true → env.alloc n = true)
    (hal₂ : ∀ n, env₂.alloc n = true → env.alloc n = true) (hI : I s.msg_decoder) (hs : Booked s) (hIu : I u.msg_decoder) (hu : Booked u)
    (h₁ : trace_try_retire src env₁ a s = some (.ok (a, .None), u)) (h₂ : trace_try_retire src env₂ b u = some (.ok (r, e), v)) :
    trace_try_retire src env (a + b) s = some (.ok (a + r, e), v) ↔ AgreeAhead src s u a b env₁ env₂ env := by
  have hlooked₁ : ∀ {k d}, s.AheadAt src a k d → ahead src repeats 0 d (env₁.msg2 k) = some (.ok u.msg.hrepeat, u.msg_decoder) ∧
      u.msg_present = true := fun hat => try_retire_looked h₁ hs (by rw [retire_limit_of_le (by omega)]; exact hat)
  constructor
  · -- what the look-ahead says is in the state that is left
    intro hone
    have hlooked : ∀ {k d}, s.AheadAt src (a + b) k d → ahead src repeats 0 d (env.msg2 k) = some (.ok v.msg.hrepeat, v.msg_decoder) :=
      fun hat => (try_retire_looked hone hs (by rw [retire_limit_of_le hab]; exact hat)).1
    constructor
    · intro k d hat
      obtain ⟨hlook, hp⟩ := hlooked₁ hat
      obtain ⟨hhrepeat, hdec⟩ := try_retire_buffered h₂ hp
      rw [hlook, hlooked (hat.more (Nat.le_add_right a b)), hhrepeat, hdec]
    · intro j k d hatu hat
      rw [(try_retire_looked h₂ hu (by rw [retire_limit_of_le (by omega)]; exact hatu)).1, hlooked hat]
  · intro hsame
    -- the one message that is looked ahead into, by the first call or else by the second one
    have hheld := retire_slices_held hlaw hab hal₁ hal₂ hI hs hIu hu h₁ h₂
    have hbehind : (∀ k d, ¬ s.AheadAt src a k d) → ∀ {k d}, s.AheadAt src (a + b) k d → ∃ j, u.AheadAt src b j d :=
      fun hnone _ _ hat => try_retire_behind (retire_limit_of_le (by omega)) h₁ hs hat hnone
    by_cases hfirst : ∃ k d, s.AheadAt src a k d
    · -- the first call looks ahead, and the second one finds the message
      obtain ⟨k, d, hat⟩ := hfirst
      refine hheld (env₁.msg2 k) ?_ ?_ ?_
      · intro k' d' hat'
        obtain ⟨rfl, rfl⟩ := hat.unique hat'
        rfl
      · intro k' d' hat'
        exact absurd (hat'.1.symm.trans (hlooked₁ hat).2) Bool.noConfusion
      · intro k' d' hat'
        obtain ⟨rfl, rfl⟩ := (hat.more (Nat.le_add_right a b)).unique hat'
        exact hsame.first _ _ hat
    · have hnone : ∀ k d, ¬ s.AheadAt src a k d := fun k d h => hfirst ⟨k, d, h⟩
      by_cases hsecond : ∃ j d, u.AheadAt src b j d
      · obtain ⟨j, d, hat⟩ := hsecond
        refine hheld (env₂.msg2 j) ?_ ?_ ?_
        · exact fun k' d' hat' => absurd hat' (hnone k' d')
        · intro k' d' hat'
          obtain ⟨rfl, rfl⟩ := hat.unique hat'
          rfl
        · intro k' d' hat'
          obtain ⟨i, hatu⟩ := hbehind hnone hat'
          obtain ⟨rfl, rfl⟩ := hat.unique hatu
          exact hsame.second _ _ _ hat hat'
      · -- none of them looks ahead
        have hnone₂ : ∀ j d, ¬ u.AheadAt src b j d := fun j d h => hsecond ⟨j, d, h⟩
        refine hheld Msg.zero ?_ ?_ ?_
        · exact fun k' d' hat' => absurd hat' (hnone k' d')
        · exact fun k' d' hat' => absurd hat' (hnone₂ k' d')
        · intro k' d' hat'
          obtain ⟨i, hatu⟩ := hbehind hnone hat'
          exact absurd hatu (hnone₂ i d')

end Two

end Slices

/-- From a reachable state where `try_retire a` and then `try_retire b` retire, `try_retire (a + b)` retires as much, reports the same event and
leaves the same state, exactly where its look-ahead has the effect of theirs. -/
theorem try_retire_slices {s u v : TraceDecoder MsgDecoder} (hs : Reachable s) {a b r : Nat} {e : TraceEvent} (hab : a + b ≤ INT32_MAX)
    {env₁ env₂ env : Env} (hal₁ : ∀ n, env₁.alloc n = true → env.alloc n = true) (hal₂ : ∀ n, env₂.alloc n = true → env.alloc n = true)
    (h₁ : trace_try_retire msg_source env₁ a s = some (.ok (a, .None), u))
    (h₂ : trace_try_retire msg_source env₂ b u = some (.ok (r, e), v)) :
    trace_try_retire msg_source env (a + b) s = some (.ok (a + r, e), v) ↔ AgreeAhead msg_source s u a b env₁ env₂ env := by
  have hexec : exec msg_source env₁ (.try_retire a) s = some (.ok (.retired a .None), u) := Proc.map_eq_some.2 ⟨_, h₁, rfl⟩
  have hu : Reachable u := hs.play (play_one hexec)
  exact retire_slices_iff msg_source_lawful hab hal₁ hal₂ hs.inv hs.booked hu.inv hu.booked h₁ h₂

/-- Two and one of the five instructions, and three of them at once. -/
theorem try_retire_slices_three : ∃ s v, Reachable s ∧
    trace_try_retire msg_source (env_of Msg.zero) (2 + 1) s = some (.ok (2 + 1, .None), v) := by
  have hrun : (play msg_source [(env_of Msg.zero, .sync_reset), (env_of Msg.zero, .try_retire 2), (env_of Msg.zero, .try_retire 1)]
      slicing_start).map (fun r => (r.1, r.2.msg.hrepeat)) =
      some ([.ok (.reset (some ⟨2, 0⟩)), .ok (.retired 2 .None), .ok (.retired 1 .None)], 0) := by decide +kernel
  obtain ⟨v, hv, -⟩ := play_shown (·.msg.hrepeat) hrun
  obtain ⟨s, h₀, hv₀⟩ := play_head hv
  obtain ⟨u, h₁, hv₁⟩ := play_head hv₀
  obtain ⟨v', h₂, -⟩ := play_head hv₁
  have hs : Reachable s := fresh_reachable rfl (play_one h₀)
  have hone := try_retire_slices hs (by decide) (fun _ h => h) (fun _ h => h) (try_retire_of_exec h₁) (try_retire_of_exec h₂)
  exact ⟨s, v', hs, hone.2 ⟨fun _ _ _ => rfl, fun _ _ _ _ _ => rfl⟩⟩

/-- The memory of a look-ahead message holds a RepeatBranch, and the stream ends behind the branch:
two calls leave a branch with seven repetitions, one call leaves a branch with none. -/
theorem slices_differ : ¬ ∀ (s u v : TraceDecoder MsgDecoder) (a b r : Nat) (e : TraceEvent) (env₁ env₂ env : Env), Reachable s →
    a + b ≤ INT32_MAX → (∀ n, env₁.alloc n = true → env.alloc n = true) → (∀ n, env₂.alloc n = true → env.alloc n = true) →
    trace_try_retire msg_source env₁ a s = some (.ok (a, .None), u) → trace_try_retire msg_source env₂ b u = some (.ok (r, e), v) →
    trace_try_retire msg_source env (a + b) s = some (.ok (a + r, e), v) := by
  intro hall
  have hrun : (play msg_source [(env_of Msg.zero, .sync_reset), (env_of stale_repeat, .try_retire 2), (env_of Msg.zero, .try_retire 1)]
      slicing_start).map (fun r => (r.1, r.2.msg.hrepeat)) =
      some ([.ok (.reset (some ⟨2, 0⟩)), .ok (.retired 2 .None), .ok (.retired 1 .None)], 7) := by decide +kernel
  have hone : (play msg_source [(env_of Msg.zero, .sync_reset), (env_of Msg.zero, .try_retire 3)] slicing_start).map
      (fun r => (r.1, r.2.msg.hrepeat)) = some ([.ok (.reset (some ⟨2, 0⟩)), .ok (.retired 3 .None)], 0) := by decide +kernel
  obtain ⟨v, hv, hseven⟩ := play_shown (·.msg.hrepeat) hrun
  obtain ⟨s, h₀, hv₀⟩ := play_head hv
  obtain ⟨u, h₁, hv₁⟩ := play_head hv₀
  obtain ⟨v₂, h₂, hv₂⟩ := play_head hv₁
  cases hv₂
  obtain ⟨v', hv', hnone⟩ := play_shown (·.msg.hrepeat) hone
  obtain ⟨s', h₃, hv₃⟩ := play_head hv'
  obtain ⟨v₄, h₄, hv₄⟩ := play_head hv₃
  cases hv₄
  cases h₀.symm.trans h₃
  have hs : Reachable s := fresh_reachable rfl (play_one h₀)
  have hthree := hall s u v 2 1 1 .None (env_of stale_repeat) (env_of Msg.zero) (env_of Msg.zero) hs (by decide) (fun _ h => h) (fun _ h => h)
    (try_retire_of_exec h₁) (try_retire_of_exec h₂)
  cases (try_retire_of_exec h₄).symm.trans hthree
  exact absurd (hseven.symm.trans hnone) (by decide)

end nexusrv
