import NexusRv.SamePoint
import NexusRv.Timestamps
/-!
# Looking past the end

The only thing in which two calls from one state can differ is what their look-ahead messages held before. Without a filter it shows only
where a look-ahead runs past the end of the stream.
-/

namespace nexusrv

/-! ## The call stack -/

namespace RetStack

/-- Two stacks with the same call sites: what they can still hold before they grow is not told. -/
structure Alike (max : Nat) (r r' : RetStack) : Prop where
  inv : Inv r
  inv' : Inv r'
  max_eq : r.max = max
  max_eq' : r'.max = max
  contents_eq : r.contents = r'.contents

variable {max : Nat} {r r' : RetStack}

theorem Alike.used (h : Alike max r r') : r.used = r'.used := by
  rw [← contents_length, ← contents_length, h.contents_eq]

theorem clear_inv (h : Inv r) : Inv (retstack_clear r) := ⟨rfl, Nat.zero_le _, h.size_le, h.len, h.room⟩

theorem Alike.clear (h : Inv r ∧ r.max = max) (h' : Inv r' ∧ r'.max = max) : Alike max (retstack_clear r) (retstack_clear r') :=
  ⟨clear_inv h.1, clear_inv h'.1, h.2, h'.2, rfl⟩

/-- Where no allocation fails, a push does the same to both. -/
theorem Alike.push {mem mem' : Heap} (hmem : ∀ n, (mem n).isSome) (hmem' : ∀ n, (mem' n).isSome) (hmax : max < 2 ^ 31) (h : Alike max r r')
    (a : UInt64) : Proc.Matches (fun _ => Alike max) (retstack_push mem a r) (retstack_push mem' a r') := by
  have hused := h.used
  obtain ⟨hi, hi', hm, hm', hc⟩ := h
  have hle := Nat.le_trans hi.used_le hi.size_le
  by_cases hroom : r.used < r.max
  · obtain ⟨s, hs, his, hms, -, hcs⟩ := push_room hmem hi (hm ▸ hmax) hroom a
    obtain ⟨s', hs', his', hms', -, hcs'⟩ := push_room hmem' hi' (hm' ▸ hmax) (by omega) a
    rw [hs, hs']
    refine Proc.matches_some ⟨his, his', hms.trans hm, hms'.trans hm', ?_⟩
    rw [hcs, hcs', hc]
  · rw [push_full a (by omega), push_full a (by omega)]
    exact Proc.matches_some ⟨hi, hi', hm, hm', hc⟩

theorem Alike.pop (h : Alike max r r') : Proc.Matches (fun _ => Alike max) (retstack_pop r) (retstack_pop r') := by
  have hused := h.used
  obtain ⟨hi, hi', hm, hm', hc⟩ := h
  by_cases h0 : r.used = 0
  · rw [pop_empty h0, pop_empty (hused ▸ h0)]
    exact Proc.matches_some ⟨hi, hi', hm, hm', hc⟩
  · obtain ⟨a, s, hs, his, hms, -, hcs⟩ := pop_some hi h0
    obtain ⟨a', s', hs', his', hms', -, hcs'⟩ := pop_some hi' (hused ▸ h0)
    rw [hcs, hcs'] at hc
    obtain ⟨rfl, hrest⟩ := List.cons.inj hc
    rw [hs, hs']
    exact Proc.matches_some ⟨his, his', hms.trans hm, hms'.trans hm', hrest⟩

/-- The allocator that does not fail, and otherwise gives what `mem` gives. -/
def unfailing (mem : Heap) : Heap := fun n => some ((mem n).getD fun _ => 0)

/-- A push changes nothing where the allocation fails. -/
theorem push_or_fails (mem : Heap) (a : UInt64) (r : RetStack) :
    retstack_push mem a r = some (.error .no_mem, r) ∨ retstack_push mem a r = retstack_push (unfailing mem) a r := by
  have henlarge : retstack_may_enlarge mem r = some (.error .no_mem, r) ∨ retstack_may_enlarge mem r = retstack_may_enlarge (unfailing mem) r := by
    simp only [retstack_may_enlarge, Proc.get_bind_apply, Proc.ite_apply, Proc.assert_bind_apply]
    split
    · exact .inr rfl
    split
    · split
      · exact .inr rfl
      · generalize (if r.size * 2 % 2 ^ 32 > r.max then r.max else r.size * 2 % 2 ^ 32) = n
        rcases hn : mem n with _ | junk
        · left
          simp [Heap.alloc, hn]
        · right
          simp [Heap.alloc, hn, unfailing]
    · exact .inr rfl
  by_cases hfull : r.used = r.max
  · right
    rw [push_full a hfull, push_full a hfull]
  · simp only [retstack_push, Proc.get_bind_apply, Proc.ite_apply, if_neg hfull]
    refine henlarge.imp (fun h => ?_) fun h => ?_
    · rw [Proc.bind_error h]
    · exact Proc.bind_of_eq h _

/-- A push keeps the invariant, also where the allocation fails. -/
theorem push_inv {mem : Heap} (hmax : r.max < 2 ^ 31) (hi : Inv r) {a : UInt64} {e : Except NexusError Unit} {s : RetStack}
    (h : retstack_push mem a r = some (e, s)) : Inv s ∧ s.max = r.max := by
  rcases push_or_fails mem a r with hfail | heq
  · rw [hfail] at h
    cases h
    exact ⟨hi, rfl⟩
  · have hmem : ∀ n, (unfailing mem n).isSome := fun _ => rfl
    obtain ⟨s', hs, hi', hm, -⟩ := push_tracks_iff hmem hi hmax a
    rw [heq, hs] at h
    cases h
    exact ⟨hi', hm⟩

end RetStack

/-! ## The stack of a reachable state -/

section Stack
variable {s t : TraceDecoder MsgDecoder} {env : Env} {c : Call}

/-- No call changes the filter. -/
theorem filter_lawful (f : Int16) : msg_source.Lawful fun d => DecoderInv d ∧ d.src_filter = f where
  next := by
    rintro d d' m m' r ⟨hinv, hf⟩ h
    obtain ⟨hinv', hcfg, hle, hlt⟩ := msg_source_lawful.next hinv h
    exact ⟨⟨hinv', (next_left hinv h).2.1.2.1.trans hf⟩, hcfg, hle, hlt⟩
  returns := fun m h => msg_source_lawful.returns m h.1
  rewind := by
    rintro d d' m m' n ⟨hinv, hf⟩ h
    obtain ⟨d₀, hback, hinv₀, hcfg, hle⟩ := msg_source_lawful.rewind hinv h
    obtain ⟨d₁, hback', -, hs, -⟩ := next_rewinds hinv h
    cases hback.symm.trans hback'
    exact ⟨d₀, hback, ⟨hinv₀, hs.2.1.trans hf⟩, hcfg, hle⟩

/-- The message decoder is the same but for its place, and the call stack is well formed. -/
structure Housed (cfg : HwCfg) (f : Int16) (s : TraceDecoder MsgDecoder) : Prop where
  decoder : DecoderInv s.msg_decoder ∧ s.msg_decoder.src_filter = f
  cfg_eq : s.msg_decoder.hw_cfg = cfg
  stack : s.return_stack.Inv
  max_eq : s.return_stack.max = cfg.max_stack

theorem exec_housed {cfg : HwCfg} {f : Int16} (hmax : cfg.max_stack < 2 ^ 31) (hf : f < 0) {r : Except NexusError Result}
    (h : exec msg_source env c s = some (r, t)) (hs : Housed cfg f s) : Housed cfg f t := by
  obtain ⟨os, hm, -⟩ := exec_micros h
  have hdec : (DecoderInv t.msg_decoder ∧ t.msg_decoder.src_filter = f) ∧ t.msg_decoder.hw_cfg = cfg := by
    refine hm.keeps (P := fun u => (DecoderInv u.msg_decoder ∧ u.msg_decoder.src_filter = f) ∧ u.msg_decoder.hw_cfg = cfg) ?_
      ⟨hs.decoder, hs.cfg_eq⟩
    intro u o v hm hu
    obtain ⟨hv, hcfg⟩ := hm.lawful (filter_lawful f) hu.1
    exact ⟨hv, hcfg.trans hu.2⟩
  suffices hstack : t.return_stack.Inv ∧ t.return_stack.max = cfg.max_stack from ⟨hdec.1, hdec.2, hstack.1, hstack.2⟩
  by_cases hc : c = .skip
  · rw [hc] at h
    obtain ⟨r', hr, -⟩ := Proc.map_eq_some.1 h
    rw [next_msg2_apply] at hr
    obtain ⟨⟨q, d, m⟩, -, hq⟩ := Option.map_eq_some_iff.1 hr
    cases hq
    exact ⟨hs.stack, hs.max_eq⟩
  -- a state is its own twin
  let Q : RetStack → RetStack → Prop := fun r r' => r' = r ∧ r.Inv ∧ r.max = cfg.max_stack
  have htwin : Twins SamePoint Q s s :=
    ⟨s.msg_decoder, s.msg, s.return_stack, .same hs.decoder.1 (hs.decoder.2 ▸ hf), fun _ => .refl _, rfl, hs.stack, hs.max_eq⟩
  have hclear : ∀ r r', Q r r' → Q (retstack_clear r) (retstack_clear r') := by
    rintro p q ⟨rfl, hi, hm⟩
    exact ⟨rfl, RetStack.clear_inv hi, hm⟩
  have hpush : ∀ {r r' : RetStack} (a : UInt64), Q r r' → Proc.Matches (fun _ => Q) (retstack_push env.mem a r) (retstack_push env.mem a r') := by
    intro p q a ⟨hq, hi, hm⟩
    rw [hq]
    rcases hp : retstack_push env.mem a p with _ | ⟨e, u⟩
    · exact Proc.matches_none
    · obtain ⟨hu, hum⟩ := RetStack.push_inv (hm ▸ hmax) hi hp
      exact Proc.matches_some ⟨rfl, hu, hum.trans hm⟩
  have hpop : ∀ {r r' : RetStack}, Q r r' → Proc.Matches (fun _ => Q) (retstack_pop r) (retstack_pop r') := by
    intro p q ⟨hq, hi, hm⟩
    rw [hq]
    by_cases h0 : p.used = 0
    · rw [RetStack.pop_empty h0]
      exact Proc.matches_some ⟨rfl, hi, hm⟩
    · obtain ⟨a, u, hu, hi', hum, -⟩ := RetStack.pop_some hi h0
      rw [hu]
      exact Proc.matches_some ⟨rfl, hi', hum.trans hm⟩
  rcases exec_twins same_point_pairs hclear hpush hpop ⟨rfl, fun _ => trivial⟩ rfl htwin hc with ⟨hnone, -⟩ | ⟨r', u, v, hu, hv, huv⟩
  · rw [hnone] at h
    cases h
  · rw [hu] at h
    cases h
    rw [hu] at hv
    cases hv
    exact huv.return_stack.2

/-- The call stack of a reachable state is well formed, and as deep as the configuration has it. -/
theorem Reachable.housed (hs : Reachable s) (hf : s.msg_decoder.src_filter < 0) (hmax : s.msg_decoder.hw_cfg.max_stack < 2 ^ 31) :
    Housed s.msg_decoder.hw_cfg s.msg_decoder.src_filter s := by
  obtain ⟨hwcfg, fd, filter, buffer, env, s₀, calls, rs, hinit, hplay⟩ := hs
  obtain ⟨stack, hstack⟩ : ∃ stack, retstack_init env.mem hwcfg.max_stack = .ok stack ∧
      s₀ = ⟨msg_decoder_init hwcfg fd filter buffer buffer.length, [], 0, 0, 0, 0, false, false, Msg.zero, 0, 0, stack⟩ := by
    unfold trace_decoder_init at hinit
    split at hinit
    · cases hinit
    · change (retstack_init env.mem hwcfg.max_stack).map _ = _ at hinit
      rcases hr : retstack_init env.mem hwcfg.max_stack with e | stack <;> rw [hr] at hinit <;> cases hinit
      exact ⟨stack, rfl, rfl⟩
  obtain ⟨hr, rfl⟩ := hstack
  obtain ⟨hi, hm, -⟩ := RetStack.init_inv hr
  have hinv : DecoderInv (msg_decoder_init hwcfg fd filter buffer buffer.length) := init_inv hwcfg fd filter rfl
  -- the filter and the configuration are those of the start
  have hkept : (DecoderInv s.msg_decoder ∧ s.msg_decoder.src_filter = filter) ∧ s.msg_decoder.hw_cfg = hwcfg := by
    refine play_micros_keep (P := fun u => (DecoderInv u.msg_decoder ∧ u.msg_decoder.src_filter = filter) ∧ u.msg_decoder.hw_cfg = hwcfg) ?_ hplay
      ⟨⟨hinv, rfl⟩, rfl⟩
    intro c u o v hm hu
    obtain ⟨hv, hcfg⟩ := hm.lawful (filter_lawful filter) hu.1
    exact ⟨hv, hcfg.trans hu.2⟩
  obtain ⟨⟨-, hfilter⟩, hcfg⟩ := hkept
  rw [hfilter] at hf
  rw [hcfg] at hmax
  rw [hcfg, hfilter]
  exact play_keeps (fun _ _ _ _ _ h hu => exec_housed hmax hf h hu) calls hplay ⟨⟨hinv, rfl⟩, rfl, hi, hm⟩

end Stack

/-! ## Looking past the end -/

/-- The stream ends behind `d`. -/
def StreamEnds (d : MsgDecoder) : Prop := ∃ d' m, msg_decoder_next (d, Msg.zero) = some (.ok 0, d', m)

/-- The look-ahead of a fetch from `s` runs past the end of the stream. -/
def TraceDecoder.FetchesPast (s : TraceDecoder MsgDecoder) : Prop := ∃ d m, s.Branches msg_source d m ∧ StreamEnds d

/-- The loop of `try_retire` and `next_tnt` comes from `s` to a pull in `t`. -/
inductive Pulling {α : Type} (env : Env) (done : Trace MsgDecoder (Option α)) :
    Nat → TraceDecoder MsgDecoder → TraceDecoder MsgDecoder → Prop where
  | here {k : Nat} {s t : TraceDecoder MsgDecoder} : done s = some (.ok none, t) → Pulling env done k s t
  | pulled {k : Nat} {s t u v : TraceDecoder MsgDecoder} : done s = some (.ok none, t) → trace_pull_msg msg_source env k t = some (.ok true, u) →
    Pulling env done (k + 1) u v → Pulling env done k s v

/-- The loop of `sync_reset` comes from `s` to a fetch in `t`. -/
inductive Forwarding (env : Env) : Nat → TraceDecoder MsgDecoder → TraceDecoder MsgDecoder → Prop where
  | here {k : Nat} {s : TraceDecoder MsgDecoder} : Forwarding env k s s
  | dropped {k : Nat} {s u v : TraceDecoder MsgDecoder} {b : Bool} : trace_fetch_msg msg_source (env.msg2 k) s = some (.ok b, u) →
    msg_is_sync u.msg = false → Forwarding env (k + 1) { u with msg_present := false } v → Forwarding env k s v

/-- The look-ahead of `next_indirect` behind an indirect branch that was retired runs past the end of the stream. -/
def LeadsPast (env : Env) (s : TraceDecoder MsgDecoder) : Prop :=
  ∃ b u, trace_fetch_msg msg_source (env.msg2 0) s = some (.ok b, u) ∧ AtIndirect u ∧ Retirable u ∧ StreamEnds u.msg_decoder

/-- A look-ahead of the call runs past the end of the stream. -/
def Call.LooksPast (env : Env) (s : TraceDecoder MsgDecoder) : Call → Prop
  | .sync_reset => s.synced = false ∧ ∃ u, Forwarding env 0 s u ∧ u.FetchesPast
  | .try_retire icnt => s.synced = true ∧
    ∃ u, Pulling env (retire_icnt (if icnt > INT32_MAX then INT32_MAX else icnt)) 0 s u ∧ u.FetchesPast
  | .next_tnt => s.synced = true ∧ ∃ u, Pulling env (retire_tnt msg_source) 0 s u ∧ u.FetchesPast
  | .next_indirect => s.synced = true ∧ (s.FetchesPast ∨ LeadsPast env s)
  | .next_sync => s.synced = true ∧ s.FetchesPast
  | .next_error => s.synced = true ∧ s.FetchesPast
  | .next_stop => s.synced = true ∧ s.FetchesPast
  | _ => False

section Within
variable {α : Type} {s t : TraceDecoder MsgDecoder} {d : MsgDecoder} {env env' : Env} {kind : Msg → Bool}

/-- Without a filter, only the end of the stream blurs a look-ahead. -/
theorem Blurs.ends (h : Blurs kind d) (hinv : DecoderInv d) (hf : d.src_filter < 0) : StreamEnds d := by
  rcases h with ⟨h0, -⟩ | ⟨mem, d', m, hn, -⟩
  · exact absurd hf (Int16.not_lt.2 h0)
  · obtain ⟨r, d₁, a, z, ha, hz, -⟩ := next_any hinv hf mem Msg.zero
    rw [show msg_decoder_next (d, mem) = _ from hn] at ha
    cases ha
    exact ⟨d', z, hz⟩

/-- Only the end of the stream blurs the look-ahead of these decoders. -/
structure Unblurred (I : MsgDecoder → Prop) : Prop where
  lawful : msg_source.Lawful I
  inv : ∀ {d : MsgDecoder}, I d → DecoderInv d
  ends : ∀ {d : MsgDecoder} {kind : Msg → Bool}, I d → Blurs kind d → StreamEnds d

theorem unfiltered_unblurred {f : Int16} (hf : f < 0) : Unblurred fun d => DecoderInv d ∧ d.src_filter = f where
  lawful := filter_lawful f
  inv := fun h => h.1
  ends := fun h hblurs => hblurs.ends h.1 (h.2 ▸ hf)

variable {I : MsgDecoder → Prop} (hI : Unblurred I)
include hI

theorem FetchBlurs.past (hinv : I s.msg_decoder) (h : FetchBlurs s) : s.FetchesPast := by
  obtain ⟨d, m, hb, hblurs⟩ := h
  obtain ⟨n, -, hn⟩ := hb.next
  exact ⟨d, m, hb, hI.ends (hI.lawful.next hinv hn).1 hblurs⟩

theorem fetch_within (hinv : I s.msg_decoder) (h : ¬ s.FetchesPast) (msg2 msg2' : Msg) :
    trace_fetch_msg msg_source msg2 s = trace_fetch_msg msg_source msg2' s :=
  ((fetch_tells_iff (hI.inv hinv)).2 (mt (FetchBlurs.past hI hinv) h)).same msg2 msg2'

theorem next_indirect_within (hinv : I s.msg_decoder) (h : ¬ s.FetchesPast) (hlead : ¬ LeadsPast env s) :
    trace_next_indirect msg_source env s = trace_next_indirect msg_source env' s := by
  refine ((indirect_tells_iff (hI.inv hinv) (mt (FetchBlurs.past hI hinv) h)).2 ?_).same env env'
  rintro ⟨msg2, b, u, hu, hat, hret, hblurs⟩
  refine hlead ⟨b, u, ?_, hat, hret, hI.ends (hu.left hI.lawful hinv).1 hblurs⟩
  rw [fetch_within hI hinv h (env.msg2 0) msg2]
  exact fetch_of hu

/-- The loop of `try_retire` and `next_tnt` is the same, whatever the local messages hold. -/
theorem pull_until_within {done : Trace MsgDecoder (Option α)} (hasks : Asks done) (halloc : env.alloc = env'.alloc) (fuel : Nat) :
    ∀ {k : Nat} {rc : Bool} {s : TraceDecoder MsgDecoder}, I s.msg_decoder →
      (rc = true → ∀ u, Pulling env done k s u → ¬ u.FetchesPast) →
      pull_until msg_source env done fuel k rc s = pull_until msg_source env' done fuel k rc s := by
  induction fuel with
  | zero => exact fun _ _ => rfl
  | succ fuel ih =>
    intro k rc s hinv hs
    rw [pull_until, pull_until, Proc.bind_apply, Proc.bind_apply]
    rcases hd : done s with _ | ⟨e | _ | a, t⟩
    · rfl
    · rfl
    · obtain ⟨-, hts, hset⟩ | ⟨a, ha⟩ := hasks _ _ _ hd
      · simp only [Proc.ite_apply]
        split
        · rfl
        rename_i hrc
        have hrc : rc = true := by simpa using hrc
        have hfetch := fetch_within hI (hts ▸ hinv) (hs hrc t (.here hd)) (env.msg2 k) (env'.msg2 k)
        have hpull : trace_pull_msg msg_source env k t = trace_pull_msg msg_source env' k t := by
          simp only [trace_pull_msg, push_element, halloc]
          rw [Proc.bind_apply, Proc.bind_apply, hfetch]
        rw [Proc.bind_apply, Proc.bind_apply, ← hpull]
        rcases hp : trace_pull_msg msg_source env k t with _ | ⟨e | b, u⟩
        · rfl
        · rfl
        · rw [hts] at hp
          apply ih ((pull_cases hp).left hI.lawful hinv hset).1
          intro hb v hv
          rw [hb] at hp
          exact hs hrc v (.pulled hd (by rw [hts]; exact hp) hv)
      · cases ha
    · rfl

theorem sync_forward_within (fuel : Nat) : ∀ {k : Nat} {s : TraceDecoder MsgDecoder}, I s.msg_decoder →
    (∀ u, Forwarding env k s u → ¬ u.FetchesPast) → sync_forward msg_source env fuel k s = sync_forward msg_source env' fuel k s := by
  induction fuel with
  | zero => exact fun _ _ => rfl
  | succ fuel ih =>
    intro k s hinv hs
    have hfetch := fetch_within hI hinv (hs s .here) (env.msg2 k) (env'.msg2 k)
    rw [sync_forward, sync_forward, Proc.bind_apply, Proc.bind_apply, ← hfetch]
    rcases hu : trace_fetch_msg msg_source (env.msg2 k) s with _ | ⟨e | b, u⟩
    · rfl
    · rfl
    · simp only [Proc.get_bind_apply, Proc.ite_apply, Proc.modify_bind_apply]
      split
      · rfl
      · rename_i hy
        have hy : msg_is_sync u.msg = false := by simpa using hy
        have hleft := ((fetch_cases hu).left hI.lawful hinv).1
        apply ih (s := { u with msg_present := false }) hleft
        intro v hv
        exact hs v (.dropped hu hy hv)

omit hI in
theorem next_sync_buffered (hp : s.msg_present = true) (env env' : Env) : trace_next_sync msg_source env s = trace_next_sync msg_source env' s := by
  simp only [trace_next_sync, Proc.get_bind_apply, Proc.ite_apply]
  split
  · rfl
  · exact Proc.bind_of_eq ((fetch_present _ hp).trans (fetch_present _ hp).symm) _

/-- What a call does is the same, whatever the local messages hold, where no look-ahead runs past the end of the stream. -/
theorem exec_within (halloc : env.alloc = env'.alloc) (hmem : env.mem = env'.mem)
    (hinv : I s.msg_decoder) {c : Call} (hc : c ≠ .skip) (h : ¬ c.LooksPast env s) :
    exec msg_source env c s = exec msg_source env' c s := by
  -- a call that is refused looks at nothing
  have hsynced : ∀ {β : Type} {x y : Trace MsgDecoder β}, (s.synced = true → x s = y s) →
      (do let s ← Proc.get; if !s.synced then Proc.fail .trace_not_synced else x : Trace MsgDecoder β) s =
      (do let s ← Proc.get; if !s.synced then Proc.fail .trace_not_synced else y : Trace MsgDecoder β) s := by
    intro β x y hxy
    simp only [Proc.get_bind_apply, Proc.ite_apply]
    split
    · rfl
    · rename_i hsync
      exact hxy (by simpa using hsync)
  have hfetch : ¬ s.FetchesPast → ∀ {β : Type} (g : Bool → Trace MsgDecoder β), (trace_fetch_msg msg_source (env.msg2 0) >>= g) s =
      (trace_fetch_msg msg_source (env'.msg2 0) >>= g) s := by
    intro hpast β g
    exact Proc.bind_of_eq (fetch_within hI hinv hpast _ _) g
  cases c with
  | sync_reset =>
    apply Proc.map_of_eq
    simp only [trace_sync_reset, Proc.get_bind_apply, Proc.ite_apply]
    split
    · rfl
    rename_i hsync
    have hsync : s.synced = false := by simpa using hsync
    have hforward : sync_forward msg_source env (msg_source.left s.msg_decoder + 2) 0 s =
        sync_forward msg_source env' (msg_source.left s.msg_decoder + 2) 0 s :=
      sync_forward_within hI _ hinv fun u hu hpast => h ⟨hsync, u, hu, hpast⟩
    rw [Proc.bind_apply, Proc.bind_apply, ← hforward]
    rcases hu : sync_forward msg_source env (msg_source.left s.msg_decoder + 2) 0 s with _ | ⟨e | ⟨⟩, u⟩
    · rfl
    · rfl
    · -- the sync message is buffered, so `next_sync` fetches nothing
      have hp := (((sync_forward_cases _ hu).micros hsync).2.2 rfl).1
      exact Proc.bind_of_eq (next_sync_buffered (s := u.resynced) hp env env') _
  | try_retire icnt =>
    apply Proc.map_of_eq
    apply hsynced
    intro hsync
    apply Proc.bind_of_eq
    apply pull_until_within hI (asks_icnt _) halloc _ hinv
    intro _ u hu hpast
    exact h ⟨hsync, u, hu, hpast⟩
  | next_tnt =>
    apply Proc.map_of_eq
    apply hsynced
    intro hsync
    apply Proc.bind_of_eq
    apply pull_until_within hI asks_tnt halloc _ hinv
    intro _ u hu hpast
    exact h ⟨hsync, u, hu, hpast⟩
  | next_indirect =>
    apply Proc.map_of_eq
    cases hsync : s.synced with
    | false => simp [trace_next_indirect, hsync]
    | true => exact next_indirect_within hI hinv (fun hpast => h ⟨hsync, .inl hpast⟩) fun hpast => h ⟨hsync, .inr hpast⟩
  | next_sync => exact Proc.map_of_eq (hsynced fun hsync => hfetch (fun hpast => h ⟨hsync, hpast⟩) _) _
  | next_error => exact Proc.map_of_eq (hsynced fun hsync => hfetch (fun hpast => h ⟨hsync, hpast⟩) _) _
  | next_stop => exact Proc.map_of_eq (hsynced fun hsync => hfetch (fun hpast => h ⟨hsync, hpast⟩) _) _
  | push_call a =>
    simp only [exec, trace_push_call, hmem]
  | pop_ret => rfl
  | add_timestamp ts => rfl
  | skip => exact absurd rfl hc

end Within

end nexusrv
