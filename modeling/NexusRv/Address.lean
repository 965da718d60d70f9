import NexusRv.Timestamps
/-!
# Addresses

A sync message has a full X-ADDR, and an indirect branch the exclusive or of its X-ADDR and
the one before. The decoder keeps the X-ADDR of the last message that it handed out; it has
no part of the message that is buffered yet.
-/

namespace nexusrv

/-! ## Sign extension -/

/-- The address of `bits` bits, with its sign extended to 64. -/
def sign_extended (bits : Nat) (addr : UInt64) : UInt64 := .ofBitVec ((addr.toBitVec.setWidth bits).signExtend 64)

/-- `target` is `addr` with its sign extended, unless the sign bit is 0 and there are bits above it; then it is `addr`. -/
def Extends (bits : Nat) (addr target : UInt64) : Prop :=
  (target = sign_extended bits addr ↔ addr.toNat < 2 ^ bits ∨ addr.toNat.testBit (bits - 1) = true) ∧
    (target ≠ sign_extended bits addr → target = addr)

theorem sign_extended_bit {bits : Nat} (h1 : 1 ≤ bits) (addr : UInt64) (i : Nat) : (sign_extended bits addr).toNat.testBit i =
    (decide (i < 64) && addr.toNat.testBit (if i < bits then i else bits - 1)) := by
  have hbit : ∀ i, addr.toBitVec.getLsbD i = addr.toNat.testBit i := fun i => rfl
  have hmsb : (addr.toBitVec.setWidth bits).msb = addr.toNat.testBit (bits - 1) := by
    rw [BitVec.msb_eq_getLsbD_last, BitVec.getLsbD_setWidth, hbit, decide_eq_true (by omega), Bool.true_and]
  change ((addr.toBitVec.setWidth bits).signExtend 64).getLsbD i = _
  rw [BitVec.getLsbD_signExtend, hmsb, BitVec.getLsbD_setWidth, hbit]
  by_cases hi : i < bits <;> simp [hi]

theorem high_bits {bits : Nat} (h : bits < 64) (i : Nat) :
    (UInt64.ofNat (2 ^ 64 - 2 ^ bits)).toNat.testBit i = (decide (bits ≤ i) && decide (i < 64)) := by
  have hpow : 2 ^ bits < 2 ^ 64 := Nat.pow_lt_pow_right (by decide) h
  have hpos : 0 < 2 ^ bits := Nat.two_pow_pos bits
  have hnat : (UInt64.ofNat (2 ^ 64 - 2 ^ bits)).toNat = 2 ^ 64 - ((2 ^ bits - 1) + 1) := by
    rw [Nat.sub_add_cancel hpos]
    exact Nat.mod_eq_of_lt (by omega)
  have hnot : (!decide (i < bits)) = decide (bits ≤ i) := by
    rw [← decide_not]
    exact decide_eq_decide.2 Nat.not_lt
  rw [hnat, Nat.testBit_two_pow_sub_succ (by omega), Nat.testBit_two_pow_sub_one, hnot, Bool.and_comm]

/-- The bits above the sign bit are set, and never cleared. -/
theorem extend_addr_bits_extends {bits : Nat} (h1 : 1 ≤ bits) (h64 : bits ≤ 64) (addr : UInt64) :
    Extends bits addr (extend_addr_bits addr bits) := by
  unfold Extends extend_addr_bits
  have hlt : ∀ i, 64 ≤ i → addr.toNat.testBit i = false := fun i hi =>
    Nat.testBit_lt_two_pow (Nat.lt_of_lt_of_le addr.toNat_lt (Nat.pow_le_pow_right (by decide) hi))
  have heq : ∀ {a : UInt64}, a = sign_extended bits addr ↔
      ∀ i, a.toNat.testBit i = (decide (i < 64) && addr.toNat.testBit (if i < bits then i else bits - 1)) := by
    intro a
    rw [← UInt64.toNat_inj, Nat.eq_iff_testBit_eq]
    simp only [sign_extended_bit h1]
  split
  · rename_i hbits
    refine ⟨iff_of_true (heq.2 fun i => ?_) (.inl ?_), fun _ => rfl⟩
    · by_cases hi : i < 64
      · simp [hi, show i < bits by omega]
      · simp [hi, hlt i (by omega)]
    · rw [show bits = 64 by omega]
      exact addr.toNat_lt
  rename_i hbits
  have hbits : bits < 64 := by omega
  split
  · rename_i hsign
    have hext : addr ||| .ofNat (2 ^ 64 - 2 ^ bits) = sign_extended bits addr := heq.2 fun i => by
      rw [UInt64.toNat_or, Nat.testBit_or, high_bits hbits]
      by_cases hi : i < bits
      · simp [hi, show ¬ bits ≤ i by omega, show i < 64 by omega]
      · by_cases hi' : i < 64
        · simp [hi, hi', hsign, show bits ≤ i by omega]
        · simp [hi', hlt i (by omega)]
    exact ⟨iff_of_true hext (.inr hsign), fun hne => absurd hext hne⟩
  · rename_i hsign
    have hsign : addr.toNat.testBit (bits - 1) = false := by simpa using hsign
    refine ⟨?_, fun _ => rfl⟩
    rw [heq, hsign, or_iff_left Bool.false_ne_true]
    constructor
    · intro h
      refine Nat.lt_pow_two_of_testBit _ fun i hi => ?_
      rw [h i, if_neg (by omega), hsign, Bool.and_false]
    · intro h i
      by_cases hi : i < bits
      · simp [hi, show i < 64 by omega]
      · rw [if_neg hi, hsign, Bool.and_false]
        exact Nat.testBit_lt_two_pow (Nat.lt_of_lt_of_le h (Nat.pow_le_pow_right (by decide) (by omega)))
theorem shl_one (x : UInt64) : x <<< 1 = 2 * x := by
  rw [← UInt64.toNat_inj, UInt64.toNat_shiftLeft, UInt64.toNat_mul, Nat.shiftLeft_eq, Nat.mul_comm]
  rfl

/-! ## The address of the messages -/

/-- The X-ADDR of a sync message that the decoder supports. -/
def sync_xaddr (m : Msg) : Option UInt64 := if msg_is_sync m && trace_check_msg m then some m.xaddr else none

def branch_xaddr (m : Msg) : UInt64 := if msg_is_indir_branch m && trace_check_msg m then m.xaddr else 0

/-- The X-ADDR of the last sync message, newest first. -/
def last_xaddr (l : List Msg) : Option UInt64 := l.findSome? sync_xaddr

/-- The exclusive or of the X-ADDRs of the indirect branches since. -/
def xaddrs_since (l : List Msg) : UInt64 := ((l.takeWhile fun m => (sync_xaddr m).isNone).map branch_xaddr).foldr (· ^^^ ·) 0

def stream_xaddr (l : List Msg) : Option UInt64 := (last_xaddr l).map (· ^^^ xaddrs_since l)

theorem stream_xaddr_sync {m : Msg} {l : List Msg} {x : UInt64} (h : sync_xaddr m = some x) : stream_xaddr (m :: l) = some x := by
  rw [stream_xaddr, last_xaddr, List.findSome?_cons, h, xaddrs_since, List.takeWhile_cons_of_neg (by simp [h])]
  exact congrArg some UInt64.xor_zero

theorem stream_xaddr_other {m : Msg} {l : List Msg} (h : sync_xaddr m = none) :
    stream_xaddr (m :: l) = (stream_xaddr l).map (· ^^^ branch_xaddr m) := by
  rw [stream_xaddr, last_xaddr, List.findSome?_cons, h, xaddrs_since, List.takeWhile_cons_of_pos (by simp [h]), List.map_cons,
    List.foldr_cons, stream_xaddr, Option.map_map]
  apply congrArg (fun f => Option.map f _)
  funext a
  change a ^^^ (branch_xaddr m ^^^ xaddrs_since l) = a ^^^ xaddrs_since l ^^^ branch_xaddr m
  rw [UInt64.xor_comm (branch_xaddr m), UInt64.xor_assoc]

/-- A message without an address. -/
theorem stream_xaddr_none {m : Msg} {l : List Msg} (h : sync_xaddr m = none) (h0 : branch_xaddr m = 0) :
    stream_xaddr (m :: l) = stream_xaddr l := by
  rw [stream_xaddr_other h, h0]
  simp only [UInt64.xor_zero, Option.map_id']

theorem unsupported_xaddr {m : Msg} (h : trace_check_msg m = false) : sync_xaddr m = none ∧ branch_xaddr m = 0 := by
  rw [sync_xaddr, branch_xaddr, h, Bool.and_false, Bool.and_false]
  exact ⟨rfl, rfl⟩

/-- Neither a sync message nor an indirect branch. -/
theorem plain_xaddr {m : Msg} (hy : msg_is_sync m = false) (hi : msg_is_indir_branch m = false) :
    sync_xaddr m = none ∧ branch_xaddr m = 0 := by
  rw [sync_xaddr, branch_xaddr, hy, hi, Bool.false_and]
  exact ⟨rfl, rfl⟩

/-! ## The address of the decoder -/

section Located
variable {σ : Type} {src : Source σ} {s t : TraceDecoder (σ × List Input)} {c : Call}

/-- What the buffered message adds to the address when it is handed out. -/
def TraceDecoder.xaddr_due {τ : Type} (s : TraceDecoder τ) : UInt64 := if s.msg_present && msg_is_indir_branch s.msg then s.msg.xaddr else 0

/-- A buffered sync message has the address; without one the decoder has it, but for what the buffered message adds. -/
def Located (s : TraceDecoder (σ × List Input)) : Prop :=
  if s.msg_present && msg_is_sync s.msg then stream_xaddr (taken s.log) = some s.msg.xaddr
  else s.synced = true → stream_xaddr (taken s.log) = some (s.full_addr ^^^ s.xaddr_due)

theorem Located.sync (h : Located s) (hp : s.msg_present = true) (hy : msg_is_sync s.msg = true) :
    stream_xaddr (taken s.log) = some s.msg.xaddr := by
  rwa [Located, hp, hy, Bool.true_and, if_pos rfl] at h

theorem Located.other (h : Located s) (hy : (s.msg_present && msg_is_sync s.msg) = false) (hsync : s.synced = true) :
    stream_xaddr (taken s.log) = some (s.full_addr ^^^ s.xaddr_due) := by
  rw [Located, hy, if_neg Bool.false_ne_true] at h
  exact h hsync

theorem located_sync (hp : t.msg_present = true) (hy : msg_is_sync t.msg = true) (h : stream_xaddr (taken t.log) = some t.msg.xaddr) :
    Located t := by
  rw [Located, hp, hy, Bool.true_and, if_pos rfl]
  exact h

theorem located_other (hy : (t.msg_present && msg_is_sync t.msg) = false)
    (h : t.synced = true → stream_xaddr (taken t.log) = some (t.full_addr ^^^ t.xaddr_due)) : Located t := by
  rw [Located, hy, if_neg Bool.false_ne_true]
  exact h

theorem located_empty (hp : t.msg_present = false) (h : t.synced = true → stream_xaddr (taken t.log) = some t.full_addr) : Located t := by
  refine located_other (by rw [hp]; rfl) fun hsync => ?_
  rw [h hsync, TraceDecoder.xaddr_due, hp, Bool.false_and, if_neg Bool.false_ne_true, UInt64.xor_zero]

theorem Located.empty (h : Located s) (hp : s.msg_present = false) (hsync : s.synced = true) :
    stream_xaddr (taken s.log) = some s.full_addr := by
  rw [h.other (by rw [hp]; rfl) hsync, TraceDecoder.xaddr_due, hp, Bool.false_and, if_neg Bool.false_ne_true, UInt64.xor_zero]

/-- A step that leaves the address, the buffer and the addresses of the log. -/
theorem Located.same (h : Located s) (hlog : stream_xaddr (taken t.log) = stream_xaddr (taken s.log)) (hsync : t.synced = s.synced)
    (hp : t.msg_present = s.msg_present) (hm : t.msg = s.msg) (ha : t.full_addr = s.full_addr) : Located t := by
  unfold Located TraceDecoder.xaddr_due at *
  rw [hlog, hsync, hp, hm, ha]
  exact h

/-- The buffered message is handed out: it has the address itself, or adds nothing. -/
theorem Located.retire (h : Located s) (hret : Retirable s) (hdue : msg_is_sync s.msg = false → s.xaddr_due = 0) :
    Located (s.retired (recorded src)) := by
  have hlog : (s.retired (recorded src)).log = s.log := congrArg Prod.snd (retired_msg_decoder s)
  have hsync : (s.retired (recorded src)).synced = s.synced := (retired_frame s).2.2.2.2.2
  cases hy : msg_is_sync s.msg with
  | true =>
    have haddr := h.sync hret.present hy
    cases hp : (s.retired (recorded src)).msg_present with
    | true =>
      obtain ⟨-, ⟨-, hm⟩ | ⟨hno, -⟩⟩ := retired_msg hp
      · refine located_sync hp (by rw [hm]; rfl) ?_
        rw [hlog, hm]
        exact haddr
      · exact Bool.noConfusion (hno.symm.trans hy)
    | false =>
      have hb : msg_is_branch s.msg = false := by
        refine Bool.eq_false_iff.2 fun hb => ?_
        rw [TraceDecoder.retired, if_pos hb, if_pos hy] at hp
        exact Bool.noConfusion (hp.symm.trans hret.present)
      refine located_empty hp fun _ => ?_
      rw [hlog, haddr, TraceDecoder.retired, hb, hy]
      rfl
  | false =>
    have hfull : (s.retired (recorded src)).full_addr = s.full_addr := by
      unfold TraceDecoder.retired
      rw [hy]
      simp only [Bool.false_eq_true, if_false]
      split
      · split <;> rfl
      · rfl
    have haddr : s.synced = true → stream_xaddr (taken s.log) = some s.full_addr := fun hs => by
      rw [h.other (by rw [hy, Bool.and_false]) hs, hdue hy, UInt64.xor_zero]
    cases hp : (s.retired (recorded src)).msg_present with
    | true =>
      obtain ⟨-, ⟨hno, -⟩ | ⟨-, -, time, hm⟩⟩ := retired_msg hp
      · exact Bool.noConfusion (hno.symm.trans hy)
      · -- a repetition has the X-ADDR that was retired
        have hsame : (s.retired (recorded src)).xaddr_due = s.xaddr_due := by
          rw [TraceDecoder.xaddr_due, TraceDecoder.xaddr_due, hp, hm, hret.present]
          rfl
        refine located_other (by rw [hm]; exact (Bool.and_eq_false_iff.2 (.inr hy))) fun hs => ?_
        rw [hsame, hdue hy, hlog, hfull, UInt64.xor_zero]
        exact haddr (hsync ▸ hs)
    | false =>
      refine located_empty hp fun hs => ?_
      rw [hlog, hfull]
      exact haddr (hsync ▸ hs)

/-- `next_indirect` takes the address first. -/
theorem Located.address (h : Located s) (hp : s.msg_present = true) (hi : msg_is_indir_branch s.msg = true) :
    Located s.addressed ∧ (msg_is_sync s.msg = false → s.addressed.xaddr_due = 0) ∧
      (s.synced = true → stream_xaddr (taken s.log) = some s.addressed.full_addr) := by
  cases hy : msg_is_sync s.msg with
  | true =>
    have haddr := h.sync hp hy
    have hs : s.addressed = { s with full_addr := s.msg.xaddr } := by rw [TraceDecoder.addressed, if_pos hy]
    rw [hs]
    exact ⟨located_sync hp hy haddr, (fun h => nomatch h), fun _ => haddr⟩
  | false =>
    have haddr := h.other (by rw [hy, Bool.and_false])
    rw [TraceDecoder.xaddr_due, hp, hi, Bool.true_and, if_pos rfl] at haddr
    have hs : s.addressed = { s with full_addr := s.full_addr ^^^ s.msg.xaddr, msg := { s.msg with xaddr := 0 } } := by
      rw [TraceDecoder.addressed, if_neg (by rw [hy]; decide)]
    have hdue : s.addressed.xaddr_due = 0 := by
      rw [hs, TraceDecoder.xaddr_due]
      exact ite_self 0
    refine ⟨located_other ?_ fun hsync => ?_, fun _ => hdue, fun hsync => ?_⟩
    · rw [hs]
      exact Bool.and_eq_false_iff.2 (.inr hy)
    · rw [hdue, UInt64.xor_zero, hs]
      rw [hs] at hsync
      exact haddr hsync
    · rw [hs]
      exact haddr hsync

/-- What a look-ahead finds has no address. -/
theorem Looked.taken_xaddr {g : List Input} {k : UInt32} (h : Looked g k) (l : List Input) :
    stream_xaddr (taken (g ++ l)) = stream_xaddr (taken l) := by
  cases h with
  | failed e => rfl
  | other m => rfl
  | repeated m hm =>
    obtain ⟨h1, h2⟩ := plain_xaddr (m := m) (by simp [msg_is_sync, hm]) (by simp [msg_is_indir_branch, hm])
    exact stream_xaddr_none h1 h2
  | ended m => rfl
  | stale m => rfl

theorem Fetched.located {m₂ : Msg} {r : Except NexusError Bool} (hf : Fetched (recorded src) m₂ s r t) (h : Located s) : Located t := by
  -- a message that is fetched sets the address, or is due
  have htook : ∀ {m : Msg} {k : UInt32}, s.msg_present = false → t.msg_present = true → trace_check_msg m = true →
      t.msg = { m with hrepeat := k } → stream_xaddr (taken t.log) = stream_xaddr (m :: taken s.log) → Located t := by
    intro m k hp htp hc hm hlog
    cases hy : msg_is_sync m with
    | true =>
      refine located_sync htp (by rw [hm]; exact hy) ?_
      rw [hlog, hm]
      exact stream_xaddr_sync (by rw [sync_xaddr, hy, hc]; rfl)
    | false =>
      have hfull : t.full_addr = s.full_addr := by rw [hf.frame]
      have hdue : t.xaddr_due = branch_xaddr m := by
        rw [TraceDecoder.xaddr_due, branch_xaddr, htp, hm, hc, Bool.true_and, Bool.and_true]
        rfl
      refine located_other (by rw [hm]; exact Bool.and_eq_false_iff.2 (.inr hy)) fun hsync => ?_
      rw [hlog, stream_xaddr_other (by rw [sync_xaddr, hy]; rfl), h.empty hp (hf.synced ▸ hsync), hfull, hdue]
      rfl
  cases hf.reads with
  | present => exact h
  | nothing i hp htp hi hlog =>
    have hlog : taken t.log = taken s.log := by
      rw [hlog]
      cases i with
      | took m => exact absurd rfl (hi m)
      | _ => rfl
    refine located_empty htp fun hsync => ?_
    rw [hlog, h.empty hp (hf.synced ▸ hsync), hf.frame]
  | plain m hp htp hc hb hm hlog => exact htook hp htp hc hm (by rw [hlog]; rfl)
  | branch m g k hp htp hc hb hg hm hlog => exact htook hp htp hc hm (by rw [hlog, hg.taken_xaddr]; rfl)

/-- Every step keeps the address where it belongs; what the caller skips has to be without one. -/
theorem Micro.located {o : List Out} (h : Micro (recorded src) c s o t) (hc : c ≠ .skip) (hs : Located s) : Located t := by
  cases h with
  | fetch hf => exact hf.located hs
  | @pull u m₂ e _ _ hp hf hres =>
    have hu := hf.located hs
    obtain ⟨-, -, -, hy⟩ := res_fields hres
    refine located_empty rfl fun hsync => ?_
    have haddr := hu.other (by rw [hy, Bool.and_false]) hsync
    have hi : msg_is_indir_branch u.msg = false := Bool.eq_false_iff.2 fun hi => by
      simp only [msg_is_res, decide_eq_true_eq] at hres
      simp [msg_is_indir_branch, hres] at hi
    rwa [TraceDecoder.xaddr_due, hi, Bool.and_false, if_neg Bool.false_ne_true, UInt64.xor_zero] at haddr
  | stuck => exact hs.same rfl rfl rfl rfl rfl
  | @take n =>
    obtain ⟨h1, h2, h3, h4, -⟩ := take_icnt_frame n s
    refine hs.same (by rw [TraceDecoder.log, h3]; rfl) h4 h1 h2 ?_
    unfold TraceDecoder.take_icnt
    split <;> rfl
  | tnt _ _ _ _ _ htook =>
    obtain ⟨-, -, h3, h4, h5, h6, -⟩ := htook.frame
    refine hs.same (by rw [TraceDecoder.log, h6]; rfl) h5 h4 h3 ?_
    cases htook <;> rfl
  | retire _ _ _ hret _ hdir =>
    refine hs.retire hret fun _ => ?_
    rw [TraceDecoder.xaddr_due, hdir, Bool.and_false, if_neg Bool.false_ne_true]
  | indirect _ _ hi hret =>
    obtain ⟨haddr, hdue, -⟩ := hs.address hret.present hi
    refine haddr.retire (addressed_retirable.2 hret) fun hy => hdue ?_
    rw [(addressed_frame s).2] at hy
    exact hy
  | stop _ _ _ hk hret =>
    refine located_empty (retired_present ?_) fun h => by cases h
    simp only [msg_is_stop, decide_eq_true_eq] at hk
    simp [msg_is_branch, hk]
  | error _ _ _ hk => exact located_empty (retired_present (by simp [TraceDecoder.emptied, msg_is_branch, hk])) fun h => by cases h
  | @past m₂ r d m _ hn hown =>
    have hlog : stream_xaddr (taken d.2) = stream_xaddr (taken s.log) := by
      rw [(recorded_next.1 hn).2]
      rcases r with e | _ | n
      · rfl
      · rfl
      · have hk := hown _ rfl
        obtain ⟨h1, h2⟩ := plain_xaddr (m := m) (by simp [msg_is_sync, hk]) (by simp [msg_is_indir_branch, hk])
        exact stream_xaddr_none h1 h2
    exact hs.same hlog rfl rfl rfl rfl
  | @peek m₂ k d m d' _ hn hback =>
    have hlog : taken d'.2 = taken s.log := by
      rw [(recorded_rewind.1 hback).2, (recorded_next.1 hn).2]
      cases k <;> rfl
    exact hs.same (congrArg stream_xaddr hlog) rfl rfl rfl rfl
  | skip hk => exact absurd hk hc
  | drop _ hsync => exact located_empty rfl fun h => Bool.noConfusion (hsync.symm.trans h)
  | resync _ _ hp hy => exact located_sync hp rfl (hs.sync hp hy)
  | stack => exact hs.same rfl rfl rfl rfl rfl
  | time => exact hs.same rfl rfl rfl rfl rfl

/-- What the caller skips is not supported. -/
def skips_unsupported (rs : List (Except NexusError Result)) : Prop := ∀ n m, .ok (.skipped n m) ∈ rs → trace_check_msg m = false

theorem skip_located {env : Env} {r : Except NexusError Result} (h : exec (recorded src) env .skip s = some (r, t))
    (hskip : ∀ n m, r = .ok (.skipped n m) → trace_check_msg m = false) (hs : Located s) : Located t := by
  obtain ⟨r₁, h₁, rfl⟩ := Proc.map_eq_some.1 h
  rw [next_msg2_apply] at h₁
  obtain ⟨⟨q, d, m⟩, hq, he⟩ := Option.map_eq_some_iff.1 h₁
  cases he
  have hlog : stream_xaddr (taken d.2) = stream_xaddr (taken s.log) := by
    rw [(recorded_next.1 hq).2]
    rcases q with e | _ | n
    · rfl
    · rfl
    · obtain ⟨h1, h2⟩ := unsupported_xaddr (hskip (n + 1) m rfl)
      exact stream_xaddr_none h1 h2
  exact hs.same hlog rfl rfl rfl rfl

theorem exec_located {env : Env} {r : Except NexusError Result} (h : exec (recorded src) env c s = some (r, t))
    (hskip : ∀ n m, r = .ok (.skipped n m) → trace_check_msg m = false) (hs : Located s) : Located t := by
  by_cases hc : c = .skip
  · rw [hc] at h
    exact skip_located h hskip hs
  · obtain ⟨os, hm, -⟩ := exec_micros h
    exact hm.keeps (fun _ _ _ h => h.located hc) hs

theorem play_located (calls : List (Env × Call)) : ∀ {s t : TraceDecoder (σ × List Input)} {rs : List (Except NexusError Result)},
    play (recorded src) calls s = some (rs, t) → skips_unsupported rs → Located s → Located t := by
  induction calls with
  | nil =>
    intro s t rs h _ hs
    cases h
    exact hs
  | cons c calls ih =>
    intro s t rs h hskip hs
    obtain ⟨r, u, rs', hc, hrest, rfl⟩ := play_cons.1 h
    exact ih hrest (fun n m hm => hskip n m (List.mem_cons_of_mem _ hm))
      (exec_located hc (fun n m hr => hskip n m (by rw [hr]; exact List.mem_cons_self)) hs)

/-- The target is the address of the messages up to the one that is handed out. -/
theorem NextIndirect.target {I : σ → Prop} (hlaw : src.Lawful I) (hI : I s.msg_decoder.1) {env : Env} {i : TraceIndirect}
    (h : NextIndirect (recorded src) env s (.ok i) t) (hs : Located s) :
    ∃ x, stream_xaddr (taken t.log) = some x ∧ i.target = extend_addr_bits (x <<< 1) (src.hw_cfg s.msg_decoder.1).addr_bits := by
  have hhand : ∀ {b : Bool} {u : TraceDecoder (σ × List Input)} (ownership : Option TraceOwnership), s.synced = true →
      Fetched (recorded src) (env.msg2 0) s (.ok b) u → msg_is_indir_branch u.msg = true → Retirable u →
      ∃ x, stream_xaddr (taken u.log) = some x ∧
        (u.indirect (recorded src) ownership).target = extend_addr_bits (x <<< 1) (src.hw_cfg s.msg_decoder.1).addr_bits := by
    intro b u ownership hsync hf hi hret
    obtain ⟨-, -, haddr⟩ := (hf.located hs).address hret.present hi
    have hcfg : (recorded src).hw_cfg u.msg_decoder = src.hw_cfg s.msg_decoder.1 := (hf.left (recorded_lawful hlaw) hI).2.1
    refine ⟨_, haddr (hf.synced.trans hsync), ?_⟩
    rw [indirect_eq, addressed_msg_decoder, hcfg]
  generalize hr : (.ok i : Except NexusError TraceIndirect) = r at h
  cases h with
  | unsynced => cases hr
  | fetch_failed => cases hr
  | mismatch => cases hr
  | ahead_failed => cases hr
  | other b u n d d' m₂ hsync hf _ _ hi hret hn _ hback =>
    cases hr
    have hlog : taken d'.2 = taken u.log := by
      rw [(recorded_rewind.1 hback).2, (recorded_next.1 hn).2]
      cases n <;> rfl
    obtain ⟨x, hx, htarget⟩ := hhand none hsync hf hi hret
    refine ⟨x, ?_, htarget⟩
    change stream_xaddr (taken d'.2) = _
    rw [hlog]
    exact hx
  | ownership b u n d m₂ hsync hf _ _ hi hret hn hk =>
    cases hr
    have hlog : stream_xaddr (taken d.2) = stream_xaddr (taken u.log) := by
      rw [(recorded_next.1 hn).2]
      cases n with
      | zero => rfl
      | succ n =>
        obtain ⟨h1, h2⟩ := plain_xaddr (m := m₂) (by simp [msg_is_sync, hk]) (by simp [msg_is_indir_branch, hk])
        exact stream_xaddr_none h1 h2
    obtain ⟨x, hx, htarget⟩ := hhand (some m₂.ownership) hsync hf hi hret
    refine ⟨x, ?_, htarget⟩
    change stream_xaddr (taken d.2) = _
    rw [hlog]
    exact hx

end Located

theorem Initial.located {s : TraceDecoder MsgDecoder} (h : Initial s) : Located s.start := by
  obtain ⟨hwcfg, fd, filter, buffer, env, hinit⟩ := h
  obtain ⟨stack, rfl⟩ := trace_decoder_init_eq hinit
  exact located_empty rfl fun h => nomatch h

/-- The target of an indirect branch is twice the X-ADDR of the last sync message, combined with those of the indirect
branches since, each message once, as `extend_addr_bits` extends it. -/
theorem next_indirect_target {s : TraceDecoder MsgDecoder} (hs : Initial s) (h1 : 1 ≤ s.msg_decoder.hw_cfg.addr_bits)
    (h64 : s.msg_decoder.hw_cfg.addr_bits ≤ 64) {calls : List (Env × Call)} {rs : List (Except NexusError Result)}
    {t u : TraceDecoder (MsgDecoder × List Input)} (hplay : play (recorded msg_source) calls s.start = some (rs, t))
    (hskip : skips_unsupported rs) {env : Env} {i : TraceIndirect}
    (h : exec (recorded msg_source) env .next_indirect t = some (.ok (.indirect i), u)) :
    ∃ a, last_xaddr (taken u.log) = some a ∧
      Extends s.msg_decoder.hw_cfg.addr_bits (2 * (a ^^^ xaddrs_since (taken u.log))) i.target := by
  have hkeep : DecoderInv t.msg_decoder.1 ∧ msg_source.hw_cfg t.msg_decoder.1 = s.msg_decoder.hw_cfg := by
    refine play_micros_keep (P := fun v => DecoderInv v.msg_decoder.1 ∧ msg_source.hw_cfg v.msg_decoder.1 = s.msg_decoder.hw_cfg) ?_ hplay
      ⟨hs.reachable.inv, rfl⟩
    intro c v o w hm hv
    obtain ⟨hI, hcfg⟩ := hm.lawful (recorded_lawful msg_source_lawful) hv.1
    exact ⟨hI, hcfg.trans hv.2⟩
  obtain ⟨r₁, hind, hr⟩ := Proc.map_eq_some.1 h
  rcases r₁ with e | i' <;> cases hr
  obtain ⟨x, hx, htarget⟩ := (next_indirect_cases hind).target msg_source_lawful hkeep.1 (play_located calls hplay hskip hs.located)
  obtain ⟨a, ha, hxa⟩ := Option.map_eq_some_iff.1 hx
  refine ⟨a, ha, ?_⟩
  rw [htarget, hkeep.2, shl_one, ← hxa]
  exact extend_addr_bits_extends h1 h64 _

/-- A sync message, an indirect branch with a repetition, and another indirect branch. -/
def indirect_start : TraceDecoder MsgDecoder :=
  fresh_decoder plain_cfg [0x24, 0x01, 0x14, 0x07, 0x10, 0x31, 0x1b, 0x78, 0x07, 0x10, 0x21, 0x07]

def indirect_calls : List (Env × Call) :=
  [(env_of Msg.zero, .sync_reset), (env_of Msg.zero, .try_retire 9), (env_of Msg.zero, .next_indirect), (env_of Msg.zero, .try_retire 9),
    (env_of Msg.zero, .next_indirect), (env_of Msg.zero, .try_retire 9)]

def indirect_results : List (Except NexusError Result) :=
  [.ok (.reset (some ⟨0xffffffffffffff8a, 0⟩)), .ok (.retired 3 .Indirect), .ok (.indirect ⟨0xffffffffffffff86, false, false, none⟩),
    .ok (.retired 3 .Indirect), .ok (.indirect ⟨0xffffffffffffff86, false, false, none⟩), .ok (.retired 2 .Indirect)]

/-- The X-ADDR 0x45, combined with 6 once and with 1. -/
theorem next_indirect_target_three : ∃ u : TraceDecoder (MsgDecoder × List Input), ∃ a, last_xaddr (taken u.log) = some a ∧
    Extends 8 (2 * (a ^^^ xaddrs_since (taken u.log))) 0xffffffffffffff84 := by
  have hrun : ((play (recorded msg_source) indirect_calls indirect_start.start).bind fun p =>
      (play (recorded msg_source) [(env_of Msg.zero, .next_indirect)] p.2).map fun q => (p.1, (), q.1, ())) =
      some (indirect_results, (), [.ok (.indirect ⟨0xffffffffffffff84, false, false, none⟩)], ()) := by decide +kernel
  obtain ⟨t, u, ht, hu, -⟩ := exec_shown (fun _ => ()) (fun _ => ()) hrun
  have hskip : skips_unsupported indirect_results := by simp [skips_unsupported, indirect_results]
  exact ⟨u, next_indirect_target (fresh_initial rfl _) (by decide) (by decide) ht hskip hu⟩

/-- The X-ADDR 0x80 with 8 address bits: the target is 0x100, and the sign extension is 0. -/
theorem target_not_extended : ¬ ∀ (s : TraceDecoder MsgDecoder) (calls : List (Env × Call)) (rs : List (Except NexusError Result))
    (t u : TraceDecoder (MsgDecoder × List Input)) (env : Env) (i : TraceIndirect), Initial s → 1 ≤ s.msg_decoder.hw_cfg.addr_bits →
    s.msg_decoder.hw_cfg.addr_bits ≤ 64 → play (recorded msg_source) calls s.start = some (rs, t) → skips_unsupported rs →
    exec (recorded msg_source) env .next_indirect t = some (.ok (.indirect i), u) → ∃ a, last_xaddr (taken u.log) = some a ∧
      i.target = sign_extended s.msg_decoder.hw_cfg.addr_bits (2 * (a ^^^ xaddrs_since (taken u.log))) := by
  intro hall
  have hrun : ((play (recorded msg_source) [(env_of Msg.zero, .sync_reset), (env_of Msg.zero, .try_retire 9)]
        (fresh_decoder plain_cfg [0x24, 0x01, 0x00, 0x0b, 0x10, 0x01, 0x03]).start).bind fun p =>
      (play (recorded msg_source) [(env_of Msg.zero, .next_indirect)] p.2).map fun q =>
        (p.1, (), q.1, (last_xaddr (taken q.2.log) = some 0x80 && xaddrs_since (taken q.2.log) = 0 : Bool))) =
      some ([.ok (.reset (some ⟨0x100, 0⟩)), .ok (.retired 0 .Indirect)], (), [.ok (.indirect ⟨0x100, false, false, none⟩)], true) := by
    decide +kernel
  obtain ⟨t, u, ht, hu, -, hlog⟩ := exec_shown (fun _ => ())
    (fun u => (last_xaddr (taken u.log) = some 0x80 && xaddrs_since (taken u.log) = 0 : Bool)) hrun
  simp only [Bool.and_eq_true, decide_eq_true_eq] at hlog
  obtain ⟨a, ha, htarget⟩ := hall _ _ _ _ _ _ _ (fresh_initial rfl _) (by decide) (by decide) ht (by simp [skips_unsupported]) hu
  cases hlog.1.symm.trans ha
  rw [hlog.2] at htarget
  exact absurd htarget (by decide)

end nexusrv
