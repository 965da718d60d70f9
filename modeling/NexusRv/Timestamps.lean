import NexusRv.Ledger
import NexusRv.Unsupported
import NexusRv.Lib.Clock
/-!
# Timestamps

A sync message sets the time, every other message has a delta that is added or,
with `quirk_sifive`, XORed. A delta is retired with its message, or with the element
of the queue that the message became, once for each repetition.
-/

namespace nexusrv

/-! ## Combining deltas -/

instance (q : Bool) : Std.Associative (combine_time q) := ⟨fun a b c => by
  cases q
  · exact UInt64.add_assoc a b c
  · exact UInt64.xor_assoc a b c⟩

instance (q : Bool) : Std.Commutative (combine_time q) := ⟨fun a b => by
  cases q
  · exact UInt64.add_comm a b
  · exact UInt64.xor_comm a b⟩

theorem combine_zero (q : Bool) (a : UInt64) : combine_time q a 0 = a := by
  cases q
  · exact UInt64.add_zero a
  · exact UInt64.xor_zero

theorem zero_combine (q : Bool) (a : UInt64) : combine_time q 0 a = a := by
  cases q
  · exact UInt64.zero_add a
  · exact UInt64.zero_xor

instance (q : Bool) : Std.LawfulIdentity (combine_time q) 0 where
  left_id a := zero_combine q a
  right_id a := combine_zero q a

/-- A delta shows, unless it is 0. -/
theorem combine_eq_self {q : Bool} {a b : UInt64} : a = combine_time q a b ↔ b = 0 := by
  constructor
  · intro h
    cases q
    · exact (UInt64.left_eq_add.1 h)
    · have : a ^^^ a = a ^^^ (a ^^^ b) := congrArg (a ^^^ ·) h
      rwa [← UInt64.xor_assoc, UInt64.xor_self, UInt64.zero_xor, eq_comm] at this
  · intro h
    rw [h, combine_zero]

/-- What `n` repetitions of a delta amount to: XORed, it is retired with the first of them. -/
def times (q : Bool) (n : Nat) (timestamp : UInt64) : UInt64 := if q then timestamp else .ofNat n * timestamp

theorem times_one (q : Bool) (timestamp : UInt64) : times q 1 timestamp = timestamp := by
  cases q
  · exact UInt64.one_mul timestamp
  · rfl

/-- One repetition, and what is left of the delta for the others. -/
theorem times_succ (q : Bool) (n : Nat) (timestamp : UInt64) :
    times q (n + 1) timestamp = combine_time q timestamp (times q n (time_left q timestamp)) := by
  cases q
  · change UInt64.ofNat (n + 1) * timestamp = timestamp + UInt64.ofNat n * timestamp
    rw [UInt64.ofNat_add, UInt64.add_mul, UInt64.add_comm, show UInt64.ofNat 1 = 1 from rfl, UInt64.one_mul]
  · exact (combine_zero true timestamp).symm

theorem times_none (q : Bool) (timestamp : UInt64) : times q 0 (time_left q timestamp) = 0 := by
  cases q
  · exact UInt64.zero_mul
  · rfl

/-! ## The queue -/

def HistElement.time (q : Bool) (e : HistElement) : UInt64 := times q e.repeat_ e.timestamp

/-- The time that is waiting in the queue. -/
def queue_time (q : Bool) (l : List HistElement) : UInt64 := (l.map (HistElement.time q)).foldr (combine_time q) 0

theorem queue_time_cons (q : Bool) (e : HistElement) (l : List HistElement) :
    queue_time q (e :: l) = combine_time q (e.time q) (queue_time q l) := rfl

theorem queue_time_snoc (q : Bool) (l : List HistElement) (e : HistElement) :
    queue_time q (l ++ [e]) = combine_time q (queue_time q l) (e.time q) := by
  induction l with
  | nil =>
    rw [List.nil_append, queue_time_cons]
    exact Std.Commutative.comm _ _
  | cons x l ih =>
    rw [List.cons_append, queue_time_cons, queue_time_cons, ih]
    ac_rfl

theorem once_time {q : Bool} {e : HistElement} (h : e.repeat_ = 1) : e.time q = e.timestamp := by
  rw [HistElement.time, h, times_one]

/-- The time of elements that are dropped at once. -/
theorem dropped_time {q : Bool} {l : List HistElement} (h : ∀ e ∈ l, e.time q = e.timestamp) (time : UInt64) :
    l.foldl (fun t e => combine_time q t e.timestamp) time = combine_time q time (queue_time q l) := by
  induction l generalizing time with
  | nil => exact (combine_zero q time).symm
  | cons e l ih =>
    rw [List.foldl_cons, ih (fun x hx => h x (List.mem_cons_of_mem _ hx)), queue_time_cons, h e List.mem_cons_self]
    ac_rfl

theorem queue_time_spent (q : Bool) (l : List HistElement) :
    queue_time q l = combine_time q (queue_time q (spent l)) (queue_time q (unspent l)) := by
  have happend : ∀ a b : List HistElement, queue_time q (a ++ b) = combine_time q (queue_time q a) (queue_time q b) := by
    intro a b
    induction a with
    | nil => exact (zero_combine q _).symm
    | cons x a ih =>
      rw [List.cons_append, queue_time_cons, queue_time_cons, ih]
      ac_rfl
  rw [← happend, spent, unspent, List.takeWhile_append_dropWhile]

section Took
variable {σ : Type} {src : Source σ} {s t : TraceDecoder σ}

/-- The time with what is waiting in the queue. -/
def TraceDecoder.queue_clock (src : Source σ) (s : TraceDecoder σ) : UInt64 :=
  combine_time (s.sifive src) s.timestamp (queue_time (s.sifive src) s.res_hists)

theorem drained_clock (hrep : ∀ e ∈ spent s.res_hists, e.repeat_ = 1) : (s.drained src).queue_clock src = s.queue_clock src := by
  change combine_time (s.sifive src) ((spent s.res_hists).foldl _ s.timestamp) (queue_time (s.sifive src) (unspent s.res_hists)) = _
  rw [dropped_time fun e he => once_time (hrep e he), TraceDecoder.queue_clock, queue_time_spent _ s.res_hists]
  ac_rfl

/-- A TNT moves time out of the queue. -/
theorem TookTnt.clock {b : Bool} (h : TookTnt src s b t) (hrep : ∀ e ∈ spent s.res_hists, e.repeat_ = 1) :
    t.queue_clock src = s.queue_clock src := by
  rw [← drained_clock hrep]
  cases h with
  | own => rfl
  | bit => rfl
  | last e rest h0 hq hbits hle hne =>
    have hleft : queue_time (s.sifive src) (if e.repeat_ - 1 = 0 then rest
        else ⟨e.hist, e.repeat_ - 1, time_left (s.sifive src) e.timestamp⟩ :: rest) =
        combine_time (s.sifive src) (times (s.sifive src) (e.repeat_ - 1) (time_left (s.sifive src) e.timestamp))
          (queue_time (s.sifive src) rest) := by
      split
      · rename_i h1
        rw [h1, times_none]
        exact (zero_combine (s.sifive src) _).symm
      · rfl
    have hall : e.time (s.sifive src) = combine_time (s.sifive src) e.timestamp
        (times (s.sifive src) (e.repeat_ - 1) (time_left (s.sifive src) e.timestamp)) := by
      rw [HistElement.time, ← times_succ, Nat.sub_add_cancel (Nat.pos_of_ne_zero hne)]
    change combine_time (s.sifive src) (combine_time (s.sifive src) (s.drained src).timestamp e.timestamp) (queue_time (s.sifive src) _) =
      combine_time (s.sifive src) (s.drained src).timestamp (queue_time (s.sifive src) (unspent s.res_hists))
    rw [hleft, hq, queue_time_cons, hall]
    ac_rfl

end Took

/-! ## The time of a log -/

/-- The messages that were taken, newest first. -/
def taken : List Input → List Msg
  | .took m :: l => m :: taken l
  | _ :: l => taken l
  | [] => []

/-- A sync message that the decoder supports sets the time. -/
def sync_time (m : Msg) : Option UInt64 := if msg_is_sync m && trace_check_msg m then some m.timestamp else none

def msg_is_ownership (m : Msg) : Bool := m.tcode = .Ownership

/-- The number of elements that a ResourceFull message counts for. -/
def res_repeat (m : Msg) : Nat := if msg_has_hist m && m.hrepeat ≠ 0 then m.hrepeat.toNat else 1

/-- The time that a message adds until its repetitions are retired. Of an Ownership message none is retired. -/
def msg_time (q : Bool) (m : Msg) (repeats : Nat) : UInt64 :=
  if msg_is_ownership m then 0
  else if msg_is_res m then times q (res_repeat m) m.timestamp
  else if repeatable m then times q (repeats + 1) m.timestamp
  else m.timestamp

/-- The time that the decoder adds for an item; what it does not support is handed back. -/
def Item.time (q : Bool) (i : Item) : UInt64 := if trace_check_msg i.msg then msg_time q i.msg i.repeats else i.msg.timestamp

/-- The time behind a log, as the decoder counts it. -/
def decoder_time (q : Bool) (base : UInt64) (l : List Input) : UInt64 :=
  clock (combine_time q) (fun i => sync_time i.msg) (Item.time q) base (items l)

/-- The time behind a log in which a message advances by `delta`. -/
def stream_time (q : Bool) (delta : Msg → UInt64) (base : UInt64) (l : List Input) : UInt64 :=
  clock (combine_time q) sync_time delta base (taken l)

theorem times_pos_self {q : Bool} {n : Nat} (h : n = 1 ∨ q = true) (timestamp : UInt64) : times q n timestamp = timestamp := by
  rcases h with rfl | rfl
  · exact times_one q timestamp
  · rfl

theorem ownership_fields {m : Msg} (h : msg_is_ownership m = true) : msg_is_repeat m = false ∧ repeatable m = false ∧ msg_is_res m = false ∧
    msg_is_sync m = false := by
  simp only [msg_is_ownership, decide_eq_true_eq] at h
  simp [msg_is_repeat, repeatable, msg_is_branch, msg_is_res, msg_is_sync, h]

theorem res_fields {m : Msg} (h : msg_is_res m = true) : msg_is_repeat m = false ∧ repeatable m = false ∧ msg_is_ownership m = false ∧
    msg_is_sync m = false := by
  simp only [msg_is_res, decide_eq_true_eq] at h
  simp [msg_is_repeat, repeatable, msg_is_branch, msg_is_ownership, msg_is_sync, h]

theorem sync_fields {m : Msg} (h : msg_is_sync m = true) : msg_is_repeat m = false ∧ repeatable m = false := by
  refine ⟨Bool.eq_false_iff.2 fun hr => ?_, by rw [repeatable, h, Bool.not_true, Bool.and_false]⟩
  simp only [msg_is_repeat, decide_eq_true_eq] at hr
  simp [msg_is_sync, hr] at h

theorem repeatable_fields {m : Msg} (h : repeatable m = true) : msg_is_ownership m = false ∧ msg_is_res m = false ∧ msg_is_sync m = false := by
  refine ⟨Bool.eq_false_iff.2 fun ho => ?_, Bool.eq_false_iff.2 fun hr => ?_, ?_⟩
  · exact nomatch (ownership_fields ho).2.1.symm.trans h
  · exact nomatch (res_fields hr).2.1.symm.trans h
  · rw [repeatable, Bool.and_eq_true, Bool.not_eq_true'] at h
    exact h.2

theorem msg_time_ownership {q : Bool} {m : Msg} {k : Nat} (h : msg_is_ownership m = true) : msg_time q m k = 0 := by
  rw [msg_time, if_pos h]

theorem msg_time_res {q : Bool} {m : Msg} {k : Nat} (h : msg_is_res m = true) : msg_time q m k = times q (res_repeat m) m.timestamp := by
  rw [msg_time, (res_fields h).2.2.1, if_neg Bool.false_ne_true, if_pos h]

theorem msg_time_repeatable {q : Bool} {m : Msg} {k : Nat} (h : repeatable m = true) : msg_time q m k = times q (k + 1) m.timestamp := by
  rw [msg_time, (repeatable_fields h).1, (repeatable_fields h).2.1, if_neg Bool.false_ne_true, if_neg Bool.false_ne_true, if_pos h]

theorem msg_time_plain {q : Bool} {m : Msg} {k : Nat} (h1 : msg_is_ownership m = false) (h2 : msg_is_res m = false) (h3 : repeatable m = false) :
    msg_time q m k = m.timestamp := by
  rw [msg_time, h1, h2, h3]
  rfl

theorem decoder_time_same {q : Bool} {base : UInt64} {l l' : List Input} (h : items l' = items l) :
    decoder_time q base l' = decoder_time q base l := by
  rw [decoder_time, h]
  rfl

/-- A message that sets the time. -/
theorem decoder_time_sync {q : Bool} {base : UInt64} {l l' : List Input} {m : Msg} {k : Nat} {x : UInt64} (hy : msg_is_sync m = true)
    (hc : trace_check_msg m = true) (h : items l' = ⟨m, k, x⟩ :: items l) : decoder_time q base l' = m.timestamp := by
  rw [decoder_time, h]
  exact clock_set (by rw [sync_time, hy, hc]; rfl)

/-- A message that advances the time. -/
theorem decoder_time_item {q : Bool} {base : UInt64} {l l' : List Input} {m : Msg} {k : Nat} {x : UInt64}
    (hy : (msg_is_sync m && trace_check_msg m) = false) (h : items l' = ⟨m, k, x⟩ :: items l) :
    decoder_time q base l' = combine_time q (decoder_time q base l) (Item.time q ⟨m, k, x⟩) := by
  rw [decoder_time, h]
  exact clock_advance (by rw [sync_time, hy]; rfl)

/-! ## The ledger of the time -/

section Timed
variable {σ : Type} {src : Source σ} {s t : TraceDecoder (σ × List Input)} {c : Call} {q : Bool} {base : UInt64}

/-- The time of the buffered message and its repetitions. -/
def TraceDecoder.time_due {τ : Type} (q : Bool) (s : TraceDecoder τ) : UInt64 :=
  if s.msg_present then msg_time q s.msg s.msg.hrepeat.toNat else 0

/-- A buffered sync message sets the time; without one, the time, what is waiting in the queue, and what the buffered message
adds make up the time of the log. -/
def Sums (src : Source σ) (base : UInt64) (s : TraceDecoder (σ × List Input)) : Prop :=
  if s.msg_present && msg_is_sync s.msg then decoder_time (s.sifive (recorded src)) base s.log = s.msg.timestamp
  else decoder_time (s.sifive (recorded src)) base s.log =
    combine_time (s.sifive (recorded src)) (s.queue_clock (recorded src)) (s.time_due (s.sifive (recorded src)))

def Timed (src : Source σ) (base : UInt64) (s : TraceDecoder (σ × List Input)) : Prop := s.Stuck ∨ Sums src base s

theorem Sums.sync (h : Sums src base s) (hp : s.msg_present = true) (hy : msg_is_sync s.msg = true) :
    decoder_time (s.sifive (recorded src)) base s.log = s.msg.timestamp := by
  rwa [Sums, hp, hy, Bool.true_and, if_pos rfl] at h

theorem Sums.delta (h : Sums src base s) (hy : (s.msg_present && msg_is_sync s.msg) = false) :
    decoder_time (s.sifive (recorded src)) base s.log =
      combine_time (s.sifive (recorded src)) (s.queue_clock (recorded src)) (s.time_due (s.sifive (recorded src))) := by
  rwa [Sums, hy, if_neg Bool.false_ne_true] at h

theorem Timed.sums (h : Timed src base s) (hset : s.settled) : Sums src base s := by
  obtain ⟨-, hp, hres⟩ | h := h
  · exact nomatch (hset hp).symm.trans hres
  · exact h

/-- The calls that do not touch the time or the stream on their own. -/
def Call.decodes : Call → Bool
  | .sync_reset => false
  | .add_timestamp _ => false
  | .skip => false
  | _ => true

/-- A step that leaves the time, the queue, the buffer and the messages of the log. -/
theorem Timed.same (h : Timed src base s) (hitems : items t.log = items s.log) (hsync : t.synced = s.synced) (hp : t.msg_present = s.msg_present)
    (hm : t.msg = s.msg) (hq : t.sifive (recorded src) = s.sifive (recorded src)) (hclock : t.queue_clock (recorded src) = s.queue_clock (recorded src)) :
    Timed src base t := by
  unfold Timed Sums TraceDecoder.Stuck TraceDecoder.time_due at *
  rw [decoder_time_same hitems, hsync, hp, hm, hq, hclock]
  exact h

theorem timed_empty (hp : t.msg_present = false)
    (h : decoder_time (t.sifive (recorded src)) base t.log = t.queue_clock (recorded src)) : Timed src base t := by
  refine .inr ?_
  rw [Sums, hp, Bool.false_and, if_neg Bool.false_ne_true, TraceDecoder.time_due, hp, if_neg Bool.false_ne_true, combine_zero]
  exact h

theorem Timed.empty (h : Timed src base s) (hp : s.msg_present = false) :
    decoder_time (s.sifive (recorded src)) base s.log = s.queue_clock (recorded src) := by
  rw [(h.sums fun h => nomatch hp.symm.trans h).delta (by rw [hp]; rfl), TraceDecoder.time_due, hp, if_neg Bool.false_ne_true, combine_zero]

/-- The queue is empty behind a message that is retired. -/
theorem retired_clock (h : s.res_hists = []) : s.queue_clock (recorded src) = s.timestamp := by
  rw [TraceDecoder.queue_clock, h]
  exact combine_zero _ _

theorem Timed.retire (h : Timed src base s) (hret : Retirable s) (hown : msg_is_ownership s.msg = false) :
    Timed src base (s.retired (recorded src)) := by
  have hset : s.settled := fun _ => by simpa [msg_is_res] using hret.not_res
  have hlog : (s.retired (recorded src)).log = s.log := congrArg Prod.snd (retired_msg_decoder s)
  have hsif : (s.retired (recorded src)).sifive (recorded src) = s.sifive (recorded src) := by
    rw [TraceDecoder.sifive, TraceDecoder.sifive, retired_msg_decoder]
  have hclock : (s.retired (recorded src)).queue_clock (recorded src) = (s.retired (recorded src)).timestamp :=
    retired_clock ((retired_frame s).2.2.1.trans hret.res_hists)
  cases hy : msg_is_sync s.msg with
  | true =>
    have hsum := (h.sums hset).sync hret.present hy
    have htime : (s.retired (recorded src)).timestamp = s.msg.timestamp := by
      unfold TraceDecoder.retired
      rw [hy]
      split <;> rfl
    cases hb : msg_is_branch s.msg with
    | true =>
      have hmsg : (s.retired (recorded src)).msg = s.msg.downgraded := by rw [TraceDecoder.retired, if_pos hb, if_pos hy]
      have hp : (s.retired (recorded src)).msg_present = true := by
        rw [TraceDecoder.retired, if_pos hb, if_pos hy]
        exact hret.present
      refine .inr ?_
      rw [Sums, hp, hmsg, show msg_is_sync s.msg.downgraded = true from rfl, Bool.true_and, if_pos rfl, hlog, hsif]
      exact hsum
    | false =>
      refine timed_empty (retired_present hb) ?_
      rw [hlog, hsif, hclock, htime]
      exact hsum
  | false =>
    have hsum := (h.sums hset).delta (by rw [hy, Bool.and_false])
    rw [TraceDecoder.time_due, if_pos hret.present, retired_clock hret.res_hists] at hsum
    have htime : (s.retired (recorded src)).timestamp = combine_time (s.sifive (recorded src)) s.timestamp s.msg.timestamp := by
      unfold TraceDecoder.retired
      rw [hy]
      simp only [Bool.false_eq_true, if_false]
      split
      · split <;> rfl
      · rfl
    cases hb : msg_is_branch s.msg with
    | true =>
      have hrep : repeatable s.msg = true := by rw [repeatable, hb, hy]; rfl
      rw [msg_time_repeatable hrep] at hsum
      by_cases hk : s.msg.hrepeat = 0
      · have hp : (s.retired (recorded src)).msg_present = false := by simp [TraceDecoder.retired, hb, hy, hk]
        refine timed_empty hp ?_
        rw [hlog, hsif, hclock, htime, hsum, hk]
        exact congrArg _ (times_one _ _)
      · -- one repetition is retired, the others are left
        have hmsg : (s.retired (recorded src)).msg = { s.msg with
            timestamp := time_left (s.sifive (recorded src)) s.msg.timestamp, hrepeat := s.msg.hrepeat - 1 } := by
          simp [TraceDecoder.retired, TraceDecoder.pass_time, TraceDecoder.sifive, hb, hy, hk]
        have hp : (s.retired (recorded src)).msg_present = true := by
          simp [TraceDecoder.retired, TraceDecoder.pass_time, hb, hy, hk, hret.present]
        have hdue : msg_time (s.sifive (recorded src)) { s.msg with
            timestamp := time_left (s.sifive (recorded src)) s.msg.timestamp, hrepeat := s.msg.hrepeat - 1 } (s.msg.hrepeat - 1).toNat =
            times (s.sifive (recorded src)) s.msg.hrepeat.toNat (time_left (s.sifive (recorded src)) s.msg.timestamp) := by
          rw [← hrepeat_pred hk]
          exact msg_time_repeatable hrep
        refine .inr ?_
        rw [Sums, TraceDecoder.time_due, hp, hmsg, hlog, hsif, hclock, htime, Bool.true_and]
        change if msg_is_sync s.msg = true then _ else _
        rw [hy, if_neg Bool.false_ne_true, if_pos rfl, hsum, times_succ, ← hdue]
        exact (Std.Associative.assoc _ _ _).symm
    | false =>
      have hplain : msg_time (s.sifive (recorded src)) s.msg s.msg.hrepeat.toNat = s.msg.timestamp :=
        msg_time_plain hown (by simpa [msg_is_res] using hret.not_res) (by rw [repeatable, hb]; rfl)
      refine timed_empty (retired_present hb) ?_
      rw [hlog, hsif, hclock, htime, hsum, hplain]

theorem msg_time_any {q : Bool} {m : Msg} (h : repeatable m = false) (k k' : Nat) : msg_time q m k = msg_time q m k' := by
  rw [msg_time, msg_time, h]
  rfl

theorem Fetched.clock {τ : Type} {src : Source τ} {m₂ : Msg} {s t : TraceDecoder τ} {r : Except NexusError Bool} (hf : Fetched src m₂ s r t)
    (hsif : t.sifive src = s.sifive src) : t.queue_clock src = s.queue_clock src := by
  rw [TraceDecoder.queue_clock, hsif, hf.timestamp, hf.res_hists]
  rfl

/-- The message that is fetched is in the log, and waits in the buffer. -/
theorem Fetched.sums {m₂ : Msg} {r : Except NexusError Bool} (hf : Fetched (recorded src) m₂ s r t)
    (hsif : t.sifive (recorded src) = s.sifive (recorded src)) (hp : s.msg_present = false)
    (hlog : closed s.log = true ∨ ∀ m, .took m ∈ t.log → msg_is_repeat m = false) (hstale : no_stale t.log = true) (h : Timed src base s) :
    Sums src base t := by
  have hsum := h.empty hp
  have hclock := hf.clock hsif
  cases hf.reads.item hlog hstale with
  | present hp' => exact nomatch hp.symm.trans hp'
  | nothing _ htp hit =>
    rw [Sums, TraceDecoder.time_due, htp, hclock, hsif, decoder_time_same hit]
    exact hsum.trans (combine_zero _ _).symm
  | item m k x _ htp hc hmsg hit =>
    cases hy : msg_is_sync m with
    | true =>
      rw [(sync_fields hy).2, if_neg Bool.false_ne_true] at hmsg
      rw [Sums, htp, hmsg.1, hy, Bool.true_and, if_pos rfl]
      exact decoder_time_sync hy hc hit
    | false =>
      have hty : msg_is_sync t.msg = false ∧ msg_time (s.sifive (recorded src)) t.msg t.msg.hrepeat.toNat =
          msg_time (s.sifive (recorded src)) m k.toNat := by
        split at hmsg
        · rename_i hrep
          rw [hmsg]
          refine ⟨hy, ?_⟩
          rw [msg_time_repeatable hrep]
          exact msg_time_repeatable hrep
        · rename_i hrep
          rw [hmsg.1]
          exact ⟨hy, msg_time_any (by simpa using hrep) _ _⟩
      rw [Sums, TraceDecoder.time_due, htp, hty.1, hsif, hclock, hty.2, decoder_time_item (by rw [hy]; rfl) hit, hsum, Item.time, if_pos hc]
      rfl

theorem res_element_time {q : Bool} {m : Msg} {e : HistElement} (hres : msg_is_res m = true) (h : res_element q m = some e) :
    e.time q = times q (res_repeat m) m.timestamp := by
  unfold res_element at h
  split at h
  · rename_i hi
    cases h
    have hh : msg_has_hist m = false := by
      simp only [msg_is_res, decide_eq_true_eq] at hres
      unfold msg_has_icnt at hi
      unfold msg_has_hist
      simp_all
    rw [HistElement.time, res_repeat, hh]
    rfl
  · split at h
    · rename_i hh
      cases h
      rw [HistElement.time, res_repeat, hh]
      simp
    · split at h
      · rename_i h8
        simp only [Bool.and_eq_true] at h8
        cases h
        rw [HistElement.time, times_pos_self (.inr h8.1.1), times_pos_self (.inr h8.1.1)]
      · split at h
        · rename_i h9
          simp only [Bool.and_eq_true] at h9
          cases h
          rw [HistElement.time, times_pos_self (.inr h9.1.1), times_pos_self (.inr h9.1.1)]
        · cases h

/-- Every step of such a call keeps the ledger of the time. An Error drops what is queued; its time is kept where no element is repeated. -/
theorem Micro.timed {I : σ → Prop} (hlaw : src.Lawful I) {o : List Out} (h : Micro (recorded src) c s o t) (hI : I s.msg_decoder.1)
    (hc : c.decodes = true) (hlog : closed s.log = true ∨ ∀ m, .took m ∈ t.log → msg_is_repeat m = false) (hstale : no_stale t.log = true)
    (herr : c = .next_error → ∀ e ∈ s.res_hists, e.time (s.sifive (recorded src)) = e.timestamp) (hs : Timed src base s) : Timed src base t := by
  have hcfg : t.sifive (recorded src) = s.sifive (recorded src) :=
    congrArg HwCfg.quirk_sifive (h.lawful (recorded_lawful hlaw) hI).2
  have hkeep : ∀ {u : TraceDecoder (σ × List Input)}, items u.log = items s.log → u.sifive (recorded src) = s.sifive (recorded src) →
      u.synced = s.synced → u.msg_present = s.msg_present → u.msg = s.msg → u.timestamp = s.timestamp → u.res_hists = s.res_hists →
      Timed src base u := fun h1 h2 h3 h4 h5 h6 h7 => hs.same h1 h3 h4 h5 h2 (by rw [TraceDecoder.queue_clock, h2, h6, h7]; rfl)
  cases h with
  | fetch hf =>
    cases hp : s.msg_present with
    | true =>
      cases hf with
      | present => exact hs
      | _ => exact nomatch hp.symm.trans ‹s.msg_present = false›
    | false => exact .inr (hf.sums hcfg hp hlog hstale hs)
  | @pull u m₂ e _ _ hp hf hres hel =>
    have hsum := (hf.sums hcfg hp hlog hstale hs).delta (by rw [(res_fields hres).2.2.2, Bool.and_false])
    rw [TraceDecoder.time_due, hf.filled, if_pos rfl, msg_time_res hres, ← res_element_time hres hel] at hsum
    refine timed_empty rfl ?_
    change decoder_time (u.sifive (recorded src)) base u.log =
      combine_time (u.sifive (recorded src)) u.timestamp (queue_time (u.sifive (recorded src)) (u.res_hists ++ [e]))
    rw [hsum, queue_time_snoc]
    exact Std.Associative.assoc _ _ _
  | stuck h1 h2 h3 => exact .inl ⟨h1, h2, h3⟩
  | @take n =>
    obtain ⟨h1, h2, h3, h4, -, -, h7⟩ := take_icnt_frame n s
    have htime : (s.take_icnt n).timestamp = s.timestamp := by
      unfold TraceDecoder.take_icnt
      split <;> rfl
    exact hkeep (congrArg items (congrArg Prod.snd h3)) hcfg h4 h1 h2 htime h7
  | tnt _ _ _ _ hrep htook =>
    obtain ⟨-, -, h3, h4, h5, h6, -⟩ := htook.frame
    exact hs.same (congrArg items (congrArg Prod.snd h6)) h5 h4 h3 hcfg (htook.clock hrep)
  | retire _ _ _ hret hk =>
    refine hs.retire hret (Bool.eq_false_iff.2 fun ho => ?_)
    obtain ⟨-, hr, -, hy⟩ := ownership_fields ho
    rw [hy, Bool.or_false] at hk
    rw [repeatable, hk, hy] at hr
    cases hr
  | indirect _ _ hind hret =>
    obtain ⟨h1, h2⟩ := addressed_frame s
    have hsame : Timed src base s.addressed := by
      have hp : s.addressed.msg_present = s.msg_present := by rw [h1]
      have hsync : s.addressed.synced = s.synced := by rw [h1]
      have hclock : s.addressed.queue_clock (recorded src) = s.queue_clock (recorded src) := by
        rw [h1]
        rfl
      have hlog' : s.addressed.log = s.log := congrArg Prod.snd (addressed_msg_decoder s)
      have hsif : s.addressed.sifive (recorded src) = s.sifive (recorded src) := by
        rw [TraceDecoder.sifive, TraceDecoder.sifive, addressed_msg_decoder]
      unfold Timed Sums TraceDecoder.Stuck TraceDecoder.time_due
      rw [hp, hsync, hclock, hlog', hsif, h2]
      exact hs
    refine hsame.retire (addressed_retirable.2 hret) (Bool.eq_false_iff.2 fun ho => ?_)
    rw [h2] at ho
    obtain ⟨-, hr, -, hy⟩ := ownership_fields (m := s.msg) ho
    rw [repeatable, indir_is_branch hind, hy] at hr
    cases hr
  | stop _ _ _ hk hret =>
    have hret' := hs.retire hret (by simp only [msg_is_stop, decide_eq_true_eq] at hk; simp [msg_is_ownership, hk])
    have hp : (s.retired (recorded src)).msg_present = false :=
      retired_present (by simp only [msg_is_stop, decide_eq_true_eq] at hk; simp [msg_is_branch, hk])
    exact timed_empty hp (hret'.empty hp)
  | error hcall hsync hp hk =>
    have hret : Retirable (s.emptied (recorded src)) :=
      ⟨hp, by rw [show (s.emptied (recorded src)).msg.tcode = .Error from hk]; decide, rfl, rfl,
        by simp [TraceDecoder.emptied, Msg.own_icnt, msg_has_icnt, hk], by simp [TraceDecoder.emptied, Msg.own_bits, msg_has_hist, hk],
        fun hb => by simp [TraceDecoder.emptied, msg_is_branch, hk] at hb⟩
    have hclock : (s.emptied (recorded src)).queue_clock (recorded src) = s.queue_clock (recorded src) := by
      rw [TraceDecoder.queue_clock, show (s.emptied (recorded src)).res_hists = [] from rfl]
      exact (combine_zero _ _).trans (dropped_time (herr hcall) _)
    have hret' := (hs.same (t := s.emptied (recorded src)) rfl rfl rfl rfl rfl hclock).retire hret (by simp [TraceDecoder.emptied, msg_is_ownership, hk])
    have hp' : ((s.emptied (recorded src)).retired (recorded src)).msg_present = false :=
      retired_present (by simp [TraceDecoder.emptied, msg_is_branch, hk])
    exact timed_empty hp' (hret'.empty hp')
  | @past m₂ r d m _ hn hown =>
    have hlog' : d.2 = .of r m :: s.log := (recorded_next.1 hn).2
    have htime : decoder_time (s.sifive (recorded src)) base d.2 = decoder_time (s.sifive (recorded src)) base s.log := by
      rw [hlog']
      rcases r with e | _ | k
      · rfl
      · rfl
      · have hk : msg_is_ownership m = true := decide_eq_true (hown _ rfl)
        obtain ⟨hr, -, -, hy⟩ := ownership_fields hk
        have hcheck : trace_check_msg m = true := by simp [trace_check_msg, msg_known, msg_is_data_acq, msg_has_icnt, msg_has_hist, hown _ rfl]
        change decoder_time _ base (.took m :: s.log) = _
        rw [decoder_time_item (by rw [hy]; rfl) (items_took (.inl hr)), Item.time, if_pos hcheck, msg_time_ownership hk, combine_zero]
    have hcfg' : TraceDecoder.sifive (recorded src) { s with msg_decoder := d } = s.sifive (recorded src) := hcfg
    unfold Timed Sums at hs ⊢
    rw [hcfg', show TraceDecoder.log { s with msg_decoder := d } = d.2 from rfl, htime]
    unfold TraceDecoder.queue_clock at hs ⊢
    rw [hcfg']
    exact hs
  | @peek m₂ k d m d' _ hn hback =>
    have hlog' : d'.2 = put_back (.of (.ok k) m :: s.log) := by rw [(recorded_rewind.1 hback).2, (recorded_next.1 hn).2]; rfl
    refine hkeep ?_ hcfg rfl rfl rfl rfl rfl
    change items d'.2 = _
    rw [hlog']
    cases k <;> rfl
  | stack => exact hkeep rfl rfl rfl rfl rfl rfl rfl
  | skip hk => rw [hk] at hc; cases hc
  | drop hk => rw [hk] at hc; cases hc
  | resync hk => rw [hk] at hc; cases hc
  | time ts hk => rw [hk] at hc; cases hc

/-- Only the caller leaves a branch at the front of the log. -/
theorem Micro.closed {o : List Out} (h : Micro (recorded src) c s o t) (hc : c.decodes = true) (hs : nexusrv.closed s.log = true) :
    nexusrv.closed t.log = true := by
  have hsame : ∀ {u : TraceDecoder (σ × List Input)}, u.msg_decoder = s.msg_decoder → nexusrv.closed u.log = true := fun h => by
    rw [TraceDecoder.log, h]
    exact hs
  cases h with
  | fetch hf => exact hf.reads.closed hs
  | pull _ _ _ hf => exact hf.reads.closed hs
  | stuck => exact hsame rfl
  | take => exact hsame (take_icnt_frame _ s).2.2.1
  | tnt _ _ _ _ _ htook => exact hsame htook.frame.2.2.2.2.2.1
  | retire => exact hsame (retired_msg_decoder s)
  | indirect => exact hsame ((retired_msg_decoder _).trans (addressed_msg_decoder s))
  | stop => exact hsame (retired_msg_decoder s)
  | error => exact hsame (retired_msg_decoder (s.emptied (recorded src)))
  | @past m₂ r d m _ hn hown =>
    change nexusrv.closed d.2 = true
    rw [(recorded_next.1 hn).2]
    rcases r with e | _ | k
    · rfl
    · rfl
    · simp [nexusrv.closed, Input.of, repeatable, msg_is_branch, hown _ rfl]
  | @peek m₂ k d m d' _ hn hback =>
    change nexusrv.closed d'.2 = true
    rw [(recorded_rewind.1 hback).2, (recorded_next.1 hn).2]
    cases k <;> rfl
  | stack => exact hsame rfl
  | skip hk => rw [hk] at hc; cases hc
  | drop hk => rw [hk] at hc; cases hc
  | resync hk => rw [hk] at hc; cases hc
  | time ts hk => rw [hk] at hc; cases hc

/-- The calls that retire what is queued. -/
def Call.retires : Call → Bool
  | .next_error => false
  | c => c.decodes

theorem Call.retires_decodes {c : Call} (h : c.retires = true) : c.decodes = true ∧ c ≠ .next_error := by
  cases c <;> first | exact ⟨h, nofun⟩ | cases h

theorem Micros.timed {I : σ → Prop} (hlaw : src.Lawful I) {o : List Out} (h : Micros (recorded src) c s o t) (hc : c.retires = true) :
    I s.msg_decoder.1 → nexusrv.closed s.log = true → no_stale t.log = true → Timed src base s →
      I t.msg_decoder.1 ∧ nexusrv.closed t.log = true ∧ Timed src base t := by
  obtain ⟨hdec, hne⟩ := Call.retires_decodes hc
  induction h with
  | refl => exact fun hI hclosed _ hs => ⟨hI, hclosed, hs⟩
  | head h hrun ih =>
    intro hI hclosed hstale hs
    have hstale' := no_stale_suffix hrun.log_suffix hstale
    exact ih (h.lawful (recorded_lawful hlaw) hI).1 (h.closed hdec hclosed) hstale
      (h.timed hlaw hI hdec (.inl hclosed) hstale' (fun he => absurd he hne) hs)

theorem play_timed {I : σ → Prop} (hlaw : src.Lawful I) (calls : List (Env × Call)) : ∀ {s t : TraceDecoder (σ × List Input)}
    {rs : List (Except NexusError Result)}, play (recorded src) calls s = some (rs, t) → (∀ c ∈ calls, c.2.retires = true) →
      I s.msg_decoder.1 → nexusrv.closed s.log = true → no_stale t.log = true → Timed src base s → Timed src base t := by
  induction calls with
  | nil =>
    intro s t rs h _ _ _ _ hs
    cases h
    exact hs
  | cons c calls ih =>
    intro s t rs h hcalls hI hclosed hstale hs
    obtain ⟨r, u, rs', hc, hrest, -⟩ := play_cons.1 h
    obtain ⟨os, hm, -⟩ := exec_micros hc
    obtain ⟨hI', hclosed', hs'⟩ := hm.timed hlaw (hcalls c List.mem_cons_self) hI hclosed
      (no_stale_suffix (play_log_suffix hrest) hstale) hs
    exact ih hrest (fun c hc => hcalls c (List.mem_cons_of_mem _ hc)) hI' hclosed' hstale hs'

end Timed

/-! ## Repetitions -/

/-- No message is buffered and nothing is queued. -/
def TraceDecoder.quiet {σ : Type} (s : TraceDecoder σ) : Bool := !s.msg_present && s.res_hists.isEmpty

theorem TraceDecoder.quiet_iff {σ : Type} {s : TraceDecoder σ} : s.quiet = true ↔ s.msg_present = false ∧ s.res_hists = [] := by
  rw [TraceDecoder.quiet, Bool.and_eq_true, Bool.not_eq_true', List.isEmpty_iff]

/-- At rest the time is the time of the log. -/
theorem Timed.quiet {σ : Type} {src : Source σ} {s : TraceDecoder (σ × List Input)} {base : UInt64} (h : Timed src base s) (hq : s.quiet = true) :
    decoder_time (s.sifive (recorded src)) base s.log = s.timestamp := by
  obtain ⟨hp, hl⟩ := TraceDecoder.quiet_iff.1 hq
  rw [h.empty hp, retired_clock hl]

theorem timed_start {σ : Type} {src : Source σ} {s : TraceDecoder σ} (h : s.quiet = true) : Timed src s.timestamp s.start := by
  obtain ⟨hp, hl⟩ := TraceDecoder.quiet_iff.1 h
  refine timed_empty hp ?_
  rw [retired_clock (s := s.start) hl]
  rfl

/-- What a message adds where the time of an Ownership message does not count. -/
def Msg.advance (m : Msg) : UInt64 := if msg_is_ownership m then 0 else m.timestamp

/-- The deltas that an item has on the wire, and what the decoder adds in excess of them. -/
def Item.wire (i : Item) : UInt64 := if msg_is_ownership i.msg then 0 else i.msg.timestamp + i.extra
def Item.excess (i : Item) : UInt64 := i.time false - i.wire

def excess_time (l : List Input) : UInt64 := since_set (combine_time false) 0 (fun i => sync_time i.msg) Item.excess (items l)

/-- A branch repeated `k` times more has its delta added each time, and the one of the RepeatBranch message never. -/
theorem branch_excess {i : Item} (hc : trace_check_msg i.msg = true) (hb : repeatable i.msg = true) :
    i.excess = .ofNat i.repeats * i.msg.timestamp - i.extra := by
  rw [Item.excess, Item.time, if_pos hc, msg_time_repeatable hb, Item.wire, (repeatable_fields hb).1, if_neg Bool.false_ne_true, times_succ]
  change i.msg.timestamp + UInt64.ofNat i.repeats * i.msg.timestamp - (i.msg.timestamp + i.extra) = _
  grind

/-- A ResourceFull message that counts `n` times has its delta added `n` times. -/
theorem res_excess {m : Msg} (hc : trace_check_msg m = true) (hres : msg_is_res m = true) :
    Item.excess ⟨m, 0, 0⟩ = .ofNat (res_repeat m) * m.timestamp - m.timestamp := by
  rw [Item.excess, Item.time, if_pos hc, msg_time_res hres, Item.wire, (res_fields hres).2.2.1, if_neg Bool.false_ne_true, UInt64.add_zero]
  rfl

theorem repeat_fields {m : Msg} (h : msg_is_repeat m = true) : sync_time m = none ∧ msg_is_ownership m = false := by
  simp only [msg_is_repeat, decide_eq_true_eq] at h
  simp [sync_time, msg_is_sync, msg_is_ownership, h]

/-- The messages of the wire, put together to items. -/
theorem stream_items (base : UInt64) (l : List Input) :
    stream_time false Msg.advance base l = clock (combine_time false) (fun i => sync_time i.msg) Item.wire base (items l) := by
  have hone : ∀ {m : Msg} {l : List Input},
      stream_time false Msg.advance base l = clock (combine_time false) (fun i => sync_time i.msg) Item.wire base (items l) →
      stream_time false Msg.advance base (.took m :: l) =
        clock (combine_time false) (fun i => sync_time i.msg) Item.wire base (⟨m, 0, 0⟩ :: items l) := by
    intro m l ih
    have hwire : Item.wire ⟨m, 0, 0⟩ = m.advance := by rw [Item.wire, Msg.advance, UInt64.add_zero]
    rw [stream_time] at ih ⊢
    rw [taken, clock, clock, ih, hwire]
  fun_induction items l with
  | case1 r b l h ih =>
    obtain ⟨hr, hb⟩ := Bool.and_eq_true_iff.1 h
    have hbsync : sync_time b = none := by rw [sync_time, (repeatable_fields hb).2.2, Bool.false_and, if_neg Bool.false_ne_true]
    rw [stream_time] at ih ⊢
    rw [taken, taken, clock_advance (repeat_fields hr).1, clock_advance hbsync, ih]
    rw [clock_advance (l := items l) (a := ⟨b, r.hrepeat.toNat, r.timestamp⟩) hbsync, Item.wire, Msg.advance, Msg.advance, (repeat_fields hr).2, (repeatable_fields hb).1]
    exact Std.Associative.assoc _ _ _
  | case2 r b l h ih => exact hone ih
  | case3 m l h ih => exact hone ih
  | case4 i l _ hi ih =>
    cases i with
    | took m => exact absurd rfl (hi m)
    | _ => exact ih
  | case5 => rfl

/-- From one state at rest to another, the time advances by the deltas on the wire if and only if what the repetitions
add in excess of them is 0. -/
theorem repeated_time {s : TraceDecoder MsgDecoder} (hs : Reachable s) (hq : s.sifive msg_source = false) (hquiet : s.quiet = true)
    {calls : List (Env × Call)} (hcalls : ∀ c ∈ calls, c.2.retires = true) {rs : List (Except NexusError Result)}
    {t : TraceDecoder (MsgDecoder × List Input)} (hplay : play (recorded msg_source) calls s.start = some (rs, t)) (ht : t.quiet = true)
    (hstale : no_stale t.log = true) :
    t.timestamp = stream_time false Msg.advance s.timestamp t.log ↔ excess_time t.log = 0 := by
  have hinv : DecoderInv s.start.msg_decoder.1 := hs.inv
  have hsif : t.sifive (recorded msg_source) = false := by
    refine (play_micros_keep (P := fun u => DecoderInv u.msg_decoder.1 ∧ u.sifive (recorded msg_source) = false) ?_ hplay ⟨hinv, hq⟩).2
    intro c u o v hm hu
    obtain ⟨h1, h2⟩ := hm.lawful (recorded_lawful msg_source_lawful) hu.1
    exact ⟨h1, (congrArg HwCfg.quirk_sifive h2).trans hu.2⟩
  have htimed : Timed msg_source s.timestamp t :=
    play_timed msg_source_lawful calls hplay hcalls hinv rfl hstale (timed_start hquiet)
  have htime := htimed.quiet ht
  rw [hsif] at htime
  have hsplit : decoder_time false s.timestamp t.log =
      combine_time false (stream_time false Msg.advance s.timestamp t.log) (excess_time t.log) := by
    rw [stream_items]
    refine clock_split fun i _ _ => ?_
    change i.time false = i.wire + (i.time false - i.wire)
    grind
  rw [← htime, hsplit, eq_comm]
  exact combine_eq_self

/-- `plain_cfg` with timestamps. -/
def timed_cfg : HwCfg := ⟨0, 8, 8, 0, 0, false, false, false⟩

/-- A branch with two repetitions, and the calls that retire it. -/
def repeated_start (extra : UInt8) : TraceDecoder MsgDecoder :=
  fresh_decoder timed_cfg [0x24, 0x01, 0x05, 0x07, 0x0c, 0x15, 0x0f, 0x78, 0x09, extra]

def three_rounds : List (Env × Call) :=
  [(env_of Msg.zero, .try_retire 5), (env_of Msg.zero, .next_tnt), (env_of Msg.zero, .try_retire 5), (env_of Msg.zero, .next_tnt),
    (env_of Msg.zero, .try_retire 5), (env_of Msg.zero, .next_tnt)]

def three_results : List (Except NexusError Result) :=
  [.ok (.retired 5 .Direct), .ok (.tnt true), .ok (.retired 5 .Direct), .ok (.tnt true), .ok (.retired 5 .Direct), .ok (.tnt true)]

theorem three_rounds_retire : ∀ c ∈ three_rounds, c.2.retires = true := by simp [three_rounds, Call.retires, Call.decodes]

/-- At rest without `quirk_sifive`, at the time 1. -/
def at_one (s : TraceDecoder MsgDecoder) : Bool := !s.sifive msg_source && s.quiet && s.timestamp = 1

/-- Three times the delta 3: here it is what the messages carry, 3 and 6. -/
theorem repeated_time_three : ∃ t : TraceDecoder (MsgDecoder × List Input),
    t.timestamp = stream_time false Msg.advance 1 t.log ∧ t.timestamp = 10 := by
  have hrun : ((play msg_source [(env_of Msg.zero, .sync_reset)] (repeated_start 0x1b)).bind fun p =>
      (play (recorded msg_source) three_rounds p.2.start).map fun q => (p.1, at_one p.2, q.1,
        (q.2.quiet && no_stale q.2.log && excess_time q.2.log = 0 && q.2.timestamp = 10 : Bool))) =
      some ([.ok (.reset (some ⟨2, 0⟩))], true, three_results, true) := by decide +kernel
  obtain ⟨s, t, hs, ht, hf, hg⟩ := replays_shown at_one
    (fun t => t.quiet && no_stale t.log && excess_time t.log = 0 && t.timestamp = 10) hrun
  simp only [at_one, Bool.and_eq_true, Bool.not_eq_true', decide_eq_true_eq] at hf hg
  obtain ⟨⟨hq, hquiet⟩, hbase⟩ := hf
  obtain ⟨⟨⟨htq, hstale⟩, hexcess⟩, htime⟩ := hg
  refine ⟨t, ?_, htime⟩
  rw [← hbase]
  exact (repeated_time ((fresh_initial rfl _).reachable.play hs) hq hquiet three_rounds_retire ht htq hstale).2 hexcess

/-- A DirectBranch with the delta 3, and two repetitions with the delta 2: the time advances by 9 and not by 5. -/
theorem repeats_add_time : ¬ ∀ (s : TraceDecoder MsgDecoder) (calls : List (Env × Call)) (rs : List (Except NexusError Result))
    (t : TraceDecoder (MsgDecoder × List Input)), Reachable s → s.sifive msg_source = false → s.quiet = true →
    (∀ c ∈ calls, c.2.retires = true) → play (recorded msg_source) calls s.start = some (rs, t) → t.quiet = true → no_stale t.log = true →
    t.timestamp = stream_time false Msg.advance s.timestamp t.log := by
  intro hall
  have hrun : ((play msg_source [(env_of Msg.zero, .sync_reset)] (repeated_start 0x0b)).bind fun p =>
      (play (recorded msg_source) three_rounds p.2.start).map fun q => (p.1, at_one p.2, q.1,
        (q.2.quiet && no_stale q.2.log && stream_time false Msg.advance 1 q.2.log = 6 && q.2.timestamp = 10 : Bool))) =
      some ([.ok (.reset (some ⟨2, 0⟩))], true, three_results, true) := by decide +kernel
  obtain ⟨s, t, hs, ht, hf, hg⟩ := replays_shown at_one
    (fun t => t.quiet && no_stale t.log && stream_time false Msg.advance 1 t.log = 6 && t.timestamp = 10) hrun
  simp only [at_one, Bool.and_eq_true, Bool.not_eq_true', decide_eq_true_eq] at hf hg
  obtain ⟨⟨hq, hquiet⟩, hbase⟩ := hf
  obtain ⟨⟨⟨htq, hstale⟩, hstream⟩, htime⟩ := hg
  have hsum := hall _ _ _ _ ((fresh_initial rfl _).reachable.play hs) hq hquiet three_rounds_retire ht htq hstale
  rw [hbase, hstream, htime] at hsum
  cases hsum

/-! ## Every message once -/

/-- No branch is repeated, and no history. -/
def unrepeated (m : Msg) : Bool := !msg_is_repeat m && !(msg_is_res m && msg_has_hist m && m.hrepeat > 1)

/-- A run that succeeds. An unsupported message is handed back: the caller reads it himself, and adds its timestamp. -/
inductive Handled : List (Env × Call) → List (Except NexusError Result) → Prop where
  | nil : Handled [] []
  | call {env c a calls rs} : c.decodes = true ∨ c = .sync_reset → Handled calls rs → Handled ((env, c) :: calls) (.ok a :: rs)
  | hand_back {env c env₂ env₃ n m calls rs} : c.decodes = true → c.reads = true → n ≠ 0 → trace_check_msg m = false → Handled calls rs →
      Handled ((env, c) :: (env₂, .skip) :: (env₃, .add_timestamp m.timestamp) :: calls)
        (.error .msg_unsupported :: .ok (.skipped n m) :: .ok .done :: rs)

/-- The time of the Ownership messages since the last sync message. -/
def ownership_time (q : Bool) (l : List Input) : UInt64 :=
  since_set (combine_time q) 0 sync_time (fun m => if msg_is_ownership m then m.timestamp else 0) (taken l)

section Once
variable {σ : Type} {src : Source σ} {s t : TraceDecoder (σ × List Input)} {c : Call} {base : UInt64}

/-- Every element of the queue is retired at once. -/
def Single (src : Source σ) (s : TraceDecoder (σ × List Input)) : Prop := ∀ e ∈ s.res_hists, e.repeat_ = 1 ∨ s.sifive (recorded src) = true

theorem Single.times (h : Single src s) : ∀ e ∈ s.res_hists, e.time (s.sifive (recorded src)) = e.timestamp :=
  fun e he => times_pos_self (h e he) e.timestamp

theorem res_element_single {q : Bool} {m : Msg} {e : HistElement} (hm : unrepeated m = true) (hres : msg_is_res m = true)
    (h : res_element q m = some e) : e.repeat_ = 1 ∨ q = true := by
  unfold res_element at h
  split at h
  · cases h
    exact .inl rfl
  · split at h
    · rename_i hh
      cases h
      left
      rw [unrepeated, hres, hh] at hm
      simp only [Bool.true_and, Bool.and_eq_true, Bool.not_eq_true', decide_eq_false_iff_not] at hm
      split
      · rename_i h0
        have h1 : m.hrepeat.toNat ≤ 1 := by simpa [UInt32.lt_iff_toNat_lt] using hm.2
        have h2 : m.hrepeat.toNat ≠ 0 := fun h => h0 (UInt32.toNat_inj.1 h)
        exact Nat.le_antisymm h1 (Nat.pos_of_ne_zero h2)
      · rfl
    · split at h
      · rename_i h8
        simp only [Bool.and_eq_true] at h8
        exact .inr h8.1.1
      · split at h
        · rename_i h9
          simp only [Bool.and_eq_true] at h9
          exact .inr h9.1.1
        · cases h

theorem Micro.single {I : σ → Prop} (hlaw : src.Lawful I) {o : List Out} (h : Micro (recorded src) c s o t) (hI : I s.msg_decoder.1)
    (hall : ∀ m, .took m ∈ t.log → unrepeated m = true) (hs : Single src s) : Single src t := by
  have hcfg : t.sifive (recorded src) = s.sifive (recorded src) :=
    congrArg HwCfg.quirk_sifive (h.lawful (recorded_lawful hlaw) hI).2
  have hsub : (∀ e ∈ t.res_hists, e ∈ s.res_hists ∨ e.repeat_ = 1 ∨ s.sifive (recorded src) = true) → Single src t := fun hsub e he => by
    rw [hcfg]
    exact (hsub e he).elim (hs e) id
  refine hsub fun e he => ?_
  cases h with
  | fetch hf => exact .inl (hf.res_hists ▸ he)
  | @pull u m₂ x _ _ hp hf hres hel =>
    have hlog : u.log = .took u.msg :: s.log := hf.reads.res hp hf.filled hres
    rcases List.mem_append.1 he with he | he
    · exact .inl (hf.res_hists ▸ he)
    · rw [List.mem_singleton.1 he]
      right
      have hsif : u.sifive (recorded src) = s.sifive (recorded src) := hcfg
      rw [← hsif]
      exact res_element_single (hall u.msg (by rw [show (u.absorbed x).log = u.log from rfl, hlog]; exact List.mem_cons_self)) hres hel
  | take => exact .inl ((take_icnt_frame _ s).2.2.2.2.2.2 ▸ he)
  | tnt _ _ _ _ _ htook =>
    cases htook with
    | own => exact .inl (mem_of_unspent he)
    | bit => exact .inl (mem_of_unspent he)
    | last x rest _ hq _ _ hne =>
      have hmem : ∀ y ∈ x :: rest, y ∈ s.res_hists := fun y hy => mem_of_unspent (hq ▸ hy)
      change e ∈ (if x.repeat_ - 1 = 0 then rest else _) at he
      split at he
      · exact .inl (hmem e (List.mem_cons_of_mem _ he))
      · rename_i hk
        rcases List.mem_cons.1 he with rfl | he
        · rcases hs x (hmem x List.mem_cons_self) with h1 | hq'
          · omega
          · exact .inr (.inr hq')
        · exact .inl (hmem e (List.mem_cons_of_mem _ he))
  | retire => exact .inl ((@retired_frame _ (recorded src) s).2.2.1 ▸ he)
  | indirect =>
    have hl : (s.addressed.retired (recorded src)).res_hists = s.res_hists :=
      (@retired_frame _ (recorded src) s.addressed).2.2.1.trans (by rw [(addressed_frame s).1])
    exact .inl (hl ▸ he)
  | stop => exact .inl ((@retired_frame _ (recorded src) s).2.2.1 ▸ he)
  | error =>
    have hl : ((s.emptied (recorded src)).retired (recorded src)).res_hists = [] := (@retired_frame _ (recorded src) _).2.2.1
    exact nomatch (hl ▸ he : e ∈ [])
  | resync => exact nomatch (he : e ∈ [])
  | _ => exact .inl he

theorem Micros.once {I : σ → Prop} (hlaw : src.Lawful I) {o : List Out} (h : Micros (recorded src) c s o t) (hc : c.decodes = true)
    (hall : ∀ m, .took m ∈ t.log → unrepeated m = true) (hstale : no_stale t.log = true) :
    I s.msg_decoder.1 → Single src s → Timed src base s → I t.msg_decoder.1 ∧ Single src t ∧ Timed src base t := by
  have hrepeat : ∀ m, unrepeated m = true → msg_is_repeat m = false := fun m h => by
    rw [unrepeated, Bool.and_eq_true, Bool.not_eq_true'] at h
    exact h.1
  induction h with
  | refl => exact fun hI h1 hs => ⟨hI, h1, hs⟩
  | @head s o u os t h hrun ih =>
    intro hI h1 hs
    have hall' : ∀ m, .took m ∈ u.log → unrepeated m = true := fun m hm => hall m (hrun.log_suffix.subset hm)
    exact ih hall hstale (h.lawful (recorded_lawful hlaw) hI).1 (h.single hlaw hI hall' h1)
      (h.timed hlaw hI hc (.inr fun m hm => hrepeat m (hall' m hm)) (no_stale_suffix hrun.log_suffix hstale) (fun _ => h1.times) hs)

/-- A sync message that is buffered set the time of the log. -/
def Anchored (src : Source σ) (base : UInt64) (s : TraceDecoder (σ × List Input)) : Prop :=
  s.msg_present = true → msg_is_sync s.msg = true → decoder_time (s.sifive (recorded src)) base s.log = s.msg.timestamp

/-- `sync_reset` stops at a sync message, which sets the time. -/
theorem Forwards.anchored {I : σ → Prop} (hlaw : src.Lawful I) {env : Env} {k : Nat} {r : Except NexusError Unit}
    (h : Forwards (recorded src) env k s r t) : r = .ok () → s.synced = false → I s.msg_decoder.1 →
      (∀ m, .took m ∈ t.log → msg_is_repeat m = false) → no_stale t.log = true → Anchored src base s →
      I t.msg_decoder.1 ∧ t.msg_present = true ∧ msg_is_sync t.msg = true ∧ Anchored src base t := by
  induction h with
  | failed => exact fun h => nomatch h
  | @found k s b t hf hk =>
    intro _ _ hI hlog hstale hs
    obtain ⟨hI', hcfg, -⟩ := hf.left (recorded_lawful hlaw) hI
    refine ⟨hI', hf.filled, hk, ?_⟩
    cases hf.reads.item (.inr hlog) hstale with
    | present _ ht => rwa [ht]
    | nothing _ htp => exact nomatch htp.symm.trans hf.filled
    | item m _ x _ _ hc hmsg hit =>
      have hrep : repeatable m = false := Bool.eq_false_iff.2 fun hrep => by
        rw [if_pos hrep] at hmsg
        rw [hmsg] at hk
        exact nomatch (repeatable_fields hrep).2.2.symm.trans hk
      rw [if_neg (by rw [hrep]; exact Bool.false_ne_true)] at hmsg
      intro _ hy
      rw [hmsg.1] at hy ⊢
      exact decoder_time_sync hy hc hit
  | @skip k s b u r t hf hk hrun ih =>
    intro hr hsync hI hlog hstale hs
    have hsync' : u.synced = false := hf.synced.trans hsync
    exact ih hr hsync' (hf.left (recorded_lawful hlaw) hI).1 hlog hstale fun h => nomatch h

/-- Behind `sync_reset` the time is the timestamp of the sync message. -/
theorem sync_reset_timed {I : σ → Prop} (hlaw : src.Lawful I) {env : Env} {y : TraceSync}
    (h : exec (recorded src) env .sync_reset s = some (.ok (.reset (some y)), t)) (hI : I s.msg_decoder.1)
    (hlog : ∀ m, .took m ∈ t.log → msg_is_repeat m = false) (hstale : no_stale t.log = true) (hs : Anchored src base s) :
    t.msg_present = false ∧ t.res_hists = [] ∧ Timed src base t := by
  obtain ⟨hsynced, hp, hcleared⟩ := sync_reset_clears h
  refine ⟨hp, hcleared.res_hists, ?_⟩
  obtain ⟨r, hr, he⟩ := Proc.map_eq_some.1 h
  rcases r with e | o <;> cases he
  obtain ⟨-, he, -⟩ | ⟨hsync, ⟨e, he, -⟩ | ⟨u, r', hf, hn, he⟩⟩ := sync_reset_cases hr
  · cases he
  · cases he
  rcases r' with e | y' <;> cases he
  obtain ⟨e, he, -⟩ | ⟨v, hc, -, -, ht⟩ := next_sync_cases hn
  · cases he
  have hv : v = u.resynced := by
    obtain ⟨hup, -⟩ := (hf.micros hsync).2.2 rfl
    cases hc with
    | passed b _ _ hf' =>
      cases hf' with
      | present => rfl
      | _ => exact nomatch hup.symm.trans ‹u.resynced.msg_present = false›
  rw [hv] at ht
  have hdec : t.msg_decoder = u.msg_decoder := by
    rw [ht, retired_msg_decoder]
    rfl
  have htlog : t.log = u.log := congrArg Prod.snd hdec
  obtain ⟨-, hup, huy, hanchored⟩ := Forwards.anchored hlaw hf rfl hsync hI (htlog ▸ hlog) (htlog ▸ hstale) hs
  have htime : t.timestamp = u.msg.timestamp := by rw [ht]; rfl
  refine timed_empty hp ?_
  rw [retired_clock hcleared.res_hists, htime, htlog, TraceDecoder.sifive, hdec]
  exact hanchored hup huy

end Once

/-! ## Without sync -/

section Unsynced
variable {σ : Type} {src : Source σ} {s t : TraceDecoder σ} {c : Call}

/-- `sync_reset` is the only call that looks for a sync message, and it does not stop before it found one. -/
def Unanchored (s : TraceDecoder σ) : Prop := s.synced = false → s.msg_present = true → msg_is_sync s.msg = false

theorem Micro.stays_synced {o : List Out} (h : Micro src c s o t) (h1 : c ≠ .next_stop) (h2 : c ≠ .next_error) (hs : s.synced = true) :
    t.synced = true := by
  cases h with
  | fetch hf => exact hf.synced.trans hs
  | pull _ _ _ hf => exact hf.synced.trans hs
  | take => exact (take_icnt_frame _ s).2.2.2.1.trans hs
  | tnt _ _ _ _ _ htook => exact htook.frame.2.2.2.2.1.trans hs
  | retire => exact (@retired_frame _ src s).2.2.2.2.2.trans hs
  | indirect => exact (@retired_frame _ src s.addressed).2.2.2.2.2.trans (by rw [(addressed_frame s).1]; exact hs)
  | stop hc => exact absurd hc h1
  | error hc => exact absurd hc h2
  | resync => rfl
  | _ => exact hs

theorem Checked.synced {env : Env} {kind : Msg → Bool} {r : Except NexusError (TraceDecoder σ)} (h : Checked src env kind s r t) :
    t.synced = s.synced := by
  cases h with
  | unsynced => rfl
  | fetch_failed e _ _ hf => exact hf.synced
  | mismatch b _ _ hf => exact hf.synced
  | passed b _ _ hf => exact hf.synced

theorem unanchored_synced (h : t.synced = true) : Unanchored t := fun h' => nomatch h'.symm.trans h

theorem Fetched.unanchored {msg2 : Msg} {e : NexusError} (h : Fetched src msg2 s (.error e) t) (hp : t.msg_present = true) :
    msg_is_sync t.msg = false := by
  cases h with
  | failed e d m hp' => exact nomatch hp'.symm.trans hp
  | eof d m hp' => exact nomatch hp'.symm.trans hp
  | unsupported n d d' m hp' => exact nomatch hp'.symm.trans hp
  | ahead_failed n d m e d₂ m₂ _ _ _ _ hb => exact (repeatable_fields hb).2.2

theorem Forwards.unanchored {env : Env} {k : Nat} {r : Except NexusError Unit} (h : Forwards src env k s r t) {e : NexusError} :
    r = .error e → t.msg_present = true → msg_is_sync t.msg = false := by
  induction h with
  | failed hf => exact fun _ => hf.unanchored
  | found => exact fun h => nomatch h
  | skip _ _ _ ih => exact ih

theorem sync_reset_unanchored {env : Env} {r : Except NexusError (Option TraceSync)} (h : trace_sync_reset src env s = some (r, t))
    (hs : Unanchored s) : Unanchored t := by
  obtain ⟨-, -, rfl⟩ | ⟨-, ⟨e, -, hf⟩ | ⟨u, r', -, hn, -⟩⟩ := sync_reset_cases h
  · exact hs
  · exact fun _ => hf.unanchored rfl
  · obtain ⟨e, -, hc⟩ | ⟨v, hc, -, -, rfl⟩ := next_sync_cases hn
    · exact unanchored_synced hc.synced
    · exact unanchored_synced ((@retired_frame _ src v).2.2.2.2.2.trans hc.synced)

/-- Without sync, a call other than `sync_reset` returns at once. -/
theorem exec_not_synced {env : Env} (hsync : s.synced = false) (hc : c.reads = true) (hne : c ≠ .sync_reset) :
    exec src env c s = some (.error .trace_not_synced, s) := by
  cases c with
  | sync_reset => exact absurd rfl hne
  | try_retire icnt => simp [exec, Proc.map_apply, trace_try_retire, hsync, Except.map]
  | next_tnt => simp [exec, Proc.map_apply, trace_next_tnt, hsync, Except.map]
  | next_indirect => simp [exec, Proc.map_apply, trace_next_indirect, hsync, Except.map]
  | next_sync => simp [exec, Proc.map_apply, trace_next_sync, hsync, Except.map]
  | next_error => simp [exec, Proc.map_apply, trace_next_error, hsync, Except.map]
  | next_stop => simp [exec, Proc.map_apply, trace_next_stop, hsync, Except.map]
  | _ => cases hc

theorem exec_unanchored {env : Env} {r : Except NexusError Result} (h : exec src env c s = some (r, t)) (hs : Unanchored s) : Unanchored t := by
  by_cases hsync : s.synced = true
  · by_cases h1 : c = .next_stop
    · rw [h1] at h
      obtain ⟨r', hr, -⟩ := Proc.map_eq_some.1 h
      obtain ⟨e, -, hc⟩ | ⟨v, hc, -, -, rfl⟩ := next_stop_cases hr
      · exact unanchored_synced (hc.synced.trans hsync)
      · obtain ⟨-, -, -, -, hk⟩ := hc.passed_inv
        simp only [msg_is_stop, decide_eq_true_eq] at hk
        have hp : (v.retired src).msg_present = false := retired_present (by simp [msg_is_branch, hk])
        exact fun _ h => Bool.noConfusion (hp.symm.trans h)
    by_cases h2 : c = .next_error
    · rw [h2] at h
      obtain ⟨r', hr, -⟩ := Proc.map_eq_some.1 h
      cases next_error_cases hr with
      | unsynced => exact hs
      | fetch_failed e _ _ hf => exact unanchored_synced (hf.synced.trans hsync)
      | mismatch b _ _ hf => exact unanchored_synced (hf.synced.trans hsync)
      | passed b v _ _ hk =>
        have hp : ((v.emptied src).retired src).msg_present = false := retired_present (by simp [TraceDecoder.emptied, msg_is_branch, hk])
        exact fun _ h => Bool.noConfusion (hp.symm.trans h)
    obtain ⟨os, hm, -⟩ := exec_micros h
    exact unanchored_synced (hm.keeps (P := fun u => u.synced = true) (fun _ _ _ hm hs => hm.stays_synced h1 h2 hs) hsync)
  · -- without sync the other calls return at once
    have hsync : s.synced = false := by simpa using hsync
    have hsame : ∀ u : TraceDecoder σ, u.msg_present = s.msg_present → u.msg = s.msg → Unanchored u := fun u h1 h2 _ hp => by
      rw [h2]
      exact hs hsync (h1.symm.trans hp)
    cases c with
    | sync_reset =>
      obtain ⟨r', hr, -⟩ := Proc.map_eq_some.1 h
      exact sync_reset_unanchored hr hs
    | push_call a =>
      obtain ⟨r', hr, -⟩ := Proc.map_eq_some.1 h
      obtain ⟨q, -, hq⟩ := Option.map_eq_some_iff.1 hr
      cases hq
      exact hsame _ rfl rfl
    | pop_ret =>
      obtain ⟨r', hr, -⟩ := Proc.map_eq_some.1 h
      obtain ⟨q, -, hq⟩ := Option.map_eq_some_iff.1 hr
      cases hq
      exact hsame _ rfl rfl
    | add_timestamp ts =>
      obtain ⟨r', hr, -⟩ := Proc.map_eq_some.1 h
      rw [trace_add_timestamp, retire_timestamp_bind] at hr
      cases hr
      exact hsame _ rfl rfl
    | skip =>
      obtain ⟨r', hr, -⟩ := Proc.map_eq_some.1 h
      rw [next_msg2_apply] at hr
      obtain ⟨⟨q, d, m⟩, -, hq⟩ := Option.map_eq_some_iff.1 hr
      cases hq
      exact hsame _ rfl rfl
    | _ =>
      cases h.symm.trans (exec_not_synced hsync rfl fun h => by cases h)
      exact hs

/-- A reachable state without sync has no sync message buffered. -/
theorem Reachable.unanchored {s : TraceDecoder MsgDecoder} (h : Reachable s) : Unanchored s := by
  obtain ⟨hwcfg, fd, filter, buffer, env, s₀, calls, rs, hinit, hplay⟩ := h
  refine play_keeps (fun _ _ _ _ _ hc hs => exec_unanchored hc hs) calls hplay ?_
  obtain ⟨stack, rfl⟩ := trace_decoder_init_eq hinit
  exact fun _ h => nomatch h

end Unsynced

section Run
variable {σ : Type} {src : Source σ} {s t : TraceDecoder (σ × List Input)} {c : Call} {base : UInt64} {I : σ → Prop}

theorem recorded_supports (hsup : src.Supports I) : (recorded src).Supports fun d => I d.1 := fun hI h => hsup hI (recorded_next.1 h).1

theorem unrepeated_not_repeat {m : Msg} (h : unrepeated m = true) : msg_is_repeat m = false := by
  rw [unrepeated, Bool.and_eq_true, Bool.not_eq_true'] at h
  exact h.1

/-- A message that the caller skips, and its timestamp. -/
theorem handed_back_timed (hlaw : src.Lawful I) (hI : I s.msg_decoder.1) (hs : Timed src base s) (href : Refused (recorded src) (fun d => I d.1) s)
    {mem m : Msg} {d : σ × List Input} {n : Nat} (hn : (recorded src).next (s.msg_decoder, mem) = some (.ok n, d, m)) (h0 : n ≠ 0)
    (hc : trace_check_msg m = false) (hrep : msg_is_repeat m = false) (time : UInt64)
    (htime : time = combine_time (s.sifive (recorded src)) s.timestamp m.timestamp) :
    Timed src base { s with msg_decoder := d, timestamp := time } := by
  have hsif : TraceDecoder.sifive (recorded src) { s with msg_decoder := d, timestamp := time } = s.sifive (recorded src) :=
    congrArg HwCfg.quirk_sifive ((recorded_lawful hlaw).next hI hn).2.1
  cases href with
  | held h1 h2 h3 => exact .inl ⟨h1, h2, h3⟩
  | back _ _ _ _ _ _ hp =>
    have hlog : d.2 = .took m :: s.log := by rw [(recorded_next.1 hn).2, Input.of_ok h0]; rfl
    refine timed_empty hp ?_
    rw [TraceDecoder.queue_clock, hsif, show TraceDecoder.log { s with msg_decoder := d, timestamp := time } = d.2 from rfl, hlog,
      decoder_time_item (by rw [hc, Bool.and_false]) (items_took (.inl hrep)), hs.empty hp, TraceDecoder.queue_clock, Item.time,
      if_neg (by rw [hc]; exact Bool.false_ne_true), htime]
    dsimp only
    ac_rfl

theorem Handled.once (hlaw : src.Lawful I) (hsup : src.Supports I) {calls : List (Env × Call)} {rs : List (Except NexusError Result)}
    (hrun : Handled calls rs) : ∀ {s t : TraceDecoder (σ × List Input)}, play (recorded src) calls s = some (rs, t) →
      (∀ m, .took m ∈ t.log → unrepeated m = true) → no_stale t.log = true → I s.msg_decoder.1 → Single src s → Timed src base s →
      Timed src base t := by
  induction hrun with
  | nil =>
    intro s t h _ _ _ _ hs
    cases h
    exact hs
  | @call env c a calls rs hc _ ih =>
    intro s t h hall hstale hI h1 hs
    obtain ⟨u, hexec, hrest⟩ := play_head h
    have hsuffix := play_log_suffix hrest
    have hall' : ∀ m, .took m ∈ u.log → unrepeated m = true := fun m hm => hall m (hsuffix.subset hm)
    have hstale' := no_stale_suffix hsuffix hstale
    obtain ⟨os, hm, -⟩ := exec_micros hexec
    have hIu : I u.msg_decoder.1 :=
      hm.keeps (P := fun v => I v.msg_decoder.1) (fun _ _ _ hm hI => (hm.lawful (recorded_lawful hlaw) hI).1) hI
    rcases hc with hc | rfl
    · obtain ⟨-, h1', hs'⟩ := hm.once hlaw hc hall' hstale' hI h1 hs
      exact ih hrest hall hstale hIu h1' hs'
    · obtain ⟨r, hr, he⟩ := Proc.map_eq_some.1 hexec
      rcases r with e | _ | y <;> cases he
      · obtain ⟨-, -, rfl⟩ | ⟨-, ⟨e, he, -⟩ | ⟨v, r', -, -, he⟩⟩ := sync_reset_cases hr
        · exact ih hrest hall hstale hI h1 hs
        · cases he
        · cases r' <;> cases he
      · have hanchored : Anchored src base s := by
          obtain ⟨-, he, -⟩ | ⟨hsync, -⟩ := sync_reset_cases hr
          · cases he
          · obtain ⟨hst, -⟩ | hsum := hs
            · exact nomatch hsync.symm.trans hst
            · exact hsum.sync
        obtain ⟨hp, hl, hs'⟩ := sync_reset_timed hlaw hexec hI (fun m hm => unrepeated_not_repeat (hall' m hm)) hstale' hanchored
        exact ih hrest hall hstale hIu (fun e he => nomatch (hl ▸ he : e ∈ [])) hs'
  | @hand_back env c env₂ env₃ n m calls rs hc hreads h0 hcheck _ ih =>
    intro s t h hall hstale hI h1 hs
    obtain ⟨u, hexec, hrest⟩ := play_head h
    obtain ⟨v, hskip, hrest'⟩ := play_head hrest
    obtain ⟨w, hadd, hrest''⟩ := play_head hrest'
    have hsuffix := play_log_suffix hrest
    obtain ⟨os, hm, -⟩ := exec_micros hexec
    obtain ⟨hIu, h1', hs'⟩ := hm.once hlaw hc (fun m hm => hall m (hsuffix.subset hm)) (no_stale_suffix hsuffix hstale) hI h1 hs
    have href := exec_refused (recorded_lawful hlaw) (recorded_supports hsup) hreads hI hexec
    obtain ⟨r, hr, he⟩ := Proc.map_eq_some.1 hskip
    rw [next_msg2_apply] at hr
    obtain ⟨⟨r', d, m'⟩, hn, hr⟩ := Option.map_eq_some_iff.1 hr
    cases hr
    rcases r' with e | n'
    · cases he
    obtain ⟨rfl, rfl⟩ : n = n' ∧ m = m' := by
      cases he
      exact ⟨rfl, rfl⟩
    obtain ⟨r, hr, -⟩ := Proc.map_eq_some.1 hadd
    rw [trace_add_timestamp, retire_timestamp_bind] at hr
    cases hr
    have hnext := (recorded_lawful hlaw).next hIu hn
    have hlog : d.2 = .took m :: u.log := by rw [(recorded_next.1 hn).2, Input.of_ok h0]; rfl
    have hmem : .took m ∈ t.log := (play_log_suffix hrest'').subset (by
      change .took m ∈ d.2
      rw [hlog]
      exact List.mem_cons_self)
    have hsif : TraceDecoder.sifive (recorded src) { u with msg_decoder := d } = u.sifive (recorded src) :=
      congrArg HwCfg.quirk_sifive hnext.2.1
    refine ih hrest'' hall hstale hnext.1 (fun e he => (h1' e he).imp_right fun h => hsif.trans h) ?_
    exact handed_back_timed hlaw hIu hs' href hn h0 hcheck (unrepeated_not_repeat (hall m hmem)) _ (by rw [hsif])

end Run

/-- Where nothing is repeated, an item is a message. -/
theorem items_once {l : List Input} (hall : ∀ m, .took m ∈ l → unrepeated m = true) : items l = (taken l).map fun m => ⟨m, 0, 0⟩ := by
  induction l with
  | nil => rfl
  | cons i l ih =>
    have ih := ih fun m hm => hall m (List.mem_cons_of_mem _ hm)
    cases i with
    | took m => rw [items_took (.inl (unrepeated_not_repeat (hall m List.mem_cons_self))), ih]; rfl
    | _ => exact ih

theorem once_item {q : Bool} {m : Msg} (h : unrepeated m = true) : Item.time q ⟨m, 0, 0⟩ = if msg_is_ownership m && trace_check_msg m then 0
    else m.timestamp := by
  rw [Item.time]
  cases hc : trace_check_msg m with
  | false => rw [Bool.and_false]; rfl
  | true =>
    rw [Bool.and_true, if_pos rfl]
    cases ho : msg_is_ownership m with
    | true => exact msg_time_ownership ho
    | false =>
      cases hres : msg_is_res m with
      | true =>
        have h1 : res_repeat m = 1 := by
          rw [unrepeated, hres, Bool.true_and, Bool.and_eq_true, Bool.not_eq_true', Bool.not_eq_true'] at h
          rw [res_repeat]
          split
          · rename_i hh
            rw [Bool.and_eq_true, decide_eq_true_eq] at hh
            have h2 := h.2
            rw [hh.1, Bool.true_and, decide_eq_false_iff_not] at h2
            have h1 : m.hrepeat.toNat ≤ 1 := by simpa [UInt32.lt_iff_toNat_lt] using h2
            exact Nat.le_antisymm h1 (Nat.pos_of_ne_zero fun h0 => hh.2 (UInt32.toNat_inj.1 h0))
          · rfl
        rw [msg_time_res hres, h1]
        exact times_one q m.timestamp
      | false =>
        cases hrep : repeatable m with
        | true => rw [msg_time_repeatable hrep]; exact times_one q m.timestamp
        | false => exact msg_time_plain ho hres hrep

theorem ownership_checked {m : Msg} (h : msg_is_ownership m = true) : trace_check_msg m = true := by
  simp only [msg_is_ownership, decide_eq_true_eq] at h
  simp [trace_check_msg, msg_known, msg_is_data_acq, msg_has_icnt, msg_has_hist, h]

theorem mem_taken {l : List Input} {m : Msg} : m ∈ taken l ↔ .took m ∈ l := by
  induction l with
  | nil => exact ⟨nofun, nofun⟩
  | cons i l ih => cases i <;> simp [taken, ih]

/-- The time that the decoder counts, and that of the Ownership messages. -/
theorem stream_time_once {q : Bool} {base : UInt64} {l : List Input} (hall : ∀ m, .took m ∈ l → unrepeated m = true) :
    stream_time q Msg.timestamp base l = combine_time q (decoder_time q base l) (ownership_time q l) := by
  rw [decoder_time, items_once hall, clock_map, stream_time, ownership_time]
  refine clock_split fun m hm _ => ?_
  change m.timestamp = combine_time q (Item.time q ⟨m, 0, 0⟩) _
  rw [once_item (hall m (mem_taken.1 hm))]
  cases ho : msg_is_ownership m with
  | true => rw [ownership_checked ho]; exact (zero_combine q _).symm
  | false => exact (combine_zero q m.timestamp).symm

/-- At rest, behind a sync message, the time is that of all the messages of the stream, if and only if that of the Ownership
messages since the last sync message is 0. -/
theorem no_time_lost {s : TraceDecoder MsgDecoder} (hs : Reachable s) {env : Env} {y : TraceSync} {calls : List (Env × Call)}
    {rs : List (Except NexusError Result)} (hrun : Handled calls rs) {t : TraceDecoder (MsgDecoder × List Input)}
    (hplay : play (recorded msg_source) ((env, .sync_reset) :: calls) s.start = some (.ok (.reset (some y)) :: rs, t))
    (hall : ∀ m, .took m ∈ t.log → unrepeated m = true) (hstale : no_stale t.log = true) (ht : t.quiet = true) :
    t.timestamp = stream_time (t.sifive (recorded msg_source)) Msg.timestamp 0 t.log ↔
      ownership_time (t.sifive (recorded msg_source)) t.log = 0 := by
  have hinv : DecoderInv s.start.msg_decoder.1 := hs.inv
  obtain ⟨u, hreset, hrest⟩ := play_head hplay
  have hsuffix := play_log_suffix hrest
  have hanchored : Anchored msg_source 0 s.start := by
    intro hp hy
    obtain ⟨r, hr, he⟩ := Proc.map_eq_some.1 hreset
    rcases r with e | o <;> cases he
    obtain ⟨-, he, -⟩ | ⟨hsync, -⟩ := sync_reset_cases hr
    · cases he
    · exact nomatch (hs.unanchored hsync hp).symm.trans hy
  obtain ⟨-, hl, hu⟩ := sync_reset_timed msg_source_lawful hreset hinv
    (fun m hm => unrepeated_not_repeat (hall m (hsuffix.subset hm))) (no_stale_suffix hsuffix hstale) hanchored
  obtain ⟨os, hm, -⟩ := exec_micros hreset
  have hIu : DecoderInv u.msg_decoder.1 :=
    hm.keeps (P := fun v => DecoderInv v.msg_decoder.1) (fun _ _ _ hm hI => (hm.lawful (recorded_lawful msg_source_lawful) hI).1) hinv
  have htimed : Timed msg_source 0 t := hrun.once msg_source_lawful msg_source_supports hrest hall hstale hIu
    (fun e he => nomatch (hl ▸ he : e ∈ [])) hu
  rw [stream_time_once hall, htimed.quiet ht]
  exact combine_eq_self

/-- Nothing on the log is repeated, from memory or from the stream. -/
def once_log (t : TraceDecoder (MsgDecoder × List Input)) : Bool := (taken t.log).all unrepeated && no_stale t.log && t.quiet

theorem once_log_iff {t : TraceDecoder (MsgDecoder × List Input)} :
    once_log t = true ↔ (∀ m, .took m ∈ t.log → unrepeated m = true) ∧ no_stale t.log = true ∧ t.quiet = true := by
  simp [once_log, mem_taken, and_assoc]

/-- A DataAcquisition message with the delta 5, in front of a branch. -/
def acquired : Msg := { Msg.zero with timestamp := 5, tcode := .DataAcquisition, bits := 1, xaddr := 1 }

def acquired_start : TraceDecoder MsgDecoder :=
  fresh_decoder timed_cfg [0x24, 0x01, 0x05, 0x07, 0x1c, 0x05, 0x05, 0x17, 0x0c, 0x15, 0x0f]

/-- The caller hands its delta back: with the 1 of the sync message and the 3 of the branch, the time is 9. -/
theorem no_time_lost_handed_back : ∃ t : TraceDecoder (MsgDecoder × List Input),
    t.timestamp = stream_time false Msg.timestamp 0 t.log ∧ t.timestamp = 9 := by
  have hrun : (play (recorded msg_source) [(env_of Msg.zero, .sync_reset), (env_of Msg.zero, .try_retire 5), (env_of Msg.zero, .skip),
      (env_of Msg.zero, .add_timestamp acquired.timestamp), (env_of Msg.zero, .try_retire 5), (env_of Msg.zero, .next_tnt)]
      acquired_start.start).map
      (fun r => (r.1, (once_log r.2 && !r.2.sifive (recorded msg_source) && ownership_time false r.2.log = 0 && r.2.timestamp = 9 : Bool))) =
      some ([.ok (.reset (some ⟨2, 0⟩)), .error .msg_unsupported, .ok (.skipped 4 acquired), .ok .done, .ok (.retired 5 .Direct),
        .ok (.tnt true)], true) := by decide +kernel
  obtain ⟨t, hplay, hshown⟩ := play_shown (fun t => once_log t && !t.sifive (recorded msg_source) && ownership_time false t.log = 0 &&
    t.timestamp = 9) hrun
  simp only [Bool.and_eq_true, Bool.not_eq_true', decide_eq_true_eq] at hshown
  obtain ⟨⟨⟨honce, hsif⟩, hown⟩, htime⟩ := hshown
  obtain ⟨hall, hstale, hquiet⟩ := once_log_iff.1 honce
  have hs : Reachable acquired_start := (fresh_initial rfl _).reachable
  have hsum := no_time_lost hs
    (.hand_back (m := acquired) rfl rfl (by decide) (by decide) (.call (.inl rfl) (.call (.inl rfl) .nil))) hplay hall hstale hquiet
  rw [hsif] at hsum
  exact ⟨t, hsum.2 hown, htime⟩

/-- An IndirectBranch with the delta 3, and an Ownership message with the delta 4. -/
def owned_start : TraceDecoder MsgDecoder :=
  fresh_decoder timed_cfg [0x24, 0x01, 0x05, 0x07, 0x10, 0x51, 0x09, 0x0f, 0x08, 0x8c, 0x09, 0x13]

/-- Behind them the time is 4 and not 8. -/
theorem ownership_loses_time : ¬ ∀ (s : TraceDecoder MsgDecoder) (env : Env) (y : TraceSync) (calls : List (Env × Call))
    (rs : List (Except NexusError Result)) (t : TraceDecoder (MsgDecoder × List Input)), Reachable s → Handled calls rs →
    play (recorded msg_source) ((env, .sync_reset) :: calls) s.start = some (.ok (.reset (some y)) :: rs, t) →
    (∀ m, .took m ∈ t.log → unrepeated m = true) → no_stale t.log = true → t.quiet = true →
    t.timestamp = stream_time (t.sifive (recorded msg_source)) Msg.timestamp 0 t.log := by
  intro hall
  have hrun : (play (recorded msg_source) [(env_of Msg.zero, .sync_reset), (env_of Msg.zero, .try_retire 5), (env_of Msg.zero, .next_indirect)]
      owned_start.start).map
      (fun r => (r.1, (once_log r.2 && !r.2.sifive (recorded msg_source) && stream_time false Msg.timestamp 0 r.2.log = 8 &&
        r.2.timestamp = 4 : Bool))) =
      some ([.ok (.reset (some ⟨2, 0⟩)), .ok (.retired 5 .Indirect), .ok (.indirect ⟨6, false, false, some ⟨3, 0, 0, 5⟩⟩)], true) := by
    decide +kernel
  obtain ⟨t, hplay, hshown⟩ := play_shown (fun t => once_log t && !t.sifive (recorded msg_source) &&
    stream_time false Msg.timestamp 0 t.log = 8 && t.timestamp = 4) hrun
  simp only [Bool.and_eq_true, Bool.not_eq_true', decide_eq_true_eq] at hshown
  obtain ⟨⟨⟨honce, hsif⟩, hstream⟩, htime⟩ := hshown
  obtain ⟨hlog, hstale, hquiet⟩ := once_log_iff.1 honce
  have hs : Reachable owned_start := (fresh_initial rfl _).reachable
  have hsum := hall _ _ _ _ _ _ hs (.call (.inl rfl) (.call (.inl rfl) .nil)) hplay hlog hstale hquiet
  rw [hsif, hstream, htime] at hsum
  cases hsum

end nexusrv
