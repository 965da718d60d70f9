import NexusRv.Events
import NexusRv.Ledger
import Mathlib.Data.Prod.Lex
/-!
# What is left to consume

The messages of the stream, the buffered message with its repetitions, and the I-CNT and history bits in front of it. No step of the decoder
leaves more of them, and those that retire something leave less.
-/

namespace nexusrv

section Amount
variable {σ : Type} {src : Source σ} {I : σ → Prop} {s t u : TraceDecoder σ}

/-! ## What is left to consume -/

/-- A branch with sync is consumed in two steps. -/
def TraceDecoder.phase (s : TraceDecoder σ) : Nat :=
  if s.msg_present then if msg_is_branch s.msg && msg_is_sync s.msg then 2 else 1 else 0

def TraceDecoder.repeats (s : TraceDecoder σ) : Nat := if s.msg_present then s.msg.hrepeat.toNat else 0

/-- I-CNT and history bits. A ResourceFull message that stays buffered is in front of them. -/
def TraceDecoder.rest (s : TraceDecoder σ) : Nat :=
  if s.msg_present && msg_is_res s.msg then 0
  else (s.res_icnt + s.buffered_icnt - s.consumed_icnt) + (s.queued_bits + s.buffered_bits - s.consumed_tnts)

/-- What is left to consume, in the order in which it comes again. -/
def TraceDecoder.amount (src : Source σ) (s : TraceDecoder σ) : ℕ ×ₗ ℕ ×ₗ ℕ ×ₗ ℕ :=
  toLex (src.left s.msg_decoder, toLex (s.phase, toLex (s.repeats, s.rest)))

theorem amount_lt_left (h : src.left t.msg_decoder < src.left s.msg_decoder) : t.amount src < s.amount src :=
  Prod.Lex.toLex_lt_toLex.2 (.inl h)

/-- Nothing new is read. -/
theorem amount_lt_iff (h : t.msg_decoder = s.msg_decoder) : t.amount src < s.amount src ↔
    t.phase < s.phase ∨ t.phase = s.phase ∧ (t.repeats < s.repeats ∨ t.repeats = s.repeats ∧ t.rest < s.rest) := by
  simp only [TraceDecoder.amount, h, Prod.Lex.toLex_lt_toLex, lt_irrefl, true_and, false_or]

theorem amount_le (hleft : src.left t.msg_decoder ≤ src.left s.msg_decoder) (hphase : t.phase ≤ s.phase) (hrep : t.repeats ≤ s.repeats)
    (hrest : t.rest ≤ s.rest) : t.amount src ≤ s.amount src :=
  Prod.Lex.toLex_mono ⟨hleft, Prod.Lex.toLex_mono ⟨hphase, Prod.Lex.toLex_mono ⟨hrep, hrest⟩⟩⟩

/-- The amount reads these fields. -/
theorem amount_same (h : src.left t.msg_decoder ≤ src.left s.msg_decoder) (hp : t.msg_present = s.msg_present) (hm : t.msg = s.msg)
    (h1 : t.res_icnt = s.res_icnt) (h2 : t.consumed_icnt = s.consumed_icnt) (h3 : t.res_hists = s.res_hists)
    (h4 : t.consumed_tnts = s.consumed_tnts) : t.amount src ≤ s.amount src := by
  refine amount_le h ?_ ?_ ?_
  · rw [TraceDecoder.phase, TraceDecoder.phase, hp, hm]
  · rw [TraceDecoder.repeats, TraceDecoder.repeats, hp, hm]
  · simp only [TraceDecoder.rest, TraceDecoder.buffered_icnt, TraceDecoder.buffered_bits, TraceDecoder.queued_bits, hp, hm, h1, h2, h3, h4,
      le_refl]

/-! ## Every step consumes -/

section Lawful
variable (hlaw : src.Lawful I)
include hlaw

/-- A message that is fetched is gone from the source. -/
theorem Fetched.less {msg2 : Msg} {r : Except NexusError Bool} (h : Fetched src msg2 s r t) (hI : I s.msg_decoder) (hs : s.msg_present = false)
    (ht : t.msg_present = true) : src.left t.msg_decoder < src.left s.msg_decoder := by
  cases h with
  | present hp => exact absurd (hs.symm.trans hp) Bool.false_ne_true
  | failed | eof | unsupported => exact absurd (hs.symm.trans ht) Bool.false_ne_true
  | plain n d m _ hn h0 => exact (hlaw.next hI hn).2.2.2 n rfl h0
  | ahead_failed n d m e d₂ m₂ _ hn h0 _ _ hn₂ =>
    obtain ⟨h1, -, -, h4⟩ := hlaw.next hI hn
    exact Nat.lt_of_le_of_lt (hlaw.next h1 hn₂).2.2.1 (h4 n rfl h0)
  | ahead_other n d m n₂ d₂ m₂ d₃ _ hn h0 _ _ hn₂ _ hback =>
    obtain ⟨h1, -, -, h4⟩ := hlaw.next hI hn
    obtain ⟨d'', hd, -, -, hle⟩ := hlaw.rewind h1 hn₂
    cases hd.symm.trans hback
    exact Nat.lt_of_le_of_lt hle (h4 n rfl h0)
  | repeated n d m n₂ d₂ m₂ _ hn h0 _ _ hn₂ =>
    obtain ⟨h1, -, -, h4⟩ := hlaw.next hI hn
    exact Nat.lt_of_le_of_lt (hlaw.next h1 hn₂).2.2.1 (h4 n rfl h0)

theorem Fetched.amount {msg2 : Msg} {r : Except NexusError Bool} (h : Fetched src msg2 s r t) (hI : I s.msg_decoder) :
    t.amount src ≤ s.amount src := by
  cases hs : s.msg_present with
  | true => rw [h.of_present hs]
  | false =>
    cases ht : t.msg_present with
    | true => exact (amount_lt_left (h.less hlaw hI hs ht)).le
    | false =>
      -- without a buffered message, what it was plays no part
      refine amount_le (h.left hlaw hI).2.2.1 ?_ ?_ ?_
      · simp [TraceDecoder.phase, ht]
      · simp [TraceDecoder.repeats, ht]
      · simp [TraceDecoder.rest, TraceDecoder.buffered_icnt, TraceDecoder.buffered_bits, TraceDecoder.queued_bits, hs, ht, h.res_icnt,
          h.consumed_icnt, h.res_hists, h.consumed_tnts]

end Lawful

theorem take_amount (hb : Booked s) (hset : s.settled) {n : Nat} (hn : n ≤ s.icnt_left) :
    (s.take_icnt n).amount src ≤ s.amount src ∧ (0 < n → (s.take_icnt n).amount src < s.amount src) := by
  obtain ⟨h1, h2, h3, -, -, h6, h7⟩ := take_icnt_frame n s
  have hphase : (s.take_icnt n).phase = s.phase := by rw [TraceDecoder.phase, TraceDecoder.phase, h1, h2]
  have hrep : (s.take_icnt n).repeats = s.repeats := by rw [TraceDecoder.repeats, TraceDecoder.repeats, h1, h2]
  have hfree : (s.msg_present && msg_is_res s.msg) = false := by
    rw [Bool.and_eq_false_imp]
    exact hset
  have hrest : (s.take_icnt n).rest + n = s.rest := by
    have hle := hb.left hset ▸ hn
    have hlt := hb.sum_lt hset
    have hone := hb.one
    simp only [TraceDecoder.rest, TraceDecoder.buffered_icnt, TraceDecoder.buffered_bits, TraceDecoder.queued_bits, h1, h2, h6, h7, hfree,
      Bool.false_eq_true, if_false]
    unfold TraceDecoder.take_icnt
    unfold TraceDecoder.buffered_icnt at hle hlt
    split <;> dsimp only <;> omega
  refine ⟨amount_le (by rw [h3]) hphase.le hrep.le (by omega), fun h0 => ?_⟩
  rw [amount_lt_iff h3]
  exact .inr ⟨hphase, .inr ⟨hrep, by omega⟩⟩

theorem TookTnt.amount {b : Bool} (h : TookTnt src s b t) (ht : Tallied s) (hset : s.settled) : t.amount src < s.amount src := by
  obtain ⟨h1, h2, h3, h4, -, h6, -⟩ := h.frame
  rw [amount_lt_iff h6]
  have hphase : t.phase = s.phase := by rw [TraceDecoder.phase, TraceDecoder.phase, h3, h4]
  have hrep : t.repeats = s.repeats := by rw [TraceDecoder.repeats, TraceDecoder.repeats, h3, h4]
  refine .inr ⟨hphase, .inr ⟨hrep, ?_⟩⟩
  have hfree : (s.msg_present && msg_is_res s.msg) = false := by
    rw [Bool.and_eq_false_imp]
    exact hset
  have hbits : queue_bits t.res_hists + t.buffered_bits - t.consumed_tnts < queue_bits s.res_hists + s.buffered_bits - s.consumed_tnts := by
    have hbuf : t.buffered_bits = s.buffered_bits := by rw [TraceDecoder.buffered_bits, TraceDecoder.buffered_bits, h3, h4]
    rw [hbuf, ← queue_bits_unspent s.res_hists]
    cases h with
    | own _ hp hh hlt =>
      have hown : s.buffered_bits = msg_hist_bits s.msg.hist := by rw [TraceDecoder.buffered_bits, if_pos hp, Msg.own_bits, if_pos hh]
      change queue_bits (unspent s.res_hists) + s.buffered_bits - (s.consumed_tnts + 1) < _
      omega
    | bit e rest _ hu hlt =>
      have he := (ht.elems e (mem_of_unspent (hu ▸ List.mem_cons_self))).1
      have hle : msg_hist_bits e.hist ≤ e.bits := Nat.le_mul_of_pos_left _ (Nat.pos_of_ne_zero he)
      change queue_bits (unspent s.res_hists) + s.buffered_bits - (s.consumed_tnts + 1) < _
      rw [hu, queue_bits_cons]
      omega
    | last e rest _ hu hlast _ hne =>
      have hsplit : e.bits = (e.repeat_ - 1) * msg_hist_bits e.hist + msg_hist_bits e.hist := by
        rw [HistElement.bits, ← Nat.succ_mul, Nat.succ_eq_add_one, Nat.sub_add_cancel (Nat.pos_of_ne_zero hne)]
      rw [hu, queue_bits_cons]
      change queue_bits (if e.repeat_ - 1 = 0 then rest else _) + s.buffered_bits - 0 < _
      split
      · omega
      · rw [queue_bits_cons]
        change (e.repeat_ - 1) * msg_hist_bits e.hist + queue_bits rest + s.buffered_bits - 0 < _
        omega
  simp only [TraceDecoder.rest, TraceDecoder.buffered_icnt, TraceDecoder.queued_bits, h1, h2, h3, h4, hfree, Bool.false_eq_true, if_false]
  omega

theorem retired_amount (hret : Retirable s) : (s.retired src).amount src < s.amount src := by
  rw [amount_lt_iff (retired_msg_decoder s)]
  have hphase : s.phase = if msg_is_branch s.msg && msg_is_sync s.msg then 2 else 1 := by rw [TraceDecoder.phase, if_pos hret.present]
  cases hp : (s.retired src).msg_present with
  | false =>
    left
    rw [hphase, TraceDecoder.phase, hp, if_neg Bool.false_ne_true]
    split <;> omega
  | true =>
    have hphase' : (s.retired src).phase =
        if msg_is_branch (s.retired src).msg && msg_is_sync (s.retired src).msg then 2 else 1 := by rw [TraceDecoder.phase, if_pos hp]
    obtain ⟨hb, ⟨hy, hm⟩ | ⟨hy, hr, time, hm⟩⟩ := retired_msg hp
    · left
      rw [hphase, hphase', hm, hb, hy]
      exact Nat.one_lt_two
    · right
      have hkind : msg_is_sync { s.msg with timestamp := time, hrepeat := s.msg.hrepeat - 1 } = msg_is_sync s.msg := rfl
      refine ⟨by rw [hphase, hphase', hm, hkind, hy, Bool.and_false, Bool.and_false], .inl ?_⟩
      rw [TraceDecoder.repeats, TraceDecoder.repeats, if_pos hp, if_pos hret.present, hm]
      have := hrepeat_pred hr
      dsimp only
      omega

/-- The buffered message is gone. -/
theorem gone_amount (h : t.msg_decoder = s.msg_decoder) (hp : s.msg_present = true) (hp' : t.msg_present = false) : t.amount src < s.amount src := by
  refine (amount_lt_iff h).2 (.inl ?_)
  rw [TraceDecoder.phase, TraceDecoder.phase, if_pos hp, hp', if_neg Bool.false_ne_true]
  split <;> decide

/-- An Error message is consumed with all that is accumulated. -/
theorem error_amount (hp : s.msg_present = true) (hk : s.msg.tcode = .Error) :
    ({ (s.emptied src).retired src with synced := false } : TraceDecoder σ).amount src < s.amount src := by
  have hempty : ((s.emptied src).retired src).msg_present = false := retired_present (by simp [TraceDecoder.emptied, msg_is_branch, hk])
  have hsame : ((s.emptied src).retired src).msg_decoder = s.msg_decoder := retired_msg_decoder (s.emptied src)
  exact gone_amount hsame hp hempty

/-- The message to sync at becomes one without I-CNT and history bits. -/
theorem resynced_amount (hp : s.msg_present = true) : s.resynced.amount src ≤ s.amount src := by
  have hp' : s.resynced.msg_present = true := hp
  refine amount_le le_rfl ?_ le_rfl ?_
  · rw [TraceDecoder.phase, TraceDecoder.phase, if_pos hp, if_pos hp']
    change 1 ≤ _
    split <;> decide
  · have hicnt : s.resynced.buffered_icnt = 0 := by
      rw [TraceDecoder.buffered_icnt, if_pos hp']
      rfl
    have hbits : s.resynced.buffered_bits = 0 := by
      rw [TraceDecoder.buffered_bits, if_pos hp']
      rfl
    have hqueue : s.resynced.queued_bits = 0 := rfl
    rw [TraceDecoder.rest, hicnt, hbits, hqueue]
    simp [TraceDecoder.resynced]

theorem addressed_amount (s : TraceDecoder σ) : s.addressed.amount src ≤ s.amount src := by
  unfold TraceDecoder.addressed
  split <;> exact le_rfl

/-- An indirect branch is consumed, and what is behind it is read, and perhaps put back. -/
theorem indirect_amount {d : σ} (hret : Retirable s) (hle : src.left d ≤ src.left s.msg_decoder) :
    TraceDecoder.amount src { s.addressed.retired src with msg_decoder := d } < s.amount src := by
  have hdec : (s.addressed.retired src).msg_decoder = s.msg_decoder := by rw [retired_msg_decoder, addressed_msg_decoder]
  have hsame := @amount_same _ src (s.addressed.retired src) { s.addressed.retired src with msg_decoder := d }
    (by rw [hdec]; exact hle) rfl rfl rfl rfl rfl rfl
  exact hsame.trans_lt ((retired_amount (addressed_retirable.2 hret)).trans_le (addressed_amount s))

section Lawful
variable (hlaw : src.Lawful I)
include hlaw

/-- No step leaves more. -/
theorem Micro.amount {c : Call} {o : List Out} (h : Micro src c s o t) (hI : I s.msg_decoder) (hb : Booked s) (ht : Tallied s) :
    t.amount src ≤ s.amount src := by
  cases h with
  | fetch hf => exact hf.amount hlaw hI
  | @pull u msg2 e _ _ hp hf =>
    have hless : src.left u.msg_decoder < src.left s.msg_decoder := hf.less hlaw hI hp hf.filled
    exact (amount_lt_left (t := u.absorbed e) hless).le
  | stuck _ hp hres =>
    refine amount_le le_rfl le_rfl le_rfl ?_
    simp [TraceDecoder.rest, hp, hres]
  | take _ hset _ hn => exact (take_amount hb hset hn).1
  | tnt _ hset _ _ _ htook => exact (htook.amount ht hset).le
  | retire _ _ _ hret => exact (retired_amount hret).le
  | indirect _ _ _ hret => exact ((retired_amount (addressed_retirable.2 hret)).trans_le (addressed_amount s)).le
  | stop _ _ _ _ hret => exact (retired_amount hret).le
  | error _ _ hp hk => exact (error_amount hp hk).le
  | past _ hn => exact amount_same (hlaw.next hI hn).2.2.1 rfl rfl rfl rfl rfl rfl
  | peek _ hn hback =>
    obtain ⟨d', hd, -, -, hle⟩ := hlaw.rewind hI hn
    cases hd.symm.trans hback
    exact amount_same hle rfl rfl rfl rfl rfl rfl
  | skip _ hn => exact amount_same (hlaw.next hI hn).2.2.1 rfl rfl rfl rfl rfl rfl
  | drop _ _ hp => exact (gone_amount (s := s) (t := { s with msg_present := false }) rfl hp rfl).le
  | resync _ _ hp hy => exact resynced_amount hp
  | stack => exact le_rfl
  | time => exact le_rfl

end Lawful

/-! ## Calls that consume -/

/-- What the amount is measured with. -/
structure Metered (I : σ → Prop) (s : TraceDecoder σ) : Prop where
  inv : I s.msg_decoder
  booked : Booked s
  tallied : Tallied s

/-- At a message that is no ResourceFull, the loop pulls nothing. -/
theorem Loop.stays {α : Type} {env : Env} {done : Trace σ (Option α)} (hasks : Asks done) {k : Nat} {rc : Bool} {r : Except NexusError (Option α)}
    (h : Loop src env done k rc s r t) (hr : r = .ok none) (hp : s.msg_present = true) (hset : s.settled) : t = s := by
  induction h with
  | found | failed | pull_failed => cases hr
  | stop hd =>
    obtain ⟨-, hs, -⟩ | ⟨a, ha⟩ := hasks _ _ _ hd
    · exact hs
    · cases ha
  | @pull k s u v w rc r hd hpull _ ih =>
    obtain ⟨-, rfl, -⟩ | ⟨a, ha⟩ := hasks _ _ _ hd
    · cases pull_cases hpull with
      | other b _ hf _ =>
        cases hf.of_present hp
        exact ih hr hp hset
      | taken b x e hf hres =>
        cases hf.of_present hp
        exact absurd ((hset hp).symm.trans hres) Bool.false_ne_true
    · cases ha

section Lawful
variable (hlaw : src.Lawful I)
include hlaw

theorem Micros.consumes {c : Call} {o : List Out} (h : Micros src c s o t) (hs : Metered I s) : Metered I t ∧ t.amount src ≤ s.amount src := by
  refine h.keeps (P := fun u => Metered I u ∧ u.amount src ≤ s.amount src) ?_ ⟨hs, le_rfl⟩
  rintro u o v hm ⟨hu, hle⟩
  exact ⟨⟨(hm.lawful hlaw hu.inv).1, hm.booked hu.booked, hm.tallied hu.booked hu.tallied⟩,
    (hm.amount hlaw hu.inv hu.booked hu.tallied).trans hle⟩

theorem Fetched.metered {msg2 : Msg} {b : Bool} (h : Fetched src msg2 s (.ok b) t) (hs : Metered I s) :
    Metered I t ∧ t.amount src ≤ s.amount src :=
  (Micros.single (c := .next_sync) (.fetch h)).consumes hlaw hs

theorem try_retire_consumes {env : Env} {icnt n : Nat} {ev : TraceEvent} (h : trace_try_retire src env icnt s = some (.ok (n, ev), t))
    (hs : Metered I s) (h0 : 0 < n) : t.amount src < s.amount src := by
  cases try_retire_cases h with
  | early _ _ hsync hloop =>
    obtain ⟨u, hu, -, hd⟩ := hloop.micros_found (c := .try_retire icnt) (asks_icnt _) rfl hsync
    obtain ⟨hm, hle⟩ := hu.consumes hlaw hs
    obtain ⟨hset, -, ⟨-, hr, -⟩ | ⟨hlt, -, -, hr, rfl⟩⟩ := retire_icnt_cases hd
    · cases hr
    · cases hr
      exact ((take_amount hm.booked hset hlt.le).2 h0).trans_le hle
  | event u hsync hloop hp hset =>
    obtain ⟨hu, -, -⟩ := hloop.micros_stop (c := .try_retire icnt) (asks_icnt _) rfl hsync
    obtain ⟨hm, hle⟩ := hu.consumes hlaw hs
    exact ((take_amount hm.booked hset le_rfl).2 h0).trans_le hle

/-- Where nothing is left of the I-CNT, a TNT is taken or a branch retired. -/
theorem next_tnt_consumes {env : Env} {b : Bool} (h : trace_next_tnt src env s = some (.ok b, t)) (hs : Metered I s)
    (hp : s.msg_present = true) (hset : s.settled) (h0 : s.icnt_left = 0) : t.amount src < s.amount src := by
  cases next_tnt_cases h with
  | bit _ _ hsync hloop =>
    obtain ⟨u, hu, -, hd⟩ := hloop.micros_found (c := .next_tnt) asks_tnt rfl hsync
    obtain ⟨hm, hle⟩ := hu.consumes hlaw hs
    obtain ⟨hsetu, -, ⟨-, hr, -⟩ | ⟨-, b, -, -, htook⟩⟩ := retire_tnt_cases hd
    · cases hr
    · exact (htook.amount hm.tallied hsetu).trans_le hle
  | waiting _ _ hloop _ _ hne =>
    rw [hloop.stays asks_tnt rfl hp hset] at hne
    exact absurd h0 hne
  | branch u hsync hloop _ _ hret =>
    obtain ⟨hu, -, -⟩ := hloop.micros_stop (c := .next_tnt) asks_tnt rfl hsync
    exact (retired_amount hret).trans_le (hu.consumes hlaw hs).2

theorem next_indirect_consumes {env : Env} {i : TraceIndirect} (h : trace_next_indirect src env s = some (.ok i, t)) (hs : Metered I s) :
    t.amount src < s.amount src := by
  cases next_indirect_cases h with
  | other b u n d d' m _ hf _ _ _ hret hn _ hback =>
    obtain ⟨hu, hle⟩ := hf.metered hlaw hs
    obtain ⟨d'', hd, -, -, hleft⟩ := hlaw.rewind hu.inv hn
    cases hd.symm.trans hback
    exact (indirect_amount hret hleft).trans_le hle
  | ownership b u n d m _ hf _ _ _ hret hn _ =>
    obtain ⟨hu, hle⟩ := hf.metered hlaw hs
    exact (indirect_amount hret (hlaw.next hu.inv hn).2.2.1).trans_le hle

theorem Checked.consumes {env : Env} {kind : Msg → Bool} (h : Checked src env kind s (.ok u) u) (hs : Metered I s) :
    Metered I u ∧ u.amount src ≤ s.amount src := by
  cases h with
  | passed b _ _ hf => exact hf.metered hlaw hs

theorem next_sync_consumes {env : Env} {y : TraceSync} (h : trace_next_sync src env s = some (.ok y, t)) (hs : Metered I s) :
    t.amount src < s.amount src := by
  obtain ⟨e, hr, -⟩ | ⟨u, hc, hret, -, rfl⟩ := next_sync_cases h
  · cases hr
  · exact (retired_amount hret).trans_le (hc.consumes hlaw hs).2

theorem next_stop_consumes {env : Env} {y : TraceStop} (h : trace_next_stop src env s = some (.ok y, t)) (hs : Metered I s) :
    t.amount src < s.amount src := by
  obtain ⟨e, hr, -⟩ | ⟨u, hc, hret, -, rfl⟩ := next_stop_cases h
  · cases hr
  · exact (retired_amount hret).trans_le (hc.consumes hlaw hs).2

theorem next_error_consumes {env : Env} {y : TraceError} (h : trace_next_error src env s = some (.ok y, t)) (hs : Metered I s) :
    t.amount src < s.amount src := by
  cases next_error_cases h with
  | passed b u _ hf hk hp => exact (error_amount hp hk).trans_le (hf.metered hlaw hs).2

theorem sync_reset_consumes {env : Env} {y : TraceSync} (h : trace_sync_reset src env s = some (.ok (some y), t)) (hs : Metered I s) :
    t.amount src < s.amount src := by
  obtain ⟨-, hr, -⟩ | ⟨hsync, ⟨e, hr, -⟩ | ⟨u, r', hf, hn, hr⟩⟩ := sync_reset_cases h
  · cases hr
  · cases hr
  · obtain ⟨hm, hst, hfound⟩ := hf.micros hsync
    obtain ⟨hp, hk⟩ := hfound rfl
    obtain ⟨hu, hle⟩ := (hm.then (.resync rfl hst hp hk)).consumes hlaw hs
    rcases r' with e | y' <;> cases hr
    exact (next_sync_consumes hlaw hn hu).trans_le hle

end Lawful

end Amount

end nexusrv
