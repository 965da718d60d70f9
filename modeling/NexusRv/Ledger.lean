import Mathlib.Data.List.Infix
import NexusRv.Slicing
import NexusRv.Tnts
/-!
# The I-CNT ledger

What the stream delivered, as a list of messages with their repetitions, is what
was handed out, what is accumulated, and what the buffered message still holds.
-/

namespace nexusrv

/-! ## The messages of a log -/

/-- A message with what a RepeatBranch behind it adds: repetitions, and a timestamp. -/
structure Item where
  msg : Msg
  repeats : Nat
  extra : UInt64

def msg_is_repeat (m : Msg) : Bool := m.tcode = .RepeatBranch

/-- The messages that were taken, newest first. -/
def items : List Input → List Item
  | .took r :: .took b :: l =>
    if msg_is_repeat r && repeatable b then ⟨b, r.hrepeat.toNat, r.timestamp⟩ :: items l else ⟨r, 0, 0⟩ :: items (.took b :: l)
  | .took m :: l => ⟨m, 0, 0⟩ :: items l
  | _ :: l => items l
  | [] => []

/-- The last message is not a branch that a RepeatBranch may follow. -/
def closed : List Input → Bool
  | .took b :: _ => !repeatable b
  | _ => true

/-- No branch is repeated because its look-ahead met the end and found a RepeatBranch in memory. -/
def no_stale : List Input → Bool
  | .ended m :: .took b :: l => !(msg_is_repeat m && m.hrepeat ≠ 0 && repeatable b) && no_stale (.took b :: l)
  | _ :: l => no_stale l
  | [] => true

theorem repeat_not_repeatable {m : Msg} (h : msg_is_repeat m = true) : repeatable m = false := by
  simp only [msg_is_repeat, decide_eq_true_eq] at h
  simp [repeatable, msg_is_branch, h]

theorem items_other {i : Input} (h : ∀ m, i ≠ .took m) (l : List Input) : items (i :: l) = items l := by
  cases i with
  | took m => exact absurd rfl (h m)
  | _ => rw [items] <;> intros <;> simp_all

/-- A message on its own. -/
theorem items_took {m : Msg} {l : List Input} (h : msg_is_repeat m = false ∨ closed l = true) : items (.took m :: l) = ⟨m, 0, 0⟩ :: items l := by
  rcases l with _ | ⟨i, l⟩
  · rfl
  · cases i with
    | took b =>
      have hno : (msg_is_repeat m && repeatable b) = false := by
        rcases h with h | h
        · rw [h]
          rfl
        · rw [closed, Bool.not_eq_true'] at h
          rw [h, Bool.and_false]
      rw [items, hno]
      rfl
    | _ => rfl

theorem items_repeat {r b : Msg} (hr : msg_is_repeat r = true) (hb : repeatable b = true) (l : List Input) :
    items (.took r :: .took b :: l) = ⟨b, r.hrepeat.toNat, r.timestamp⟩ :: items l := by
  rw [items, hr, hb]
  rfl

theorem no_stale_tail {i : Input} {l : List Input} (h : no_stale (i :: l) = true) : no_stale l = true := by
  unfold no_stale at h
  split at h
  · rename_i he
    cases he
    exact (Bool.and_eq_true_iff.1 h).2
  · rename_i he
    cases he
    exact h
  · rename_i he
    cases he

theorem no_stale_suffix {l l' : List Input} (h : l <:+ l') (hs : no_stale l' = true) : no_stale l = true := by
  obtain ⟨g, rfl⟩ := h
  induction g with
  | nil => exact hs
  | cons i g ih => exact ih (no_stale_tail hs)

section Log
variable {σ : Type} {src : Source σ} {s t : TraceDecoder (σ × List Input)} {c : Call}

/-- What a fetch adds to the messages of the log. -/
inductive FetchItem (s t : TraceDecoder (σ × List Input)) : Prop where
  | present : s.msg_present = true → t = s → FetchItem s t
  | nothing : s.msg_present = false → t.msg_present = false → items t.log = items s.log → FetchItem s t
  | item (m : Msg) (k : UInt32) (x : UInt64) : s.msg_present = false → t.msg_present = true → trace_check_msg m = true →
      (if repeatable m then t.msg = { m with hrepeat := k } else t.msg = m ∧ k = 0) →
      items t.log = ⟨m, k.toNat, x⟩ :: items s.log → FetchItem s t

theorem FetchLog.closed (h : FetchLog s t) (hs : closed s.log = true) : closed t.log = true := by
  cases h with
  | present => exact hs
  | nothing i _ _ hi hl =>
    rw [hl]
    cases i with
    | took m => exact absurd rfl (hi m)
    | _ => rfl
  | plain m _ _ _ hb _ hl => rw [hl, nexusrv.closed, hb]; rfl
  | branch m g k _ _ _ _ hg _ hl =>
    rw [hl]
    cases hg with
    | repeated r hr => rw [List.singleton_append, nexusrv.closed, repeat_not_repeatable (by simp [msg_is_repeat, hr])]; rfl
    | _ => rfl

theorem FetchLog.item (h : FetchLog s t) (hs : nexusrv.closed s.log = true ∨ ∀ m, .took m ∈ t.log → msg_is_repeat m = false)
    (hstale : no_stale t.log = true) : FetchItem s t := by
  cases h with
  | present hp => exact .present hp rfl
  | nothing i hp htp hi hl => exact .nothing hp htp (by rw [hl, items_other hi])
  | plain m hp htp hc hb hm hl =>
    refine .item m 0 0 hp htp hc (by rw [hb]; exact ⟨hm, rfl⟩) ?_
    rw [hl, items_took]
    · rfl
    · exact hs.symm.imp_left fun h => h m (hl ▸ List.mem_cons_self)
  | branch m g k hp htp hc hb hg hm hl =>
    have hone : items (.took m :: s.log) = ⟨m, 0, 0⟩ :: items s.log := by
      refine items_took (.inl ?_)
      refine Bool.eq_false_iff.2 fun h => ?_
      rw [repeat_not_repeatable h] at hb
      cases hb
    have hkeep : ∀ x, items t.log = ⟨m, k.toNat, x⟩ :: items s.log → FetchItem s t := fun x h =>
      .item m k x hp htp hc (by rw [hb]; exact hm) h
    cases hg with
    | failed e => exact hkeep 0 (by rw [hl]; exact hone)
    | other r hr => exact hkeep 0 (by rw [hl]; exact hone)
    | ended r hr => exact hkeep 0 (by rw [hl]; exact hone)
    | repeated r hr => exact hkeep r.timestamp (by rw [hl, List.singleton_append, items_repeat (by simp [msg_is_repeat, hr]) hb])
    | stale r hr =>
      rw [hl, List.singleton_append, no_stale, Bool.and_eq_true_iff] at hstale
      have h0 : r.hrepeat = 0 := by simpa [msg_is_repeat, hr, hb] using hstale.1
      refine hkeep 0 ?_
      rw [hl, h0]
      exact hone

theorem FetchLog.suffix (h : FetchLog s t) : s.log <:+ t.log := by
  cases h with
  | present => exact List.suffix_refl _
  | nothing i _ _ _ hl => rw [hl]; exact List.suffix_cons _ _
  | plain m _ _ _ _ _ hl => rw [hl]; exact List.suffix_cons _ _
  | branch m g k _ _ _ _ _ _ hl => rw [hl]; exact (List.suffix_cons _ _).trans (List.suffix_append _ _)

theorem suffix_put_back (i : Input) (l : List Input) : l <:+ put_back (i :: l) := by
  cases i <;> exact List.suffix_cons _ _

/-- The log only grows. -/
theorem Micro.log_suffix {o : List Out} (h : Micro (recorded src) c s o t) : s.log <:+ t.log := by
  have hsame : ∀ {u : TraceDecoder (σ × List Input)}, u.msg_decoder = s.msg_decoder → s.log <:+ u.log := fun h => by
    rw [TraceDecoder.log, TraceDecoder.log, h]
  have hread : ∀ {m₂ : Msg} {r : Except NexusError Nat} {d : σ × List Input} {m : Msg},
      (recorded src).next (s.msg_decoder, m₂) = some (r, d, m) → s.log <:+ d.2 := fun h => by
    rw [(recorded_next.1 h).2]
    exact List.suffix_cons _ _
  cases h with
  | fetch hf => exact hf.reads.suffix
  | pull _ _ _ hf => exact hf.reads.suffix
  | stuck => exact hsame rfl
  | take =>
    unfold TraceDecoder.take_icnt
    split <;> exact hsame rfl
  | tnt _ _ _ _ _ htook => exact hsame htook.frame.2.2.2.2.2.1
  | retire => exact hsame (retired_msg_decoder s)
  | indirect => exact hsame ((retired_msg_decoder _).trans (addressed_msg_decoder s))
  | stop => exact hsame (retired_msg_decoder s)
  | error => exact hsame (retired_msg_decoder (s.emptied (recorded src)))
  | past _ hn => exact hread hn
  | @peek m₂ n d m d' _ hn hback =>
    change s.log <:+ d'.2
    rw [(recorded_rewind.1 hback).2, (recorded_next.1 hn).2]
    exact suffix_put_back _ _
  | skip _ hn => exact hread hn
  | drop => exact hsame rfl
  | resync => exact hsame rfl
  | stack => exact hsame rfl
  | time => exact hsame rfl

theorem Micros.log_suffix {o : List Out} (h : Micros (recorded src) c s o t) : s.log <:+ t.log := by
  induction h with
  | refl => exact List.suffix_refl _
  | head h _ ih => exact h.log_suffix.trans ih

/-! ## What a call leaves alone -/

/-- A ResourceFull message is buffered: every call but one of the stack and the time fails an assertion. -/
def TraceDecoder.Stuck {τ : Type} (s : TraceDecoder τ) : Prop := s.synced = true ∧ s.msg_present = true ∧ msg_is_res s.msg = true

/-! ## The ledger -/

/-- The calls that retire instructions, branches and sync messages. -/
def Call.retrieves : Call → Bool
  | .try_retire _ => true
  | .next_tnt => true
  | .next_indirect => true
  | .next_sync => true
  | _ => false

/-- The I-CNT of the repetitions of the buffered branch that are not started. -/
def TraceDecoder.waiting_icnt {τ : Type} (s : TraceDecoder τ) : Nat :=
  if s.msg_present && repeatable s.msg then s.msg.hrepeat.toNat * s.msg.own_icnt else 0

/-- The I-CNT of all messages that were taken, once for each repetition. -/
def icnt_taken (l : List Input) : Nat := ((items l).map fun i => (i.repeats + 1) * i.msg.own_icnt).sum

theorem icnt_taken_item {l l' : List Input} {m : Msg} {k : Nat} {x : UInt64} (h : items l' = ⟨m, k, x⟩ :: items l) :
    icnt_taken l' = (k + 1) * m.own_icnt + icnt_taken l := by
  rw [icnt_taken, h, List.map_cons, List.sum_cons]
  rfl

theorem icnt_taken_same {l l' : List Input} (h : items l' = items l) : icnt_taken l' = icnt_taken l := by
  rw [icnt_taken, h]
  rfl

/-- `n` instructions were handed out so far. -/
structure Balanced (n : Nat) (s : TraceDecoder (σ × List Input)) : Prop where
  synced : s.synced = true
  closed : nexusrv.closed s.log = true
  sum : s.Stuck ∨ n + s.res_icnt + s.buffered_icnt + s.waiting_icnt = icnt_taken s.log + s.consumed_icnt

theorem repeatable_hrepeat (m : Msg) (k : UInt32) : repeatable { m with hrepeat := k } = repeatable m := rfl

/-- A repetition less. -/
theorem hrepeat_pred {k : UInt32} (h : k ≠ 0) : (k - 1).toNat + 1 = k.toNat := by
  have h1 : 1 ≤ k := by
    rw [UInt32.le_iff_toNat_le]
    exact Nat.pos_of_ne_zero fun h0 => h (UInt32.toNat_inj.1 h0)
  rw [UInt32.toNat_sub_of_le _ _ h1]
  have : 1 ≤ k.toNat := by simpa [UInt32.le_iff_toNat_le] using h1
  exact Nat.sub_add_cancel this

theorem retired_sum {τ : Type} {src : Source τ} {s : TraceDecoder τ} (hret : Retirable s) :
    (s.retired src).buffered_icnt + (s.retired src).waiting_icnt + s.consumed_icnt = s.buffered_icnt + s.waiting_icnt := by
  have hown : s.buffered_icnt = s.msg.own_icnt := if_pos hret.present
  rw [hret.consumed_icnt, hown]
  cases hp : (s.retired src).msg_present with
  | false =>
    have hwait : s.waiting_icnt = 0 := by
      unfold TraceDecoder.waiting_icnt
      rw [hret.present, Bool.true_and]
      split
      · rename_i hb
        -- a branch that is not buffered any more has no repetition left
        obtain ⟨hbr, hy⟩ := Bool.and_eq_true_iff.1 hb
        have h0 : s.msg.hrepeat = 0 := by
          refine Classical.byContradiction fun hne => ?_
          rw [Bool.not_eq_true'] at hy
          simp [TraceDecoder.retired, hbr, hy, hne, TraceDecoder.pass_time, hret.present] at hp
        rw [h0]
        exact Nat.zero_mul _
      · rfl
    rw [TraceDecoder.buffered_icnt, TraceDecoder.waiting_icnt, hp, hwait]
    simp
  | true =>
    obtain ⟨hb, ⟨hy, hm⟩ | ⟨hy, hne, time, hm⟩⟩ := retired_msg hp
    · have hrep : repeatable s.msg = false := by rw [repeatable, hy, Bool.not_true, Bool.and_false]
      rw [TraceDecoder.buffered_icnt, TraceDecoder.waiting_icnt, TraceDecoder.waiting_icnt, hp, hm, hret.present, hrep]
      simp [Msg.own_icnt, Msg.downgraded, repeatable, msg_is_branch]
    · have hrep : repeatable s.msg = true := by rw [repeatable, hb, hy]; rfl
      have hk := hrepeat_pred hne
      rw [TraceDecoder.buffered_icnt, TraceDecoder.waiting_icnt, TraceDecoder.waiting_icnt, hp, hm, hret.present]
      simp only [Bool.true_and, if_true]
      change s.msg.own_icnt + (if repeatable s.msg = true then (s.msg.hrepeat - 1).toNat * s.msg.own_icnt else 0) + s.msg.own_icnt =
        s.msg.own_icnt + if repeatable s.msg = true then s.msg.hrepeat.toNat * s.msg.own_icnt else 0
      rw [hrep, if_pos rfl, if_pos rfl, ← hk, Nat.succ_mul]
      omega

theorem addressed_sum {τ : Type} (s : TraceDecoder τ) : s.addressed.buffered_icnt = s.buffered_icnt ∧ s.addressed.waiting_icnt = s.waiting_icnt ∧
    s.addressed.consumed_icnt = s.consumed_icnt := by
  unfold TraceDecoder.addressed
  split <;> exact ⟨rfl, rfl, rfl⟩

theorem take_sum {τ : Type} {s : TraceDecoder τ} (hb : Booked s) {n : Nat} (hset : s.settled) (hn : n ≤ s.icnt_left) :
    n + (s.take_icnt n).res_icnt + s.consumed_icnt = s.res_icnt + (s.take_icnt n).consumed_icnt := by
  have hlt := hb.sum_lt hset
  have hone := hb.one
  have hown := hb.own
  rw [hb.left hset] at hn
  unfold TraceDecoder.take_icnt
  split
  · dsimp only
    omega
  · have hmod : (s.consumed_icnt + (n - s.res_icnt)) % 2 ^ 32 = s.consumed_icnt + (n - s.res_icnt) := Nat.mod_eq_of_lt (by omega)
    dsimp only
    omega

/-- Every step keeps the ledger. -/
theorem Micro.balanced {o : List Out} (h : Micro (recorded src) c s o t) (hc : c.retrieves = true) (hb : Booked s)
    (hstale : no_stale t.log = true) {n : Nat} (hs : Balanced n s) : Balanced (n + outs_icnt o) t := by
  obtain ⟨hsync, hclosed, hsum⟩ := hs
  -- a step that leaves the counters and the message
  have hkeep : ∀ {u : TraceDecoder (σ × List Input)}, u.synced = s.synced → nexusrv.closed u.log = true → items u.log = items s.log →
      u.msg_present = s.msg_present → u.msg = s.msg → u.res_icnt = s.res_icnt → u.consumed_icnt = s.consumed_icnt → Balanced n u := by
    intro u h1 h2 h3 h4 h5 h6 h7
    refine ⟨h1.trans hsync, h2, hsum.imp (fun h => ⟨h1.trans h.1, h4.trans h.2.1, by rw [h5]; exact h.2.2⟩) fun h => ?_⟩
    rw [TraceDecoder.buffered_icnt, TraceDecoder.waiting_icnt, icnt_taken_same h3, h4, h5, h6, h7]
    exact h
  cases h with
  | fetch hf =>
    have hclosed' := hf.reads.closed hclosed
    cases hf.reads.item (.inl hclosed) hstale with
    | present hp ht => rw [ht]; exact ⟨hsync, hclosed, hsum⟩
    | nothing hp htp hit =>
      refine ⟨hf.synced.trans hsync, hclosed', .inr ?_⟩
      have h0 := hb.consumed_zero hp
      obtain hst | hsum := hsum
      · exact Bool.noConfusion (hp.symm.trans hst.2.1)
      · rw [TraceDecoder.buffered_icnt, TraceDecoder.waiting_icnt, hp] at hsum
        rw [TraceDecoder.buffered_icnt, TraceDecoder.waiting_icnt, htp, icnt_taken_same hit, hf.res_icnt, hf.consumed_icnt]
        exact hsum
    | item m k x hp htp _ hmsg hit =>
      refine ⟨hf.synced.trans hsync, hclosed', ?_⟩
      have h0 := hb.consumed_zero hp
      obtain hst | hsum := hsum
      · exact Bool.noConfusion (hp.symm.trans hst.2.1)
      right
      rw [TraceDecoder.buffered_icnt, TraceDecoder.waiting_icnt, hp, h0] at hsum
      have hown : t.msg.own_icnt = m.own_icnt := by
        split at hmsg
        · rw [hmsg]; rfl
        · rw [hmsg.1]
      have hwait : t.waiting_icnt = k.toNat * m.own_icnt := by
        rw [TraceDecoder.waiting_icnt, htp, hown, Bool.true_and]
        split at hmsg
        · rename_i hr
          rw [hmsg, repeatable_hrepeat, hr, if_pos rfl]
        · rename_i hr
          rw [hmsg.1, if_neg hr, hmsg.2]
          exact (Nat.zero_mul _).symm
      rw [hwait, icnt_taken_item hit, hf.res_icnt, hf.consumed_icnt, h0, TraceDecoder.buffered_icnt, htp, if_pos rfl, hown, Nat.succ_mul]
      simp only [Bool.false_and, Bool.false_eq_true, if_false] at hsum
      simp only [outs_icnt]
      omega
  | @pull u m₂ e _ _ hp hf hres hel =>
    have hlog : u.log = .took u.msg :: s.log := hf.reads.res hp hf.filled hres
    have hclosed' : nexusrv.closed (u.absorbed e).log = true := hf.reads.closed hclosed
    refine ⟨hf.synced.trans hsync, hclosed', .inr ?_⟩
    obtain hst | hsum := hsum
    · exact Bool.noConfusion (hp.symm.trans hst.2.1)
    have h0 := hb.consumed_zero hp
    rw [TraceDecoder.buffered_icnt, TraceDecoder.waiting_icnt, hp, h0] at hsum
    have hit : items (u.absorbed e).log = ⟨u.msg, 0, 0⟩ :: items s.log := by
      rw [show (u.absorbed e).log = .took u.msg :: s.log from hlog]
      exact items_took (.inr hclosed)
    have hsmall := hb.small fun h => Bool.noConfusion (hp.symm.trans h)
    have hle := (hf.booked hb).icnt_le hf.filled
    have hgrown : u.grown = s.res_icnt + u.msg.own_icnt := by
      unfold TraceDecoder.grown Msg.own_icnt
      rw [hf.res_icnt]
      split
      · rename_i hi
        rw [Msg.own_icnt, if_pos hi] at hle
        refine Nat.mod_eq_of_lt ?_
        have h1 : UINT32_MAX < 2 ^ 32 := by decide
        have h2 : MSG_ICNT_MAX ≤ UINT32_MAX := by decide
        omega
      · rfl
    have hcon : (u.absorbed e).consumed_icnt = 0 := hf.consumed_icnt.trans h0
    have hnone : (u.absorbed e).buffered_icnt = 0 ∧ (u.absorbed e).waiting_icnt = 0 := ⟨rfl, rfl⟩
    rw [icnt_taken_item hit, hcon, hnone.1, hnone.2, show (u.absorbed e).res_icnt = u.grown from rfl, hgrown]
    simp only [Bool.false_and, Bool.false_eq_true, if_false] at hsum
    simp only [outs_icnt]
    omega
  | stuck h1 h2 h3 => exact ⟨hsync, hclosed, .inl ⟨h1, h2, h3⟩⟩
  | @take k _ hset _ hn =>
    obtain ⟨h1, h2, h3, h4, -⟩ := take_icnt_frame k s
    have hlog : (s.take_icnt k).log = s.log := congrArg Prod.snd h3
    refine ⟨h4.trans hsync, by rw [hlog]; exact hclosed, ?_⟩
    obtain hst | hsum := hsum
    · exact Bool.noConfusion ((hset hst.2.1).symm.trans hst.2.2)
    · have htake := take_sum hb hset hn
      rw [TraceDecoder.buffered_icnt, TraceDecoder.waiting_icnt] at hsum
      rw [TraceDecoder.buffered_icnt, TraceDecoder.waiting_icnt, h1, h2, hlog]
      simp only [outs_icnt]
      omega
  | tnt _ _ _ _ _ htook =>
    obtain ⟨h1, h2, h3, h4, h5, h6, -⟩ := htook.frame
    have hlog : t.log = s.log := congrArg Prod.snd h6
    exact hkeep h5 (by rw [hlog]; exact hclosed) (by rw [hlog]) h4 h3 h1 h2
  | retire _ _ _ hret =>
    obtain ⟨h1, -, -, h4, -, h6⟩ := @retired_frame _ (recorded src) s
    have hlog : (s.retired (recorded src)).log = s.log := congrArg Prod.snd (retired_msg_decoder s)
    refine ⟨h6.trans hsync, by rw [hlog]; exact hclosed, ?_⟩
    obtain hst | hsum := hsum
    · exact absurd (by simpa [msg_is_res] using hst.2.2) hret.not_res
    · have := @retired_sum _ (recorded src) _ hret
      rw [hlog, h1, h4]
      simp only [outs_icnt]
      omega
  | indirect _ _ _ hret =>
    have hret' := addressed_retirable.2 hret
    obtain ⟨h1, -, -, h4, -, h6⟩ := @retired_frame _ (recorded src) s.addressed
    obtain ⟨g1, g2, g3⟩ := addressed_sum s
    have hres : s.addressed.res_icnt = s.res_icnt := by rw [(addressed_frame s).1]
    have hlog : (s.addressed.retired (recorded src)).log = s.log :=
      congrArg Prod.snd ((retired_msg_decoder _).trans (addressed_msg_decoder s))
    refine ⟨(h6.trans (congrArg TraceDecoder.synced (addressed_frame s).1)).trans hsync, by rw [hlog]; exact hclosed, ?_⟩
    obtain hst | hsum := hsum
    · exact absurd (by simpa [msg_is_res] using hst.2.2) hret.not_res
    · have := @retired_sum _ (recorded src) _ hret'
      rw [hlog, h1, h4, hres]
      simp only [outs_icnt]
      omega
  | @past m₂ r d m _ hn hown =>
    have hlog := (recorded_next.1 hn).2
    have hright : nexusrv.closed d.2 = true ∧ icnt_taken d.2 = icnt_taken s.log := by
      rw [hlog]
      rcases r with e | _ | k
      · exact ⟨rfl, rfl⟩
      · exact ⟨rfl, rfl⟩
      · have hk := hown _ rfl
        refine ⟨by simp [nexusrv.closed, Input.of, repeatable, msg_is_branch, hk], ?_⟩
        have hit : items (.took m :: s.log) = ⟨m, 0, 0⟩ :: items s.log := items_took (.inl (by simp [msg_is_repeat, hk]))
        have h0 : m.own_icnt = 0 := by simp [Msg.own_icnt, msg_has_icnt, hk]
        change icnt_taken (.took m :: s.log) = _
        rw [icnt_taken_item hit, h0, Nat.mul_zero, Nat.zero_add]
    refine ⟨hsync, hright.1, hsum.imp_right fun h => ?_⟩
    change n + s.res_icnt + s.buffered_icnt + s.waiting_icnt = icnt_taken d.2 + s.consumed_icnt
    rw [hright.2]
    exact h
  | @peek m₂ k d m d' _ hn hback =>
    have hlog : d'.2 = put_back (.of (.ok k) m :: s.log) := by rw [(recorded_rewind.1 hback).2, (recorded_next.1 hn).2]; rfl
    refine hkeep rfl ?_ ?_ rfl rfl rfl rfl
    · change nexusrv.closed d'.2 = true
      rw [hlog]
      cases k <;> rfl
    · change items d'.2 = _
      rw [hlog]
      cases k <;> rfl
  | stack => exact hkeep rfl hclosed rfl rfl rfl rfl rfl
  | stop hk => rw [hk] at hc; cases hc
  | error hk => rw [hk] at hc; cases hc
  | skip hk => rw [hk] at hc; cases hc
  | drop hk => rw [hk] at hc; cases hc
  | resync hk => rw [hk] at hc; cases hc
  | time ts hk => rw [hk] at hc; cases hc

theorem Micros.balanced {o : List Out} (h : Micros (recorded src) c s o t) (hc : c.retrieves = true) : ∀ {n : Nat}, Booked s →
    no_stale t.log = true → Balanced n s → Balanced (n + outs_icnt o) t := by
  induction h with
  | refl => exact fun _ _ hs => hs
  | head h hrun ih =>
    intro n hb hstale hs
    rw [outs_icnt_append, ← Nat.add_assoc]
    exact ih (h.booked hb) hstale (h.balanced hc hb (no_stale_suffix hrun.log_suffix hstale) hs)

/-- The instructions that a run reports. -/
def results_icnt (rs : List (Except NexusError Result)) : Nat := (rs.map Result.icnt).sum

theorem play_log_suffix {calls : List (Env × Call)} {rs : List (Except NexusError Result)} (h : play (recorded src) calls s = some (rs, t)) :
    s.log <:+ t.log :=
  play_micros_keep (P := fun u => s.log <:+ u.log) (fun _ _ _ _ hm hs => hs.trans hm.log_suffix) h (List.suffix_refl _)

theorem play_balanced (calls : List (Env × Call)) : ∀ {s : TraceDecoder (σ × List Input)} {n : Nat} {rs : List (Except NexusError Result)},
    play (recorded src) calls s = some (rs, t) → (∀ c ∈ calls, c.2.retrieves = true) → Booked s → no_stale t.log = true → Balanced n s →
      Balanced (n + results_icnt rs) t := by
  induction calls with
  | nil =>
    intro s n rs h _ _ _ hs
    cases h
    exact hs
  | cons c calls ih =>
    intro s n rs h hcalls hb hstale hs
    obtain ⟨r, u, rs', hc, hrest, rfl⟩ := play_cons.1 h
    obtain ⟨os, hm, hos⟩ := exec_micros hc
    have hu := hm.balanced (hcalls c List.mem_cons_self) hb (no_stale_suffix (play_log_suffix hrest) hstale) hs
    rw [results_icnt, List.map_cons, List.sum_cons, ← hos, ← Nat.add_assoc]
    exact ih hrest (fun c hc => hcalls c (List.mem_cons_of_mem _ hc)) (hm.keeps (fun _ _ _ => Micro.booked) hb) hstale hu

end Log

section Settled
variable {σ : Type} {src : Source σ} {s t : TraceDecoder σ}

theorem retired_settled {s : TraceDecoder σ} : (s.retired src).settled := by
  intro hp
  obtain ⟨hb, ⟨-, hm⟩ | ⟨-, -, time, hm⟩⟩ := retired_msg hp
  · rw [hm]
    rfl
  · rw [hm]
    change msg_is_res s.msg = false
    unfold msg_is_branch at hb
    unfold msg_is_res
    cases ht : s.msg.tcode <;> simp_all

/-- Behind a call that succeeds, no ResourceFull message is buffered. -/
theorem exec_settled {env : Env} {c : Call} (hc : c.retrieves = true) {a : Result} (h : exec src env c s = some (.ok a, t)) : t.settled := by
  have hmap : ∀ {β : Type} {f : β → Result} {x : Trace σ β}, (f <$> x) s = some (.ok a, t) → ∃ b, x s = some (.ok b, t) := by
    intro β f x h
    obtain ⟨r, hr, he⟩ := Proc.map_eq_some.1 h
    rcases r with e | b <;> cases he
    exact ⟨b, hr⟩
  cases c with
  | try_retire icnt =>
    obtain ⟨b, hb⟩ := hmap h
    cases try_retire_cases hb with
    | early _ _ hsync hloop =>
      obtain ⟨u, -, -, hd⟩ := hloop.micros_found (c := .try_retire icnt) (asks_icnt _) rfl hsync
      obtain ⟨hset, -, ⟨-, hr, -⟩ | ⟨-, -, -, -, rfl⟩⟩ := retire_icnt_cases hd
      · cases hr
      · exact take_settled hset
    | event u _ _ _ hset => exact take_settled hset
  | next_tnt =>
    obtain ⟨b, hb⟩ := hmap h
    cases next_tnt_cases hb with
    | bit _ _ hsync hloop =>
      obtain ⟨u, -, -, hd⟩ := hloop.micros_found (c := .next_tnt) asks_tnt rfl hsync
      obtain ⟨hset, -, ⟨-, hr, -⟩ | ⟨-, _, -, -, htook⟩⟩ := retire_tnt_cases hd
      · cases hr
      · obtain ⟨-, -, h3, h4, -⟩ := htook.frame
        unfold TraceDecoder.settled
        rw [h3, h4]
        exact hset
    | waiting _ _ _ _ hset => exact hset
    | branch => exact retired_settled
  | next_indirect =>
    obtain ⟨b, hb⟩ := hmap h
    cases next_indirect_cases hb with
    | other => exact @retired_settled _ src _
    | ownership => exact @retired_settled _ src _
  | next_sync =>
    obtain ⟨b, hb⟩ := hmap h
    obtain ⟨e, he, -⟩ | ⟨u, -, -, -, rfl⟩ := next_sync_cases hb
    · cases he
    · exact retired_settled
  | _ => cases hc

/-- What `sync_reset` leaves. -/
theorem sync_reset_clears {env : Env} {y : TraceSync} (h : exec src env .sync_reset s = some (.ok (.reset (some y)), t)) :
    t.synced = true ∧ t.msg_present = false ∧ t.Cleared := by
  obtain ⟨r, hr, he⟩ := Proc.map_eq_some.1 h
  rcases r with e | o <;> cases he
  obtain ⟨-, he, -⟩ | ⟨-, ⟨e, he, -⟩ | ⟨u, r', -, hn, he⟩⟩ := sync_reset_cases hr
  · cases he
  · cases he
  · rcases r' with e | y' <;> cases he
    obtain ⟨e, he, -⟩ | ⟨v, hc, -, -, rfl⟩ := next_sync_cases hn
    · cases he
    · cases hc with
      | passed b _ hsync hf _ _ hk =>
        obtain ⟨h1, h2, h3, h4, h5, h6⟩ := @retired_frame _ src v
        have hb : msg_is_branch v.msg = false := by
          rw [msg_is_plain_sync, Bool.and_eq_true, Bool.not_eq_true'] at hk
          exact hk.2
        exact ⟨h6.trans (hf.synced.trans hsync), retired_present hb, ⟨h1.trans hf.res_icnt, h2.trans hf.res_tnts, h3.trans hf.res_hists, h4, h5⟩⟩

end Settled

theorem Booked.start {σ : Type} {s : TraceDecoder σ} (h : Booked s) : Booked s.start :=
  ⟨h.one, h.own, h.res, h.small, h.icnt_le, h.hist_ne, h.tnts_lt, fun hs => let ⟨a, b, c, d, e⟩ := h.cleared hs; ⟨a, b, c, d, e⟩⟩

/-- From a successful `sync_reset` on, what successful calls returned, what is available, and the repetitions that
are not started make up the I-CNT of all messages that were taken, if no branch is repeated by what the
memory of its look-ahead held at the end of the stream. -/
theorem icnt_ledger {s₁ s₀ : TraceDecoder MsgDecoder} (hs : Reachable s₁) {env : Env} {y : TraceSync}
    (hreset : exec msg_source env .sync_reset s₁ = some (.ok (.reset (some y)), s₀)) {calls : List (Env × Call)}
    (hcalls : ∀ c ∈ calls, c.2.retrieves = true) {rs : List (Except NexusError Result)} {s : TraceDecoder (MsgDecoder × List Input)}
    (hplay : play (recorded msg_source) calls s₀.start = some (rs, s)) (hok : ∀ r ∈ rs, ∃ a, r = .ok a) (hstale : no_stale s.log = true) :
    results_icnt rs + s.icnt_left + s.waiting_icnt = icnt_taken s.log ∧ (s.res_icnt = 0 ∨ s.consumed_icnt = 0) ∧
      s.consumed_icnt ≤ s.buffered_icnt ∧ s.res_icnt + s.buffered_icnt < 2 ^ 32 := by
  obtain ⟨hsync, hp, hcleared⟩ := sync_reset_clears hreset
  have hb : Booked s₀.start := (hs.play (play_one hreset)).booked.start
  have hbooked : Booked s := play_micros_keep (fun _ _ _ _ => Micro.booked) hplay hb
  have hsettled : s.settled := by
    rcases List.eq_nil_or_concat calls with rfl | ⟨calls', c, rfl⟩
    · cases hplay
      exact fun h => nomatch hp.symm.trans h
    · obtain ⟨rs', r, u, he, hlast⟩ := play_last (by simpa using hplay)
      obtain ⟨a, rfl⟩ := hok r (by simp [he])
      exact exec_settled (hcalls c (by simp)) hlast
  have hstart : Balanced 0 s₀.start := by
    refine ⟨hsync, rfl, .inr ?_⟩
    have h1 : s₀.start.buffered_icnt = 0 := by rw [TraceDecoder.buffered_icnt, show s₀.start.msg_present = false from hp]; rfl
    have h2 : s₀.start.waiting_icnt = 0 := by rw [TraceDecoder.waiting_icnt, show s₀.start.msg_present = false from hp]; rfl
    rw [h1, h2, show s₀.start.res_icnt = 0 from hcleared.res_icnt, show s₀.start.consumed_icnt = 0 from hcleared.consumed_icnt]
    rfl
  have hsum := (play_balanced calls hplay hcalls hb hstale hstart).sum
  have hown := hbooked.own
  refine ⟨?_, hbooked.one, hown, hbooked.sum_lt hsettled⟩
  obtain hst | hsum := hsum
  · exact nomatch (hsettled hst.2.1).symm.trans hst.2.2
  · rw [hbooked.left hsettled]
    omega

/-- Of the five instructions of a DirectBranch, two are retired. -/
theorem icnt_ledger_two : ∃ s : TraceDecoder (MsgDecoder × List Input), 2 + s.icnt_left + s.waiting_icnt = icnt_taken s.log ∧ icnt_taken s.log = 5 := by
  have hrun : ((play msg_source [(env_of Msg.zero, .sync_reset)] slicing_start).bind fun p =>
      (play (recorded msg_source) [(env_of Msg.zero, .try_retire 2)] p.2.start).map fun q => (p.1, q.1, (no_stale q.2.log, icnt_taken q.2.log))) =
      some ([.ok (.reset (some ⟨2, 0⟩))], [.ok (.retired 2 .None)], (true, 5)) := by decide +kernel
  obtain ⟨s₀, s, hreset, hplay, hshown⟩ := recorded_shown (fun s => (no_stale s.log, icnt_taken s.log)) hrun
  rw [Prod.mk.injEq] at hshown
  exact ⟨s, (icnt_ledger (fresh_initial rfl _).reachable hreset (by simp [Call.retrieves]) hplay (by simp) hshown.1).1, hshown.2⟩

/-- The memory of a look-ahead message holds a RepeatBranch, and the stream ends behind the branch: its five
instructions are retired twice. -/
theorem icnt_retired_twice : ¬ ∀ (s₁ s₀ : TraceDecoder MsgDecoder) (env : Env) (y : TraceSync) (calls : List (Env × Call))
    (rs : List (Except NexusError Result)) (s : TraceDecoder (MsgDecoder × List Input)), Reachable s₁ →
    exec msg_source env .sync_reset s₁ = some (.ok (.reset (some y)), s₀) → (∀ c ∈ calls, c.2.retrieves = true) →
    play (recorded msg_source) calls s₀.start = some (rs, s) → (∀ r ∈ rs, ∃ a, r = .ok a) →
    results_icnt rs + s.icnt_left + s.waiting_icnt = icnt_taken s.log := by
  intro hall
  have hrun : ((play msg_source [(env_of Msg.zero, .sync_reset)] slicing_start).bind fun p =>
      (play (recorded msg_source) [(env_of stale_repeat, .try_retire 5), (env_of Msg.zero, .next_tnt), (env_of Msg.zero, .try_retire 5)]
        p.2.start).map fun q => (p.1, q.1, icnt_taken q.2.log)) =
      some ([.ok (.reset (some ⟨2, 0⟩))], [.ok (.retired 5 .Direct), .ok (.tnt true), .ok (.retired 5 .Direct)], 5) := by decide +kernel
  obtain ⟨s₀, s, hreset, hplay, hfive⟩ := recorded_shown (fun s => icnt_taken s.log) hrun
  have hsum := hall _ _ _ _ _ _ _ (fresh_initial rfl _).reachable hreset (by simp [Call.retrieves]) hplay (by simp)
  simp only [results_icnt, List.map_cons, List.map_nil, List.sum_cons, List.sum_nil, Result.icnt, hfive] at hsum
  omega

end nexusrv
