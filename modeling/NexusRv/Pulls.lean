import NexusRv.TraceTotal
/-!
# Pulling ResourceFull messages

`try_retire` and `next_tnt` pull the ResourceFull messages in front of another message.
Each adds its I-CNT to the instructions that are left, and the other one is buffered.
-/

namespace nexusrv

/-- The ResourceFull messages ahead are pulled, and in `u` another message is buffered. -/
inductive Comes {σ : Type} (src : Source σ) (env : Env) : Nat → TraceDecoder σ → TraceDecoder σ → Prop where
  | here {k t u} : trace_pull_msg src env k t = some (.ok false, u) → Comes src env k t u
  | later {k t v u} : trace_pull_msg src env k t = some (.ok true, v) → Comes src env (k + 1) v u → Comes src env k t u

section Pulls
variable {σ : Type} {src : Source σ} {s t u : TraceDecoder σ} {env : Env} {k : Nat}

/-- A ResourceFull message is taken from the stream into the accumulators. -/
structure Absorbs (src : Source σ) (s t : TraceDecoder σ) : Prop where
  absent : s.msg_present = false
  next : ∃ n, n ≠ 0 ∧ src.next (s.msg_decoder, s.msg) = some (.ok n, t.msg_decoder, t.msg)
  res : msg_is_res t.msg = true
  gone : t.msg_present = false
  left : t.icnt_left = s.icnt_left + t.msg.own_icnt

/-- A settled state pulls no ResourceFull message that is buffered. -/
theorem Pulled.absent (h : Pulled src env k s (.ok true) t) (hset : s.settled) : s.msg_present = false := by
  cases h with
  | taken b v e hf hres =>
    cases hp : s.msg_present with
    | false => rfl
    | true =>
      rw [hf.of_present hp, hset hp] at hres
      cases hres

theorem Pulled.booked {b : Bool} (h : Pulled src env k s (.ok b) t) (hset : s.settled) (hsync : s.synced = true) (hb : Booked s) : Booked t := by
  have hrun : Micros src .next_tnt s [] t := h.micros hsync hset rfl
  exact hrun.keeps (fun _ _ _ => Micro.booked) hb

theorem Pulled.absorbs (h : Pulled src env k s (.ok true) t) (hset : s.settled) (hsync : s.synced = true) (hb : Booked s) :
    Absorbs src s t := by
  have hp : s.msg_present = false := h.absent hset
  have ht : Booked t := h.booked hset hsync hb
  have hsett : t.settled := h.settled.1
  cases h with
  | taken b v e hf hres hel hlen hgrown =>
    obtain ⟨n, d, m, hn, h0, hd, hm⟩ := hf.next_res hp hres
    have hnext : src.next (s.msg_decoder, s.msg) = some (.ok n, (v.absorbed e).msg_decoder, (v.absorbed e).msg) := by
      change _ = some (Except.ok n, v.msg_decoder, v.msg)
      rw [hn, hd, hm]
    refine ⟨hp, ⟨n, h0, hnext⟩, hres, rfl, ?_⟩
    have hzero : s.consumed_icnt = 0 := hb.consumed_zero hp
    have hcon : (v.absorbed e).consumed_icnt = 0 := hf.consumed_icnt.trans hzero
    have hbuf : s.buffered_icnt = 0 := by
      rw [TraceDecoder.buffered_icnt, hp]
      rfl
    have hown := (hf.booked hb).icnt_le hf.filled
    have hsmall := hb.small hset
    have hmax : UINT32_MAX - MSG_ICNT_MAX + MSG_ICNT_MAX < 2 ^ 32 := by decide
    have hgrows : v.grown = s.res_icnt + v.msg.own_icnt := by
      unfold TraceDecoder.grown
      unfold Msg.own_icnt at hown ⊢
      rw [hf.res_icnt]
      split
      · rename_i hi
        rw [if_pos hi] at hown
        rw [Nat.mod_eq_of_lt (by omega)]
      · rfl
    rw [hb.left hset, ht.left hsett, hcon, hzero, hbuf]
    change v.grown + _ - 0 = _
    rw [hgrows]
    rfl

/-- A pull adds to the instructions that are left. -/
theorem Pulled.icnt_le {b : Bool} (h : Pulled src env k s (.ok b) t) (hset : s.settled) (hsync : s.synced = true) (hs : Booked s) :
    s.icnt_left ≤ t.icnt_left := by
  cases b with
  | true =>
    rw [(h.absorbs hset hsync hs).left]
    exact Nat.le_add_right _ _
  | false =>
    have ht : Booked t := h.booked hset hsync hs
    have hsett : t.settled := h.settled.1
    cases h with
    | other _ _ hf =>
      cases hp : s.msg_present with
      | true => rw [hf.of_present hp]
      | false =>
        have hbuf : s.buffered_icnt = 0 := by
          rw [TraceDecoder.buffered_icnt, hp]
          rfl
        rw [hs.left hset, ht.left hsett, hf.res_icnt, hf.consumed_icnt, hbuf, hs.consumed_zero hp]
        omega

/-- Where the pulls come to. -/
theorem Comes.spec (h : Comes src env k t u) : t.settled → t.synced = true → Booked t → Micros src .next_tnt t [] u ∧ u.settled ∧
    u.msg_present = true ∧ u.synced = true ∧ t.icnt_left ≤ u.icnt_left ∧ (t.msg_present = true → u = t) := by
  induction h with
  | here h =>
    intro hset hsync hb
    have hp := pull_cases h
    refine ⟨hp.micros hsync hset rfl, hp.settled.1, hp.settled.2 rfl, hp.synced.trans hsync, hp.icnt_le hset hsync hb, fun hpres => ?_⟩
    cases hp with
    | other _ _ hf => exact hf.of_present hpres
  | later h _ ih =>
    intro hset hsync hb
    have hp := pull_cases h
    have hm : Micros src .next_tnt _ [] _ := hp.micros hsync hset rfl
    obtain ⟨h1, h2, h3, h4, h5, -⟩ := ih hp.settled.1 (hp.synced.trans hsync) (hp.booked hset hsync hb)
    refine ⟨hm.trans h1, h2, h3, h4, Nat.le_trans (hp.icnt_le hset hsync hb) h5, fun hpres => ?_⟩
    exact absurd (hpres.symm.trans (hp.absent hset)) Bool.noConfusion

/-- With as many instructions to retire, the loop of `try_retire` pulls all of them, and stops at the message. -/
theorem Comes.retires {n : Nat} (h : Comes src env k t u) : t.settled → t.synced = true → Booked t → u.icnt_left ≤ n →
    Loop src env (retire_icnt n) k true t (.ok none) u := by
  induction h with
  | here h =>
    intro hset hsync hb hn
    have hp := pull_cases h
    have hstop : retire_icnt n _ = some (.ok none, _) := retire_icnt_none (hp.booked hset hsync hb) hp.settled.1 hn
    exact .pull (retire_icnt_none hb hset (Nat.le_trans (hp.icnt_le hset hsync hb) hn)) h (.stop hstop)
  | later h hrest ih =>
    intro hset hsync hb hn
    have hp := pull_cases h
    have hbv := hp.booked hset hsync hb
    have hsyncv := hp.synced.trans hsync
    obtain ⟨-, -, -, -, hle, -⟩ := hrest.spec hp.settled.1 hsyncv hbv
    exact .pull (retire_icnt_none hb hset (Nat.le_trans (Nat.le_trans (hp.icnt_le hset hsync hb) hle) hn)) h (ih hp.settled.1 hsyncv hbv hn)

/-- The loop of `try_retire` starts where no ResourceFull message is buffered. -/
theorem Loop.settled {n : Nat} {rc : Bool} {r : Except NexusError (Option Nat)} (h : Loop src env (retire_icnt n) k rc s r u) : s.settled := by
  cases h with
  | found hd | failed hd | stop hd | pull_failed hd | pull hd => exact (retire_icnt_cases hd).1

/-- Where the loop of `try_retire` stops, the pulls come to. -/
theorem Loop.comes {n : Nat} {rc : Bool} {r : Except NexusError (Option Nat)} (h : Loop src env (retire_icnt n) k rc s r u) (hr : r = .ok none)
    (hrc : rc = true) : Comes src env k s u := by
  induction h with
  | found | failed | pull_failed => cases hr
  | stop => cases hrc
  | @pull k s t v w rc r hd hpull hrest ih =>
    obtain ⟨-, -, ⟨-, -, rfl⟩ | ⟨-, -, -, hr', -⟩⟩ := retire_icnt_cases hd
    · cases rc with
      | true => exact .later hpull (ih hr rfl)
      | false =>
        cases hrest with
        | found | failed => cases hr
        | stop hd' =>
          obtain ⟨-, -, ⟨-, -, rfl⟩ | ⟨-, -, -, hr', -⟩⟩ := retire_icnt_cases hd'
          · exact .here hpull
          · cases hr'
    · cases hr'

end Pulls

end nexusrv
