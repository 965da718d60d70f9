import NexusRv.DecodeLaws
import NexusRv.Ict
/-!
# Encoding what was decoded

The encoder writes no more bytes than a message was decoded from. The decoder is
followed with the layout of what it has stored so far: `Inside` is a position
inside a group, `Behind` a position between two groups, and at each of them the
layout takes no more bits than were consumed.
-/

namespace nexusrv

open Fields

/-! ## The bits of a layout -/

/-- `n` bits, filled up to whole bytes. -/
def fill (n : Nat) : Nat := 6 * digitCount 6 n

theorem fill_le {n k : Nat} (h : n ≤ 6 * k) : fill n ≤ 6 * k := by
  have := digitCount_mul_lt 6 n (by decide)
  unfold fill
  omega

theorem fill_add (k n : Nat) : fill (6 * k + n) = 6 * k + fill n := by
  unfold fill digitCount
  omega

/-- The `bit_offset` of the encoder, moved on by tokens. -/
def span : Nat → List Token → Nat
  | n, [] => n
  | n, .field b _ :: ts => span (n + b) ts
  | n, .stop :: ts => span (fill n) ts

theorem span_append (ts us : List Token) : ∀ n, span n (ts ++ us) = span (span n ts) us := by
  induction ts with
  | nil => exact fun _ => rfl
  | cons t ts ih =>
    intro n
    cases t with
    | field b v => exact ih (n + b)
    | stop => exact ih (fill n)

theorem bitLen_span (us : List Token) : ∀ ts, bitLen (groups (ts ++ us)) = span (bitLen (groups ts)) us := by
  induction us with
  | nil => intro ts; rw [List.append_nil]; rfl
  | cons u us ih =>
    intro ts
    obtain ⟨cl, g, h, hf, hs⟩ := groups_snoc ts
    rw [show ts ++ u :: us = (ts ++ [u]) ++ us by simp, ih]
    cases u with
    | field b v =>
      rw [hf, h, bitLen_snoc, bitLen_snoc, width_append]
      simp [span, width, Nat.add_assoc]
    | stop =>
      rw [hs, h, bitLen_stop, bitLen_snoc, span, fill_add, fill]
      congr 1
      omega

theorem bitLen_eq_span (ts : List Token) : bitLen (groups ts) = span 0 ts := by
  rw [← List.nil_append ts, bitLen_span]
  simp [groups, bitLen, closedBytes, width]

/-! ## How many bits a value takes -/

theorem unpack_bits_lt (bs : List UInt8) (off bits : Nat) : unpack_bits bs off bits < 2 ^ bits ∧ unpack_bits bs off bits < 2 ^ 64 := by
  rw [unpack_bits_spec (spells_payload bs)]
  have hlt : payload bs / 2 ^ off % 2 ^ min bits 64 < 2 ^ min bits 64 := Nat.mod_lt _ (Nat.two_pow_pos _)
  exact ⟨Nat.lt_of_lt_of_le hlt (Nat.pow_le_pow_right (by decide) (Nat.min_le_left _ _)),
    Nat.lt_of_lt_of_le hlt (Nat.pow_le_pow_right (by decide) (Nat.min_le_right _ _))⟩

theorem clzg_ge {v : Nat} (h : 2 ^ 63 ≤ v) : clzg v 64 = 0 := by
  have h0 : v ≠ 0 := by
    have := Nat.two_pow_pos 63
    omega
  have hlog : 63 ≤ Nat.log2 v := (Nat.le_log2 h0).2 h
  unfold clzg
  rw [if_neg h0]
  omega

/-- An address that was sign-extended from `k` bits is sent in at most `k` bits. -/
theorem xaddr_vao_bits_le {x k : Nat} (h0 : 0 < k) (h6 : k % 6 = 0) (h64 : x < 2 ^ 64)
    (h : k < 64 → x < 2 ^ (k - 1) ∨ 2 ^ 64 - 1 - x < 2 ^ (k - 1)) : xaddr_vao_bits 0 x ≤ k := by
  by_cases hk : k < 64
  · have hhalf : 2 ^ (k - 1) ≤ 2 ^ 62 := Nat.pow_le_pow_right (by decide) (by omega)
    have h62 : (2 : Nat) ^ 62 < 2 ^ 63 := by decide
    have h63 : (2 : Nat) ^ 64 = 2 ^ 63 + 2 ^ 63 := by decide
    rcases h hk with hlow | hhigh
    · have hle : 64 - clzg x 64 ≤ k - 1 := clzg_le hlow h64 (by omega)
      simp only [xaddr_vao_bits, MDO_BITS, if_pos (show 64 - clzg x 64 < 64 by omega)]
      split <;> omega
    · have hle : 64 - clzg (2 ^ 64 - 1 - x) 64 ≤ k - 1 := clzg_le hhigh (by omega) (by omega)
      have hz : clzg x 64 = 0 := clzg_ge (by omega)
      have hc : clzg (2 ^ 64 - 1 - x) 64 ≤ 64 := by unfold clzg; split <;> omega
      simp only [xaddr_vao_bits, MDO_BITS, hz, if_neg (show ¬ 64 - 0 < 64 by omega)]
      split <;> omega
  · have hcut : ∀ b : Nat, (if b > 64 then 64 else b) ≤ 64 := by
      intro b
      split <;> omega
    have hle : xaddr_vao_bits 0 x ≤ 64 := hcut _
    omega

theorem sign_extend_range {k v : Nat} (h0 : 0 < k) (hk : k < 64) (hv : v < 2 ^ k) : sign_extend k v < 2 ^ 64 ∧
    (sign_extend k v < 2 ^ (k - 1) ∨ 2 ^ 64 - 1 - sign_extend k v < 2 ^ (k - 1)) := by
  have hhalf : 2 ^ k = 2 * 2 ^ (k - 1) := by rw [← Nat.pow_succ', Nat.succ_eq_add_one, Nat.sub_add_cancel h0]
  have h64' : 2 ^ 64 = 2 ^ k * 2 ^ (64 - k) := by rw [← Nat.pow_add, Nat.add_sub_cancel' (by omega)]
  have hle : 2 ^ k ≤ 2 ^ 64 := Nat.pow_le_pow_right (by decide) (by omega)
  unfold sign_extend
  cases hbit : v.testBit (k - 1) with
  | true =>
    have hge : 2 ^ (k - 1) ≤ v := Nat.ge_two_pow_of_testBit hbit
    have hhigh : 2 ^ 64 - 2 ^ k = 2 ^ k * (2 ^ (64 - k) - 1) := by rw [Nat.mul_sub, ← h64', Nat.mul_one]
    have hor : v ||| (2 ^ 64 - 2 ^ k) = 2 ^ 64 - 2 ^ k + v := by
      rw [hhigh, Nat.or_comm, Nat.two_pow_add_eq_or_of_lt hv]
    rw [if_pos rfl, hor]
    omega
  | false =>
    have hlt : v < 2 ^ (k - 1) := by
      refine Nat.lt_of_not_le fun hge => ?_
      rw [Nat.testBit_of_two_pow_le_and_two_pow_add_one_gt hge (by rw [Nat.sub_add_cancel h0]; exact hv)] at hbit
      cases hbit
    rw [if_neg Bool.false_ne_true]
    omega

/-! ## The decoder's progress -/

/-- What a run of the decoder that does not fail leaves. -/
abbrev Yields {α : Type} (P : DecState → Prop) (x : Dec α) (Q : DecState → Prop) : Prop :=
  Proc.Post P x (fun _ => Q) fun _ _ => True

/-- Inside a group: of `total` bytes, the layout so far takes no more bits than were read, and the message is in `P`. -/
structure Inside (total : Nat) (ts : Msg → List Token) (P : Msg → Prop) (s : DecState) : Prop where
  off : s.bit_offset ≤ 6 * s.group.length
  room : span 0 (ts s.msg) + 6 * (s.group.length + s.buffer.length) ≤ 6 * total + s.bit_offset
  msg : P s.msg

/-- Behind a group. -/
structure Behind (total : Nat) (ts : Msg → List Token) (P : Msg → Prop) (s : DecState) : Prop where
  room : span 0 (ts s.msg) + 6 * s.buffer.length ≤ 6 * total
  msg : P s.msg

section Progress
variable {total : Nat} {ts V : Msg → List Token} {P Q : Msg → Prop} {F : Nat → Msg → Msg} {b : Nat}

theorem Inside.behind {s : DecState} (h : Inside total ts P s) : Behind total ts P s := by
  have h1 := h.off
  have h2 := h.room
  exact ⟨by omega, h.msg⟩

/-- The rest of the group is filled up. -/
theorem Behind.filled {s : DecState} {w : Nat} (h : span 0 (ts s.msg) + 6 * s.buffer.length ≤ 6 * total) (hus : V s.msg = ts s.msg ++ [.field 0 w, .stop])
    (hQ : Q s.msg) : Behind total V Q s := by
  refine ⟨?_, hQ⟩
  have hle : fill (span 0 (ts s.msg)) ≤ 6 * (total - s.buffer.length) := fill_le (by omega)
  rw [hus, span_append, span, span, span, Nat.add_zero]
  omega

/-- The values of the fields take no part. -/
theorem Behind.mono {s : DecState} (h : Behind total ts P s) (hus : P s.msg → span 0 (V s.msg) = span 0 (ts s.msg) ∧ Q s.msg) :
    Behind total V Q s :=
  ⟨by rw [(hus h.msg).1]; exact h.room, (hus h.msg).2⟩

theorem yields_store (f : Msg → Msg) (h : ∀ m, P m → V (f m) = ts m ∧ Q (f m)) :
    Yields (Inside total ts P) (Proc.modify fun s => { s with msg := f s.msg }) (Inside total V Q) :=
  Proc.post_modify fun s hs => ⟨hs.off, by dsimp only; rw [(h s.msg hs.msg).1]; exact hs.room, (h s.msg hs.msg).2⟩

theorem yields_fixed (h : ∀ m v, P m → v < 2 ^ b → Q (F v m) ∧ ∃ w, V (F v m) = ts m ++ [.field b w]) :
    Yields (Inside total ts P) (UNPACK_FIXED b F) (Inside total V Q) := by
  refine Proc.Post.get_bind fun s hs => Proc.Post.ite (fun _ => Proc.post_fail fun _ _ => trivial) fun hfit => ?_
  refine Proc.post_modify fun t ht => ?_
  rw [ht]
  have h1 := hs.off
  have h2 := hs.room
  simp only [MDO_BITS] at hfit
  obtain ⟨hQ, w, hw⟩ := h s.msg (unpack_bits s.group s.bit_offset b) hs.msg (unpack_bits_lt s.group s.bit_offset b).1
  refine ⟨by dsimp only; omega, ?_, hQ⟩
  dsimp only
  rw [hw, span_append, span, span]
  omega

/-- The last field of a group, of the bits that are left. -/
theorem var_cases {s t : DecState} {k : Nat} (hrun : UNPACK_VAR F s = some (.ok k, t)) (hoff : s.bit_offset ≤ 6 * s.group.length) :
    s.bit_offset + k = 6 * s.group.length ∧ ∃ v, v < 2 ^ k ∧ v < 2 ^ 64 ∧
      t = { s with msg := F v s.msg, bit_offset := 6 * s.group.length } := by
  simp only [UNPACK_VAR, Proc.get_bind_apply, Proc.modify_bind_apply, Proc.pure_apply, MDO_BITS] at hrun
  cases hrun
  refine ⟨by omega, _, ?_, ?_, by rw [show s.bit_offset + (s.group.length * 6 - s.bit_offset) = 6 * s.group.length by omega]⟩
  · split
    · exact Nat.two_pow_pos _
    · exact Nat.lt_of_lt_of_le (unpack_bits_lt _ _ _).1 (Nat.pow_le_pow_right (by decide) (Nat.mod_le _ _))
  · split
    · exact Nat.two_pow_pos _
    · exact (unpack_bits_lt _ _ _).2

theorem var_no_error {s t : DecState} {e : NexusError} : UNPACK_VAR F s ≠ some (.error e, t) := by
  intro h
  simp only [UNPACK_VAR, Proc.get_bind_apply, Proc.modify_bind_apply, Proc.pure_apply] at h
  cases h

/-- A field of `b` bits that the encoder writes for a value of `k` bits. -/
def Shorter (V : Msg → List Token) (m' : Msg) (ts : List Token) (k : Nat) : Prop := ∃ b w, b ≤ k ∧ V m' = ts ++ [.field b w, .stop]

theorem behind_var {s : DecState} {k v : Nat} (hs : Inside total ts P s) (hk : s.bit_offset + k = 6 * s.group.length)
    (hus : Shorter V (F v s.msg) (ts s.msg) k) (hQ : Q (F v s.msg)) :
    Behind total V Q { s with msg := F v s.msg, bit_offset := 6 * s.group.length } := by
  obtain ⟨b, w, hb, hus⟩ := hus
  have h2 := hs.room
  have hle : fill (span 0 (ts s.msg) + b) ≤ 6 * (total - s.buffer.length) := fill_le (by omega)
  refine ⟨?_, hQ⟩
  dsimp only
  rw [hus, span_append, span, span, span]
  omega

theorem yields_var (h : ∀ m v k, P m → v < 2 ^ k → v < 2 ^ 64 → Q (F v m) ∧ Shorter V (F v m) (ts m) k) :
    Yields (Inside total ts P) (UNPACK_VAR F) (Behind total V Q) := by
  refine fun s hs => ⟨fun k t hrun => ?_, fun e t hrun => absurd hrun var_no_error⟩
  obtain ⟨hk, v, hv, hv64, rfl⟩ := var_cases hrun hs.off
  obtain ⟨hQ, hus⟩ := h s.msg v k hs.msg hv hv64
  exact behind_var hs hk hus hQ

theorem yields_var_req (h : ∀ m v k, P m → 0 < k → v < 2 ^ k → v < 2 ^ 64 → Q (F v m) ∧ Shorter V (F v m) (ts m) k) :
    Yields (Inside total ts P) (UNPACK_VAR_REQ F) (Behind total V Q) := by
  refine fun s hs => ⟨fun k t hrun => ?_, fun e t hrun => trivial⟩
  obtain ⟨k', u, hvar, hrun⟩ := Proc.bind_eq_ok.1 hrun
  rw [Proc.ite_apply] at hrun
  split at hrun
  · cases hrun
  · cases hrun
    obtain ⟨hk, v, hv, hv64, rfl⟩ := var_cases hvar hs.off
    obtain ⟨hQ, hus⟩ := h s.msg v k hs.msg (Nat.pos_of_ne_zero ‹_›) hv hv64
    exact behind_var hs hk hus hQ

theorem yields_req (h : ∀ m v k, P m → 0 < k → v < 2 ^ k → v < 2 ^ 64 → Q (F v m) ∧ Shorter V (F v m) (ts m) k) :
    Yields (Inside total ts P) (do let _ ← UNPACK_VAR_REQ F) (Behind total V Q) :=
  (yields_var_req h).bind fun _ => Proc.post_pure fun _ hs => hs

/-- The start of a group. -/
structure Starts (total : Nat) (ts : Msg → List Token) (P : Msg → Prop) (s : DecState) : Prop extends Inside total ts P s where
  start : s.bit_offset = 0

theorem yields_consume_starts : Yields (Behind total ts P) CONSUME_BYTES (Starts total ts P) := by
  refine Proc.Post.get_bind fun s hs => Proc.Post.ite (fun _ => Proc.post_fail fun _ _ => trivial) fun _ => ?_
  cases hc : consume_bytes s.buffer with
  | error e => exact Proc.post_fail fun _ _ => trivial
  | ok r =>
    refine Proc.post_modify fun t ht => ?_
    rw [ht]
    have h1 := hs.room
    have h2 := (consume_bytes_le hc).2
    refine ⟨⟨Nat.zero_le _, ?_, hs.msg⟩, rfl⟩
    dsimp only
    rw [List.length_take, List.length_drop]
    omega

theorem yields_consume : Yields (Behind total ts P) CONSUME_BYTES (Inside total ts P) :=
  yields_consume_starts.mono (fun _ hs => hs) fun _ _ hs => hs.toInside

theorem yields_xaddr_vao (h : ∀ (m : Msg) x, P m → x < 2 ^ 64 → Q (m.set_xaddr x) ∧ V (m.set_xaddr x) = ts m ++ [.field (xaddr_vao_bits 0 x) x, .stop]) :
    Yields (Starts total ts P) UNPACK_XADDR_VAO (Behind total V Q) := by
  refine fun s hs => ⟨fun ⟨⟩ t hrun => ?_, fun e t hrun => trivial⟩
  obtain ⟨k, u, hreq, hrun⟩ := Proc.bind_eq_ok.1 hrun
  obtain ⟨k', u', hvar, hreq⟩ := Proc.bind_eq_ok.1 hreq
  rw [Proc.ite_apply] at hreq
  split at hreq
  · cases hreq
  cases hreq
  obtain ⟨hk, v, hv, hv64, rfl⟩ := var_cases hvar hs.off
  have hk0 : 0 < k := Nat.pos_of_ne_zero ‹_›
  have h0 := hs.start
  by_cases hlt : k < 64
  · obtain ⟨hx64, hx⟩ := sign_extend_range hk0 hlt hv
    rw [show decide (k < 64) = true by simpa using hlt, Proc.when_true] at hrun
    cases hrun
    obtain ⟨hQ, hus⟩ := h s.msg _ hs.msg hx64
    have hxaddr : (Msg.set_xaddr v s.msg).xaddr.toNat = v := UInt64.toNat_ofNat_of_lt' hv64
    dsimp only
    rw [hxaddr]
    exact behind_var hs.toInside hk ⟨_, _, xaddr_vao_bits_le hk0 (by omega) hx64 fun _ => hx, hus⟩ hQ
  · rw [show decide (k < 64) = false by simpa using hlt, Proc.when_false] at hrun
    cases hrun
    obtain ⟨hQ, hus⟩ := h s.msg v hs.msg hv64
    exact behind_var hs.toInside hk ⟨_, _, xaddr_vao_bits_le hk0 (by omega) hv64 fun h => absurd h hlt, hus⟩ hQ

/-- Bytes that are skipped leave room. -/
theorem yields_consume_rest_inside : Yields (fun s => Behind total ts P s ∧ s.eom = false) CONSUME_REST (Inside total ts P) := by
  have hloop : ∀ fuel, Yields (Inside total ts P) (consume_rest fuel) (Inside total ts P) := by
    intro fuel
    induction fuel with
    | zero => exact Proc.post_pure fun _ hs => hs
    | succ fuel ih =>
      refine Proc.Post.get_bind fun s hs => Proc.Post.when (fun _ => ?_) fun _ t ht => ht ▸ hs
      refine Proc.Post.mono (yields_consume.bind fun _ => ih) (fun t ht => ?_) fun _ _ h => h
      rw [ht]
      exact hs.behind
  refine Proc.Post.get_bind fun s hs => ?_
  refine Proc.Post.get_bind fun t ht => ?_
  rw [ht, hs.2]
  exact Proc.Post.mono (yields_consume.bind fun _ => hloop _) (fun u hu => by rw [hu]; exact hs.1) fun _ _ h => h

theorem yields_consume_rest : Yields (Behind total ts P) CONSUME_REST (Behind total ts P) := by
  intro s hs
  cases heom : s.eom with
  | true =>
    have hrun : CONSUME_REST s = some (.ok (), s) := consume_rest_eom _ heom
    rw [hrun]
    exact ⟨fun a t h => by cases h; exact hs, fun e t h => by cases h⟩
  | false =>
    have hpost := yields_consume_rest_inside s ⟨hs, heom⟩
    exact ⟨fun a t h => (hpost.1 a t h).behind, fun _ _ _ => trivial⟩

/-- An optional part. -/
theorem yields_opt {x : Dec Unit} {G : Msg → List Token} (p : Bool)
    (hx : Yields (Behind total ts P) x (Behind total (fun m => ts m ++ G m) P)) :
    Yields (Behind total ts P) (Proc.when p x) (Behind total (fun m => ts m ++ Token.opt p (G m)) P) := by
  cases p with
  | false => exact Proc.post_pure fun s hs => hs.mono fun h => ⟨by rw [show ts s.msg ++ Token.opt false (G s.msg) = ts s.msg from List.append_nil _], h⟩
  | true => exact hx

theorem yields_opt_inside {x : Dec Unit} {G : Msg → List Token} (p : Bool)
    (hx : Yields (Inside total ts P) x (Inside total (fun m => ts m ++ G m) P)) :
    Yields (Inside total ts P) (Proc.when p x) (Inside total (fun m => ts m ++ Token.opt p (G m)) P) := by
  cases p with
  | false => exact Proc.post_pure fun s hs => ⟨hs.off, by rw [show ts s.msg ++ Token.opt false (G s.msg) = ts s.msg from List.append_nil _]; exact hs.room, hs.msg⟩
  | true => exact hx

theorem Shorter.req {m' : Msg} {us₀ : List Token} {k w : Nat} (h0 : 0 < k) (hw : w < 2 ^ k) (h64 : w < 2 ^ 64) (h : V m' = us₀ ++ reqTokens w) :
    Shorter V m' us₀ k := ⟨_, w, clzg_le hw h64 (by omega), h⟩

theorem Shorter.var {m' : Msg} {us₀ : List Token} {k w : Nat} (hw : w < 2 ^ k) (h64 : w < 2 ^ 64) (h : V m' = us₀ ++ varTokens w) :
    Shorter V m' us₀ k := ⟨_, w, clzg_le hw h64 (by omega), h⟩

end Progress

/-! ## The messages -/

/-- What was read of a message of TCODE `t`, up to its timestamp; `W` is what is known of its other fields. -/
structure Begins (hwcfg : HwCfg) (t : Tcode) (W : Msg → Prop) (m : Msg) : Prop where
  tcode : m.tcode = t
  timestamp : m.timestamp = 0
  src : m.src.toNat < 2 ^ hwcfg.src_bits
  rest : W m

/-- A whole message. -/
structure Completed (hwcfg : HwCfg) (t : Tcode) (W : Msg → Prop) (m : Msg) : Prop where
  tcode : m.tcode = t
  timestamp : hwcfg.ts_bits = 0 → m.timestamp = 0
  src : m.src.toNat < 2 ^ hwcfg.src_bits
  rest : W m

/-- The fields that were stored as 32 bits. -/
theorem ofNat32_lt {v k : Nat} (h : v < 2 ^ k) : (UInt32.ofNat v).toNat < 2 ^ k := by
  rw [UInt32.toNat_ofNat']
  exact Nat.lt_of_le_of_lt (Nat.mod_le _ _) h

theorem ofNat32_lt_64 (v : Nat) : (UInt32.ofNat v).toNat < 2 ^ 64 := Nat.lt_trans (UInt32.toNat_lt _) (by decide)

theorem ofNat64_lt {v k : Nat} (h : v < 2 ^ k) : (UInt64.ofNat v).toNat < 2 ^ k := by
  rw [UInt64.toNat_ofNat']
  exact Nat.lt_of_le_of_lt (Nat.mod_le _ _) h

/-- TCODE and SRC. -/
def headLayout (hwcfg : HwCfg) (m : Msg) : List Token :=
  .field 6 m.tcode.code :: Token.opt (hwcfg.src_bits ≠ 0) [.field hwcfg.src_bits m.src.toNat]

section Messages
variable {hwcfg : HwCfg} {t : Tcode} {total : Nat} {ts : Msg → List Token} {W : Msg → Prop}

theorem yields_finished (hts : ∀ m v, ts (m.set_timestamp v) = ts m) (hW : ∀ m v, W m → W (m.set_timestamp v)) :
    Yields (Behind total ts (Begins hwcfg t W)) (finished_common hwcfg)
      (Behind total (fun m => ts m ++ timestampLayout hwcfg m) (Completed hwcfg t W)) := by
  have hcomp : ∀ m, Begins hwcfg t W m → Completed hwcfg t W m := fun m h => ⟨h.tcode, fun _ => h.timestamp, h.src, h.rest⟩
  refine Proc.Post.get_bind fun s hs => Proc.Post.ite (fun hcond => ?_) fun hcond => ?_
  · obtain ⟨hbits, heom⟩ := Bool.and_eq_true_iff.1 hcond
    refine Proc.Post.ite (fun _ => Proc.post_fail fun _ _ => trivial) fun hsync => Proc.post_pure fun u hu => ?_
    rw [hu]
    refine Behind.filled (w := 0) hs.room ?_ (hcomp _ hs.msg)
    have hsync : msg_is_sync s.msg = false := Bool.eq_false_of_not_eq_true hsync
    simp only [timestampLayout, hsync, hs.msg.timestamp, Bool.false_eq_true, if_false, hbits, Token.opt, if_true]
    rfl
  · by_cases hbits : hwcfg.ts_bits = 0
    · have hwhen : decide (hwcfg.ts_bits ≠ 0) = false := by simp [hbits]
      rw [hwhen]
      refine Proc.Post.mono (yields_consume_rest.bind fun _ => Proc.post_pure fun u hu => ?_) (fun u hu => hu ▸ hs) fun _ _ h => h
      refine hu.mono fun h => ⟨?_, hcomp _ h⟩
      rw [timestampLayout, hwhen, Token.opt, if_neg Bool.false_ne_true, List.append_nil]
    · have hwhen : decide (hwcfg.ts_bits ≠ 0) = true := by simpa using hbits
      have heom : s.eom = false := by simpa [hbits] using hcond
      rw [hwhen]
      refine Proc.Post.mono (yields_consume_rest_inside.bind fun _ => ?_) (fun u hu => by rw [hu]; exact ⟨hs, heom⟩) fun _ _ h => h
      refine yields_req fun m v k h h0 hv hv64 => ⟨⟨h.tcode, fun h0 => absurd h0 hbits, h.src, hW m v h.rest⟩, ?_⟩
      have hlay : timestampLayout hwcfg (m.set_timestamp v) =
          if msg_is_sync m then reqTokens (UInt64.ofNat v).toNat else varTokens (UInt64.ofNat v).toNat := by
        rw [timestampLayout, hwhen]
        rfl
      cases hsync : msg_is_sync m with
      | true =>
        rw [hsync, if_pos rfl] at hlay
        exact .req h0 (ofNat64_lt hv) (UInt64.toNat_lt _) (by rw [hlay, hts])
      | false =>
        rw [hsync, if_neg Bool.false_ne_true] at hlay
        exact .var (ofNat64_lt hv) (UInt64.toNat_lt _) (by rw [hlay, hts])

/-- The layout of a message that is not one of the branch and sync messages. -/
def restTokens (hwcfg : HwCfg) (m : Msg) : List Token := headLayout hwcfg m ++ restLayout m ++ timestampLayout hwcfg m

/-- A bit field is stored. -/
theorem Begins.set_bits {m : Msg} (h : Begins hwcfg t (fun _ => True) m) (lo n v : Nat) : Begins hwcfg t (fun _ => True) (m.set_bits lo n v) :=
  ⟨h.tcode, h.timestamp, h.src, trivial⟩

theorem yields_ownership : Yields (Inside total (headLayout hwcfg) (Begins hwcfg .Ownership fun _ => True)) (decode_rest hwcfg .Ownership)
    (Behind total (restTokens hwcfg) (Completed hwcfg .Ownership fun _ => True)) := by
  refine Proc.Post.mono (P := Inside total (headLayout hwcfg) (Begins hwcfg .Ownership fun _ => True)) (Q := fun _ => Behind total (fun m =>
      headLayout hwcfg m ++ [.field 2 0] ++ [.field 2 0] ++ [.field 1 0] ++ varTokens m.context.toNat ++ timestampLayout hwcfg m)
    (Completed hwcfg .Ownership fun _ => True)) ?_ (fun _ hs => hs) fun _ s hs => hs.mono fun h => ⟨?_, h⟩
  · refine (yields_fixed (V := fun m => headLayout hwcfg m ++ [.field 2 0]) fun m v h _ => ⟨h.set_bits _ _ _, 0, rfl⟩).bind fun _ => ?_
    refine (yields_fixed (V := fun m => headLayout hwcfg m ++ [.field 2 0] ++ [.field 2 0])
      fun m v h _ => ⟨h.set_bits _ _ _, 0, rfl⟩).bind fun _ => ?_
    refine (yields_fixed (V := fun m => headLayout hwcfg m ++ [.field 2 0] ++ [.field 2 0] ++ [.field 1 0])
      fun m v h _ => ⟨h.set_bits _ _ _, 0, rfl⟩).bind fun _ => ?_
    refine (yields_var (Q := Begins hwcfg .Ownership fun _ => True)
      (V := fun m => headLayout hwcfg m ++ [.field 2 0] ++ [.field 2 0] ++ [.field 1 0] ++ varTokens m.context.toNat)
      fun m v k h hv hv64 => ⟨⟨h.tcode, h.timestamp, h.src, trivial⟩, .var (ofNat64_lt hv) (UInt64.toNat_lt _) rfl⟩).bind fun _ => ?_
    exact yields_finished (fun _ _ => rfl) fun _ _ _ => trivial
  · simp only [restTokens, restLayout, h.tcode, span_append, span]

theorem yields_error : Yields (Inside total (headLayout hwcfg) (Begins hwcfg .Error fun _ => True)) (decode_rest hwcfg .Error)
    (Behind total (restTokens hwcfg) (Completed hwcfg .Error fun _ => True)) := by
  refine Proc.Post.mono (P := Inside total (headLayout hwcfg) (Begins hwcfg .Error fun _ => True)) (Q := fun _ => Behind total (fun m =>
      headLayout hwcfg m ++ [.field 4 0] ++ varTokens m.error_code.toNat ++ timestampLayout hwcfg m)
    (Completed hwcfg .Error fun _ => True)) ?_ (fun _ hs => hs) fun _ s hs => hs.mono fun h => ⟨?_, h⟩
  · refine (yields_fixed (V := fun m => headLayout hwcfg m ++ [.field 4 0]) fun m v h _ => ⟨h.set_bits _ _ _, 0, rfl⟩).bind fun _ => ?_
    refine (yields_var (Q := Begins hwcfg .Error fun _ => True) (V := fun m => headLayout hwcfg m ++ [.field 4 0] ++ varTokens m.error_code.toNat)
      fun m v k h hv hv64 => ⟨⟨h.tcode, h.timestamp, h.src, trivial⟩, .var (ofNat32_lt hv) (ofNat32_lt_64 v) rfl⟩).bind fun _ => ?_
    exact yields_finished (fun _ _ => rfl) fun _ _ _ => trivial
  · simp only [restTokens, restLayout, h.tcode, span_append, span]

theorem yields_repeat : Yields (Inside total (headLayout hwcfg) (Begins hwcfg .RepeatBranch fun _ => True)) (decode_rest hwcfg .RepeatBranch)
    (Behind total (restTokens hwcfg) (Completed hwcfg .RepeatBranch fun _ => True)) := by
  refine Proc.Post.mono (P := Inside total (headLayout hwcfg) (Begins hwcfg .RepeatBranch fun _ => True)) (Q := fun _ => Behind total (fun m =>
      headLayout hwcfg m ++ reqTokens m.hrepeat.toNat ++ timestampLayout hwcfg m)
    (Completed hwcfg .RepeatBranch fun _ => True)) ?_ (fun _ hs => hs) fun _ s hs => hs.mono fun h => ⟨?_, h⟩
  · refine (yields_var_req (Q := Begins hwcfg .RepeatBranch fun _ => True) (V := fun m => headLayout hwcfg m ++ reqTokens m.hrepeat.toNat)
      fun m v k h h0 hv hv64 => ⟨⟨h.tcode, h.timestamp, h.src, trivial⟩, .req h0 (ofNat32_lt hv) (ofNat32_lt_64 v) rfl⟩).bind fun _ => ?_
    exact yields_finished (fun _ _ => rfl) fun _ _ _ => trivial
  · simp [restTokens, restLayout, h.tcode]

/-- The encoder has no case for a DataAcquisition message, and its fields are not measured. -/
theorem yields_data_acq : Yields (Inside total (headLayout hwcfg) (Begins hwcfg .DataAcquisition fun _ => True)) (decode_rest hwcfg .DataAcquisition)
    (fun s => s.msg.tcode = .DataAcquisition) := by
  refine (yields_var_req (Q := Begins hwcfg .DataAcquisition fun _ => True) (V := fun m => headLayout hwcfg m ++ [.field 0 0, .stop])
    fun m v k h _ _ _ => ⟨⟨h.tcode, h.timestamp, h.src, trivial⟩, 0, 0, Nat.zero_le _, rfl⟩).bind fun _ => yields_consume.bind fun _ => ?_
  refine (yields_var_req (Q := Begins hwcfg .DataAcquisition fun _ => True)
    (V := fun m => headLayout hwcfg m ++ [.field 0 0, .stop] ++ [.field 0 0, .stop])
    fun m v k h _ _ _ => ⟨⟨h.tcode, h.timestamp, h.src, trivial⟩, 0, 0, Nat.zero_le _, rfl⟩).bind fun _ => ?_
  exact Proc.Post.mono (yields_finished (W := fun _ => True) (fun _ _ => rfl) fun _ _ _ => trivial) (fun _ hs => hs) fun _ _ hs => hs.msg.tcode

/-- What the decoder clears, and does not read afterwards, is 0. -/
def Msg.Wiped (m : Msg) : Prop :=
  match m.tcode with
  | .DirectBranch | .DirectBranchSync | .IndirectBranch | .IndirectBranchSync | .IndirectBranchHist
  | .IndirectBranchHistSync | .ProgTraceSync => m.hrepeat = 0
  | .ResourceFull => m.res_code ≤ 2 → (m.res_code ≠ 0 → m.icnt = 0) ∧ (m.res_code = 0 → m.hist = 0) ∧ (m.res_code ≠ 2 → m.hrepeat = 0)
  | .ProgTraceCorrelation => m.hrepeat = 0 ∧ (m.cdf ≠ 1 → m.hist = 0)
  | _ => True

/-- The counts are cleared. -/
theorem yields_reset {V : Msg → Prop} (hts : ∀ m : Msg, ts (((m.set_icnt 0).set_hist 0).set_hrepeat 0) = ts m)
    (hW : ∀ m : Msg, W m → V (((m.set_icnt 0).set_hist 0).set_hrepeat 0)) :
    Yields (Inside total ts (Begins hwcfg t W)) reset_counts (Inside total ts (Begins hwcfg t V)) :=
  yields_store (fun m => ((m.set_icnt 0).set_hist 0).set_hrepeat 0) fun m h => ⟨hts m, h.tcode, h.timestamp, h.src, hW m h.rest⟩

theorem yields_correlation : Yields (Inside total (headLayout hwcfg) (Begins hwcfg .ProgTraceCorrelation fun _ => True))
    (decode_rest hwcfg .ProgTraceCorrelation) (fun s => s.msg.tcode = .ProgTraceCorrelation ∧ (s.msg.cdf < 2 →
      Behind total (restTokens hwcfg) (Completed hwcfg .ProgTraceCorrelation Msg.Wiped) s)) := by
  -- `c` is the CDF that was read
  have hrest : ∀ c, Yields (Behind total (fun m => headLayout hwcfg m ++ [.field 4 0] ++ [.field 2 0] ++ reqTokens m.icnt.toNat)
        (Begins hwcfg .ProgTraceCorrelation fun m => m.cdf = c ∧ m.hrepeat = 0 ∧ m.hist = 0))
      (Proc.when (c = 1) (do CONSUME_BYTES; let _ ← UNPACK_VAR_REQ Msg.set_hist) >>= fun _ => finished_common hwcfg)
      (fun s => s.msg.tcode = .ProgTraceCorrelation ∧ (s.msg.cdf < 2 →
        Behind total (restTokens hwcfg) (Completed hwcfg .ProgTraceCorrelation Msg.Wiped) s)) := by
    intro c
    have hfin : Yields (Behind total (fun m => headLayout hwcfg m ++ [.field 4 0] ++ [.field 2 0] ++ reqTokens m.icnt.toNat ++
          Token.opt (c = 1) (reqTokens m.hist.toNat)) (Begins hwcfg .ProgTraceCorrelation fun m => m.cdf = c ∧ m.hrepeat = 0 ∧ (c ≠ 1 → m.hist = 0)))
        (finished_common hwcfg) (fun s => s.msg.tcode = .ProgTraceCorrelation ∧ (s.msg.cdf < 2 →
          Behind total (restTokens hwcfg) (Completed hwcfg .ProgTraceCorrelation Msg.Wiped) s)) := by
      refine Proc.Post.mono (yields_finished (fun _ _ => rfl) fun _ _ h => h) (fun _ hs => hs) fun _ s hs => ⟨hs.msg.tcode, fun hcdf => ?_⟩
      refine hs.mono fun h => ⟨?_, h.tcode, h.timestamp, h.src, ?_⟩
      · have hopt : decide (s.msg.cdf ≠ 0) = decide (c = 1) := by
          rw [h.rest.1] at hcdf ⊢
          exact decide_eq_decide.2 (by omega)
        simp only [restTokens, restLayout, h.tcode, hopt]
        simp only [span_append, span]
      · simp only [Msg.Wiped, h.tcode]
        exact ⟨h.rest.2.1, fun hne => h.rest.2.2 (h.rest.1 ▸ hne)⟩
    by_cases h1 : c = 1
    · rw [show decide (c = 1) = true by simpa using h1, Proc.when_true]
      refine Proc.Post.bind (Q := fun _ => Behind total (fun m => headLayout hwcfg m ++ [.field 4 0] ++ [.field 2 0] ++ reqTokens m.icnt.toNat ++
          reqTokens m.hist.toNat) (Begins hwcfg .ProgTraceCorrelation fun m => m.cdf = c ∧ m.hrepeat = 0 ∧ (c ≠ 1 → m.hist = 0)))
        (yields_consume.bind fun _ => yields_req fun m v k h h0 hv hv64 => ⟨⟨h.tcode, h.timestamp, h.src, h.rest.1, h.rest.2.1,
          fun hne => absurd h1 hne⟩, .req h0 (ofNat32_lt hv) (ofNat32_lt_64 v) rfl⟩) fun _ => ?_
      rw [show decide (c = 1) = true by simpa using h1] at hfin
      exact hfin
    · rw [show decide (c = 1) = false by simpa using h1, Proc.when_false]
      rw [show decide (c = 1) = false by simpa using h1] at hfin
      refine Proc.Post.bind (Q := fun _ => _) (Proc.post_pure fun s hs => ?_) fun _ => hfin
      exact hs.mono fun h => ⟨by rw [Token.opt, if_neg Bool.false_ne_true, List.append_nil], h.tcode, h.timestamp, h.src, h.rest.1, h.rest.2.1,
        fun _ => h.rest.2.2⟩
  refine Proc.Post.bind (Q := fun _ => Inside total (headLayout hwcfg) (Begins hwcfg .ProgTraceCorrelation fun m => m.hrepeat = 0 ∧ m.hist = 0))
    (yields_reset (fun _ => rfl) fun _ _ => ⟨rfl, rfl⟩) fun _ => ?_
  refine (yields_fixed (Q := Begins hwcfg .ProgTraceCorrelation fun m => m.hrepeat = 0 ∧ m.hist = 0) (V := fun m => headLayout hwcfg m ++ [.field 4 0])
    fun m v h _ => ⟨⟨h.tcode, h.timestamp, h.src, h.rest⟩, 0, rfl⟩).bind fun _ => ?_
  refine (yields_fixed (Q := Begins hwcfg .ProgTraceCorrelation fun m => m.hrepeat = 0 ∧ m.hist = 0)
    (V := fun m => headLayout hwcfg m ++ [.field 4 0] ++ [.field 2 0])
    fun m v h _ => ⟨⟨h.tcode, h.timestamp, h.src, h.rest⟩, 0, rfl⟩).bind fun _ => ?_
  refine (yields_var_req (Q := Begins hwcfg .ProgTraceCorrelation fun m => m.hrepeat = 0 ∧ m.hist = 0)
    (V := fun m => headLayout hwcfg m ++ [.field 4 0] ++ [.field 2 0] ++ reqTokens m.icnt.toNat)
    fun m v k h h0 hv hv64 => ⟨⟨h.tcode, h.timestamp, h.src, h.rest⟩, .req h0 (ofNat32_lt hv) (ofNat32_lt_64 v) rfl⟩).bind fun _ => ?_
  refine Proc.Post.get_bind fun s hs => Proc.Post.mono (hrest s.msg.cdf) (fun u hu => ?_) fun _ _ h => h
  rw [hu]
  exact ⟨hs.room, hs.msg.tcode, hs.msg.timestamp, hs.msg.src, rfl, hs.msg.rest.1, hs.msg.rest.2⟩

theorem head_ckdata0 (v : Nat) (m : Msg) : headLayout hwcfg (m.set_ckdata0 v) = headLayout hwcfg m := by
  simp only [headLayout, Msg.set_ckdata0]

/-- CKDATA1 is only measured where the decoder reads it. -/
theorem yields_ict : Yields (Inside total (headLayout hwcfg) (Begins hwcfg .ICT fun _ => True)) (decode_rest hwcfg .ICT)
    (fun s => s.msg.tcode = .ICT ∧ (0 < s.msg.ckdf → Behind total (restTokens hwcfg) (Completed hwcfg .ICT Msg.Wiped) s)) := by
  have hrest : ∀ c, Yields (Behind total (fun m => headLayout hwcfg m ++ [.field 4 0] ++ [.field 2 0] ++ reqTokens m.ckdata0)
        (Begins hwcfg .ICT fun m => m.ckdf = c))
      (Proc.when (c > 0) (do CONSUME_BYTES; let _ ← UNPACK_VAR_REQ Msg.set_ckdata1) >>= fun _ => finished_common hwcfg)
      (fun s => s.msg.tcode = .ICT ∧ (0 < s.msg.ckdf → Behind total (restTokens hwcfg) (Completed hwcfg .ICT Msg.Wiped) s)) := by
    intro c
    by_cases hc : c > 0
    · rw [show decide (c > 0) = true by simpa using hc, Proc.when_true]
      refine Proc.Post.bind (Q := fun _ => Behind total (fun m => headLayout hwcfg m ++ [.field 4 0] ++ [.field 2 0] ++ reqTokens m.ckdata0 ++
          reqTokens m.ckdata1.toNat) (Begins hwcfg .ICT fun _ => True)) (yields_consume.bind fun _ => yields_req fun m v k h h0 hv hv64 =>
        ⟨⟨h.tcode, h.timestamp, h.src, trivial⟩, .req h0 (ofNat64_lt hv) (UInt64.toNat_lt _) rfl⟩) fun _ => ?_
      refine Proc.Post.mono (yields_finished (W := fun _ => True) (fun _ _ => rfl) fun _ _ h => h) (fun _ hs => hs) fun _ s hs =>
        ⟨hs.msg.tcode, fun _ => hs.mono fun h => ⟨?_, h.tcode, h.timestamp, h.src, ?_⟩⟩
      · simp only [restTokens, restLayout, h.tcode]
        simp only [span_append, span]
      · simp only [Msg.Wiped, h.tcode]
    · rw [show decide (c > 0) = false by simpa using hc, Proc.when_false]
      refine Proc.Post.bind (Q := fun _ => Behind total (fun m => headLayout hwcfg m ++ [.field 4 0] ++ [.field 2 0] ++ reqTokens m.ckdata0)
        (Begins hwcfg .ICT fun m => m.ckdf = c)) (Proc.post_pure fun s hs => hs) fun _ => ?_
      exact Proc.Post.mono (yields_finished (W := fun m => m.ckdf = c) (fun _ _ => rfl) fun _ _ h => h) (fun _ hs => hs) fun _ s hs =>
        ⟨hs.msg.tcode, fun hpos => absurd (hs.msg.rest ▸ hpos) hc⟩
  refine (yields_fixed (V := fun m => headLayout hwcfg m ++ [.field 4 0]) fun m v h _ => ⟨h.set_bits _ _ _, 0, rfl⟩).bind fun _ => ?_
  refine (yields_fixed (V := fun m => headLayout hwcfg m ++ [.field 4 0] ++ [.field 2 0])
    fun m v h _ => ⟨h.set_bits _ _ _, 0, rfl⟩).bind fun _ => ?_
  refine (yields_var_req (Q := Begins hwcfg .ICT fun _ => True)
    (V := fun m => headLayout hwcfg m ++ [.field 4 0] ++ [.field 2 0] ++ reqTokens m.ckdata0) fun m v k h h0 hv hv64 =>
    ⟨⟨h.tcode, h.timestamp, h.src, trivial⟩, .req h0 hv hv64 (by rw [ckdata0_set hv64, head_ckdata0])⟩).bind fun _ => ?_
  refine Proc.Post.get_bind fun s hs => Proc.Post.mono (hrest s.msg.ckdf) (fun u hu => ?_) fun _ _ h => h
  rw [hu]
  exact ⟨hs.room, hs.msg.tcode, hs.msg.timestamp, hs.msg.src, rfl⟩

theorem yields_resource : Yields (Inside total (headLayout hwcfg) (Begins hwcfg .ResourceFull fun _ => True)) (decode_rest hwcfg .ResourceFull)
    (Behind total (restTokens hwcfg) (Completed hwcfg .ResourceFull Msg.Wiped)) := by
  -- `vs` is the layout behind RCODE `c`
  have hfin : ∀ (c : Nat) (vs : Msg → List Token) (W : Msg → Prop), (∀ m v, vs (m.set_timestamp v) = vs m) → (∀ m v, W m → W (m.set_timestamp v)) →
      (∀ m, W m → m.tcode = .ResourceFull → m.res_code = c ∧ m.Wiped ∧ restLayout m = [.field 4 c] ++ vs m) →
      Yields (Behind total (fun m => headLayout hwcfg m ++ [.field 4 0] ++ vs m) (Begins hwcfg .ResourceFull W)) (finished_common hwcfg)
        (Behind total (restTokens hwcfg) (Completed hwcfg .ResourceFull Msg.Wiped)) := by
    intro c vs W hvs hW hlay
    refine Proc.Post.mono (yields_finished (W := W) (fun m v => by rw [hvs]; rfl) hW) (fun _ hs => hs) fun _ s hs => hs.mono fun h => ?_
    obtain ⟨-, hwiped, hrest⟩ := hlay _ h.rest h.tcode
    refine ⟨?_, h.tcode, h.timestamp, h.src, hwiped⟩
    simp only [restTokens, hrest]
    simp only [span_append, span]
  refine (yields_fixed (V := fun m => headLayout hwcfg m ++ [.field 4 0]) fun m v h _ => ⟨h.set_bits _ _ _, 0, rfl⟩).bind fun _ => ?_
  refine Proc.Post.get_bind fun s hs => ?_
  generalize hc : s.msg.res_code = c
  have hstart : Inside total (fun m => headLayout hwcfg m ++ [.field 4 0]) (Begins hwcfg .ResourceFull fun m => m.res_code = c) s :=
    ⟨hs.off, hs.room, hs.msg.tcode, hs.msg.timestamp, hs.msg.src, hc⟩
  refine Proc.Post.mono (P := Inside total (fun m => headLayout hwcfg m ++ [.field 4 0]) (Begins hwcfg .ResourceFull fun m => m.res_code = c))
    ?_ (fun u hu => hu ▸ hstart) fun _ _ h => h
  by_cases hgt : c > 2
  · rw [if_pos hgt]
    refine Proc.Post.bind (Q := fun _ => Behind total (fun m => headLayout hwcfg m ++ [.field 4 0] ++ varTokens m.res_data.toNat)
      (Begins hwcfg .ResourceFull fun m => m.res_code = c)) ((yields_var fun m v k h hv hv64 =>
        ⟨⟨h.tcode, h.timestamp, h.src, h.rest⟩, .var (ofNat32_lt hv) (ofNat32_lt_64 v) rfl⟩).bind fun _ => Proc.post_pure fun _ h => h) fun _ => ?_
    refine hfin c (fun m => varTokens m.res_data.toNat) _ (fun _ _ => rfl) (fun _ _ h => h) fun m h ht => ⟨h, ?_, ?_⟩
    · simp only [Msg.Wiped, ht, h]
      omega
    · simp only [restLayout, ht, h, if_pos hgt]
  · rw [if_neg hgt]
    have hone : ∀ (vs : Msg → List Token) (W : Msg → Prop) {x : Dec Unit} {U : Msg → Prop}, (∀ m v, vs (m.set_timestamp v) = vs m) →
        (∀ m v, W m → W (m.set_timestamp v)) →
        (∀ m, W m → m.tcode = .ResourceFull → m.res_code = c ∧ m.Wiped ∧ restLayout m = [.field 4 c] ++ vs m) →
        (∀ m : Msg, m.res_code = c → U (((m.set_icnt 0).set_hist 0).set_hrepeat 0)) →
        Yields (Inside total (fun m => headLayout hwcfg m ++ [.field 4 0]) (Begins hwcfg .ResourceFull U)) x
          (Behind total (fun m => headLayout hwcfg m ++ [.field 4 0] ++ vs m) (Begins hwcfg .ResourceFull W)) →
        Yields (Inside total (fun m => headLayout hwcfg m ++ [.field 4 0]) (Begins hwcfg .ResourceFull fun m => m.res_code = c))
          ((do reset_counts; x) >>= fun _ => finished_common hwcfg) (Behind total (restTokens hwcfg) (Completed hwcfg .ResourceFull Msg.Wiped)) :=
      fun vs W x U hvs hW hlay hU hx => Proc.Post.bind ((yields_reset (fun _ => rfl) hU).bind fun _ => hx) fun _ => hfin c vs W hvs hW hlay
    rcases c with _ | _ | _ | c
    · refine hone (fun m => reqTokens m.icnt.toNat) (fun m => m.res_code = 0 ∧ m.hist = 0 ∧ m.hrepeat = 0)
        (U := fun m => m.res_code = 0 ∧ m.hist = 0 ∧ m.hrepeat = 0) (fun _ _ => rfl) (fun _ _ h => h) (fun m h ht => ⟨h.1, ?_, ?_⟩)
        (fun m h => ⟨h, rfl, rfl⟩) (yields_req fun m v k h h0 hv hv64 =>
          ⟨⟨h.tcode, h.timestamp, h.src, h.rest⟩, .req h0 (ofNat32_lt hv) (ofNat32_lt_64 v) rfl⟩)
      · simp only [Msg.Wiped, ht, h]
        simp
      · simp only [restLayout, ht, h.1]
        rfl
    · refine hone (fun m => reqTokens m.hist.toNat) (fun m => m.res_code = 1 ∧ m.icnt = 0 ∧ m.hrepeat = 0)
        (U := fun m => m.res_code = 1 ∧ m.icnt = 0 ∧ m.hrepeat = 0) (fun _ _ => rfl) (fun _ _ h => h) (fun m h ht => ⟨h.1, ?_, ?_⟩)
        (fun m h => ⟨h, rfl, rfl⟩) (yields_req fun m v k h h0 hv hv64 =>
          ⟨⟨h.tcode, h.timestamp, h.src, h.rest⟩, .req h0 (ofNat32_lt hv) (ofNat32_lt_64 v) rfl⟩)
      · simp only [Msg.Wiped, ht, h]
        simp
      · simp only [restLayout, ht, h.1]
        rfl
    · refine hone (fun m => reqTokens m.hist.toNat ++ reqTokens m.hrepeat.toNat) (fun m => m.res_code = 2 ∧ m.icnt = 0)
        (U := fun m => m.res_code = 2 ∧ m.icnt = 0) (fun _ _ => rfl) (fun _ _ h => h) (fun m h ht => ⟨h.1, ?_, ?_⟩)
        (fun m h => ⟨h, rfl⟩) ?_
      · simp only [Msg.Wiped, ht, h]
        simp
      · simp only [restLayout, ht, h.1]
        rfl
      · refine Proc.Post.bind (Q := fun _ => Behind total (fun m => headLayout hwcfg m ++ [.field 4 0] ++ reqTokens m.hist.toNat)
          (Begins hwcfg .ResourceFull fun m => m.res_code = 2 ∧ m.icnt = 0)) (yields_var_req fun m v k h h0 hv hv64 =>
            ⟨⟨h.tcode, h.timestamp, h.src, h.rest⟩, .req h0 (ofNat32_lt hv) (ofNat32_lt_64 v) rfl⟩) fun _ => ?_
        refine yields_consume.bind fun _ => yields_req fun m v k h h0 hv hv64 =>
          ⟨⟨h.tcode, h.timestamp, h.src, h.rest⟩, .req h0 (ofNat32_lt hv) (ofNat32_lt_64 v) (List.append_assoc _ _ _).symm⟩
    · omega

/-- The branch and sync messages. -/
theorem yields_common (hc : common_tcode { Msg.zero with tcode := t } = true) :
    Yields (Inside total (headLayout hwcfg) (Begins hwcfg t fun _ => True)) (do decode_common hwcfg; finished_common hwcfg)
      (Behind total (fun m => headLayout hwcfg m ++ commonLayout hwcfg m ++ timestampLayout hwcfg m) (Completed hwcfg t Msg.Wiped)) := by
  refine Proc.Post.bind (Q := fun _ => Behind total (fun m => headLayout hwcfg m ++ commonLayout hwcfg m) (Begins hwcfg t fun m => m.hrepeat = 0)) ?_
    fun _ => ?_
  · refine Proc.Post.get_bind fun s hs => ?_
    -- what is optional depends on the TCODE only
    have hsame : ∀ {W : Msg → Prop} {m : Msg}, Begins hwcfg t W m → msg_is_sync m = msg_is_sync s.msg ∧ msg_is_indir_branch m = msg_is_indir_branch s.msg ∧
        msg_has_xaddr m = msg_has_xaddr s.msg := fun h => by
      simp only [msg_is_sync, msg_is_indir_branch, msg_has_xaddr, h.tcode, hs.msg.tcode, and_self]
    have hhist : ∀ {W : Msg → Prop} {m : Msg}, Begins hwcfg t W m → msg_has_hist m = msg_has_hist s.msg := fun h => by
      cases ht : t <;> simp [common_tcode, ht] at hc <;> simp [msg_has_hist, h.tcode, hs.msg.tcode, ht]
    have hend : ∀ u, Behind total (fun m => headLayout hwcfg m ++ Token.opt (msg_is_sync s.msg) [.field 4 0] ++
        Token.opt (msg_is_indir_branch s.msg) [.field 2 0] ++ reqTokens m.icnt.toNat ++
        Token.opt (msg_has_xaddr s.msg) (xaddrTokens hwcfg.VAO m.xaddr.toNat) ++ Token.opt (msg_has_hist s.msg) (reqTokens m.hist.toNat))
        (Begins hwcfg t fun m => m.hrepeat = 0) u → Behind total (fun m => headLayout hwcfg m ++ commonLayout hwcfg m)
        (Begins hwcfg t fun m => m.hrepeat = 0) u := by
      refine fun u hu => hu.mono fun h => ⟨?_, h⟩
      obtain ⟨h1, h2, h3⟩ := hsame h
      simp only [commonLayout, h1, h2, h3, hhist h, span_append]
      cases msg_is_sync s.msg <;> cases msg_is_indir_branch s.msg <;> rfl
    refine Proc.Post.mono (P := Inside total (headLayout hwcfg) (Begins hwcfg t fun _ => True)) ?_ (fun u hu => hu ▸ hs) fun _ => hend
    refine Proc.Post.bind (Q := fun _ => Inside total (fun m => headLayout hwcfg m ++ Token.opt (msg_is_sync s.msg) [.field 4 0])
      (Begins hwcfg t fun _ => True)) (yields_opt_inside (G := fun _ => [.field 4 0]) _ (yields_fixed
        fun m v h _ => ⟨h.set_bits _ _ _, 0, rfl⟩)) fun _ => ?_
    refine Proc.Post.bind (Q := fun _ => Inside total (fun m => headLayout hwcfg m ++ Token.opt (msg_is_sync s.msg) [.field 4 0] ++
      Token.opt (msg_is_indir_branch s.msg) [.field 2 0]) (Begins hwcfg t fun _ => True)) (yields_opt_inside (G := fun _ => [.field 2 0]) _
        (yields_fixed fun m v h _ => ⟨h.set_bits _ _ _, 0, rfl⟩)) fun _ => ?_
    refine Proc.Post.bind (Q := fun _ => Inside total (fun m => headLayout hwcfg m ++ Token.opt (msg_is_sync s.msg) [.field 4 0] ++
      Token.opt (msg_is_indir_branch s.msg) [.field 2 0]) (Begins hwcfg t fun _ => True)) (Proc.post_assert fun _ h _ => h) fun _ => ?_
    refine Proc.Post.bind (Q := fun _ => Inside total (fun m => headLayout hwcfg m ++ Token.opt (msg_is_sync s.msg) [.field 4 0] ++
      Token.opt (msg_is_indir_branch s.msg) [.field 2 0]) (Begins hwcfg t fun m => m.hrepeat = 0))
      (yields_store (fun m => m.set_hrepeat 0) fun m h => ⟨rfl, h.tcode, h.timestamp, h.src, rfl⟩) fun _ => ?_
    refine Proc.Post.bind (Q := fun _ => Behind total (fun m => headLayout hwcfg m ++ Token.opt (msg_is_sync s.msg) [.field 4 0] ++
      Token.opt (msg_is_indir_branch s.msg) [.field 2 0] ++ reqTokens m.icnt.toNat) (Begins hwcfg t fun m => m.hrepeat = 0))
      (yields_var_req fun m v k h h0 hv hv64 => ⟨⟨h.tcode, h.timestamp, h.src, h.rest⟩, .req h0 (ofNat32_lt hv) (ofNat32_lt_64 v) rfl⟩) fun _ => ?_
    refine (yields_opt (G := fun m => xaddrTokens hwcfg.VAO m.xaddr.toNat) _ ?_).bind fun _ => yields_opt (G := fun m => reqTokens m.hist.toNat) _ ?_
    · cases hv : hwcfg.VAO with
      | true =>
        refine yields_consume_starts.bind fun _ => yields_xaddr_vao fun m x h hx => ⟨⟨h.tcode, h.timestamp, h.src, h.rest⟩, ?_⟩
        have hxaddr : (Msg.set_xaddr x m).xaddr.toNat = x := UInt64.toNat_ofNat_of_lt' hx
        rw [hxaddr]
        rfl
      | false =>
        exact yields_consume.bind fun _ => yields_req fun m v k h h0 hv hv64 =>
          ⟨⟨h.tcode, h.timestamp, h.src, h.rest⟩, .req h0 (ofNat64_lt hv) (UInt64.toNat_lt _) rfl⟩
    · exact yields_consume.bind fun _ => yields_req fun m v k h h0 hv hv64 =>
        ⟨⟨h.tcode, h.timestamp, h.src, h.rest⟩, .req h0 (ofNat32_lt hv) (ofNat32_lt_64 v) rfl⟩
  · refine Proc.Post.mono (yields_finished (W := fun m => m.hrepeat = 0) (fun _ _ => rfl) fun _ _ h => h) (fun _ hs => hs) fun _ s hs =>
      hs.mono fun h => ⟨rfl, h.tcode, h.timestamp, h.src, ?_⟩
    cases ht : t <;> simp [common_tcode, ht] at hc <;> simp [Msg.Wiped, h.tcode, ht, h.rest]

/-- The messages that the encoder writes as the decoder reads them. -/
def recodable (m : Msg) : Bool := encodable m && (m.tcode ≠ .ICT || m.ckdf > 0)

/-- What is known behind a decoded message. -/
def Decodable (hwcfg : HwCfg) (total : Nat) (s : DecState) : Prop :=
  recodable s.msg = true → Behind total (layout hwcfg) (fun m => (m.tcode ≠ .Idle → m.src.toNat < 2 ^ hwcfg.src_bits) ∧
    (hwcfg.ts_bits = 0 ∨ m.tcode = .Idle → m.timestamp = 0) ∧ m.Wiped) s

theorem Behind.decodable {s : DecState} {W : Msg → Prop} (h : Behind total ts (Completed hwcfg t W) s) (hidle : t ≠ .Idle) (hW : W s.msg → s.msg.Wiped)
    (hlay : span 0 (layout hwcfg s.msg) = span 0 (ts s.msg)) : Decodable hwcfg total s := by
  refine fun _ => h.mono fun hm => ⟨hlay, fun _ => hm.src, fun hz => hm.timestamp ?_, hW hm.rest⟩
  exact hz.resolve_right fun hi => hidle (hm.tcode.symm.trans hi)

theorem layout_rest {m : Msg} (hc : common_tcode m = false) (hidle : m.tcode ≠ .Idle) : layout hwcfg m = restTokens hwcfg m := by
  simp [layout, bodyLayout, restTokens, headLayout, hc, hidle, Token.opt]

theorem yields_rest (hidle : t ≠ .Idle) (hc : common_tcode { Msg.zero with tcode := t } = false) :
    Yields (Inside total (headLayout hwcfg) (Begins hwcfg t fun _ => True)) (decode_rest hwcfg t) (Decodable hwcfg total) := by
  have hrest : ∀ {s : DecState} {W : Msg → Prop}, Behind total (restTokens hwcfg) (Completed hwcfg t W) s → (W s.msg → s.msg.Wiped) →
      Decodable hwcfg total s := fun hs hW => by
    have htc := hs.msg.tcode
    refine hs.decodable hidle hW ?_
    rw [layout_rest _ (htc ▸ hidle)]
    rw [← hc]
    simp only [common_tcode, htc]
  cases ht : t with
  | Ownership =>
    subst ht
    exact Proc.Post.mono yields_ownership (fun _ hs => hs) fun _ s hs => hrest hs fun _ => by simp [Msg.Wiped, hs.msg.tcode]
  | Error =>
    subst ht
    exact Proc.Post.mono yields_error (fun _ hs => hs) fun _ s hs => hrest hs fun _ => by simp [Msg.Wiped, hs.msg.tcode]
  | RepeatBranch =>
    subst ht
    exact Proc.Post.mono yields_repeat (fun _ hs => hs) fun _ s hs => hrest hs fun _ => by simp [Msg.Wiped, hs.msg.tcode]
  | ResourceFull =>
    subst ht
    exact Proc.Post.mono yields_resource (fun _ hs => hs) fun _ s hs => hrest hs id
  | DataAcquisition =>
    subst ht
    refine Proc.Post.mono yields_data_acq (fun _ hs => hs) fun _ s hs hrec => ?_
    simp [recodable, encodable, hs] at hrec
  | ProgTraceCorrelation =>
    subst ht
    refine Proc.Post.mono yields_correlation (fun _ hs => hs) fun _ s hs hrec => ?_
    have hcdf : s.msg.cdf < 2 := by simpa [recodable, encodable, msg_known, hs.1] using hrec
    exact hrest (hs.2 hcdf) id hrec
  | ICT =>
    subst ht
    refine Proc.Post.mono yields_ict (fun _ hs => hs) fun _ s hs hrec => ?_
    have hckdf : 0 < s.msg.ckdf := by
      simp [recodable, hs.1] at hrec
      exact hrec.2
    exact hrest (hs.2 hckdf) id hrec
  | Idle => exact absurd ht hidle
  | DirectBranch | DirectBranchSync | IndirectBranch | IndirectBranchSync | IndirectBranchHist | IndirectBranchHistSync
  | ProgTraceSync => simp [common_tcode, ht] at hc
  | other c hlt hne =>
    subst ht
    refine Proc.Post.mono (P := Behind total (headLayout hwcfg) (Begins hwcfg (.other c hlt hne) fun _ => True)) yields_consume_rest
      (fun s hs => hs.behind) fun _ s hs hrec => ?_
    simp [recodable, encodable, msg_known, hs.msg.tcode] at hrec

theorem yields_body (hidle : t ≠ .Idle) :
    Yields (Inside total (fun m => [.field 6 m.tcode.code]) fun m => m.tcode = t ∧ m.timestamp = 0) (decode_body hwcfg) (Decodable hwcfg total) := by
  refine Proc.Post.bind (Q := fun _ => Inside total (fun m => [.field 6 m.tcode.code]) fun m => m.tcode = t ∧ m.timestamp = 0 ∧ m.src = 0)
    (yields_store (fun m => m.set_src 0) fun m h => ⟨rfl, h.1, h.2, rfl⟩) fun _ => ?_
  refine Proc.Post.bind (Q := fun _ => Inside total (headLayout hwcfg) (Begins hwcfg t fun _ => True)) ?_ fun _ => ?_
  · by_cases h0 : hwcfg.src_bits = 0
    · rw [show decide (hwcfg.src_bits ≠ 0) = false by simp [h0], Proc.when_false]
      refine Proc.post_pure fun s hs => ⟨hs.off, ?_, hs.msg.1, hs.msg.2.1, ?_, trivial⟩
      · rw [show headLayout hwcfg s.msg = [.field 6 s.msg.tcode.code] by simp [headLayout, h0, Token.opt]]
        exact hs.room
      · rw [hs.msg.2.2, h0]
        exact Nat.one_pos
    · rw [show decide (hwcfg.src_bits ≠ 0) = true by simpa using h0, Proc.when_true]
      refine yields_fixed fun m v h hv => ⟨⟨h.1, h.2.1, ?_, trivial⟩, (UInt16.ofNat v).toNat, ?_⟩
      · simp only [Msg.set_src, UInt16.toNat_ofNat']
        exact Nat.lt_of_le_of_lt (Nat.mod_le _ _) hv
      · simp [headLayout, h0, Token.opt, Msg.set_src]
  · refine Proc.Post.get_bind fun s hs => ?_
    have hc : common_tcode s.msg = common_tcode { Msg.zero with tcode := t } := by simp only [common_tcode, hs.msg.tcode]
    refine Proc.Post.mono (P := Inside total (headLayout hwcfg) (Begins hwcfg t fun _ => True)) ?_ (fun u hu => hu ▸ hs) fun _ _ h => h
    refine Proc.Post.ite (fun h => ?_) fun h => ?_
    · have ht := hc.symm.trans h
      refine Proc.Post.mono (yields_common ht) (fun _ hs => hs) fun _ u hu => hu.decodable hidle id ?_
      have hcu : common_tcode u.msg = true := by
        rw [← ht]
        simp only [common_tcode, hu.msg.tcode]
      have hne : u.msg.tcode ≠ .Idle := fun hi => hidle (hu.msg.tcode.symm.trans hi)
      simp [layout, bodyLayout, headLayout, hcu, hne, Token.opt]
    · rw [hs.msg.tcode]
      exact yields_rest hidle (hc.symm.trans (Bool.eq_false_of_not_eq_true h))

theorem yields_decode : Yields (Behind total (fun _ => []) fun _ => True) (decode_msg hwcfg) (Decodable hwcfg total) := by
  refine Proc.Post.bind (Q := fun _ => Behind total (fun _ => []) fun m => m.timestamp = 0)
    (Proc.post_modify fun s hs => ⟨hs.room, rfl⟩) fun _ => yields_consume.bind fun _ => ?_
  refine Proc.Post.bind (Q := fun _ => Inside total (fun m => [.field 6 m.tcode.code]) fun m => m.timestamp = 0)
    (yields_fixed fun m v h _ => ⟨h, _, rfl⟩) fun _ => ?_
  refine Proc.Post.get_bind fun s hs => Proc.Post.ite (fun hidle => ?_) fun hidle => ?_
  · refine Proc.Post.ite (fun _ => Proc.post_fail fun _ _ => trivial) fun _ => Proc.post_pure fun u hu _ => ?_
    rw [hu]
    refine hs.behind.mono fun h => ⟨by simp [layout, hidle, Token.opt], fun hne => absurd hidle hne, fun _ => h, ?_⟩
    simp [Msg.Wiped, hidle]
  · refine Proc.Post.mono (yields_body (t := s.msg.tcode) hidle) (fun u hu => ?_) fun _ _ h => h
    rw [hu]
    exact ⟨hs.off, hs.room, rfl, hs.msg⟩

end Messages

/-! ## Encoding a decoded message -/

/-- What is known of a message that was decoded from `n` bytes. -/
theorem decoded_fits {hwcfg : HwCfg} {bs : List UInt8} {m₀ m : Msg} {n : Nat} (h : msg_decode hwcfg bs m₀ = some (.ok n, m))
    (hrec : recodable m = true) : (frame (groups (layout hwcfg m))).length ≤ n ∧ (m.tcode ≠ .Idle → m.src.toNat < 2 ^ hwcfg.src_bits) ∧
      (hwcfg.ts_bits = 0 ∨ m.tcode = .Idle → m.timestamp = 0) ∧ m.Wiped := by
  obtain ⟨⟨r, s⟩, hrun, heq⟩ := Option.map_eq_some_iff.1 h
  rcases r with e | ⟨⟨⟩⟩
  · cases heq
  obtain ⟨hn, rfl⟩ : bs.length - s.buffer.length = n ∧ s.msg = m := by simpa [Except.map] using heq
  have hstart : Behind bs.length (fun _ => []) (fun _ => True) ⟨[], bs, 0, false, m₀⟩ := ⟨by simp [span], trivial⟩
  have hend := (yields_decode _ hstart).1 () s hrun hrec
  have hroom := hend.room
  have hlen := (groupBytes_length (layout hwcfg s.msg)).1
  rw [bitLen_eq_span] at hlen
  refine ⟨?_, hend.msg⟩
  rw [frame, endMark_length]
  omega

/-- The fields that a message carries, and those that are cleared, make it. -/
theorem Msg.Same.of_carried {a b : Msg} (ht : a.tcode = b.tcode) (hts : a.timestamp = b.timestamp) (hc : a.carried = b.carried) (ha : a.Wiped)
    (hb : b.Wiped) : a.Same b := by
  refine ⟨ht, hts, hc, ?_⟩
  cases htc : b.tcode with
  | ResourceFull =>
    simp only [Msg.carried, Msg.Wiped, Msg.cleared, ht, htc, List.cons.injEq] at hc ha hb ⊢
    obtain ⟨-, hrc, hc⟩ := hc
    rw [hrc] at hc ha ⊢
    rcases hb0 : b.res_code with _ | _ | _ | c <;> rw [hb0] at hc ha hb
    · simp_all
    · simp_all
    · simp_all
    · simp
  | ProgTraceCorrelation =>
    simp only [Msg.carried, Msg.Wiped, Msg.cleared, ht, htc, List.cons.injEq] at hc ha hb ⊢
    obtain ⟨-, -, hcdf, -, hc⟩ := hc
    rw [hcdf] at hc ha
    by_cases h1 : b.cdf = 1
    · simp_all
    · rw [ha.1, hb.1, ha.2 h1, hb.2 h1]
      exact ⟨rfl, rfl, trivial⟩
  | DirectBranch | DirectBranchSync | IndirectBranch | IndirectBranchSync | IndirectBranchHist | IndirectBranchHistSync | ProgTraceSync =>
    simp only [Msg.Wiped, Msg.cleared, ht, htc] at ha hb ⊢
    rw [ha, hb]
  | _ => simp only [Msg.cleared, ht, htc]

theorem recodable_of_carried {a b : Msg} (ht : a.tcode = b.tcode) (hc : a.carried = b.carried) : recodable a = recodable b := by
  cases htc : b.tcode with
  | ProgTraceCorrelation =>
    simp only [Msg.carried, ht, htc, List.cons.injEq] at hc
    simp [recodable, encodable, msg_known, ht, htc, hc.2.2.1]
  | ICT =>
    simp only [Msg.carried, ht, htc, List.cons.injEq] at hc
    simp [recodable, encodable, msg_known, ht, htc, hc.2.1, hc.2.2.1]
  | _ => simp [recodable, encodable, msg_known, ht, htc]

section Encode
variable {hwcfg : HwCfg} {m : Msg}

/-- An Idle message is one byte. -/
theorem msg_decode_idle_byte (hwcfg : HwCfg) (rest : List UInt8) (m : Msg) : msg_decode hwcfg (0xff :: rest) m =
    some (.ok 1, { m with timestamp := 0, tcode := .Idle }) := by
  have hcode : unpack_bits [0xff] 0 6 = 63 := by decide
  have hmseo : mseo 0xff = 3 := by decide
  have htc : Tcode.ofNat 63 = .Idle := rfl
  simp [msg_decode, decode_msg, CONSUME_BYTES, UNPACK_FIXED, consume_bytes, hmseo, hcode, htc, Msg.set_timestamp, Msg.set_tcode, Except.map]

theorem frame_idle (hidle : m.tcode = .Idle) : frame (groups (layout hwcfg m)) = [0xff] := by
  have hlay : layout hwcfg m = [.field 6 63] := by simp [layout, hidle, Token.opt, Tcode.code]
  rw [hlay]
  decide

/-- The fields of a message that fits come back. -/
theorem carried_back {buffer buffer' : List UInt8} {limit n : Nat} (hlim : limit ≤ buffer.length) (hsrc : hwcfg.src_bits ≤ 16) (hrec : recodable m = true)
    (hfit : m.tcode ≠ .Idle → m.src.toNat < 2 ^ hwcfg.src_bits) (hts : hwcfg.ts_bits = 0 ∨ m.tcode = .Idle → m.timestamp = 0)
    (h : msg_encode hwcfg buffer limit m = some (.ok n, buffer')) (rest : List UInt8) (m₀ : Msg) :
    ∃ m', msg_decode hwcfg (buffer'.take n ++ rest) m₀ = some (.ok n, m') ∧ m'.tcode = m.tcode ∧ m'.timestamp = m.timestamp ∧
      m'.carried = m.carried := by
  have henc : encodable m = true := (Bool.and_eq_true_iff.1 hrec).1
  by_cases hidle : m.tcode = .Idle
  · obtain ⟨hn, hbuf⟩ := msg_encode_take hlim henc h
    rw [frame_idle hidle] at hn hbuf
    rw [hbuf, ← hn]
    refine ⟨_, msg_decode_idle_byte hwcfg rest m₀, hidle.symm, (hts (.inr hidle)).symm, ?_⟩
    simp only [Msg.carried, hidle]
  · by_cases hict : m.tcode = .ICT
    · obtain ⟨m', hdec, hhead, hc1, htime⟩ := ict_decode_encode hlim hsrc hict h rest m₀
      have hckdf : 0 < m.ckdf := by
        simp [recodable, hict] at hrec
        exact hrec.2
      refine ⟨m', hdec, hhead.tcode.trans hict.symm, ?_, ?_⟩
      · rw [htime, ict_timestamp]
        split
        · exact (hts (.inl ‹_›)).symm
        · rw [if_neg fun hz => Nat.ne_of_gt hckdf hz.1]
      · have hs := hhead.src
        rw [Nat.mod_eq_of_lt (hfit hidle)] at hs
        simp only [Msg.carried, hhead.tcode, hict, hs, hhead.cksrc, hhead.ckdf, hhead.ckdata0, hc1 (Nat.ne_of_gt hckdf)]
    · obtain ⟨m', hdec, htc, hcar, htime⟩ := msg_decode_encode hlim hsrc (hfit hidle) hict h rest m₀
      refine ⟨m', hdec, htc, htime.trans ?_, hcar⟩
      rw [sentTimestamp]
      split
      · exact (hts ‹_›).symm
      · rfl

/-- Decoding the bytes of an encoded message gives the message back, if it is one that is read as it is written. -/
theorem recoded {buffer buffer' : List UInt8} {limit n : Nat} (hlim : limit ≤ buffer.length) (hsrc : hwcfg.src_bits ≤ 16) (hrec : recodable m = true)
    (hfit : m.tcode ≠ .Idle → m.src.toNat < 2 ^ hwcfg.src_bits) (hts : hwcfg.ts_bits = 0 ∨ m.tcode = .Idle → m.timestamp = 0) (hw : m.Wiped)
    (h : msg_encode hwcfg buffer limit m = some (.ok n, buffer')) (rest : List UInt8) (m₀ : Msg) :
    ∃ m', msg_decode hwcfg (buffer'.take n ++ rest) m₀ = some (.ok n, m') ∧ m'.Same m := by
  obtain ⟨m', hdec, htc, htime, hcar⟩ := carried_back hlim hsrc hrec hfit hts h rest m₀
  have hrec' : recodable m' = true := (recodable_of_carried htc hcar).trans hrec
  obtain ⟨-, -, -, hw'⟩ := decoded_fits hdec hrec'
  exact ⟨m', hdec, .of_carried htc htime hcar hw' hw⟩

end Encode

/-! ## Decode, then encode -/

/-- The TCODEs the encoder has a case for, with what it supports of them. -/
def has_case (m : Msg) : Bool :=
  match m.tcode with
  | .DataAcquisition | .other .. => false
  | .ProgTraceCorrelation => m.cdf ≤ 1
  | .ICT => m.ckdf ≤ 1
  | _ => true

theorem recodable_of_case {m : Msg} (h : has_case m = true) (hict : m.tcode = .ICT → m.cksrc < 2 ∧ m.ckdf ≠ 0) : recodable m = true := by
  unfold has_case at h
  unfold recodable encodable msg_known
  cases ht : m.tcode with
  | ICT =>
    rw [ht] at h
    obtain ⟨hsrc, hckdf⟩ := hict ht
    have hle : m.ckdf ≤ 1 := by simpa using h
    simp [hsrc, hle, Nat.pos_of_ne_zero hckdf]
  | ProgTraceCorrelation =>
    rw [ht] at h
    have hle : m.cdf ≤ 1 := by simpa using h
    simp [Nat.lt_succ_of_le hle]
  | DataAcquisition | other => simp [ht] at h
  | _ => simp

/-- A message that was decoded from `n` bytes is encoded in at most `n` bytes, and decoding
these gives the same message. An ICT message with a CKSRC that is not known is rejected. -/
theorem msg_encode_decode {hwcfg : HwCfg} (hsrc : hwcfg.src_bits ≤ 16) {bs : List UInt8} {m₀ m : Msg} {n : Nat}
    (h : msg_decode hwcfg bs m₀ = some (.ok n, m)) (hcase : has_case m = true) (hckdf : m.tcode = .ICT → m.cksrc < 2 → m.ckdf ≠ 0)
    {buffer : List UInt8} (hlen : buffer.length = n) :
    if m.tcode = .ICT ∧ 2 ≤ m.cksrc then msg_encode hwcfg buffer n m = some (.error .msg_unsupported, buffer)
    else ∃ k buffer', msg_encode hwcfg buffer n m = some (.ok k, buffer') ∧ k ≤ n ∧ buffer'.drop k = buffer.drop k ∧
      ∀ rest m₁, ∃ m', msg_decode hwcfg (buffer'.take k ++ rest) m₁ = some (.ok k, m') ∧ m'.Same m := by
  split
  · rename_i hk
    have hlarge : ¬ m.cksrc < 2 := Nat.not_lt.2 hk.2
    have hknown : msg_known m = false := by simp only [msg_known, hk.1, hlarge, decide_false]
    simp [msg_encode, encode_msg, hknown]
  · rename_i hk
    have hrec : recodable m = true := recodable_of_case hcase fun ht => by
      have hlt : m.cksrc < 2 := Nat.lt_of_not_le fun hle => hk ⟨ht, hle⟩
      exact ⟨hlt, hckdf ht hlt⟩
    obtain ⟨hroom, hfit, hts, hw⟩ := decoded_fits h hrec
    have hspec := msg_encode_spec (Nat.le_of_eq hlen.symm) hwcfg m (Bool.and_eq_true_iff.1 hrec).1
    dsimp only at hspec
    rw [if_pos hroom] at hspec
    refine ⟨_, _, hspec, hroom, List.drop_left, fun rest m₁ => ?_⟩
    exact recoded (Nat.le_of_eq hlen.symm) hsrc hrec hfit hts hw hspec rest m₁

/-- A DirectBranch message whose I-CNT was padded is written in a byte less. -/
theorem msg_encode_decode_padded : let cfg : HwCfg := ⟨0, 0, 0, 0, 0, false, false, false⟩
    let m : Msg := { Msg.zero with tcode := .DirectBranch, icnt := 5 }
    if m.tcode = .ICT ∧ 2 ≤ m.cksrc then msg_encode cfg [0, 0, 0] 3 m = some (.error .msg_unsupported, [0, 0, 0])
    else ∃ k buffer', msg_encode cfg [0, 0, 0] 3 m = some (.ok k, buffer') ∧ k ≤ 3 ∧ buffer'.drop k = ([0, 0, 0] : List UInt8).drop k ∧
      ∀ rest m₁, ∃ m', msg_decode cfg (buffer'.take k ++ rest) m₁ = some (.ok k, m') ∧ m'.Same m :=
  have hdec : msg_decode ⟨0, 0, 0, 0, 0, false, false, false⟩ [0x0c, 0x14, 0x03] Msg.zero =
      some (.ok 3, { Msg.zero with tcode := .DirectBranch, icnt := 5 }) := by decide
  msg_encode_decode (by decide) hdec (by decide) (fun h => by cases h) rfl

/-- An ICT message with CKSRC 2 is decoded, but not encoded. -/
theorem decoded_ict_rejected : ¬ ∀ (hwcfg : HwCfg) (bs buffer : List UInt8) (m₀ m : Msg) (n : Nat), hwcfg.src_bits ≤ 16 →
    msg_decode hwcfg bs m₀ = some (.ok n, m) → has_case m = true → buffer.length = n →
      ∃ k buffer', msg_encode hwcfg buffer n m = some (.ok k, buffer') ∧
        ∃ m', msg_decode hwcfg (buffer'.take k) Msg.zero = some (.ok k, m') ∧ m'.Same m := by
  intro hall
  let m : Msg := { Msg.zero with tcode := .ICT, bits := 0x12, hist := 5, xaddr := 9 }
  have hdec : msg_decode ict_cfg [136, 72, 21, 39] Msg.zero = some (.ok 4, m) := by decide
  obtain ⟨k, buffer', henc, -⟩ := hall ict_cfg [136, 72, 21, 39] [0, 0, 0, 0] Msg.zero m 4 (by decide) hdec (by decide) rfl
  have hrej : (msg_encode ict_cfg [0, 0, 0, 0] 4 m).map (·.1) = some (.error .msg_unsupported) := by decide
  rw [henc] at hrej
  cases hrej

end nexusrv
