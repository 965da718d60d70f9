import NexusRv.DecodeLaws
/-!
# Framing

A successful decode consumes exactly the first frame of the buffer, and whatever
is returned, except that bytes are missing, is final: with more bytes behind the
buffer the decoder returns the same and leaves the same message.
-/

namespace nexusrv

/-! ## More bytes -/

/-- The same state, with `q` behind the buffer. -/
def DecState.more (q : List UInt8) (s : DecState) : DecState := { s with buffer := s.buffer ++ q }

/-- `x` finds that bytes are missing, or does the same with `q` behind the buffer. -/
def Steady (q : List UInt8) {α : Type} (x : Dec α) : Prop :=
  ∀ s, (∃ s', x s = some (.error .stream_truncate, s')) ∨ x (s.more q) = (x s).map fun r => (r.1, r.2.more q)

section Steady
variable {q : List UInt8} {α β : Type}

theorem steady_pure (a : α) : Steady q (pure a : Dec α) := fun _ => .inr rfl

theorem steady_fail (e : NexusError) : Steady q (Proc.fail e : Dec α) := fun _ => .inr rfl

theorem steady_assert (p : Bool) : Steady q (Proc.assert p : Dec Unit) := fun _ => .inr (by cases p <;> rfl)

/-- A change that does not look at the buffer. -/
theorem steady_modify {f : DecState → DecState} (h : ∀ s, f (s.more q) = (f s).more q) : Steady q (Proc.modify f : Dec Unit) := by
  intro s
  right
  rw [Proc.modify_apply, h]
  rfl

theorem Steady.bind {x : Dec α} {f : α → Dec β} (hx : Steady q x) (hf : ∀ a, Steady q (f a)) : Steady q (x >>= f) := by
  intro s
  rcases hx s with ⟨s', htr⟩ | heq
  · exact .inl ⟨s', Proc.bind_error htr⟩
  · rcases h : x s with _ | ⟨e | a, t⟩
    · right
      rw [h] at heq
      rw [Proc.bind_none h, Proc.bind_none heq]
      rfl
    · right
      rw [h] at heq
      rw [Proc.bind_error h, Proc.bind_error heq]
      rfl
    · rw [h] at heq
      rw [Proc.bind_ok h, Proc.bind_ok heq]
      exact hf a t

/-- A procedure that looks at the state, but not at the buffer. -/
theorem steady_get {f : DecState → Dec α} (hmore : ∀ s, f (s.more q) = f s) (hf : ∀ s, Steady q (f s)) :
    Steady q (Proc.get >>= f) := by
  intro s
  rw [Proc.get_bind_apply, Proc.get_bind_apply, hmore]
  exact hf s s

theorem Steady.ite {p : Prop} [Decidable p] {x y : Dec α} (hx : Steady q x) (hy : Steady q y) : Steady q (if p then x else y) := by
  split
  · exact hx
  · exact hy

theorem Steady.when {p : Bool} {x : Dec Unit} (hx : Steady q x) : Steady q (Proc.when p x) := by
  cases p
  · exact steady_pure ()
  · exact hx

/-! ## The decoder's fields -/

theorem steady_store (f : Msg → Msg) : Steady q (Proc.modify fun s => { s with msg := f s.msg }) := steady_modify fun _ => rfl

theorem steady_fixed (n : Nat) (F : Nat → Msg → Msg) : Steady q (UNPACK_FIXED n F) :=
  steady_get (fun _ => rfl) fun _ => (steady_fail _).ite (steady_modify fun _ => rfl)

theorem steady_var (F : Nat → Msg → Msg) : Steady q (UNPACK_VAR F) := by
  refine steady_get (fun _ => rfl) fun _ => Steady.bind (steady_modify ?_) fun _ => steady_pure _
  exact fun _ => rfl

theorem steady_var_req (F : Nat → Msg → Msg) : Steady q (UNPACK_VAR_REQ F) :=
  (steady_var F).bind fun _ => (steady_fail _).ite (steady_pure _)

theorem steady_req (F : Nat → Msg → Msg) : Steady q (do let _ ← UNPACK_VAR_REQ F) :=
  (steady_var_req F).bind fun _ => steady_pure _

theorem steady_xaddr_vao : Steady q UNPACK_XADDR_VAO := by
  refine (steady_var_req _).bind fun _ => Steady.when (steady_modify ?_)
  exact fun _ => rfl

theorem steady_reset : Steady q reset_counts := steady_modify fun _ => rfl

theorem steady_consume : Steady q CONSUME_BYTES := by
  intro s
  rw [CONSUME_BYTES_apply, CONSUME_BYTES_apply]
  cases heom : s.eom with
  | true => exact .inr (by simp [DecState.more, heom])
  | false =>
    have hmore : (s.more q).buffer = s.buffer ++ q := rfl
    rcases consume_bytes_append s.buffer q with htr | happ
    · exact .inl ⟨s, by simp [htr]⟩
    · right
      rw [hmore, happ]
      cases hc : consume_bytes s.buffer with
      | error e => simp [DecState.more, heom]
      | ok r =>
        have hle := (consume_bytes_le hc).2
        simp [DecState.more, heom, List.take_append_of_le_length hle, List.drop_append_of_le_length hle]

theorem steady_consume_rest : Steady q CONSUME_REST := by
  have hloop : ∀ fuel, Steady q (consume_rest fuel) := by
    intro fuel
    induction fuel with
    | zero => exact steady_pure ()
    | succ fuel ih => exact steady_get (fun _ => rfl) fun _ => (steady_consume.bind fun _ => ih).when
  intro s
  -- the loop may as well have one round for each byte of the longer buffer
  have hlen : s.buffer.length < (s.more q).buffer.length + 1 := by
    simp only [DecState.more, List.length_append]
    omega
  have hs : CONSUME_REST s = consume_rest ((s.more q).buffer.length + 1) s := consume_rest_fuel _ (Nat.lt_succ_self _) hlen
  rw [hs]
  exact hloop _ s

theorem steady_finished (hwcfg : HwCfg) : Steady q (finished_common hwcfg) :=
  steady_get (fun _ => rfl) fun _ => ((steady_fail _).ite (steady_pure _)).ite
    (steady_consume_rest.bind fun _ => (steady_req _).when)

theorem steady_common (hwcfg : HwCfg) : Steady q (decode_common hwcfg) := by
  refine steady_get (fun _ => rfl) fun _ => (steady_fixed _ _).when.bind fun _ => (steady_fixed _ _).when.bind fun _ => ?_
  refine (steady_assert _).bind fun _ => (steady_store _).bind fun _ => (steady_var_req _).bind fun _ => ?_
  refine (steady_consume.bind fun _ => steady_xaddr_vao.ite (steady_req _)).when.bind fun _ => ?_
  exact (steady_consume.bind fun _ => steady_req _).when

theorem steady_rest (hwcfg : HwCfg) (t : Tcode) : Steady q (decode_rest hwcfg t) := by
  have hfin := steady_finished (q := q) hwcfg
  unfold decode_rest
  split
  · exact (steady_fixed _ _).bind fun _ => (steady_fixed _ _).bind fun _ => (steady_fixed _ _).bind fun _ =>
      (steady_var _).bind fun _ => hfin
  · exact (steady_fixed _ _).bind fun _ => (steady_var _).bind fun _ => hfin
  · exact (steady_var_req _).bind fun _ => steady_consume.bind fun _ => (steady_var_req _).bind fun _ => hfin
  · refine (steady_fixed _ _).bind fun _ => steady_get (fun _ => rfl) fun _ => ?_
    refine Steady.bind (Steady.ite ((steady_var _).bind fun _ => steady_pure _) (steady_reset.bind fun _ => ?_)) fun _ => hfin
    split
    · exact steady_req _
    · exact steady_req _
    · exact (steady_var_req _).bind fun _ => steady_consume.bind fun _ => steady_req _
  · exact (steady_var_req _).bind fun _ => hfin
  · refine steady_reset.bind fun _ => (steady_fixed _ _).bind fun _ => (steady_fixed _ _).bind fun _ => ?_
    refine (steady_var_req _).bind fun _ => steady_get (fun _ => rfl) fun _ => ?_
    exact (steady_consume.bind fun _ => steady_req _).when.bind fun _ => hfin
  · refine (steady_fixed _ _).bind fun _ => (steady_fixed _ _).bind fun _ => (steady_var_req _).bind fun _ => ?_
    refine steady_get (fun _ => rfl) fun _ => (steady_consume.bind fun _ => steady_req _).when.bind fun _ => hfin
  · exact steady_consume_rest

theorem steady_decode (hwcfg : HwCfg) : Steady q (decode_msg hwcfg) := by
  refine (steady_store _).bind fun _ => steady_consume.bind fun _ => (steady_fixed _ _).bind fun _ => ?_
  refine steady_get (fun _ => rfl) fun _ => ((steady_fail _).ite (steady_pure _)).ite ?_
  refine (steady_store _).bind fun _ => (steady_fixed _ _).when.bind fun _ => steady_get (fun _ => rfl) fun _ => ?_
  exact ((steady_common hwcfg).bind fun _ => steady_finished hwcfg).ite (steady_rest hwcfg _)

end Steady

/-! ## No byte in front of the last one has MSEO 2 -/

/-- What was consumed of `orig` has no byte with MSEO 2. -/
def Clean (orig buffer : List UInt8) : Prop := ∃ pre, orig = pre ++ buffer ∧ ∀ b ∈ pre, mseo b ≠ 2

theorem consume_bytes_clean {bs : List UInt8} {n : Nat} {eom : Bool} (h : consume_bytes bs = .ok (n, eom)) :
    ∀ b ∈ bs.take n, mseo b ≠ 2 := by
  induction bs generalizing n eom with
  | nil => simp
  | cons b bs ih =>
    simp only [consume_bytes] at h
    by_cases h2 : mseo b = 2
    · simp [h2] at h
    rw [if_neg h2] at h
    split at h
    · cases hc : consume_bytes bs with
      | error e => simp [hc, Except.map] at h
      | ok r =>
        simp only [hc, Except.map, Except.ok.injEq, Prod.mk.injEq] at h
        rw [← h.1, List.take_succ_cons]
        exact List.forall_mem_cons.2 ⟨h2, ih hc⟩
    · simp only [Except.ok.injEq, Prod.mk.injEq] at h
      rw [← h.1, List.take_succ_cons, List.take_zero]
      exact List.forall_mem_singleton.2 h2

theorem clean_consume {orig : List UInt8} : Keeps orig fun buffer eom => Left orig buffer eom ∧ Clean orig buffer := by
  rintro s ⟨hleft, pre, horig, hpre⟩
  rcases safe_consume s hleft with ⟨⟨⟩, s', hs', hleft'⟩ | herr
  · refine .inl ⟨(), s', hs', hleft', ?_⟩
    cases heom : s.eom with
    | true => simp [CONSUME_BYTES, heom] at hs'
    | false =>
      cases hc : consume_bytes s.buffer with
      | error e => simp [CONSUME_BYTES, heom, hc] at hs'
      | ok r =>
        simp only [CONSUME_BYTES, Proc.get_bind_apply, heom, hc, Bool.false_eq_true, if_false, Proc.modify_apply,
          Option.some.injEq, Prod.mk.injEq, true_and] at hs'
        subst hs'
        refine ⟨pre ++ s.buffer.take r.1, by rw [List.append_assoc, List.take_append_drop, horig], ?_⟩
        exact List.forall_mem_append.2 ⟨hpre, consume_bytes_clean hc⟩
  · exact .inr herr

theorem msg_decode_clean {hwcfg : HwCfg} {buffer : List UInt8} {m m' : Msg} {n : Nat}
    (h : msg_decode hwcfg buffer m = some (.ok n, m')) : ∀ b ∈ buffer.take n, mseo b ≠ 2 := by
  have hstart : Left buffer buffer false ∧ Clean buffer buffer := ⟨⟨[], rfl, by simp [Unended]⟩, [], rfl, by simp⟩
  rcases safe_decode clean_consume hstart hwcfg ⟨[], buffer, 0, false, m⟩ ⟨rfl, rfl⟩ with
    ⟨⟨⟩, s, hrun, ⟨-, pre, horig, hpre⟩, -⟩ | ⟨e, s, hrun, -⟩
  · have hlen : buffer.length - s.buffer.length = pre.length := by rw [horig]; simp
    simp only [msg_decode, hrun, Option.map_some, Except.map, hlen, Option.some.injEq, Prod.mk.injEq, Except.ok.injEq] at h
    rwa [← h.1, horig, List.take_left]
  · simp [msg_decode, hrun, Except.map] at h

/-- A successful `nexusrv_msg_decode` consumes exactly the bytes up to the first one
with MSEO 3, with none of MSEO 2 in front of it; and what it returns, unless bytes
are missing, it returns with the same message for every longer buffer. -/
theorem msg_decode_framing (hwcfg : HwCfg) (buffer : List UInt8) (m : Msg) :
    (∀ n m', msg_decode hwcfg buffer m = some (.ok n, m') → 0 < n ∧ n ≤ buffer.length ∧ mseo (buffer.getD (n - 1) 0) = 3 ∧
      ∀ i, i < n - 1 → mseo (buffer.getD i 0) ≠ 3 ∧ mseo (buffer.getD i 0) ≠ 2) ∧
    ∀ r m', msg_decode hwcfg buffer m = some (r, m') → r ≠ .error .stream_truncate →
      ∀ q, msg_decode hwcfg (buffer ++ q) m = some (r, m') := by
  refine ⟨fun n m' h => ?_, fun r m' h hr q => ?_⟩
  · have hclean := msg_decode_clean h
    rcases msg_decode_total hwcfg buffer m with ⟨k, m'', hk, hle, hframe⟩ | ⟨e, m'', he, -⟩
    · rw [h] at hk
      cases hk
      obtain ⟨as, b, htake, has, hb⟩ := hframe
      have hlen := congrArg List.length htake
      rw [List.length_take, List.length_append, List.length_singleton, Nat.min_eq_left hle] at hlen
      have hget : ∀ i, i < n → buffer.getD i 0 = (as ++ [b]).getD i 0 := fun i hi => by
        rw [← htake, List.getD_eq_getElem?_getD, List.getD_eq_getElem?_getD, List.getElem?_take_of_lt hi]
      refine ⟨by omega, hle, ?_, fun i hi => ?_⟩
      · rw [hget _ (by omega), hlen, Nat.add_sub_cancel, getD_mid as [] b, hb]
      · have hmem : buffer.getD i 0 ∈ as := by
          rw [hget i (by omega), List.getD_append _ _ _ _ (by omega), List.getD_eq_getElem _ _ (by omega)]
          exact List.getElem_mem _
        exact ⟨has _ hmem, hclean _ (by rw [htake]; exact List.mem_append_left _ hmem)⟩
    · rw [h] at he
      cases he
  · cases hd : decode_msg hwcfg ⟨[], buffer, 0, false, m⟩ with
    | none => simp [msg_decode, hd] at h
    | some x =>
      obtain ⟨r', s⟩ := x
      simp only [msg_decode, hd, Option.map_some, Option.some.injEq, Prod.mk.injEq] at h
      obtain ⟨hres, rfl⟩ := h
      rcases steady_decode (q := q) hwcfg ⟨[], buffer, 0, false, m⟩ with ⟨s', htr⟩ | hmore
      · rw [hd] at htr
        cases htr
        exact absurd hres.symm hr
      · rw [hd] at hmore
        have hmore' : decode_msg hwcfg ⟨[], buffer ++ q, 0, false, m⟩ = some (r', s.more q) := hmore
        simp only [msg_decode, hmore', Option.map_some, DecState.more, ← hres]
        congr 2
        cases r' <;> simp [Except.map]
        omega

end nexusrv
