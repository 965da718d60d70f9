import NexusRv.Roundtrip
/-!
# What the encoder writes, and where

The length and the bytes of an encoded message depend on the configuration and the
message only, the encoder writes nothing from `limit` on, and of the bytes it
leaves the last one alone ends the message.
-/

namespace nexusrv

open Fields

/-! ## The MSEO of a frame -/

theorem openBytes_mseo (g : List Field) : ∀ b ∈ openBytes g, mseo b = 0 := by
  intro b hb
  obtain ⟨d, -, rfl⟩ := List.mem_map.1 hb
  exact mseo_msg_byte 0 d

theorem endMark_snoc (m : Nat) (as : List UInt8) (b : UInt8) : endMark m (as ++ [b]) = as ++ [msg_byte m (mdo b)] := by
  simp [endMark, List.getD_eq_getElem?_getD]

theorem endMark_mseo {bs : List UInt8} (h : ∀ b ∈ bs, mseo b = 0) : ∀ b ∈ endMark 1 bs, mseo b = 0 ∨ mseo b = 1 := by
  rcases bs.eq_nil_or_concat with rfl | ⟨as, x, rfl⟩
  · simp [endMark]
  · rw [List.concat_eq_append] at h ⊢
    rw [endMark_snoc]
    intro b hb
    rcases List.mem_append.1 hb with hb | hb
    · exact .inl (h b (List.mem_append_left _ hb))
    · rw [List.mem_singleton.1 hb, mseo_msg_byte]
      exact .inr rfl

theorem groupBytes_mseo (gs : List (List Field)) : ∀ b ∈ groupBytes gs, mseo b = 0 ∨ mseo b = 1 := by
  intro b hb
  rcases List.mem_append.1 hb with hb | hb
  · obtain ⟨l, hl, hb⟩ := List.mem_flatten.1 hb
    obtain ⟨g, -, rfl⟩ := List.mem_map.1 hl
    exact endMark_mseo (openBytes_mseo g) b hb
  · exact .inl (openBytes_mseo _ b hb)

/-- A frame ends with its only MSEO 3. -/
theorem frame_mseo {gs : List (List Field)} (h : groupBytes gs ≠ []) :
    ∃ as b, frame gs = as ++ [b] ∧ mseo b = 3 ∧ ∀ a ∈ as, mseo a = 0 ∨ mseo a = 1 := by
  have hall := groupBytes_mseo gs
  rw [frame]
  rcases (groupBytes gs).eq_nil_or_concat with hnil | ⟨as, x, hx⟩
  · exact absurd hnil h
  · rw [hx, List.concat_eq_append] at hall ⊢
    exact ⟨as, _, endMark_snoc 3 as x, mseo_msg_byte 3 _, fun a ha => hall a (List.mem_append_left _ ha)⟩

/-! ## Nothing is written from `limit` on -/

section Within
variable {buffer : List UInt8} {limit : Nat}

/-- The buffer from `limit` on is as it was. -/
def Untouched (buffer : List UInt8) (limit : Nat) (st : EncState) : Prop :=
  st.buffer.length = buffer.length ∧ st.buffer.drop limit = buffer.drop limit

/-- Between two fields. -/
def Within (buffer : List UInt8) (limit : Nat) (st : EncState) : Prop :=
  0 < st.bit_offset ∧ st.bit_offset ≤ 6 * limit ∧ Untouched buffer limit st

/-- `x` stays below `limit`, whatever it returns. -/
def Stays (buffer : List UInt8) (limit : Nat) {α : Type} (x : Enc α) : Prop :=
  Proc.Safe (Within buffer limit) x (fun _ => Within buffer limit) fun _ => Untouched buffer limit

theorem pack_bits_loop_tail (fuel : Nat) : ∀ {bs : List UInt8} {offset v bits : Nat}, 0 < bits → offset + bits ≤ 6 * limit →
    (pack_bits_loop fuel bs offset v bits).length = bs.length ∧
      (pack_bits_loop fuel bs offset v bits).drop limit = bs.drop limit := by
  induction fuel with
  | zero => intro bs offset v bits _ _; exact ⟨rfl, rfl⟩
  | succ fuel ih =>
    intro bs offset v bits h0 hle
    have hbyte : offset / MDO_BITS < limit := by simp only [MDO_BITS]; omega
    simp only [pack_bits_loop]
    split
    · exact ⟨List.length_set, List.drop_set_of_lt hbyte⟩
    · rename_i hav
      have hav' : ¬ 6 - offset % 6 ≥ bits := hav
      obtain ⟨hlen, hdrop⟩ := @ih (bs.set (offset / MDO_BITS) _) (offset + (MDO_BITS - offset % MDO_BITS))
        (v >>> (MDO_BITS - offset % MDO_BITS)) (bits - (MDO_BITS - offset % MDO_BITS)) (by simp only [MDO_BITS]; omega)
        (by simp only [MDO_BITS]; omega)
      exact ⟨hlen.trans List.length_set, hdrop.trans (List.drop_set_of_lt hbyte)⟩

theorem pack_bits_tail {bs : List UInt8} {offset v bits : Nat} (hle : offset + bits ≤ 6 * limit) :
    (pack_bits bs offset v bits).length = bs.length ∧ (pack_bits bs offset v bits).drop limit = bs.drop limit := by
  unfold pack_bits
  split
  · exact ⟨rfl, rfl⟩
  · exact pack_bits_loop_tail bits (by omega) hle

theorem pack_field_within (b v : Nat) (st : EncState) (hu : Untouched buffer limit st) (h0 : 0 < st.bit_offset + b) :
    (∃ st', PACK_FIELD limit b v st = some (.ok (), st') ∧ Within buffer limit st') ∨
      ∃ e st', PACK_FIELD limit b v st = some (.error e, st') ∧ Untouched buffer limit st' := by
  simp only [PACK_FIELD, Proc.get_bind_apply, Proc.ite_apply]
  split
  · exact .inr ⟨_, st, rfl, hu⟩
  · rename_i hfit
    have hle : st.bit_offset + b ≤ 6 * limit := by simp only [MDO_BITS] at hfit; omega
    obtain ⟨hlen, hdrop⟩ := @pack_bits_tail _ st.buffer _ v _ hle
    exact .inl ⟨_, rfl, h0, hle, hlen.trans hu.1, hdrop.trans hu.2⟩

theorem stays_field (b v : Nat) : Stays buffer limit (PACK_FIELD limit b v) := by
  intro st hw
  rcases pack_field_within b v st hw.2.2 (by have := hw.1; omega) with ⟨st', h, hw'⟩ | ⟨e, st', h, hu⟩
  · exact .inl ⟨(), st', h, hw'⟩
  · exact .inr ⟨e, st', h, hu⟩

theorem stays_end (m : Nat) : Stays buffer limit (END_FIELD m) := by
  refine Proc.safe_modify fun st hw => ?_
  obtain ⟨h0, hle, hlen, hdrop⟩ := hw
  have hbyte : (st.bit_offset + MDO_BITS - 1) / MDO_BITS ≤ limit ∧ 0 < (st.bit_offset + MDO_BITS - 1) / MDO_BITS := by
    simp only [MDO_BITS]
    omega
  refine ⟨?_, ?_, ?_, ?_⟩
  · dsimp only [MDO_BITS] at hbyte ⊢
    omega
  · dsimp only [MDO_BITS] at hbyte ⊢
    omega
  · exact List.length_set.trans hlen
  · exact (List.drop_set_of_lt (by omega)).trans hdrop

theorem stays_fail {α : Type} (e : NexusError) : Stays buffer limit (Proc.fail e : Enc α) := Proc.safe_fail fun _ hw => hw.2.2

theorem stays_var (v : Nat) : Stays buffer limit (PACK_VAR limit v) := (stays_field _ _).bind fun _ => stays_end 1

theorem stays_req (v : Nat) : Stays buffer limit (PACK_VAR_REQ limit v) := (stays_field _ _).bind fun _ => stays_end 1

theorem stays_xaddr_vao (v : Nat) : Stays buffer limit (PACK_XADDR_VAO limit v) :=
  fun st hw => ((stays_field _ _).bind fun _ => stays_end 1) st hw

theorem stays_when {p : Bool} {x : Enc Unit} (hx : Stays buffer limit x) : Stays buffer limit (Proc.when p x) :=
  Proc.Safe.when (fun _ => hx) fun _ _ h => h

theorem stays_common (hwcfg : HwCfg) {m : Msg} (hi : msg_has_icnt m) : Stays buffer limit (encode_common hwcfg limit m) := by
  refine (stays_when (stays_field _ _)).bind fun _ => (stays_when (stays_field _ _)).bind fun _ => ?_
  refine Proc.Safe.bind (Q := fun _ => Within buffer limit) (Proc.safe_assert (fun _ _ => hi) fun _ h => h) fun _ => ?_
  refine (stays_req _).bind fun _ => (stays_when (Proc.Safe.ite (fun _ => stays_xaddr_vao _) fun _ => stays_req _)).bind fun _ => ?_
  exact stays_when (stays_req _)

theorem stays_rest (m : Msg) : Stays buffer limit (encode_rest limit m) := by
  unfold encode_rest
  split
  · exact (stays_field _ _).bind fun _ => (stays_field _ _).bind fun _ => (stays_field _ _).bind fun _ => stays_var _
  · exact (stays_field _ _).bind fun _ => stays_var _
  · refine (stays_field _ _).bind fun _ => Proc.Safe.ite (fun _ => stays_var _) fun _ => ?_
    split
    · exact stays_req _
    · exact stays_req _
    · exact (stays_req _).bind fun _ => stays_req _
  · exact stays_req _
  · refine (stays_field _ _).bind fun _ => (stays_field _ _).bind fun _ => (stays_req _).bind fun _ => ?_
    exact Proc.Safe.ite (fun _ => stays_fail _) fun _ => stays_when (stays_req _)
  · refine (stays_field _ _).bind fun _ => (stays_field _ _).bind fun _ => (stays_req _).bind fun _ => ?_
    exact Proc.Safe.ite (fun _ => stays_fail _) fun _ => stays_req _
  · exact stays_fail _

theorem stays_body (hwcfg : HwCfg) (m : Msg) : Stays buffer limit (encode_body hwcfg limit m) := by
  refine (stays_when (stays_field _ _)).bind fun _ => Proc.Safe.bind (Q := fun _ => Within buffer limit) ?_ fun _ =>
    stays_when (Proc.Safe.ite (fun _ => stays_req _) fun _ => stays_var _)
  exact Proc.Safe.ite (fun hc => stays_common hwcfg (has_icnt_of_common hc)) fun _ => stays_rest m

/-- Whatever `nexusrv_msg_encode` returns, the bytes from `limit` on are as before. -/
theorem msg_encode_untouched {hwcfg : HwCfg} {m : Msg} {r : Except NexusError Nat} {bs : List UInt8}
    (h : msg_encode hwcfg buffer limit m = some (r, bs)) : bs.length = buffer.length ∧ bs.drop limit = buffer.drop limit := by
  have hstart : Proc.Safe (fun st : EncState => st = ⟨buffer, 0⟩) (encode_msg hwcfg limit m)
      (fun _ => Untouched buffer limit) fun _ => Untouched buffer limit := by
    refine Proc.Safe.ite (fun _ => Proc.safe_fail fun st hst => by rw [hst]; exact ⟨rfl, rfl⟩) fun _ => ?_
    refine Proc.Safe.bind (Q := fun _ => Within buffer limit) (fun st hst => ?_) fun _ =>
      (stays_when (stays_body hwcfg m)).bind fun _ => (stays_end 3).bind fun _ =>
        Proc.Safe.get_bind fun st hw => Proc.safe_pure fun t ht => by rw [ht]; exact hw.2.2
    rcases pack_field_within 6 m.tcode.code st (by rw [hst]; exact ⟨rfl, rfl⟩) (by omega) with ⟨st', h, hw⟩ | ⟨e, st', h, hu⟩
    · exact .inl ⟨(), st', h, hw⟩
    · exact .inr ⟨e, st', h, hu⟩
  obtain ⟨⟨r', st⟩, hrun, hres⟩ := Option.map_eq_some_iff.1 h
  cases hres
  rcases hstart _ rfl with ⟨a, st', hst, hu⟩ | ⟨e, st', hst, hu⟩
  · rw [hrun] at hst
    cases hst
    exact hu
  · rw [hrun] at hst
    cases hst
    exact hu

end Within

/-! ## The messages that are not rejected -/

section Rejects
variable {buffer : List UInt8} {limit : Nat}

/-- With room for the tokens `us`, `x` comes to a case that is not supported. -/
def Rejects (buffer : List UInt8) (limit : Nat) (x : Enc Unit) (us : List Token) : Prop :=
  ∀ ts st, 0 < bitLen (groups ts) → bitLen (groups (ts ++ us)) ≤ 6 * limit → Wrote buffer ts st →
    ∃ st', x st = some (.error .msg_unsupported, st')

theorem rejects_fail : Rejects buffer limit (Proc.fail .msg_unsupported) [] := fun _ st _ _ _ => ⟨st, rfl⟩

theorem Emits.rejects {x y : Enc Unit} {us vs : List Token} (hx : Emits buffer limit x us) (hy : Rejects buffer limit y vs) :
    Rejects buffer limit (x >>= fun _ => y) (us ++ vs) := by
  intro ts st h0 hfit hw
  rw [← List.append_assoc] at hfit
  have hus : bitLen (groups (ts ++ us)) ≤ 6 * limit := Nat.le_trans (bitLen_mono _ vs) hfit
  have h1 := hx ts st h0 (Nat.le_trans (bitLen_mono ts us) hus) hw
  rw [if_pos hus] at h1
  obtain ⟨st₁, hx₁, hw₁⟩ := h1
  obtain ⟨st₂, hy₂⟩ := hy (ts ++ us) st₁ (Nat.lt_of_lt_of_le h0 (bitLen_mono ts us)) hfit hw₁
  exact ⟨st₂, by rw [Proc.bind_ok hx₁, hy₂]⟩

theorem Rejects.bind {x y : Enc Unit} {us : List Token} (hx : Rejects buffer limit x us) :
    Rejects buffer limit (x >>= fun _ => y) us := by
  intro ts st h0 hfit hw
  obtain ⟨st', h⟩ := hx ts st h0 hfit hw
  exact ⟨st', Proc.bind_error h⟩

/-- The fields in front of the case that is missing. -/
def rejectedLayout (m : Msg) : List Token :=
  if m.tcode = .ICT then [.field 4 m.cksrc] ++ ([.field 2 m.ckdf] ++ (reqTokens m.ckdata0 ++ [])) else []

theorem rejects_rest (hlim : limit ≤ buffer.length) {m : Msg} (hm : encodable m = false) (hk : msg_known m = true) :
    common_tcode m = false ∧ m.tcode ≠ .Idle ∧ Rejects buffer limit (encode_rest limit m) (rejectedLayout m) := by
  unfold encode_rest rejectedLayout
  cases ht : m.tcode with
  | DataAcquisition => exact ⟨by simp [common_tcode, ht], by simp, rejects_fail⟩
  | ICT =>
    have hckdf : m.ckdf > 1 := by simp [encodable, ht, hk] at hm; exact hm
    refine ⟨by simp [common_tcode, ht], by simp, ?_⟩
    rw [if_pos rfl]
    refine (emits_field hlim _ _).rejects ((emits_field hlim _ _).rejects ((emits_req hlim _).rejects ?_))
    rw [if_pos hckdf]
    exact rejects_fail
  | _ => simp [encodable, ht, hk] at hm

end Rejects

/-- With room for the fields in front, a message the encoder has no case for is rejected. -/
theorem msg_encode_rejects_room {buffer : List UInt8} {limit : Nat} (hlim : limit ≤ buffer.length) {hwcfg : HwCfg} {m : Msg}
    (h : encodable m = false) (hroom : bitLen (groups ([.field 6 m.tcode.code] ++
      (Token.opt (hwcfg.src_bits ≠ 0) [.field hwcfg.src_bits m.src.toNat] ++ rejectedLayout m))) ≤ 6 * limit) :
    ∃ bs, msg_encode hwcfg buffer limit m = some (.error .msg_unsupported, bs) := by
  cases hk : msg_known m with
  | false => exact ⟨buffer, by simp [msg_encode, encode_msg, hk]⟩
  | true =>
    obtain ⟨hc, hidle, hrest⟩ := rejects_rest hlim h hk
    have hbody : Rejects buffer limit (encode_body hwcfg limit m)
        (Token.opt (hwcfg.src_bits ≠ 0) [.field hwcfg.src_bits m.src.toNat] ++ rejectedLayout m) := by
      refine (emits_when (emits_field hlim _ _)).rejects ?_
      rw [if_neg (by simp [hc])]
      exact hrest.bind
    have hw0 : Wrote buffer [] ⟨buffer, 0⟩ := by
      constructor <;> simp [groups, groupBytes, closedBytes, openBytes, bitBytes, width, digitCount, digits, bitLen]
    have hfield := pack_field_spec hlim 6 m.tcode.code [] ⟨buffer, 0⟩ hw0
    have h6 : bitLen (groups ([] ++ [Token.field 6 m.tcode.code])) = 6 := by simp [groups, bitLen, closedBytes, width]
    have hmono := bitLen_mono [.field 6 m.tcode.code]
      (Token.opt (hwcfg.src_bits ≠ 0) [.field hwcfg.src_bits m.src.toNat] ++ rejectedLayout m)
    rw [List.nil_append] at hfield h6
    rw [if_pos (Nat.le_trans hmono hroom)] at hfield
    obtain ⟨st₁, h₁, hw₁⟩ := hfield
    obtain ⟨st₂, h₂⟩ := hbody _ st₁ (by omega) hroom hw₁
    exact ⟨st₂.buffer, by simp only [msg_encode, encode_msg_eq hwcfg limit hk, Proc.bind_ok h₁, decide_eq_true hidle, Proc.when_true,
      Proc.bind_error h₂, Option.map_some]⟩

/-- A message the encoder has no case for is rejected, given room. -/
theorem msg_encode_rejects (hwcfg : HwCfg) {m : Msg} (h : encodable m = false) :
    ∃ buffer bs, msg_encode hwcfg buffer buffer.length m = some (.error .msg_unsupported, bs) := by
  generalize hn : bitLen (groups ([.field 6 m.tcode.code] ++
    (Token.opt (hwcfg.src_bits ≠ 0) [.field hwcfg.src_bits m.src.toNat] ++ rejectedLayout m))) = n
  refine ⟨List.replicate n 0, msg_encode_rejects_room (Nat.le_refl _) h ?_⟩
  rw [hn, List.length_replicate]
  omega

/-- A message the encoder has a case for is never rejected. -/
theorem msg_encode_accepts (hwcfg : HwCfg) {m : Msg} (h : encodable m = true) (buffer : List UInt8) (limit : Nat) (bs : List UInt8)
    (hlim : limit ≤ buffer.length) : msg_encode hwcfg buffer limit m ≠ some (.error .msg_unsupported, bs) := by
  intro hrej
  have hspec := msg_encode_spec hlim hwcfg m h
  dsimp only at hspec
  split at hspec
  · rw [hrej] at hspec
    cases hspec
  · obtain ⟨bs', hbs⟩ := hspec
    rw [hrej] at hbs
    cases hbs

/-- For every message that `nexusrv_msg_encode` does not reject as unsupported there
are bytes, the last one with MSEO 3 and the others with MSEO 0 or 1, such that for
every buffer it writes these bytes and nothing else if `limit` has room for them,
and otherwise fails and leaves the buffer from `limit` on alone. -/
theorem msg_encode_bounds (hwcfg : HwCfg) (m : Msg)
    (hm : ∀ buffer limit bs, limit ≤ buffer.length → msg_encode hwcfg buffer limit m ≠ some (.error .msg_unsupported, bs)) :
    ∃ bytes : List UInt8, (∃ as b, bytes = as ++ [b] ∧ mseo b = 3 ∧ ∀ a ∈ as, mseo a = 0 ∨ mseo a = 1) ∧
      ∀ (buffer : List UInt8) (limit : Nat), limit ≤ buffer.length →
        if bytes.length ≤ limit then
          msg_encode hwcfg buffer limit m = some (.ok bytes.length, bytes ++ buffer.drop bytes.length)
        else ∃ bs, msg_encode hwcfg buffer limit m = some (.error .stream_truncate, bs) ∧ bs.length = buffer.length ∧
          bs.drop limit = buffer.drop limit := by
  have henc : encodable m = true := by
    refine Bool.eq_true_of_not_eq_false fun hfalse => ?_
    obtain ⟨buffer, bs, hrej⟩ := msg_encode_rejects hwcfg hfalse
    exact hm buffer buffer.length bs (Nat.le_refl _) hrej
  have hne : groupBytes (groups (layout hwcfg m)) ≠ [] := by
    have hlen := (groupBytes_length (layout hwcfg m)).2
    have hmono := bitLen_mono [.field 6 m.tcode.code] (Token.opt (m.tcode ≠ .Idle) (bodyLayout hwcfg m))
    have h6 : bitLen (groups [.field 6 m.tcode.code]) = 6 := by simp [groups, bitLen, closedBytes, Fields.width]
    intro hnil
    rw [hnil] at hlen
    change bitLen (groups (layout hwcfg m)) ≤ 0 at hlen
    change _ ≤ bitLen (groups (layout hwcfg m)) at hmono
    omega
  refine ⟨_, frame_mseo hne, fun buffer limit hlim => ?_⟩
  have hspec := msg_encode_spec hlim hwcfg m henc
  dsimp only at hspec
  split at hspec
  · rw [if_pos ‹_›]
    exact hspec
  · rw [if_neg ‹_›]
    obtain ⟨bs, hbs⟩ := hspec
    exact ⟨bs, hbs, msg_encode_untouched hbs⟩

/-- A DirectBranch message with SRC and timestamp. -/
theorem msg_encode_bounds_branch : let cfg : HwCfg := ⟨3, 40, 48, 0, 0, false, true, false⟩
    let m : Msg := { Msg.zero with tcode := .DirectBranch, src := 5, icnt := 100, timestamp := 7 }
    ∃ bytes : List UInt8, (∃ as b, bytes = as ++ [b] ∧ mseo b = 3 ∧ ∀ a ∈ as, mseo a = 0 ∨ mseo a = 1) ∧
      ∀ (buffer : List UInt8) (limit : Nat), limit ≤ buffer.length →
        if bytes.length ≤ limit then
          msg_encode cfg buffer limit m = some (.ok bytes.length, bytes ++ buffer.drop bytes.length)
        else ∃ bs, msg_encode cfg buffer limit m = some (.error .stream_truncate, bs) ∧ bs.length = buffer.length ∧
          bs.drop limit = buffer.drop limit :=
  msg_encode_bounds _ _ (msg_encode_accepts _ (by decide))

end nexusrv
