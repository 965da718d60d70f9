import NexusRv.Encoder
import Mathlib.Data.List.GetD
import Mathlib.Data.List.Induction
import Mathlib.Tactic.Ring
/-!
# What the encoder writes

A message is a list of groups of bit fields. A group is sent in 6-bit digits,
one to a byte, and its last byte carries MSEO 1, or 3 at the end of the message.
`layout` gives the groups of each message; `msg_encode_spec` shows that the
encoder leaves exactly their frame in the buffer, or reports that it does not
fit.
-/

namespace nexusrv

open Fields

/-! ## Frames -/

/-- The bytes of `n` bits of the number `N`, all with MSEO 0. -/
def bitBytes (n N : Nat) : List UInt8 := (digits 6 (digitCount 6 n) N).map (msg_byte 0)

def openBytes (g : List Field) : List UInt8 := bitBytes (width g) (pack g)

/-- Set the MSEO of the last byte. -/
def endMark (mseo : Nat) (bytes : List UInt8) : List UInt8 :=
  bytes.set (bytes.length - 1) (msg_byte mseo (mdo (bytes.getD (bytes.length - 1) 0)))

/-- The bytes of complete groups. -/
def closedBytes (gs : List (List Field)) : List UInt8 := (gs.map fun g => endMark 1 (openBytes g)).flatten

/-- The bytes of complete groups followed by an open one. -/
def groupBytes (gs : List (List Field)) : List UInt8 := closedBytes gs.dropLast ++ openBytes (gs.getLast?.getD [])

/-- A whole message. -/
def frame (gs : List (List Field)) : List UInt8 := endMark 3 (groupBytes gs)

@[simp] theorem bitBytes_length (n N : Nat) : (bitBytes n N).length = digitCount 6 n := by simp [bitBytes]

@[simp] theorem endMark_length (m : Nat) (bs : List UInt8) : (endMark m bs).length = bs.length := by simp [endMark]

theorem endMark_append (m : Nat) (as bs : List UInt8) (h : bs ≠ []) : endMark m (as ++ bs) = as ++ endMark m bs := by
  have hl : 0 < bs.length := List.length_pos_iff.2 h
  have hi : (as ++ bs).length - 1 = as.length + (bs.length - 1) := by simp; omega
  unfold endMark
  rw [hi, List.getD_append_right _ _ _ _ (by omega), Nat.add_sub_cancel_left,
    List.set_append_right _ _ (by omega), Nat.add_sub_cancel_left]

theorem endMark_endMark (m k : Nat) (bs : List UInt8) : endMark m (endMark k bs) = endMark m bs := by
  rcases bs.eq_nil_or_concat with rfl | ⟨as, b, rfl⟩
  · rfl
  · simp [endMark, List.getD_eq_getElem?_getD]

theorem openBytes_eq_nil {g : List Field} : openBytes g = [] ↔ width g = 0 := by
  have := le_digitCount_mul 6 (width g) (by decide)
  rw [← List.length_eq_zero_iff, openBytes, bitBytes_length]
  constructor
  · omega
  · intro h; simp [h, digitCount]

/-! ## `pack_bits` -/

theorem getD_mid (as bs : List UInt8) (b : UInt8) : (as ++ b :: bs).getD as.length 0 = b := by
  simp [List.getD_eq_getElem?_getD]

theorem set_mid (as bs : List UInt8) (b c : UInt8) : (as ++ b :: bs).set as.length c = as ++ c :: bs := by
  simp

/-- Digits of a number below `2 ^ (6 * q)`, then one more digit. -/
theorem digits_snoc (q cur v shift : Nat) :
    digits 6 (q + 1) (cur + 2 ^ (6 * q + shift) * v) =
      digits 6 q cur ++ [(cur / 2 ^ (6 * q) + 2 ^ shift * v) % 64] := by
  have e : 2 ^ (6 * q + shift) * v = 2 ^ (6 * q) * (2 ^ shift * v) := by rw [Nat.pow_add]; ring
  rw [digits_succ, e, digits_add, Nat.add_mul_div_left _ _ (Nat.two_pow_pos _)]
  rfl

/-- One round of the loop: the byte at the end of the open group. -/
theorem round_byte {P R : List UInt8} {q shift cur v : Nat} (hs : shift < 6) (hcur : cur < 2 ^ (6 * q + shift))
    (hR : digitCount 6 (6 * q + shift) = q → R ≠ []) :
    let buffer := P ++ bitBytes (6 * q + shift) cur ++ R
    let b := buffer.getD (P.length + q) 0
    let b := if shift = 0 then msg_byte 0 v else b
    buffer.set (P.length + q) (msg_byte (mseo b) (mdo b ||| v <<< shift)) =
      P ++ bitBytes (6 * q + 6) (cur + 2 ^ (6 * q + shift) * v) ++ R.drop (q + 1 - digitCount 6 (6 * q + shift)) := by
  have hq6 : digitCount 6 (6 * q + 6) = q + 1 := by
    rw [show 6 * q + 6 = 6 * (q + 1) by ring]; exact digitCount_mul 6 (q + 1) (by decide)
  have htarget : bitBytes (6 * q + 6) (cur + 2 ^ (6 * q + shift) * v) =
      (digits 6 q cur).map (msg_byte 0) ++ [msg_byte 0 ((cur / 2 ^ (6 * q) + 2 ^ shift * v) % 64)] := by
    rw [bitBytes, hq6, digits_snoc]; simp
  have hpos : P.length + q = (P ++ (digits 6 q cur).map (msg_byte 0)).length := by simp
  dsimp only
  rw [htarget]
  by_cases h0 : shift = 0
  · subst h0
    have hd : digitCount 6 (6 * q + 0) = q := digitCount_mul 6 q (by decide)
    obtain ⟨r, R', rfl⟩ := List.exists_cons_of_ne_nil (hR hd)
    have hbits : bitBytes (6 * q + 0) cur = (digits 6 q cur).map (msg_byte 0) := by rw [bitBytes, hd]
    have hlow : cur / 2 ^ (6 * q) = 0 := Nat.div_eq_of_lt (by simpa using hcur)
    have hor : (v % 64 ||| v) % 64 = v % 64 := by
      rw [show (64 : Nat) = 2 ^ 6 by rfl, Nat.or_mod_two_pow, Nat.mod_mod, Nat.or_self]
    rw [hbits, hd, if_pos rfl, mseo_msg_byte, mdo_msg_byte, Nat.shiftLeft_zero, hpos, set_mid]
    simp only [hlow, Nat.zero_add, Nat.pow_zero, Nat.one_mul, Nat.add_sub_cancel_left, List.drop_succ_cons, List.drop_zero,
      List.append_assoc, List.singleton_append, Nat.zero_mod]
    rw [← msg_byte_mod, hor, msg_byte_mod]
  · have hd : digitCount 6 (6 * q + shift) = q + 1 := by simp only [digitCount]; omega
    have hlow : cur / 2 ^ (6 * q) < 2 ^ shift :=
      Nat.div_lt_of_lt_mul (by rw [← Nat.pow_add]; exact hcur)
    have hpow : 2 ^ shift < 64 := Nat.pow_lt_pow_right (by decide) hs (m := shift) (n := 6)
    have hbits : bitBytes (6 * q + shift) cur = (digits 6 q cur).map (msg_byte 0) ++ [msg_byte 0 (cur / 2 ^ (6 * q))] := by
      have := digits_succ 6 q cur
      rw [bitBytes, hd, this, List.map_append]
      simp only [List.map_cons, List.map_nil]
      rw [Nat.mod_eq_of_lt (show cur / 2 ^ (6 * q) < 2 ^ 6 by omega)]
    have hor : cur / 2 ^ (6 * q) ||| v <<< shift = cur / 2 ^ (6 * q) + 2 ^ shift * v := by
      rw [Nat.or_comm, Nat.shiftLeft_eq, Nat.mul_comm v, ← Nat.two_pow_add_eq_or_of_lt hlow]
      omega
    have hget : (P ++ bitBytes (6 * q + shift) cur ++ R).getD (P.length + q) 0 = msg_byte 0 (cur / 2 ^ (6 * q)) := by
      rw [hbits, hpos, show P ++ ((digits 6 q cur).map (msg_byte 0) ++ [msg_byte 0 (cur / 2 ^ (6 * q))]) ++ R =
        (P ++ (digits 6 q cur).map (msg_byte 0)) ++ msg_byte 0 (cur / 2 ^ (6 * q)) :: R by simp]
      exact getD_mid _ _ _
    rw [hget, if_neg h0, mseo_msg_byte, mdo_msg_byte,
      Nat.mod_eq_of_lt (show cur / 2 ^ (6 * q) < 64 by omega), hor, hbits, hpos,
      show P ++ ((digits 6 q cur).map (msg_byte 0) ++ [msg_byte 0 (cur / 2 ^ (6 * q))]) ++ R =
        (P ++ (digits 6 q cur).map (msg_byte 0)) ++ msg_byte 0 (cur / 2 ^ (6 * q)) :: R by simp, set_mid, hd]
    simp only [Nat.sub_self, List.drop_zero, List.append_assoc, List.singleton_append, Nat.zero_mod, msg_byte_mod]

/-- `pack_bits` adds a field above the `nb` bits of the open group. -/
theorem pack_bits_loop_spec (fuel : Nat) : ∀ {P R : List UInt8} {nb cur v bits : Nat}, 0 < bits → bits ≤ fuel →
    v < 2 ^ bits → cur < 2 ^ nb → digitCount 6 (nb + bits) - digitCount 6 nb ≤ R.length →
    pack_bits_loop fuel (P ++ bitBytes nb cur ++ R) (6 * P.length + nb) v bits =
      P ++ bitBytes (nb + bits) (cur + 2 ^ nb * v) ++ R.drop (digitCount 6 (nb + bits) - digitCount 6 nb) := by
  induction fuel with
  | zero => intro P R nb cur v bits h0 hf; omega
  | succ fuel ih =>
    intro P R nb cur v bits h0 hf hv hcur hR
    obtain ⟨q, shift, hs, rfl⟩ : ∃ q shift, shift < 6 ∧ nb = 6 * q + shift :=
      ⟨nb / 6, nb % 6, Nat.mod_lt _ (by decide), (Nat.div_add_mod nb 6).symm⟩
    have hbyte : (6 * P.length + (6 * q + shift)) / MDO_BITS = P.length + q := by simp only [MDO_BITS]; omega
    have hshift : (6 * P.length + (6 * q + shift)) % MDO_BITS = shift := by simp only [MDO_BITS]; omega
    have hdc : digitCount 6 (6 * q + shift) = if shift = 0 then q else q + 1 := by
      simp only [digitCount]; split <;> omega
    have hdc6 : digitCount 6 (6 * q + 6) = q + 1 := by simp only [digitCount]; omega
    have hle : q + 1 ≤ digitCount 6 (6 * q + shift + bits) := by simp only [digitCount]; omega
    have hne : digitCount 6 (6 * q + shift) = q → R ≠ [] := by
      rintro h rfl
      simp only [List.length_nil] at hR
      omega
    have hround := round_byte (P := P) (v := v) hs hcur hne
    dsimp only at hround
    simp only [pack_bits_loop, hbyte, hshift, hround]
    rw [show MDO_BITS = 6 from rfl]
    by_cases hav : 6 - shift ≥ bits
    · have hdc' : digitCount 6 (6 * q + shift + bits) = q + 1 := by
        simp only [digitCount]; omega
      rw [if_pos hav, bitBytes, bitBytes, hdc6, hdc']
    · rw [if_neg hav]
      generalize hN : cur + 2 ^ (6 * q + shift) * v = N
      have hlow : bitBytes (6 * q + 6) N = bitBytes (6 * q + 6) (N % 2 ^ (6 * q + 6)) := by
        conv_lhs => rw [← Nat.mod_add_div N (2 ^ (6 * q + 6))]
        rw [bitBytes, bitBytes, hdc6, show 6 * q + 6 = 6 * (q + 1) by ring, digits_add]
      have hhigh : N / 2 ^ (6 * q + 6) = v >>> (6 - shift) := by
        rw [Nat.shiftRight_eq_div_pow, show 6 * q + 6 = 6 * q + shift + (6 - shift) by omega,
          Nat.pow_add, ← Nat.div_div_eq_div_mul, ← hN, Nat.add_mul_div_left _ _ (Nat.two_pow_pos _),
          Nat.div_eq_of_lt hcur, Nat.zero_add]
      have hv' : v >>> (6 - shift) < 2 ^ (bits - (6 - shift)) := by
        rw [Nat.shiftRight_eq_div_pow]
        refine Nat.div_lt_of_lt_mul ?_
        rw [← Nat.pow_add, show 6 - shift + (bits - (6 - shift)) = bits by omega]
        exact hv
      have hoff : 6 * P.length + (6 * q + shift) + (6 - shift) = 6 * P.length + (6 * q + 6) := by
        omega
      have hsum : 6 * q + 6 + (bits - (6 - shift)) = 6 * q + shift + bits := by omega
      have hlen : digitCount 6 (6 * q + 6 + (bits - (6 - shift))) - digitCount 6 (6 * q + 6) ≤
          (R.drop (q + 1 - digitCount 6 (6 * q + shift))).length := by
        rw [hsum, hdc6, List.length_drop]
        rw [hdc] at hR ⊢
        split_ifs at hR ⊢ <;> omega
      rw [hlow, hoff, ih (by omega) (by omega) hv'
        (Nat.mod_lt _ (Nat.two_pow_pos _)) hlen, hsum, hdc6, List.drop_drop, ← hhigh, Nat.mod_add_div]
      congr 2
      rw [hdc] at hR ⊢
      split <;> omega

theorem pack_bits_spec {P R : List UInt8} {nb cur v bits : Nat} (hcur : cur < 2 ^ nb)
    (hR : digitCount 6 (nb + bits) - digitCount 6 nb ≤ R.length) :
    pack_bits (P ++ bitBytes nb cur ++ R) (6 * P.length + nb) v bits =
      P ++ bitBytes (nb + bits) (cur + 2 ^ nb * (v % 2 ^ bits)) ++
        R.drop (digitCount 6 (nb + bits) - digitCount 6 nb) := by
  unfold pack_bits
  split
  · rename_i h
    simp [h, Nat.mod_one]
  · exact pack_bits_loop_spec bits (by omega) (Nat.le_refl _) (Nat.mod_lt _ (Nat.two_pow_pos _)) hcur hR

/-! ## Tokens -/

/-- What the encoder writes one after the other: a bit field, or the end of a group. -/
inductive Token where
  | field (bits value : Nat)
  | stop

/-- The groups of a list of tokens. The last one is open. -/
def groups : List Token → List (List Field)
  | [] => [[]]
  | .field b v :: ts => ((b, v) :: (groups ts).headD []) :: (groups ts).tail
  | .stop :: ts => [] :: groups ts

theorem groups_snoc (ts : List Token) : ∃ cl g, groups ts = cl ++ [g] ∧
    (∀ b v, groups (ts ++ [.field b v]) = cl ++ [g ++ [(b, v)]]) ∧ groups (ts ++ [.stop]) = cl ++ [g, []] := by
  induction ts with
  | nil => exact ⟨[], [], rfl, fun _ _ => rfl, rfl⟩
  | cons t ts ih =>
    obtain ⟨cl, g, h, hf, hs⟩ := ih
    cases t with
    | field b v =>
      cases cl with
      | nil => exact ⟨[], (b, v) :: g, by simp [groups, h], fun c w => by simp [groups, hf], by simp [groups, hs]⟩
      | cons c cl =>
        exact ⟨((b, v) :: c) :: cl, g, by simp [groups, h], fun c w => by simp [groups, hf], by simp [groups, hs]⟩
    | stop => exact ⟨[] :: cl, g, by simp [groups, h], fun c w => by simp [groups, hf], by simp [groups, hs]⟩

/-- The encoder's `bit_offset` after these groups. -/
def bitLen (gs : List (List Field)) : Nat := 6 * (closedBytes gs.dropLast).length + width (gs.getLast?.getD [])

@[simp] theorem bitLen_snoc (cl : List (List Field)) (g : List Field) :
    bitLen (cl ++ [g]) = 6 * (closedBytes cl).length + width g := by
  simp [bitLen]

@[simp] theorem groupBytes_snoc (cl : List (List Field)) (g : List Field) :
    groupBytes (cl ++ [g]) = closedBytes cl ++ openBytes g := by
  simp [groupBytes]

theorem closedBytes_snoc (cl : List (List Field)) (g : List Field) :
    closedBytes (cl ++ [g]) = closedBytes cl ++ endMark 1 (openBytes g) := by
  simp [closedBytes]

theorem bitLen_stop {cl : List (List Field)} {g : List Field} :
    bitLen (cl ++ [g, []]) = 6 * ((closedBytes cl).length + digitCount 6 (width g)) := by
  rw [show cl ++ [g, []] = (cl ++ [g]) ++ [[]] by simp, bitLen_snoc, closedBytes_snoc]
  simp [openBytes, width]

theorem bitLen_token (ts : List Token) (t : Token) : bitLen (groups ts) ≤ bitLen (groups (ts ++ [t])) := by
  obtain ⟨cl, g, h, hf, hs⟩ := groups_snoc ts
  have hle := le_digitCount_mul 6 (width g) (by decide)
  cases t with
  | field b v => rw [h, hf, bitLen_snoc, bitLen_snoc, width_append]; omega
  | stop => rw [h, hs, bitLen_stop, bitLen_snoc]; omega

theorem bitLen_mono (ts us : List Token) : bitLen (groups ts) ≤ bitLen (groups (ts ++ us)) := by
  induction us generalizing ts with
  | nil => simp
  | cons u us ih =>
    have := ih (ts ++ [u])
    rw [List.append_assoc, List.singleton_append] at this
    exact Nat.le_trans (bitLen_token ts u) this

theorem groupBytes_length (ts : List Token) :
    6 * (groupBytes (groups ts)).length < bitLen (groups ts) + 6 ∧
      bitLen (groups ts) ≤ 6 * (groupBytes (groups ts)).length := by
  obtain ⟨cl, g, h, -, -⟩ := groups_snoc ts
  have h1 := le_digitCount_mul 6 (width g) (by decide)
  have h2 := digitCount_mul_lt 6 (width g) (by decide)
  rw [h, groupBytes_snoc, bitLen_snoc, List.length_append, openBytes, bitBytes_length]
  omega

/-- Complete groups end with MSEO 1. -/
theorem endMark_closedBytes (cl : List (List Field)) : endMark 1 (closedBytes cl) = closedBytes cl := by
  induction cl using List.reverseRecOn with
  | nil => rfl
  | append_singleton cl g ih =>
    rw [closedBytes_snoc]
    by_cases h : endMark 1 (openBytes g) = []
    · rw [h, List.append_nil, ih]
    · rw [endMark_append _ _ _ h, endMark_endMark]

/-! ## The encoder's progress -/

section Progress
variable (buffer : List UInt8) (limit : Nat)

/-- The encoder has written the tokens `ts` and left the rest of `buffer` alone. -/
structure Wrote (ts : List Token) (st : EncState) : Prop where
  buffer_eq : st.buffer = groupBytes (groups ts) ++ buffer.drop (groupBytes (groups ts)).length
  offset_eq : st.bit_offset = bitLen (groups ts)

/-- `x` writes the tokens `us`, or reports that they do not fit. -/
def Emits (x : Enc Unit) (us : List Token) : Prop :=
  ∀ ts st, 0 < bitLen (groups ts) → bitLen (groups ts) ≤ 6 * limit → Wrote buffer ts st →
    if bitLen (groups (ts ++ us)) ≤ 6 * limit then ∃ st', x st = some (.ok (), st') ∧ Wrote buffer (ts ++ us) st'
    else ∃ st', x st = some (.error .stream_truncate, st')

variable {buffer limit}

theorem emits_nil : Emits buffer limit (pure ()) [] := by
  intro ts st _ hle hw
  rw [List.append_nil, if_pos hle]
  exact ⟨st, rfl, hw⟩

theorem emits_bind {x y : Enc Unit} {us vs : List Token} (hx : Emits buffer limit x us)
    (hy : Emits buffer limit y vs) : Emits buffer limit (x >>= fun _ => y) (us ++ vs) := by
  intro ts st h0 hle hw
  have h1 := hx ts st h0 hle hw
  have hm := bitLen_mono (ts ++ us) vs
  rw [List.append_assoc] at hm
  by_cases hfit : bitLen (groups (ts ++ us)) ≤ 6 * limit
  · rw [if_pos hfit] at h1
    obtain ⟨st₁, hx₁, hw₁⟩ := h1
    have h2 := hy (ts ++ us) st₁ (Nat.lt_of_lt_of_le h0 (bitLen_mono ts us)) hfit hw₁
    rwa [List.append_assoc, ← Proc.bind_ok (f := fun _ => y) hx₁] at h2
  · rw [if_neg hfit] at h1
    obtain ⟨st₁, hx₁⟩ := h1
    rw [if_neg (by omega)]
    exact ⟨st₁, Proc.bind_error hx₁⟩

/-- The tokens of an optional part. -/
def Token.opt (p : Bool) (us : List Token) : List Token := if p then us else []

theorem emits_when {p : Bool} {x : Enc Unit} {us : List Token} (hx : Emits buffer limit x us) :
    Emits buffer limit (Proc.when p x) (Token.opt p us) := by
  cases p
  · exact emits_nil
  · exact hx

theorem pack_field_spec (hlim : limit ≤ buffer.length) (b v : Nat) (ts : List Token) (st : EncState)
    (hw : Wrote buffer ts st) :
    if bitLen (groups (ts ++ [.field b v])) ≤ 6 * limit then
      ∃ st', PACK_FIELD limit b v st = some (.ok (), st') ∧ Wrote buffer (ts ++ [.field b v]) st'
    else ∃ st', PACK_FIELD limit b v st = some (.error .stream_truncate, st') := by
  obtain ⟨cl, g, h, hf, -⟩ := groups_snoc ts
  have hb : bitLen (groups (ts ++ [.field b v])) = st.bit_offset + b := by
    rw [hw.offset_eq, h, hf, bitLen_snoc, bitLen_snoc, width_append]; simp [width]; omega
  rw [hb]
  have hoff : st.bit_offset = 6 * (closedBytes cl).length + width g := by rw [hw.offset_eq, h, bitLen_snoc]
  have hbuf : st.buffer = closedBytes cl ++ bitBytes (width g) (pack g) ++
      buffer.drop ((closedBytes cl).length + digitCount 6 (width g)) := by
    rw [hw.buffer_eq, h, groupBytes_snoc, List.length_append, openBytes, bitBytes_length]
  by_cases hfit : st.bit_offset + b ≤ 6 * limit
  · rw [if_pos hfit]
    have hd := digitCount_mul_lt 6 (width g + b) (by decide)
    have hmono : digitCount 6 (width g) ≤ digitCount 6 (width g + b) := Nat.div_le_div_right (by omega)
    have hR : digitCount 6 (width g + b) - digitCount 6 (width g) ≤
        (buffer.drop ((closedBytes cl).length + digitCount 6 (width g))).length := by
      rw [List.length_drop]; omega
    refine ⟨⟨pack_bits st.buffer st.bit_offset v b, st.bit_offset + b⟩, ?_, ?_, by rw [hb]⟩
    · have hok : ¬ st.bit_offset + b > limit * MDO_BITS := by simp only [MDO_BITS]; omega
      simp only [PACK_FIELD, Proc.get_bind_apply, Proc.ite_apply, if_neg hok, Proc.modify_apply]
    · have hp : pack (g ++ [(b, v)]) = pack g + 2 ^ width g * (v % 2 ^ b) := by
        rw [pack_append]; simp [pack]
      rw [hbuf, hoff, pack_bits_spec (pack_lt g) hR, hf, groupBytes_snoc, openBytes, hp, width_append,
        show width [(b, v)] = b by simp [width], List.length_append, bitBytes_length, List.drop_drop,
        show (closedBytes cl).length + digitCount 6 (width g) + (digitCount 6 (width g + b) - digitCount 6 (width g)) =
          (closedBytes cl).length + digitCount 6 (width g + b) by omega]
  · rw [if_neg hfit]
    have hbad : st.bit_offset + b > limit * MDO_BITS := by simp only [MDO_BITS]; omega
    exact ⟨st, by simp only [PACK_FIELD, Proc.get_bind_apply, Proc.ite_apply, if_pos hbad, Proc.fail_apply]⟩

theorem emits_field (hlim : limit ≤ buffer.length) (b v : Nat) :
    Emits buffer limit (PACK_FIELD limit b v) [.field b v] :=
  fun ts st _ _ hw => pack_field_spec hlim b v ts st hw

/-- `END_FIELD` marks the last byte written. -/
theorem end_field_apply {ts : List Token} {st : EncState} (m : Nat) (h0 : 0 < bitLen (groups ts))
    (hw : Wrote buffer ts st) :
    END_FIELD m st = some (.ok (), ⟨endMark m (groupBytes (groups ts)) ++
      buffer.drop (groupBytes (groups ts)).length, 6 * (groupBytes (groups ts)).length⟩) := by
  obtain ⟨h1, h2⟩ := groupBytes_length ts
  have hbyte : (st.bit_offset + MDO_BITS - 1) / MDO_BITS = (groupBytes (groups ts)).length := by
    rw [hw.offset_eq]; simp only [MDO_BITS]; omega
  have hlt : (groupBytes (groups ts)).length - 1 < (groupBytes (groups ts)).length := by omega
  simp only [END_FIELD, Proc.modify_apply, hbyte]
  rw [hw.buffer_eq, List.getD_append _ _ _ _ hlt, List.set_append_left _ _ hlt, Nat.mul_comm]
  rfl

theorem emits_stop : Emits buffer limit (END_FIELD 1) [.stop] := by
  intro ts st h0 hle hw
  obtain ⟨cl, g, h, -, hs⟩ := groups_snoc ts
  have hlt := digitCount_mul_lt 6 (width g) (by decide)
  have hbit : bitLen (groups ts) = 6 * (closedBytes cl).length + width g := by rw [h, bitLen_snoc]
  rw [if_pos (by rw [hs, bitLen_stop]; omega)]
  refine ⟨_, end_field_apply 1 h0 hw, ?_, ?_⟩
  · have hbytes : groupBytes (groups (ts ++ [.stop])) = endMark 1 (groupBytes (groups ts)) := by
      rw [h, hs, show cl ++ [g, []] = (cl ++ [g]) ++ [[]] by simp, groupBytes_snoc, groupBytes_snoc, closedBytes_snoc]
      by_cases hg : openBytes g = []
      · rw [hg, List.append_nil, endMark_closedBytes]
        simp [endMark, openBytes_eq_nil.2 (show width ([] : List Field) = 0 from rfl)]
      · rw [endMark_append _ _ _ hg, openBytes_eq_nil.2 (show width ([] : List Field) = 0 from rfl), List.append_nil]
    rw [hbytes, endMark_length]
  · rw [hs, bitLen_stop, h, groupBytes_snoc, List.length_append, openBytes, bitBytes_length]

/-- As `Emits`, at the start of a group. -/
def EmitsAligned (buffer : List UInt8) (limit : Nat) (x : Enc Unit) (us : List Token) : Prop :=
  ∀ ts st, 0 < bitLen (groups ts) → bitLen (groups ts) ≤ 6 * limit → bitLen (groups ts) % 6 = 0 → Wrote buffer ts st →
    if bitLen (groups (ts ++ us)) ≤ 6 * limit then ∃ st', x st = some (.ok (), st') ∧ Wrote buffer (ts ++ us) st'
    else ∃ st', x st = some (.error .stream_truncate, st')

theorem Emits.aligned {x : Enc Unit} {us : List Token} (h : Emits buffer limit x us) : EmitsAligned buffer limit x us :=
  fun ts st h0 hle _ hw => h ts st h0 hle hw

theorem EmitsAligned.bind {x y : Enc Unit} {us vs : List Token} (hx : EmitsAligned buffer limit x us)
    (hy : Emits buffer limit y vs) : EmitsAligned buffer limit (x >>= fun _ => y) (us ++ vs) := by
  intro ts st h0 hle ha hw
  have hm := bitLen_mono (ts ++ us) vs
  rw [List.append_assoc] at hm
  have h1 := hx ts st h0 hle ha hw
  by_cases hfit : bitLen (groups (ts ++ us)) ≤ 6 * limit
  · rw [if_pos hfit] at h1
    obtain ⟨st₁, hx₁, hw₁⟩ := h1
    have h2 := hy (ts ++ us) st₁ (Nat.lt_of_lt_of_le h0 (bitLen_mono ts us)) hfit hw₁
    rwa [List.append_assoc, ← Proc.bind_ok (f := fun _ => y) hx₁] at h2
  · rw [if_neg hfit] at h1
    obtain ⟨st₁, hx₁⟩ := h1
    rw [if_neg (by omega)]
    exact ⟨st₁, Proc.bind_error hx₁⟩

theorem EmitsAligned.when {p : Bool} {x : Enc Unit} {us : List Token} (hx : EmitsAligned buffer limit x us) :
    EmitsAligned buffer limit (Proc.when p x) (Token.opt p us) := by
  cases p
  · exact emits_nil.aligned
  · exact hx

/-- What follows the end of a group starts a group. -/
theorem EmitsAligned.after_stop {y : Enc Unit} {vs : List Token} (hy : EmitsAligned buffer limit y vs) :
    Emits buffer limit (END_FIELD 1 >>= fun _ => y) (.stop :: vs) := by
  intro ts st h0 hle hw
  have h1 := emits_stop ts st h0 hle hw
  obtain ⟨cl, g, h, -, hs⟩ := groups_snoc ts
  have hlt := digitCount_mul_lt 6 (width g) (by decide)
  have hbit : bitLen (groups ts) = 6 * (closedBytes cl).length + width g := by rw [h, bitLen_snoc]
  have hfit : bitLen (groups (ts ++ [.stop])) ≤ 6 * limit := by rw [hs, bitLen_stop]; omega
  rw [if_pos hfit] at h1
  obtain ⟨st₁, hx₁, hw₁⟩ := h1
  have h2 := hy (ts ++ [.stop]) st₁ (Nat.lt_of_lt_of_le h0 (bitLen_mono ts _)) hfit
    (by rw [hs, bitLen_stop]; omega) hw₁
  rwa [List.append_assoc, List.singleton_append, ← Proc.bind_ok (f := fun _ => y) hx₁] at h2

/-! ## The layout of each message -/

/-- `PACK_VAR` and `PACK_VAR_REQ`. -/
def varTokens (v : Nat) : List Token := [.field (64 - clzg v 64) v, .stop]
def reqTokens (v : Nat) : List Token := [.field (64 - clzg v 63) v, .stop]
def xaddrTokens (vao : Bool) (v : Nat) : List Token := if vao then [.field (xaddr_vao_bits 0 v) v, .stop] else reqTokens v

theorem emits_var (hlim : limit ≤ buffer.length) (v : Nat) : Emits buffer limit (PACK_VAR limit v) (varTokens v) :=
  emits_bind (emits_field hlim _ _) emits_stop

theorem emits_req (hlim : limit ≤ buffer.length) (v : Nat) : Emits buffer limit (PACK_VAR_REQ limit v) (reqTokens v) :=
  emits_bind (emits_field hlim _ _) emits_stop

/-- A required field, and then something that starts a group. -/
theorem emits_req_bind (hlim : limit ≤ buffer.length) (v : Nat) {y : Enc Unit} {vs : List Token}
    (hy : EmitsAligned buffer limit y vs) : Emits buffer limit (PACK_VAR_REQ limit v >>= fun _ => y) (reqTokens v ++ vs) := by
  have h := emits_bind (emits_field hlim (64 - clzg v 63) v) hy.after_stop
  intro ts st h0 hle hw
  have := h ts st h0 hle hw
  rwa [PACK_VAR_REQ, Proc.bind_assoc_apply]

theorem xaddr_vao_bits_aligned {k : Nat} (v : Nat) (h : k % 6 = 0) : xaddr_vao_bits k v = xaddr_vao_bits 0 v := by
  have e : ∀ b, (k + b + MDO_BITS - 1) / MDO_BITS * MDO_BITS - k = (0 + b + MDO_BITS - 1) / MDO_BITS * MDO_BITS - 0 := by
    intro b; simp only [MDO_BITS]; omega
  simp only [xaddr_vao_bits, e]

theorem emits_xaddr_vao (hlim : limit ≤ buffer.length) (v : Nat) :
    EmitsAligned buffer limit (PACK_XADDR_VAO limit v) [.field (xaddr_vao_bits 0 v) v, .stop] := by
  intro ts st h0 hle ha hw
  have h := emits_bind (emits_field hlim (xaddr_vao_bits 0 v) v) emits_stop ts st h0 hle hw
  rw [PACK_XADDR_VAO, Proc.get_bind_apply, hw.offset_eq, xaddr_vao_bits_aligned v ha]
  exact h

theorem emits_xaddr (hlim : limit ≤ buffer.length) (vao : Bool) (v : Nat) :
    EmitsAligned buffer limit (if vao then PACK_XADDR_VAO limit v else PACK_VAR_REQ limit v) (xaddrTokens vao v) := by
  cases vao
  · exact (emits_req hlim v).aligned
  · exact emits_xaddr_vao hlim v

end Progress

def commonLayout (hwcfg : HwCfg) (m : Msg) : List Token :=
  Token.opt (msg_is_sync m) [.field 4 m.sync_type] ++
  (Token.opt (msg_is_indir_branch m) [.field 2 m.branch_type] ++
  (reqTokens m.icnt.toNat ++
  (Token.opt (msg_has_xaddr m) (xaddrTokens hwcfg.VAO m.xaddr.toNat) ++
  Token.opt (msg_has_hist m) (reqTokens m.hist.toNat))))

def restLayout (m : Msg) : List Token :=
  match m.tcode with
  | .Ownership => [.field 2 m.ownership_fmt] ++ ([.field 2 m.ownership_priv] ++ ([.field 1 m.ownership_v] ++
    varTokens m.context.toNat))
  | .Error => [.field 4 m.error_type] ++ varTokens m.error_code.toNat
  | .ResourceFull => [.field 4 m.res_code] ++
    if m.res_code > 2 then varTokens m.res_data.toNat
    else match m.res_code with
      | 0 => reqTokens m.icnt.toNat
      | 1 => reqTokens m.hist.toNat
      | _ => reqTokens m.hist.toNat ++ reqTokens m.hrepeat.toNat
  | .RepeatBranch => reqTokens m.hrepeat.toNat
  | .ProgTraceCorrelation => [.field 4 m.stop_code] ++ ([.field 2 m.cdf] ++ (reqTokens m.icnt.toNat ++
    Token.opt (m.cdf ≠ 0) (reqTokens m.hist.toNat)))
  | .ICT => [.field 4 m.cksrc] ++ ([.field 2 m.ckdf] ++ (reqTokens m.ckdata0 ++ reqTokens m.ckdata1.toNat))
  | _ => []

def timestampLayout (hwcfg : HwCfg) (m : Msg) : List Token :=
  Token.opt (hwcfg.ts_bits ≠ 0) (if msg_is_sync m then reqTokens m.timestamp.toNat else varTokens m.timestamp.toNat)

def bodyLayout (hwcfg : HwCfg) (m : Msg) : List Token :=
  Token.opt (hwcfg.src_bits ≠ 0) [.field hwcfg.src_bits m.src.toNat] ++
    ((if common_tcode m then commonLayout hwcfg m else restLayout m) ++ timestampLayout hwcfg m)

/-- The bit fields and groups of a message. -/
def layout (hwcfg : HwCfg) (m : Msg) : List Token :=
  [.field 6 m.tcode.code] ++ Token.opt (m.tcode ≠ .Idle) (bodyLayout hwcfg m)

/-- The messages the encoder has a case for. -/
def encodable (m : Msg) : Bool :=
  match m.tcode with
  | .DataAcquisition => false
  | .ICT => msg_known m && m.ckdf ≤ 1
  | _ => msg_known m

/-! ## The encoder writes the layout -/

section Spec
variable {buffer : List UInt8} {limit : Nat}

theorem emits_common (hlim : limit ≤ buffer.length) (hwcfg : HwCfg) (m : Msg) (hi : msg_has_icnt m) :
    Emits buffer limit (encode_common hwcfg limit m) (commonLayout hwcfg m) := by
  have hassert : ∀ y : Enc Unit, (Proc.assert (msg_has_icnt m) >>= fun _ => y) = y := by
    intro y; funext s; simp [hi]
  unfold encode_common commonLayout
  rw [hassert]
  refine emits_bind (emits_when (emits_field hlim _ _)) (emits_bind (emits_when (emits_field hlim _ _)) ?_)
  exact emits_req_bind hlim _ ((emits_xaddr hlim _ _).when.bind (emits_when (emits_req hlim _)))

theorem emits_rest (hlim : limit ≤ buffer.length) (m : Msg) (hm : encodable m) (hc : common_tcode m = false)
    (hidle : m.tcode ≠ .Idle) : Emits buffer limit (encode_rest limit m) (restLayout m) := by
  unfold encode_rest restLayout
  cases ht : m.tcode with
  | Ownership => exact emits_bind (emits_field hlim _ _) (emits_bind (emits_field hlim _ _)
      (emits_bind (emits_field hlim _ _) (emits_var hlim _)))
  | Error => exact emits_bind (emits_field hlim _ _) (emits_var hlim _)
  | ResourceFull =>
    refine emits_bind (emits_field hlim _ _) ?_
    split
    · exact emits_var hlim _
    · rcases m.res_code with _ | _ | _
      · exact emits_req hlim _
      · exact emits_req hlim _
      · exact emits_bind (emits_req hlim _) (emits_req hlim _)
  | RepeatBranch => exact emits_req hlim _
  | ProgTraceCorrelation =>
    have hcdf : ¬ m.cdf > 1 := by simp [encodable, msg_known, ht] at hm; omega
    refine emits_bind (emits_field hlim _ _) (emits_bind (emits_field hlim _ _) (emits_bind (emits_req hlim _) ?_))
    rw [if_neg hcdf]
    exact emits_when (emits_req hlim _)
  | ICT =>
    have hckdf : ¬ m.ckdf > 1 := by simp [encodable, ht] at hm; omega
    refine emits_bind (emits_field hlim _ _) (emits_bind (emits_field hlim _ _) (emits_bind (emits_req hlim _) ?_))
    rw [if_neg hckdf]
    exact emits_req hlim _
  | Idle => exact absurd ht hidle
  | DirectBranch | DirectBranchSync | IndirectBranch | IndirectBranchSync | IndirectBranchHist
  | IndirectBranchHistSync | ProgTraceSync => simp [common_tcode, ht] at hc
  | DataAcquisition | other => simp [encodable, msg_known, ht] at hm

theorem has_icnt_of_common {m : Msg} (h : common_tcode m) : msg_has_icnt m := by
  unfold common_tcode at h
  unfold msg_has_icnt
  split at h <;> simp_all

theorem encodable_known {m : Msg} (h : encodable m) : msg_known m := by
  unfold encodable at h
  split at h <;> simp_all

theorem emits_body (hlim : limit ≤ buffer.length) (hwcfg : HwCfg) (m : Msg) (hm : encodable m) (hidle : m.tcode ≠ .Idle) :
    Emits buffer limit (encode_body hwcfg limit m) (bodyLayout hwcfg m) := by
  refine emits_bind (emits_when (emits_field hlim _ _)) (emits_bind ?_ (emits_when ?_))
  · by_cases hc : common_tcode m
    · rw [if_pos hc, if_pos hc]; exact emits_common hlim hwcfg m (has_icnt_of_common hc)
    · rw [if_neg hc, if_neg hc]; exact emits_rest hlim m hm (by simpa using hc) hidle
  · split
    · exact emits_req hlim _
    · exact emits_var hlim _

theorem encode_msg_eq (hwcfg : HwCfg) (limit : Nat) {m : Msg} (hk : msg_known m) :
    encode_msg hwcfg limit m = (PACK_FIELD limit 6 m.tcode.code >>= fun _ =>
      Proc.when (m.tcode ≠ .Idle) (encode_body hwcfg limit m) >>= fun _ =>
      END_FIELD 3 >>= fun _ => Proc.get >>= fun s => pure (s.bit_offset / MDO_BITS)) := by
  simp only [encode_msg, hk, Bool.not_true, Bool.false_eq_true, if_false]
  rfl

/-- The encoder leaves the frame of the message's layout at the start of the
buffer and nothing else, or reports that the frame does not fit. -/
theorem msg_encode_spec (hlim : limit ≤ buffer.length) (hwcfg : HwCfg) (m : Msg) (hm : encodable m) :
    let bytes := frame (groups (layout hwcfg m))
    if bytes.length ≤ limit then
      msg_encode hwcfg buffer limit m = some (.ok bytes.length, bytes ++ buffer.drop bytes.length)
    else ∃ buffer', msg_encode hwcfg buffer limit m = some (.error .stream_truncate, buffer') := by
  dsimp only
  have hw0 : Wrote buffer [] ⟨buffer, 0⟩ := by
    constructor <;> simp [groups, groupBytes, closedBytes, openBytes, bitBytes, width, digitCount, digits, bitLen]
  have hfield := pack_field_spec hlim 6 m.tcode.code [] ⟨buffer, 0⟩ hw0
  rw [List.nil_append] at hfield
  have hlen : bitLen (groups [.field 6 m.tcode.code]) = 6 := by simp [groups, bitLen, closedBytes, width]
  have hrest : Emits buffer limit (Proc.when (m.tcode ≠ .Idle) (encode_body hwcfg limit m))
      (Token.opt (m.tcode ≠ .Idle) (bodyLayout hwcfg m)) := by
    by_cases hidle : m.tcode = .Idle
    · simp only [hidle, ne_eq, not_true_eq_false, decide_false]
      exact emits_nil
    · exact emits_when (emits_body hlim hwcfg m hm hidle)
  have hlay : [.field 6 m.tcode.code] ++ Token.opt (m.tcode ≠ .Idle) (bodyLayout hwcfg m) = layout hwcfg m := rfl
  obtain ⟨hl1, hl2⟩ := groupBytes_length (layout hwcfg m)
  have hframe : (frame (groups (layout hwcfg m))).length = (groupBytes (groups (layout hwcfg m))).length := by simp [frame]
  have hmono := bitLen_mono [.field 6 m.tcode.code] (Token.opt (m.tcode ≠ .Idle) (bodyLayout hwcfg m))
  rw [hlay] at hmono
  rw [hframe]
  by_cases hfit : (groupBytes (groups (layout hwcfg m))).length ≤ limit
  · rw [if_pos hfit]
    rw [if_pos (by omega)] at hfield
    obtain ⟨st₁, h₁, hw₁⟩ := hfield
    have h2 := hrest _ st₁ (by omega) (by omega) hw₁
    rw [hlay, if_pos (by omega)] at h2
    obtain ⟨st₂, h₂, hw₂⟩ := h2
    have h3 := end_field_apply 3 (by omega) hw₂
    simp only [msg_encode, encode_msg_eq hwcfg limit (encodable_known hm), Proc.bind_ok h₁, Proc.bind_ok h₂,
      Proc.bind_ok h3, Proc.get_bind_apply, Proc.pure_apply, Option.map_some, frame]
    rw [Nat.mul_div_cancel_left _ (by decide)]
  · rw [if_neg hfit]
    by_cases h6 : bitLen (groups [.field 6 m.tcode.code]) ≤ 6 * limit
    · rw [if_pos h6] at hfield
      obtain ⟨st₁, h₁, hw₁⟩ := hfield
      have h2 := hrest _ st₁ (by omega) (by omega) hw₁
      rw [hlay, if_neg (by omega)] at h2
      obtain ⟨st₂, h₂⟩ := h2
      exact ⟨st₂.buffer, by simp only [msg_encode, encode_msg_eq hwcfg limit (encodable_known hm), Proc.bind_ok h₁,
        Proc.bind_error h₂, Option.map_some]⟩
    · rw [if_neg h6] at hfield
      obtain ⟨st₁, h₁⟩ := hfield
      exact ⟨st₁.buffer, by simp only [msg_encode, encode_msg_eq hwcfg limit (encodable_known hm), Proc.bind_error h₁,
        Option.map_some]⟩

end Spec

end nexusrv
