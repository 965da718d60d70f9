import Mathlib.Data.UInt
import NexusRv.EncoderBounds
/-!
# The size of a message

Every field is rounded up to whole bytes of six bits, so the size of a message depends on where
its groups end. No message of any type has more than `NEXUS_RV_MSG_MAX_BYTES`, with at most 16
bits of SRC.
-/

namespace nexusrv

open Fields

/-- Maximum standard Message size in raw bytes -/
def NEXUS_RV_MSG_MAX_BYTES : Nat := 38

/-! ## The room that tokens take -/

/-- The bits up to the end of the byte. -/
def next_byte (n : Nat) : Nat := (n + 5) / 6 * 6

/-- `bit_offset` behind a token. -/
def Token.room (n : Nat) : Token → Nat
  | .field bits _ => n + bits
  | .stop => next_byte n

theorem bitLen_room (ts : List Token) (t : Token) : bitLen (groups (ts ++ [t])) = t.room (bitLen (groups ts)) := by
  obtain ⟨cl, g, h, hf, hs⟩ := groups_snoc ts
  cases t with
  | field b v =>
    rw [h, hf, bitLen_snoc, bitLen_snoc, width_append, Token.room, Nat.add_assoc]
    rfl
  | stop =>
    rw [h, hs, bitLen_stop, bitLen_snoc, Token.room, next_byte, digitCount]
    omega

/-- From `a` bits on, the tokens come to `b` bits at most. -/
def Reaches (us : List Token) (a b : Nat) : Prop := ∀ n ≤ a, us.foldl Token.room n ≤ b

section Reaches
variable {us vs : List Token} {a b c v w : Nat}

theorem Reaches.append (h : Reaches us a b) (h' : Reaches vs b c) : Reaches (us ++ vs) a c := by
  intro n hn
  rw [List.foldl_append]
  exact h' _ (h n hn)

theorem reaches_nil (hle : a ≤ b) : Reaches [] a b := fun _ hn => Nat.le_trans hn hle

theorem Reaches.opt (h : Reaches us a b) (hle : a ≤ b) (p : Bool) : Reaches (Token.opt p us) a b := by
  cases p with
  | false => exact reaches_nil hle
  | true => exact h

theorem reaches_field (hle : a + w ≤ b) : Reaches [.field w v] a b := fun _ hn => Nat.le_trans (Nat.add_le_add_right hn w) hle

theorem reaches_group (hle : next_byte (a + w) ≤ b) : Reaches [.field w v, .stop] a b := by
  intro n hn
  change next_byte (n + w) ≤ b
  unfold next_byte at *
  omega

theorem reaches_var (hv : v < 2 ^ w) (hw : w ≤ 64) (hle : next_byte (a + w) ≤ b) : Reaches (varTokens v) a b := by
  have h64 : v < 2 ^ 64 := Nat.lt_of_lt_of_le hv (Nat.pow_le_pow_right (by decide) hw)
  have hbits : 64 - clzg v 64 ≤ w := clzg_le hv h64 (Nat.zero_le w)
  refine reaches_group ?_
  unfold next_byte at *
  omega

theorem reaches_req (hv : v < 2 ^ w) (hw : 1 ≤ w ∧ w ≤ 64) (hle : next_byte (a + w) ≤ b) : Reaches (reqTokens v) a b := by
  have h64 : v < 2 ^ 64 := Nat.lt_of_lt_of_le hv (Nat.pow_le_pow_right (by decide) hw.2)
  have hbits : 64 - clzg v 63 ≤ w := clzg_le hv h64 hw.1
  refine reaches_group ?_
  unfold next_byte at *
  omega

theorem xaddr_vao_bits_cap (n xaddr : Nat) : xaddr_vao_bits n xaddr ≤ 64 := by
  have hcap : ∀ k, (if k > 64 then 64 else k) ≤ 64 := fun k => by split <;> omega
  exact hcap _

theorem reaches_xaddr (vao : Bool) (hv : v < 2 ^ 64) (hle : next_byte (a + 64) ≤ b) : Reaches (xaddrTokens vao v) a b := by
  cases vao with
  | false => exact reaches_req hv (by decide) hle
  | true =>
    have hbits := xaddr_vao_bits_cap 0 v
    refine reaches_group ?_
    unfold next_byte at *
    omega

end Reaches

theorem reaches_bitLen {us : List Token} {b : Nat} (h : Reaches us 0 b) : bitLen (groups us) ≤ b := by
  have hall : ∀ us : List Token, us.foldl Token.room 0 = bitLen (groups us) := by
    intro us
    induction us using List.reverseRecOn with
    | nil => rfl
    | append_singleton us t ih => rw [List.foldl_append, ih, bitLen_room, List.foldl_cons, List.foldl_nil]
  rw [← hall]
  exact h 0 (Nat.le_refl 0)

/-! ## The messages -/

section Sizes
variable {hwcfg : HwCfg} (m : Msg)

theorem reaches_src (hsrc : hwcfg.src_bits ≤ 16) (v : Nat) : Reaches (Token.opt (hwcfg.src_bits ≠ 0) [.field hwcfg.src_bits v]) 6 22 :=
  Reaches.opt (reaches_field (by omega)) (by omega) _

/-- I-CNT, X-ADDR and HIST, one group each. -/
theorem reaches_common : Reaches (commonLayout hwcfg m) 22 162 := by
  have hsync : Reaches (Token.opt (msg_is_sync m) [.field 4 m.sync_type]) 22 26 := (reaches_field (by decide)).opt (by decide) _
  have hbtype : Reaches (Token.opt (msg_is_indir_branch m) [.field 2 m.branch_type]) 26 28 := (reaches_field (by decide)).opt (by decide) _
  have hicnt : Reaches (reqTokens m.icnt.toNat) 28 60 := reaches_req m.icnt.toNat_lt (by decide) (by decide)
  have hxaddr : Reaches (Token.opt (msg_has_xaddr m) (xaddrTokens hwcfg.VAO m.xaddr.toNat)) 60 126 :=
    (reaches_xaddr _ m.xaddr.toNat_lt (by decide)).opt (by decide) _
  have hhist : Reaches (Token.opt (msg_has_hist m) (reqTokens m.hist.toNat)) 126 162 :=
    (reaches_req m.hist.toNat_lt (by decide) (by decide)).opt (by decide) _
  exact hsync.append (hbtype.append (hicnt.append (hxaddr.append hhist)))

/-- The other messages; an ICT message is as long as a branch with address and history. -/
theorem reaches_rest : Reaches (restLayout m) 22 162 := by
  have hicnt : Reaches (reqTokens m.icnt.toNat) 28 60 := reaches_req m.icnt.toNat_lt (by decide) (by decide)
  unfold restLayout
  split
  · refine (reaches_field (b := 24) (by decide)).append ((reaches_field (b := 26) (by decide)).append ?_)
    exact (reaches_field (b := 27) (by decide)).append (reaches_var m.context.toNat_lt (by decide) (by decide))
  · exact (reaches_field (b := 26) (by decide)).append (reaches_var m.error_code.toNat_lt (by decide) (by decide))
  · refine (reaches_field (b := 26) (by decide)).append ?_
    split
    · exact reaches_var m.res_data.toNat_lt (by decide) (by decide)
    · split
      · exact reaches_req m.icnt.toNat_lt (by decide) (by decide)
      · exact reaches_req m.hist.toNat_lt (by decide) (by decide)
      · exact (reaches_req (b := 60) m.hist.toNat_lt (by decide) (by decide)).append
          (reaches_req m.hrepeat.toNat_lt (by decide) (by decide))
  · exact reaches_req m.hrepeat.toNat_lt (by decide) (by decide)
  · refine (reaches_field (b := 26) (by decide)).append ((reaches_field (b := 28) (by decide)).append (hicnt.append ?_))
    exact (reaches_req m.hist.toNat_lt (by decide) (by decide)).opt (by decide) _
  · refine (reaches_field (b := 26) (by decide)).append ((reaches_field (b := 28) (by decide)).append ?_)
    exact (reaches_req (b := 96) (ckdata0_lt m) (by decide) (by decide)).append
      (reaches_req m.ckdata1.toNat_lt (by decide) (by decide))
  · exact reaches_nil (by decide)

theorem reaches_timestamp : Reaches (timestampLayout hwcfg m) 162 228 := by
  refine Reaches.opt ?_ (by decide) _
  split
  · exact reaches_req m.timestamp.toNat_lt (by decide) (by decide)
  · exact reaches_var m.timestamp.toNat_lt (by decide) (by decide)

theorem reaches_layout (hsrc : hwcfg.src_bits ≤ 16) : Reaches (layout hwcfg m) 0 228 := by
  have hbody : Reaches (if common_tcode m then commonLayout hwcfg m else restLayout m) 22 162 := by
    split
    · exact reaches_common m
    · exact reaches_rest m
  refine (reaches_field (b := 6) (by decide)).append (Reaches.opt ?_ (by decide) _)
  exact (reaches_src hsrc _).append (hbody.append (reaches_timestamp m))

theorem reaches_rejected (hsrc : hwcfg.src_bits ≤ 16) : Reaches ([.field 6 m.tcode.code] ++
    (Token.opt (hwcfg.src_bits ≠ 0) [.field hwcfg.src_bits m.src.toNat] ++ rejectedLayout m)) 0 228 := by
  refine (reaches_field (b := 6) (by decide)).append ((reaches_src hsrc _).append ?_)
  unfold rejectedLayout
  split
  · refine (reaches_field (b := 26) (by decide)).append ((reaches_field (b := 28) (by decide)).append ?_)
    exact (reaches_req (b := 96) (ckdata0_lt m) (by decide) (by decide)).append (reaches_nil (by decide))
  · exact reaches_nil (by decide)

/-- A buffer of `NEXUS_RV_MSG_MAX_BYTES` has room for every message: it is encoded, or it is not supported. -/
theorem msg_encode_fits (hsrc : hwcfg.src_bits ≤ 16) {buffer : List UInt8} (hlen : NEXUS_RV_MSG_MAX_BYTES ≤ buffer.length) :
    (∃ n buffer', n ≤ NEXUS_RV_MSG_MAX_BYTES ∧ msg_encode hwcfg buffer NEXUS_RV_MSG_MAX_BYTES m = some (.ok n, buffer')) ∨
      ∃ buffer', msg_encode hwcfg buffer NEXUS_RV_MSG_MAX_BYTES m = some (.error .msg_unsupported, buffer') := by
  cases henc : encodable m with
  | true =>
    left
    have hbits := reaches_bitLen (reaches_layout m hsrc)
    have hbytes := (groupBytes_length (layout hwcfg m)).1
    have hfits : (frame (groups (layout hwcfg m))).length ≤ NEXUS_RV_MSG_MAX_BYTES := by
      rw [frame, endMark_length, NEXUS_RV_MSG_MAX_BYTES]
      omega
    have hspec := msg_encode_spec hlen hwcfg m henc
    dsimp only at hspec
    rw [if_pos hfits] at hspec
    exact ⟨_, _, hfits, hspec⟩
  | false =>
    right
    exact msg_encode_rejects_room hlen henc (reaches_bitLen (reaches_rejected m hsrc))

/-- A branch with sync, address and history takes all of the 38 bytes. -/
example : (frame (groups (layout ⟨16, 40, 64, 0, 0, false, false, false⟩
    ⟨2 ^ 64 - 1, 0, .IndirectBranchHistSync, 0, 2 ^ 32 - 1, 2 ^ 32 - 1, 0, 2 ^ 64 - 1⟩))).length = NEXUS_RV_MSG_MAX_BYTES := by
  decide +kernel

end Sizes

theorem msg_encode_fits_ict :
    (∃ n buffer', n ≤ NEXUS_RV_MSG_MAX_BYTES ∧ msg_encode ⟨16, 40, 64, 0, 0, false, true, false⟩ (List.replicate 38 0)
        NEXUS_RV_MSG_MAX_BYTES ⟨2 ^ 64 - 1, 0, .ICT, 16, 2 ^ 32 - 1, 2 ^ 32 - 1, 2 ^ 32 - 1, 2 ^ 64 - 1⟩ = some (.ok n, buffer')) ∨
      ∃ buffer', msg_encode ⟨16, 40, 64, 0, 0, false, true, false⟩ (List.replicate 38 0) NEXUS_RV_MSG_MAX_BYTES
        ⟨2 ^ 64 - 1, 0, .ICT, 16, 2 ^ 32 - 1, 2 ^ 32 - 1, 2 ^ 32 - 1, 2 ^ 64 - 1⟩ = some (.error .msg_unsupported, buffer') :=
  msg_encode_fits _ (by decide) (by decide)

end nexusrv
