import NexusRv.Stream
import NexusRv.Twins
/-!
# Two decoders at one point of a stream

Where a message decoder without a filter stands in a file, and what its buffer can hold, decides what it delivers. So two of them that
stand at the same place are a pair.
-/

namespace nexusrv

/-! ## The end of the stream -/

section End
variable {d d' : MsgDecoder} {m m' : Msg}

theorem DecoderInv.of_last (h : DecoderInv d) : DecoderInv { d with lastmsg_len := 0 } :=
  ⟨h.pos_le, h.filled_le, h.buffer_len, .inl (Nat.zero_le _)⟩

/-- What a round without a filter returns: it comes to the end only where the buffer is empty, and fills it otherwise. -/
theorem try_again_ok (hinv : DecoderInv d) (hf : d.src_filter < 0) {r : Option Nat} (h : try_again (d, m) = some (.ok r, d', m')) :
    (r = none ∧ d'.pos ≠ d'.filled) ∨ (r = some 0 ∧ m' = m ∧ d.pos = d.filled) ∨ ∃ n, r = some (n + 1) := by
  rw [try_again_eq] at h
  have hinv := hinv.of_last
  change (r = none ∧ _) ∨ (_ ∧ _ ∧ ({ d with lastmsg_len := 0 } : MsgDecoder).pos = ({ d with lastmsg_len := 0 } : MsgDecoder).filled) ∨ _
  change ({ d with lastmsg_len := 0 } : MsgDecoder).src_filter < 0 at hf
  generalize ({ d with lastmsg_len := 0 } : MsgDecoder) = d at h hinv hf
  have hread : ∀ {m₁ : Msg}, read_buffer (d, m₁) = some (.ok r, d', m') →
      (r = none ∧ d'.pos ≠ d'.filled) ∨ (r = some 0 ∧ m' = m₁ ∧ d.pos = d.filled) := by
    intro m₁ h
    simp only [read_buffer, Proc.get_bind_apply, Proc.modify_bind_apply, Proc.ite_apply] at h
    split at h
    · cases h
    · split at h
      · cases h
        have hzero : d.refill.2.pos = 0 := rfl
        exact .inl ⟨rfl, by omega⟩
      · rename_i h0
        cases h
        refine .inr ⟨rfl, rfl, ?_⟩
        have hle := hinv.pos_le
        unfold MsgDecoder.refill at h0
        dsimp only at h0
        split at h0 <;> omega
  unfold round at h
  split at h
  · rename_i heq
    split at h
    · cases h
      exact .inr (.inl ⟨rfl, rfl, heq⟩)
    · exact (hread h).imp_right .inl
  · rename_i hne
    split at h
    · cases h
    · rename_i n m₁ hd
      rw [if_pos (show d.passes m₁ = true by simp [MsgDecoder.passes, hf])] at h
      cases h
      exact .inr (.inr ⟨n - 1, by rw [Nat.sub_add_cancel (msg_decode_ok_pos hd).1]⟩)
    · split at h
      · cases h
      · split at h
        · cases h
        · obtain hr | ⟨-, -, heq⟩ := hread h
          · exact .inl hr
          · exact absurd heq hne

/-- Bytes in the buffer are no end. -/
theorem next_not_end (hinv : DecoderInv d) (hf : d.src_filter < 0) (hne : d.pos ≠ d.filled) : msg_decoder_next (d, m) ≠ some (.ok 0, d', m') := by
  induction hk : roundsLeft d using Nat.strong_induction_on generalizing d m with
  | _ k ih =>
    intro h
    rw [msg_decoder_next_eq hinv] at h
    rcases hr : try_again (d, m) with _ | ⟨e | r, d₁, m₁⟩ <;> rw [hr] at h
    · cases h
    · cases h
    · obtain ⟨rfl, hne₁⟩ | ⟨-, -, heq⟩ | ⟨n, rfl⟩ := try_again_ok hinv hf hr
      · obtain ⟨hinv₁, hs, -, hlt⟩ := (hr ▸ try_again_round hinv m).again hinv
        exact ih (roundsLeft d₁) (hk ▸ hlt) hinv₁ (by rw [hs.2.1]; exact hf) hne₁ rfl h
      · exact hne heq
      · cases h

/-- The call at the end of the stream writes nothing. -/
theorem next_eof (hinv : DecoderInv d) (hf : d.src_filter < 0) (h : msg_decoder_next (d, m) = some (.ok 0, d', m')) : m' = m := by
  rw [msg_decoder_next_eq hinv] at h
  rcases hr : try_again (d, m) with _ | ⟨e | r, d₁, m₁⟩ <;> rw [hr] at h
  · cases h
  · cases h
  · obtain ⟨rfl, hne₁⟩ | ⟨rfl, hm, -⟩ | ⟨n, rfl⟩ := try_again_ok hinv hf hr
    · obtain ⟨hinv₁, hs, -, -⟩ := (hr ▸ try_again_round hinv m).again hinv
      exact absurd h (next_not_end hinv₁ (by rw [hs.2.1]; exact hf) hne₁)
    · cases h
      exact hm
    · cases h

/-- Behind the end of the stream is the end of the stream. -/
theorem next_ended (hinv : DecoderInv d) (h : msg_decoder_next (d, m) = some (.ok 0, d', m')) (b : Msg) :
    ∃ d'' c, msg_decoder_next (d', b) = some (.ok 0, d'', c) := by
  have htotal := msg_decoder_next_total hinv m
  rw [h] at htotal
  generalize hx : (some (.ok 0, d', m') : Option (Except NexusError Nat × MsgDecoder × Msg)) = x at htotal
  cases htotal with
  | message n src _ _ h0 =>
    cases hx
    exact absurd h0 (Nat.lt_irrefl 0)
  | failed => cases hx
  | eof _ _ hinv' _ _ _ hend =>
    cases hx
    obtain ⟨heq, hend⟩ := hend
    have hround : ∃ d'' c, try_again (d', b) = some (.ok (some 0), d'', c) := by
      rw [try_again_eq, round, if_pos heq]
      split
      · exact ⟨_, _, rfl⟩
      · -- without a buffer nothing is read
        rename_i hpos
        change ¬ d'.pos ≠ 0 at hpos
        have hzero : d'.bufsz = 0 := by omega
        have hfilled : d'.filled = 0 := by omega
        simp [read_buffer, MsgDecoder.refill, read_all, read_all_loop, hzero, hfilled]
    obtain ⟨d'', c, hr⟩ := hround
    rw [msg_decoder_next_eq hinv', hr]
    exact ⟨d'', c, rfl⟩

end End

/-! ## What a place gives -/

/-- What a call gives that has the bytes `bs` in front of it, and a buffer of `size` bytes. -/
def window_next (hwcfg : HwCfg) (size : Nat) (bs : List UInt8) (m : Msg) : Option (Except NexusError Nat × Msg) :=
  if size = 0 ∨ bs = [] then some (.ok 0, m)
  else (msg_decode hwcfg (bs.take size) m).map fun r =>
    (if r.1 = .error .stream_truncate ∧ size ≤ bs.length then .error .buffer_too_small else r.1, r.2)

/-- A call in front of `bs` gives `r` and the message `m`, whatever it writes into. -/
def Windowed (hwcfg : HwCfg) (size : Nat) (bs : List UInt8) (r : Except NexusError Nat) (m : Msg) : Prop :=
  ∀ m₂, ∃ m₂', window_next hwcfg size bs m₂ = some (r, m₂') ∧ SameResult (r, m) (r, m₂')

section Window
variable {hwcfg : HwCfg} {size : Nat} {S bs w : List UInt8} {d e : MsgDecoder} {p : Nat} {m m' : Msg} {r : Except NexusError Nat}

theorem windowed_eof (h : size = 0 ∨ bs = []) (m : Msg) : Windowed hwcfg size bs (.ok 0) m := by
  intro m₂
  refine ⟨m₂, ?_, rfl, fun _ h => by cases h⟩
  rw [window_next, if_pos h]

/-- Decoding some of the bytes decides, where it is not that bytes are missing. -/
theorem windowed_prefix {q : List UInt8} (hd : msg_decode hwcfg w m = some (r, m')) (hne : w ≠ []) (hle : w.length ≤ size)
    (hr : r = .error .stream_truncate → q = [] ∧ w.length < size) : Windowed hwcfg size (w ++ q) r m' := by
  intro m₂
  have hpos := List.length_pos_iff.2 hne
  have hcond : ¬ (size = 0 ∨ w ++ q = []) := by
    rintro (h | h)
    · omega
    · exact hne (List.append_eq_nil_iff.1 h).1
  have htake : (w ++ q).take size = w ++ q.take (size - w.length) := by
    rw [List.take_append, List.take_of_length_le hle]
  rw [window_next, if_neg hcond, htake]
  rcases msg_decode_append hwcfg w (q.take (size - w.length)) m m₂ with ⟨hq, a, ha⟩ | ⟨r', a, b, ha, hb, hsame⟩
  · rw [hd] at ha
    cases ha
    exact absurd (by rw [(hr rfl).1, List.take_nil]) hq
  · rw [hd] at ha
    cases ha
    refine ⟨b, ?_, rfl, fun n hn => hsame (n + 1) hn⟩
    rw [hb, Option.map_some]
    dsimp only
    rw [if_neg]
    rintro ⟨htrunc, hfull⟩
    obtain ⟨rfl, hlt⟩ := hr htrunc
    rw [List.append_nil] at hfull
    omega

/-- A full buffer that ends no message. -/
theorem windowed_small {q : List UInt8} (hd : msg_decode hwcfg w m = some (.error .stream_truncate, m')) (hne : w ≠ [])
    (hsize : w.length = size) (m₁ : Msg) : Windowed hwcfg size (w ++ q) (.error .buffer_too_small) m₁ := by
  intro m₂
  have hpos := List.length_pos_iff.2 hne
  have hcond : ¬ (size = 0 ∨ w ++ q = []) := by
    rintro (h | h)
    · omega
    · exact hne (List.append_eq_nil_iff.1 h).1
  obtain ⟨r, a, b, ha, hb, -⟩ := msg_decode_any hwcfg w m m₂
  rw [hd] at ha
  cases ha
  refine ⟨b, ?_, rfl, fun _ h => by cases h⟩
  rw [window_next, if_neg hcond, ← hsize, List.take_left, hb, Option.map_some]
  dsimp only
  rw [if_pos ⟨rfl, by rw [List.length_append]; omega⟩]

/-- A round gives what the place gives, or fills the buffer. -/
inductive Viewed (hwcfg : HwCfg) (S : List UInt8) (d : MsgDecoder) (p : Nat) :
    Option (Except NexusError (Option Nat) × MsgDecoder × Msg) → Prop where
  | returned (r : Except NexusError Nat) (d' : MsgDecoder) (m' : Msg) : Windowed hwcfg d.bufsz (S.drop p) r m' →
      Viewed hwcfg S d p (some (r.map some, d', m'))
  | refilled (d' : MsgDecoder) (m' : Msg) : Placed hwcfg S d' p → d'.bufsz = d.bufsz → Viewed hwcfg S d p (some (.ok none, d', m'))

theorem read_buffer_viewed (h : Placed hwcfg S d p) (h0 : d.lastmsg_len = 0) (hd : d.filled = d.bufsz ∨ d.pos = d.filled)
    (hp : d.pos < d.bufsz ∨ d.pos = 0) (m : Msg) : Viewed hwcfg S d p (read_buffer (d, m)) := by
  have hplaced := read_buffer_placed h h0 hd hp m m
  obtain ⟨hok, hfilled, -, -⟩ := refill_regular h.inv h.regular hd
  simp only [read_buffer, Proc.get_bind_apply, Proc.modify_bind_apply, Proc.ite_apply, hok, Bool.not_true, Bool.false_eq_true, if_false]
  split
  · exact .refilled _ _ (h.refill h0 hd hp) rfl
  · rename_i hz
    refine .returned (.ok 0) _ _ (windowed_eof ?_ m)
    rcases Nat.eq_zero_or_pos d.bufsz with hb | hb
    · exact .inl hb
    · right
      have hle := h.inv.pos_le
      have hdata : d.fd.data = [] := List.eq_nil_of_length_eq_zero (by omega)
      rw [h.left, window_nil h.inv (by omega), hdata, List.append_nil]

theorem try_again_viewed (h : Placed hwcfg S d p) (m : Msg) : Viewed hwcfg S d p (try_again (d, m)) := by
  have hlast := h.of_last
  have hview : ∀ {r}, Viewed hwcfg S { d with lastmsg_len := 0 } p r → Viewed hwcfg S d p r := by
    intro r hr
    cases hr with
    | returned r d' m' hw => exact .returned r d' m' hw
    | refilled d' m' h1 h2 => exact .refilled d' m' h1 h2
  apply hview
  rw [try_again_eq]
  generalize hd₁ : ({ d with lastmsg_len := 0 } : MsgDecoder) = d₁ at hlast
  have hl : d₁.lastmsg_len = 0 := by rw [← hd₁]
  have hfilled := hlast.inv.filled_le
  have hlen := window_length hlast.inv
  unfold round
  split
  · rename_i heq
    split
    · rename_i hp
      refine .returned (.ok 0) _ _ (windowed_eof (.inr ?_) m)
      rw [hlast.left, window_nil hlast.inv heq, hlast.at_end heq (Nat.pos_of_ne_zero hp), List.nil_append]
    · rename_i hp
      exact read_buffer_viewed hlast hl (.inr heq) (.inr (by omega)) m
  · rename_i hne
    have hwin := window_ne_nil hlast.inv hne
    rw [hlast.cfg]
    rcases msg_decode_total hwcfg d₁.window m with ⟨n, m', hdec, -⟩ | ⟨e, m', hdec, -⟩
    · rw [hdec]
      dsimp only
      rw [if_pos (show d₁.passes m' = true by simp [MsgDecoder.passes, hlast.unfiltered])]
      refine .returned (.ok n) _ _ ?_
      rw [hlast.left]
      exact windowed_prefix hdec hwin (by omega) fun h => by cases h
    · rw [hdec]
      dsimp only
      split
      · rename_i hother
        refine .returned (.error e) _ _ ?_
        rw [hlast.left]
        refine windowed_prefix hdec hwin (by omega) fun he => ?_
        -- a buffer that is partly filled has read the whole file
        cases he
        have hpart : d₁.filled ≠ d₁.bufsz := by simpa using hother
        have hle := hlast.inv.pos_le
        exact ⟨hlast.all_read (by omega) (by omega), by omega⟩
      · rename_i hother
        obtain ⟨hfull, rfl⟩ : d₁.filled = d₁.bufsz ∧ e = .stream_truncate := by simpa using hother
        split
        · refine .returned (.error .buffer_too_small) _ _ ?_
          rw [hlast.left]
          exact windowed_small hdec hwin (by omega) m'
        · exact read_buffer_viewed hlast hl (.inl hfull) (.inl (hlast.pos_lt hne)) m'

/-- What a call returns is decided by the place and the size of the buffer. -/
theorem Placed.viewed (h : Placed hwcfg S d p) (m : Msg) :
    ∃ r d' m', msg_decoder_next (d, m) = some (r, d', m') ∧ Windowed hwcfg d.bufsz (S.drop p) r m' := by
  induction hk : roundsLeft d using Nat.strong_induction_on generalizing d m with
  | _ k ih =>
    have hround := try_again_viewed h m
    rw [msg_decoder_next_eq h.inv]
    generalize hr : try_again (d, m) = x at hround
    cases hround with
    | returned r d' m' hw =>
      refine ⟨r, d', m', ?_, hw⟩
      cases r <;> rfl
    | refilled d' m' h1 h2 =>
      obtain ⟨-, -, -, hlt⟩ := (hr ▸ try_again_round h.inv m).again h.inv
      rw [← h2]
      exact ih (roundsLeft d') (hk ▸ hlt) h1 m' rfl

end Window

/-! ## Two decoders at one place -/

/-- Two decoders without a filter at the same point of the same stream: the same decoder, or two over one regular file, with buffers of the
same size or with buffers that hold every message that is left. -/
inductive SamePoint : MsgDecoder → MsgDecoder → Prop where
  | same {d : MsgDecoder} : DecoderInv d → d.src_filter < 0 → SamePoint d d
  | placed {hwcfg : HwCfg} {S : List UInt8} {d e : MsgDecoder} {p : Nat} : Placed hwcfg S d p → Placed hwcfg S e p →
    (d.bufsz = e.bufsz ∨ Fits d.bufsz (S.drop p) ∧ Fits e.bufsz (S.drop p)) → SamePoint d e

section Points
variable {hwcfg : HwCfg} {S bs : List UInt8} {d e d' : MsgDecoder} {p n size : Nat} {a b : Msg} {r r' : Except NexusError Nat}

theorem Placed.buffered (h : Placed hwcfg S d p) (hfits : Fits d.bufsz (S.drop p)) : Buffered hwcfg d (S.drop p) :=
  ⟨h.inv, h.cfg, h.unfiltered, h.regular, h.left, hfits, h.all_read, h.at_end⟩

theorem Windowed.unique (h : Windowed hwcfg size bs r a) (h' : Windowed hwcfg size bs r' b) : r = r' ∧ SameResult (r, a) (r, b) := by
  obtain ⟨z, hz, hsame⟩ := h Msg.zero
  obtain ⟨z', hz', hsame'⟩ := h' Msg.zero
  rw [hz] at hz'
  cases hz'
  exact ⟨rfl, rfl, fun n hn => (hsame.2 n hn).trans (hsame'.2 n hn).symm⟩

theorem Plain.unique (h : Plain hwcfg bs r a) (h' : Plain hwcfg bs r' b) : r = r' ∧ SameResult (r, a) (r, b) := by
  obtain ⟨z, hz, hsame⟩ := h Msg.zero
  obtain ⟨z', hz', hsame'⟩ := h' Msg.zero
  rw [hz] at hz'
  cases hz'
  exact ⟨rfl, rfl, fun n hn => (hsame.2 n hn).trans (hsame'.2 n hn).symm⟩

theorem SamePoint.inv (h : SamePoint d e) : DecoderInv d ∧ DecoderInv e := by
  cases h with
  | same hinv hf => exact ⟨hinv, hinv⟩
  | placed hd he hsize => exact ⟨hd.inv, he.inv⟩

theorem SamePoint.unfiltered (h : SamePoint d e) : d.src_filter < 0 ∧ e.src_filter < 0 := by
  cases h with
  | same hinv hf => exact ⟨hf, hf⟩
  | placed hd he hsize => exact ⟨hd.unfiltered, he.unfiltered⟩

/-- A message that was returned can be put back. -/
theorem next_rewinds (hinv : DecoderInv d) (h : msg_decoder_next (d, a) = some (.ok n, d', b)) :
    ∃ d₀, msg_source.rewind_last d' = some d₀ ∧ DecoderInv d₀ ∧ SameSetup d d₀ ∧ d₀.lastmsg_len = 0 := by
  have htotal := msg_decoder_next_total hinv a
  rw [h] at htotal
  generalize hx : (some (.ok n, d', b) : Option (Except NexusError Nat × MsgDecoder × Msg)) = x at htotal
  cases htotal with
  | message k src m m' h0 hn hinv' hs =>
    cases hx
    refine ⟨{ src with lastmsg_len := 0 }, ?_, hinv'.of_last, hs, rfl⟩
    change (msg_decoder_rewind_last _).map Prod.snd = _
    rw [rewind_advance hinv' h0 hn]
    rfl
  | eof d₁ m₁ hinv' hs hl =>
    cases hx
    exact ⟨d', rewind_eof hinv' hl, hinv', hs, hl⟩
  | failed => cases hx

/-- Where a call leaves a decoder, and where putting the message back leaves it. -/
theorem Placed.moves (h : Placed hwcfg S d p) (hnext : msg_decoder_next (d, a) = some (r, d', b)) :
    Placed hwcfg S d' (p + delivered r) ∧ d'.bufsz = d.bufsz ∧ (∀ n, r = .ok n → IsFrame ((S.drop p).take n) ∨ n = 0) ∧
      ∀ n, r = .ok n → ∃ d₀, msg_source.rewind_last d' = some d₀ ∧ Placed hwcfg S d₀ p ∧ d₀.bufsz = d.bufsz := by
  have hsetup := (next_left h.inv hnext).2.1
  have hcall := h.next a
  rw [hnext] at hcall
  generalize hx : (some (r, d', b) : Option (Except NexusError Nat × MsgDecoder × Msg)) = x at hcall
  cases hcall with
  | message n d₀ m₀ m' hp hsize h0 hn hdec =>
    cases hx
    refine ⟨hp.advance h0 hn, hsetup.2.2, ?_, ?_⟩
    · intro k hk
      cases hk
      left
      rw [hp.left, List.take_append_of_le_length hn]
      exact (msg_decode_ok_pos hdec).2.2
    · intro k hk
      cases hk
      refine ⟨{ d₀ with lastmsg_len := 0 }, ?_, hp.of_last, hsize⟩
      change (msg_decoder_rewind_last _).map Prod.snd = _
      rw [rewind_advance hp.inv h0 hn]
      rfl
  | eof d₁ m₁ hp hl hend =>
    cases hx
    refine ⟨hp, hsetup.2.2, fun n hn => ?_, fun n hn => ⟨d', ?_, hp, hsetup.2.2⟩⟩
    · cases hn
      exact .inr rfl
    · exact rewind_eof hp.inv hl
  | failed err d₁ m₁ hp hl =>
    cases hx
    refine ⟨hp, hsetup.2.2, fun n hn => ?_, fun n hn => ?_⟩
    · cases hn
    · cases hn

/-- The buffers are as large as before, for what is left. -/
theorem Placed.rooms {e' : MsgDecoder} (hd : Placed hwcfg S d p) (hsize : d.bufsz = e.bufsz ∨ Fits d.bufsz (S.drop p) ∧ Fits e.bufsz (S.drop p))
    (hnext : msg_decoder_next (d, a) = some (r, d', b)) (hd' : d'.bufsz = d.bufsz) (he' : e'.bufsz = e.bufsz) :
    d'.bufsz = e'.bufsz ∨ Fits d'.bufsz (S.drop (p + delivered r)) ∧ Fits e'.bufsz (S.drop (p + delivered r)) := by
  rw [hd', he']
  refine hsize.imp_right fun hfits => ?_
  rcases r with err | n
  · exact hfits
  · rcases (hd.moves hnext).2.2.1 n rfl with hframe | rfl
    · change Fits d.bufsz (S.drop (p + n)) ∧ Fits e.bufsz (S.drop (p + n))
      rw [← List.drop_drop]
      exact ⟨hfits.1.drop hframe, hfits.2.drop hframe⟩
    · exact hfits

/-- Both give the same, and are at the same point again, whether the message is put back or not. -/
theorem SamePoint.agree (h : SamePoint d e) (a b : Msg) : ∃ r d' a' e' b', msg_decoder_next (d, a) = some (r, d', a') ∧
    msg_decoder_next (e, b) = some (r, e', b') ∧ SameResult (r, a') (r, b') ∧ SamePoint d' e' ∧
    ∀ n, r = .ok n → ∃ d₀ e₀, msg_source.rewind_last d' = some d₀ ∧ msg_source.rewind_last e' = some e₀ ∧ SamePoint d₀ e₀ := by
  cases h with
  | same hinv hf =>
    obtain ⟨r, d', a', b', ha, hb, hsame⟩ := next_any hinv hf a b
    obtain ⟨hinv', hs, -, -⟩ := next_left hinv ha
    refine ⟨r, d', a', d', b', ha, hb, hsame, .same hinv' (by rw [hs.2.1]; exact hf), ?_⟩
    rintro n rfl
    obtain ⟨d₀, hback, hinv₀, hs₀, -⟩ := next_rewinds hinv ha
    exact ⟨d₀, d₀, hback, hback, .same hinv₀ (by rw [hs₀.2.1]; exact hf)⟩
  | placed hd he hsize =>
    obtain ⟨r, d', a', e', b', ha, hb, hsame⟩ : ∃ r d' a' e' b', msg_decoder_next (d, a) = some (r, d', a') ∧
        msg_decoder_next (e, b) = some (r, e', b') ∧ SameResult (r, a') (r, b') := by
      rcases hsize with hsize | ⟨hfd, hfe⟩
      · obtain ⟨r, d', a', ha, hw⟩ := hd.viewed a
        obtain ⟨r', e', b', hb, hw'⟩ := he.viewed b
        obtain ⟨rfl, hsame⟩ := hw.unique (hsize ▸ hw')
        exact ⟨r, d', a', e', b', ha, hb, hsame⟩
      · obtain ⟨r, d', a', ha, hplain, -⟩ := msg_decoder_next_plain (hd.buffered hfd) a
        obtain ⟨r', e', b', hb, hplain', -⟩ := msg_decoder_next_plain (he.buffered hfe) b
        obtain ⟨rfl, hsame⟩ := hplain.unique hplain'
        exact ⟨r, d', a', e', b', ha, hb, hsame⟩
    obtain ⟨hd', hsized, -, hbackd⟩ := hd.moves ha
    obtain ⟨he', hsizee, -, hbacke⟩ := he.moves hb
    refine ⟨r, d', a', e', b', ha, hb, hsame, .placed hd' he' (hd.rooms hsize ha hsized hsizee), ?_⟩
    intro n hn
    obtain ⟨d₀, hd₀, hpd, hbd⟩ := hbackd n hn
    obtain ⟨e₀, he₀, hpe, hbe⟩ := hbacke n hn
    refine ⟨d₀, e₀, hd₀, he₀, .placed hpd hpe ?_⟩
    rw [hbd, hbe]
    exact hsize

end Points

/-- Decoders at the same point stay there. -/
theorem same_point_pairs : msg_source.Pairs msg_source SamePoint Eq fun _ => True := by
  apply Source.Pairs.of_lawful msg_source_lawful msg_source_lawful
  · exact fun h => by rw [h]
  · exact SamePoint.inv
  · intro d e h
    cases h with
    | same => rfl
    | placed hd he => exact hd.cfg.trans he.cfg.symm
  · intro d e h a b
    obtain ⟨r, d', a', e', b', ha, hb, hsame, hpoint, hback⟩ := h.agree a b
    refine ⟨r, r, (d', a'), (e', b'), ha, hb, .of_eq rfl, hpoint, ?_, hback⟩
    rintro (_ | n) rfl hn
    · -- the end of the stream writes nothing
      rw [show a' = a from next_eof h.inv.1 h.unfiltered.1 ha, show b' = b from next_eof h.inv.2 h.unfiltered.2 hb]
      exact (hn.resolve_left (not_not_intro rfl)).1
    · exact hsame.2 n rfl

end nexusrv
