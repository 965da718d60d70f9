import NexusRv.Refinement
/-!
# Positions of the stream decoder

`nexusrv_msg_decoder_offset` and `nexusrv_msg_decoder_lastmsg`. One position has
several encodings: a buffer that was used up is counted and set back, at the end of the
file the positions are set to the end of the buffer, and a message is put back into a
buffer that was already counted. `Placed` says where in the stream a decoder stands,
whichever it is.
-/

namespace nexusrv

/-- `nexusrv_msg_decoder_offset`. -/
def msg_decoder_offset (d : MsgDecoder) : Nat :=
  let offset := d.nread
  let offset := if d.pos ≠ d.bufsz then offset + d.pos else offset
  offset - d.lastmsg_len

/-- `nexusrv_msg_decoder_lastmsg`: the place in the buffer that it points to. -/
def msg_decoder_lastmsg : Proc MsgDecoder NexusError (Option Nat) := do
  let d ← Proc.get
  Proc.assert (d.pos ≤ d.filled)
  Proc.assert (d.filled ≤ d.bufsz)
  if d.lastmsg_len = 0 then pure none
  else do
    Proc.assert (d.pos = 0 || d.pos ≥ d.lastmsg_len)
    if d.pos ≠ 0 then pure (some (d.pos - d.lastmsg_len)) else pure (some (d.bufsz - d.lastmsg_len))

/-- Where the decoder stands. -/
def MsgDecoder.place (d : MsgDecoder) : Nat := if d.pos ≠ d.bufsz then d.nread + d.pos else d.nread

theorem offset_eq (d : MsgDecoder) : msg_decoder_offset d = d.place - d.lastmsg_len := rfl

/-- The decoder stands at `p` in the regular file `S`. -/
structure Placed (hwcfg : HwCfg) (S : List UInt8) (d : MsgDecoder) (p : Nat) : Prop where
  inv : DecoderInv d
  cfg : d.hw_cfg = hwcfg
  unfiltered : d.src_filter < 0
  regular : d.fd.reads = []
  left : S.drop p = d.window ++ d.fd.data
  le : p ≤ S.length
  place : d.place = p
  all_read : 0 < d.filled → d.filled < d.bufsz → d.fd.data = []
  at_end : d.pos = d.filled → 0 < d.pos → d.fd.data = []

section Placed
variable {hwcfg : HwCfg} {S : List UInt8} {d : MsgDecoder} {p : Nat}

theorem init_placed (hwcfg : HwCfg) (S : List UInt8) {filter : Int16} (hf : filter < 0) (buffer : List UInt8) :
    Placed hwcfg S (msg_decoder_init hwcfg ⟨S, []⟩ filter buffer buffer.length) 0 := by
  refine ⟨init_inv hwcfg _ filter rfl, rfl, hf, rfl, rfl, Nat.zero_le _, ?_, fun h0 => absurd h0 (Nat.lt_irrefl 0),
    fun _ h0 => absurd h0 (Nat.lt_irrefl 0)⟩
  unfold MsgDecoder.place msg_decoder_init
  dsimp only
  split <;> rfl

theorem Placed.of_last (h : Placed hwcfg S d p) : Placed hwcfg S { d with lastmsg_len := 0 } p :=
  ⟨⟨h.inv.pos_le, h.inv.filled_le, h.inv.buffer_len, .inl (Nat.zero_le _)⟩, h.cfg, h.unfiltered, h.regular, h.left, h.le, h.place,
    h.all_read, h.at_end⟩

/-- The bytes behind the place are those that are left. -/
theorem Placed.bytesLeft (h : Placed hwcfg S d p) : d.bytesLeft + p = S.length := by
  have hlen := congrArg List.length h.left
  have hle := h.le
  rw [List.length_drop, List.length_append, window_length h.inv] at hlen
  unfold MsgDecoder.bytesLeft
  omega

theorem Placed.pos_lt (h : Placed hwcfg S d p) (hne : d.pos ≠ d.filled) : d.pos < d.bufsz := by
  have h1 := h.inv.pos_le
  have h2 := h.inv.filled_le
  omega

theorem Placed.advance (h : Placed hwcfg S d p) {n : Nat} (h0 : 0 < n) (hn : n ≤ d.window.length) :
    Placed hwcfg S (d.advance n) (p + n) := by
  have hinv := advance_inv h.inv hn
  have hwin := advance_window h.inv n
  have hleft : S.drop (p + n) = d.window.drop n ++ d.fd.data := by
    rw [← List.drop_drop, h.left, List.drop_append_of_le_length hn]
  have hlen := congrArg List.length h.left
  rw [List.length_drop, List.length_append] at hlen
  have hle : p + n ≤ S.length := by omega
  have hplace := h.place
  rw [window_length h.inv] at hn
  have h1 := h.inv.pos_le
  have h2 := h.inv.filled_le
  unfold MsgDecoder.place at hplace
  rw [if_pos (by omega)] at hplace
  by_cases hfull : d.pos + n = d.bufsz
  · rw [advance_of_eq hfull] at hinv hwin ⊢
    refine ⟨hinv, h.cfg, h.unfiltered, h.regular, by rw [hwin]; exact hleft, hle, ?_, fun h => absurd h (Nat.lt_irrefl 0),
      fun _ h => absurd h (Nat.lt_irrefl 0)⟩
    unfold MsgDecoder.place
    dsimp only
    rw [if_pos (by omega)]
    omega
  · rw [advance_of_ne hfull] at hinv hwin ⊢
    refine ⟨hinv, h.cfg, h.unfiltered, h.regular, by rw [hwin]; exact hleft, hle, ?_, h.all_read, fun heq _ => ?_⟩
    · unfold MsgDecoder.place
      dsimp only
      rw [if_pos hfull]
      omega
    · -- all that was filled is used up, and the buffer is not full
      dsimp only at heq
      exact h.all_read (by omega) (by omega)

theorem Placed.refill (h : Placed hwcfg S d p) (h0 : d.lastmsg_len = 0) (hd : d.filled = d.bufsz ∨ d.pos = d.filled)
    (hp : d.pos < d.bufsz ∨ d.pos = 0) : Placed hwcfg S d.refill.2 p := by
  obtain ⟨hinv, hsetup, -, hpos, -⟩ := refill_spec h.inv h0
  obtain ⟨-, hfilled, hwin, hfd⟩ := refill_regular h.inv h.regular hd
  have h1 := h.inv.pos_le
  have h2 := h.inv.filled_le
  refine ⟨hinv, hsetup.1.trans h.cfg, by rw [hsetup.2.1]; exact h.unfiltered, by rw [hfd], ?_, h.le, ?_, ?_, ?_⟩
  · rw [hwin, hfd, List.append_assoc, List.take_append_drop]
    exact h.left
  · have hnread : d.refill.2.nread = d.nread + d.pos := rfl
    have hplace := h.place
    unfold MsgDecoder.place at hplace ⊢
    rw [hpos, hsetup.2.2, hnread, ← hplace]
    split <;> split <;> omega
  · -- what is read does not fill the buffer only when the file ends
    rw [hfilled, hsetup.2.2, hfd]
    intro _ hlt
    exact List.drop_of_length_le (by omega)
  · rw [hpos]
    exact fun _ h => absurd h (Nat.lt_irrefl 0)

/-- Past the last byte the positions are set to the end of the buffer. -/
theorem Placed.at_max (h : Placed hwcfg S d p) (hpos : d.pos = 0) (hfilled : d.filled = 0) (hend : d.bufsz = 0 ∨ d.fd.data = [])
    (h0 : d.lastmsg_len = 0) : Placed hwcfg S { d with pos := d.bufsz, filled := d.bufsz } p := by
  refine ⟨⟨Nat.le_refl _, Nat.le_refl _, h.inv.buffer_len, .inl (h0 ▸ Nat.zero_le _)⟩, h.cfg, h.unfiltered, h.regular, ?_, h.le, ?_,
    fun _ hlt => absurd hlt (Nat.lt_irrefl _), fun _ hlt => hend.resolve_left (Nat.ne_of_gt hlt)⟩
  · rw [h.left, window_nil h.inv (hpos.trans hfilled.symm), MsgDecoder.window]
    dsimp only
    rw [List.drop_eq_nil_of_le (by simp)]
  · have hplace := h.place
    unfold MsgDecoder.place at hplace ⊢
    rw [hpos] at hplace
    dsimp only
    rw [if_neg (not_not_intro rfl), ← hplace]
    split <;> rfl

/-! ## Calls -/

/-- What a round leaves of the place. -/
inductive Placing (hwcfg : HwCfg) (S : List UInt8) (d : MsgDecoder) (p : Nat) (m : Msg) :
    Option (Except NexusError (Option Nat) × MsgDecoder × Msg) → Prop where
  | delivered (n : Nat) (m' : Msg) : 0 < n → n ≤ d.window.length → msg_decode hwcfg d.window m = some (.ok n, m') →
      Placing hwcfg S d p m (some (.ok (some n), d.advance n, m'))
  | eof (d' : MsgDecoder) (m' : Msg) : Placed hwcfg S d' p → d'.lastmsg_len = 0 → d.bufsz = 0 ∨ S.drop p = [] →
      Placing hwcfg S d p m (some (.ok (some 0), d', m'))
  | refilled (d' : MsgDecoder) (m' : Msg) : Placed hwcfg S d' p → d'.bufsz = d.bufsz → Placing hwcfg S d p m (some (.ok none, d', m'))
  | failed (e : NexusError) (d' : MsgDecoder) (m' : Msg) : Placed hwcfg S d' p → d'.lastmsg_len = 0 →
      Placing hwcfg S d p m (some (.error e, d', m'))

theorem read_buffer_placed (h : Placed hwcfg S d p) (h0 : d.lastmsg_len = 0) (hd : d.filled = d.bufsz ∨ d.pos = d.filled)
    (hp : d.pos < d.bufsz ∨ d.pos = 0) (m m₁ : Msg) : Placing hwcfg S d p m (read_buffer (d, m₁)) := by
  obtain ⟨hinv, hsetup, hlast, hpos, -⟩ := refill_spec h.inv h0
  obtain ⟨hok, hfilled, -, hfd⟩ := refill_regular h.inv h.regular hd
  have href := h.refill h0 hd hp
  simp only [read_buffer, Proc.get_bind_apply, Proc.modify_bind_apply, Proc.ite_apply, hok, Bool.not_true, Bool.false_eq_true, if_false]
  split
  · exact .refilled _ _ href hsetup.2.2
  · rename_i hz
    have hz : d.refill.2.filled = 0 := Nat.eq_zero_of_not_pos hz
    have hend : d.bufsz = 0 ∨ d.fd.data = [] := by
      rw [hfilled] at hz
      rcases Nat.eq_zero_or_pos d.bufsz with hb | hb
      · exact .inl hb
      · exact .inr (List.eq_nil_of_length_eq_zero (by omega))
    refine .eof _ _ (href.at_max hpos hz ?_ hlast) hlast (hend.imp_right fun hdata => ?_)
    · rw [hsetup.2.2, hfd]
      exact hend.imp_right fun hdata => by rw [hdata, List.drop_nil]
    · rw [href.left, window_nil hinv (hpos.trans hz.symm), hfd, hdata, List.drop_nil, List.nil_append]

theorem try_again_placed (h : Placed hwcfg S d p) (m : Msg) : Placing hwcfg S d p m (try_again (d, m)) := by
  have hlast := h.of_last
  have hdel : ∀ {r}, Placing hwcfg S { d with lastmsg_len := 0 } p m r → Placing hwcfg S d p m r := by
    intro r hr
    cases hr with
    | delivered n m' h0 hn hd => exact advance_last d n 0 ▸ .delivered n m' h0 hn hd
    | eof d' m' h1 h2 h3 => exact .eof d' m' h1 h2 h3
    | refilled d' m' h1 h2 => exact .refilled d' m' h1 h2
    | failed e d' m' h1 h2 => exact .failed e d' m' h1 h2
  refine hdel ?_
  rw [try_again_eq]
  generalize hd₁ : ({ d with lastmsg_len := 0 } : MsgDecoder) = d₁ at hlast
  have hl : d₁.lastmsg_len = 0 := by rw [← hd₁]
  unfold round
  split
  · rename_i heq
    split
    · rename_i hp
      refine .eof _ _ hlast hl (.inr ?_)
      rw [hlast.left, window_nil hlast.inv heq, hlast.at_end heq (Nat.pos_of_ne_zero hp), List.nil_append]
    · rename_i hp
      exact read_buffer_placed hlast hl (.inr heq) (.inr (by omega)) m m
  · rename_i hne
    rcases msg_decode_total d₁.hw_cfg d₁.window m with ⟨n, m', hdec, hle, -⟩ | ⟨e, m', hdec, -⟩
    · rw [hdec]
      dsimp only
      rw [if_pos (show d₁.passes m' = true by simp [MsgDecoder.passes, hlast.unfiltered])]
      exact .delivered n m' (msg_decode_ok_pos hdec).1 hle (hlast.cfg ▸ hdec)
    · rw [hdec]
      dsimp only
      split
      · exact .failed _ _ _ hlast hl
      · rename_i hfull
        obtain ⟨hfull, -⟩ : d₁.filled = d₁.bufsz ∧ e = .stream_truncate := by simpa using hfull
        split
        · exact .failed _ _ _ hlast hl
        · exact read_buffer_placed hlast hl (.inl hfull) (.inl (hlast.pos_lt hne)) m m'

/-- What a call leaves of the place: a message was decoded there, and the decoder `d₀` moved on behind it. -/
inductive Called (hwcfg : HwCfg) (S : List UInt8) (d : MsgDecoder) (p : Nat) : Option (Except NexusError Nat × MsgDecoder × Msg) → Prop where
  | message (n : Nat) (d₀ : MsgDecoder) (m₀ m' : Msg) : Placed hwcfg S d₀ p → d₀.bufsz = d.bufsz → 0 < n → n ≤ d₀.window.length →
      msg_decode hwcfg d₀.window m₀ = some (.ok n, m') → Called hwcfg S d p (some (.ok n, d₀.advance n, m'))
  | eof (d' : MsgDecoder) (m' : Msg) : Placed hwcfg S d' p → d'.lastmsg_len = 0 → d.bufsz = 0 ∨ S.drop p = [] →
      Called hwcfg S d p (some (.ok 0, d', m'))
  | failed (e : NexusError) (d' : MsgDecoder) (m' : Msg) : Placed hwcfg S d' p → d'.lastmsg_len = 0 →
      Called hwcfg S d p (some (.error e, d', m'))

theorem Called.of_bufsz {d₁ : MsgDecoder} {r : Option (Except NexusError Nat × MsgDecoder × Msg)} (heq : d₁.bufsz = d.bufsz)
    (h : Called hwcfg S d₁ p r) : Called hwcfg S d p r := by
  cases h with
  | message n d₀ m₀ m' h1 h2 h3 h4 h5 => exact .message n d₀ m₀ m' h1 (h2.trans heq) h3 h4 h5
  | eof d' m' h1 h2 h3 => exact .eof d' m' h1 h2 (heq ▸ h3)
  | failed e d' m' h1 h2 => exact .failed e d' m' h1 h2

theorem Placed.next (h : Placed hwcfg S d p) (m : Msg) : Called hwcfg S d p (msg_decoder_next (d, m)) := by
  induction hk : roundsLeft d using Nat.strong_induction_on generalizing d m with
  | _ k ih =>
    have hround := try_again_placed h m
    rw [msg_decoder_next_eq h.inv]
    generalize hr : try_again (d, m) = x at hround
    cases hround with
    | delivered n m' h0 hn hd => exact .message n d m m' h rfl h0 hn hd
    | eof d' m' h1 h2 h3 => exact .eof d' m' h1 h2 h3
    | failed e d' m' h1 h2 => exact .failed e d' m' h1 h2
    | refilled d' m' h1 h2 =>
      obtain ⟨-, -, -, hlt⟩ := (hr ▸ try_again_round h.inv m).again h.inv
      exact (ih (roundsLeft d') (hk ▸ hlt) h1 m' rfl).of_bufsz h2

/-- The bytes that a decoder has behind it, in its buffer. -/
theorem Placed.lastmsg (h : Placed hwcfg S d p) {n : Nat} (h0 : 0 < n) (hn : n ≤ d.window.length) :
    msg_decoder_offset (d.advance n) = p ∧ msg_decoder_lastmsg (d.advance n) = some (.ok (some d.pos), d.advance n) ∧
      d.pos + n ≤ (d.advance n).buffer.length ∧ ((d.advance n).buffer.drop d.pos).take n = (S.drop p).take n := by
  have hadv := h.advance h0 hn
  have hp := hadv.place
  have hlen := window_length h.inv
  have h1 := h.inv.pos_le
  have h2 := h.inv.filled_le
  have h3 := h.inv.buffer_len
  have hbytes : (d.buffer.drop d.pos).take n = (S.drop p).take n := by
    rw [h.left, List.take_append_of_le_length hn, MsgDecoder.window, List.drop_take, List.take_take, Nat.min_eq_left (by omega)]
  by_cases hfull : d.pos + n = d.bufsz
  · rw [offset_eq, hp]
    rw [advance_of_eq hfull]
    refine ⟨Nat.add_sub_cancel _ _, ?_, by dsimp only; omega, hbytes⟩
    have hpos : d.bufsz - n = d.pos := by omega
    simp [msg_decoder_lastmsg, Nat.ne_of_gt h0, hpos]
  · rw [offset_eq, hp]
    rw [advance_of_ne hfull]
    refine ⟨Nat.add_sub_cancel _ _, ?_, by dsimp only; omega, hbytes⟩
    have hle : d.pos + n ≤ d.filled := by omega
    simp [msg_decoder_lastmsg, Nat.ne_of_gt h0, hle, h2]

end Placed

/-! ## Runs -/

/-- The bytes of the message that a call returned. -/
def delivered : Except NexusError Nat → Nat
  | .ok n => n
  | .error _ => 0

/-- The decoders over the file `S` that calls of `nexusrv_msg_decoder_next` and
`nexusrv_msg_decoder_rewind_last` lead to, and the number of bytes that were delivered and
not put back. -/
inductive Played (hwcfg : HwCfg) (S : List UInt8) (filter : Int16) (buffer : List UInt8) : MsgDecoder → Nat → Prop where
  | init : Played hwcfg S filter buffer (msg_decoder_init hwcfg ⟨S, []⟩ filter buffer buffer.length) 0
  | next {d d' : MsgDecoder} {p : Nat} {m m' : Msg} {r : Except NexusError Nat} : Played hwcfg S filter buffer d p →
      msg_decoder_next (d, m) = some (r, d', m') → Played hwcfg S filter buffer d' (p + delivered r)
  | rewind {d d' : MsgDecoder} {p : Nat} : Played hwcfg S filter buffer d p → msg_decoder_rewind_last d = some (.ok (), d') →
      Played hwcfg S filter buffer d' (p - d.lastmsg_len)

section Runs
variable {hwcfg : HwCfg} {S : List UInt8} {filter : Int16} {buffer : List UInt8} {d : MsgDecoder} {p : Nat}

/-- A decoder between two calls: nothing can be put back, or the message that it came over. -/
inductive Stands (hwcfg : HwCfg) (S : List UInt8) : MsgDecoder → Nat → Prop where
  | still {d : MsgDecoder} {p : Nat} : Placed hwcfg S d p → d.lastmsg_len = 0 → Stands hwcfg S d p
  | behind {d : MsgDecoder} {p n : Nat} {m m' : Msg} : Placed hwcfg S d p → 0 < n → n ≤ d.window.length →
      msg_decode hwcfg d.window m = some (.ok n, m') → Stands hwcfg S (d.advance n) (p + n)

theorem Stands.placed (h : Stands hwcfg S d p) : Placed hwcfg S d p := by
  cases h with
  | still h _ => exact h
  | behind h h0 hn _ => exact h.advance h0 hn

theorem rewind_nothing (h : Placed hwcfg S d p) (h0 : d.lastmsg_len = 0) : msg_decoder_rewind_last d = some (.ok (), d) := by
  have h1 := h.inv.pos_le
  have h2 := h.inv.filled_le
  simp [msg_decoder_rewind_last, h1, h2, h0]

theorem lastmsg_nothing (h : Placed hwcfg S d p) (h0 : d.lastmsg_len = 0) : msg_decoder_lastmsg d = some (.ok none, d) := by
  have h1 := h.inv.pos_le
  have h2 := h.inv.filled_le
  simp [msg_decoder_lastmsg, h1, h2, h0]

/-- Putting a message back, once or twice. -/
theorem Stands.rewind (h : Stands hwcfg S d p) : ∃ d₁, msg_decoder_rewind_last d = some (.ok (), d₁) ∧
    msg_decoder_rewind_last d₁ = some (.ok (), d₁) ∧ Placed hwcfg S d₁ (p - d.lastmsg_len) ∧ d₁.lastmsg_len = 0 := by
  cases h with
  | still h h0 => exact ⟨d, rewind_nothing h h0, rewind_nothing h h0, by rw [h0]; exact h, h0⟩
  | @behind d₀ p n m m' h h0 hn hd =>
    have hl : (d₀.advance n).lastmsg_len = n := rfl
    refine ⟨_, rewind_advance h.inv h0 hn, rewind_nothing h.of_last rfl, ?_, rfl⟩
    rw [hl, Nat.add_sub_cancel]
    exact h.of_last

theorem Stands.next (h : Stands hwcfg S d p) {m m' : Msg} {r : Except NexusError Nat} {d' : MsgDecoder}
    (hnext : msg_decoder_next (d, m) = some (r, d', m')) : Stands hwcfg S d' (p + delivered r) := by
  have hcall := h.placed.next m
  rw [hnext] at hcall
  generalize hx : (some (r, d', m') : Option (Except NexusError Nat × MsgDecoder × Msg)) = x at hcall
  cases hcall with
  | message n d₀ m₀ _ h _ h0 hn hd => cases hx; exact .behind h h0 hn hd
  | eof _ _ h hl _ => cases hx; exact .still h hl
  | failed e _ _ h hl => cases hx; exact .still h hl

theorem Played.stands (hf : filter < 0) (h : Played hwcfg S filter buffer d p) : Stands hwcfg S d p := by
  induction h with
  | init => exact .still (init_placed hwcfg S hf buffer) rfl
  | next _ hnext ih => exact ih.next hnext
  | rewind _ hrew ih =>
    obtain ⟨d₁, h1, -, hp, h0⟩ := ih.rewind
    rw [h1] at hrew
    cases hrew
    exact .still hp h0

/-- In every run over a regular file without a filter no assertion fails, a second rewind
changes nothing, and a message that is delivered is the one that decoding the file where
the messages before it end gives: its offset is that place, the last message points to its
bytes, and after a rewind it is delivered again and leaves the same decoder. -/
theorem msg_decoder_positions (hf : filter < 0) (h : Played hwcfg S filter buffer d p) :
    (∃ i, msg_decoder_lastmsg d = some (.ok i, d)) ∧
      (∃ d₁, msg_decoder_rewind_last d = some (.ok (), d₁) ∧ msg_decoder_rewind_last d₁ = some (.ok (), d₁)) ∧
      ∀ m, ∃ r d' m', msg_decoder_next (d, m) = some (r, d', m') ∧ ∀ n, r = .ok n → 0 < n →
        (∀ m₂, ∃ m₂', msg_decode hwcfg (S.drop p) m₂ = some (.ok n, m₂') ∧ m'.Same m₂') ∧
        msg_decoder_offset d' = p ∧ p + n ≤ S.length ∧
        (∃ i, msg_decoder_lastmsg d' = some (.ok (some i), d') ∧ i + n ≤ d'.buffer.length ∧
          (d'.buffer.drop i).take n = (S.drop p).take n) ∧
        ∃ d₁, msg_decoder_rewind_last d' = some (.ok (), d₁) ∧ msg_decoder_rewind_last d₁ = some (.ok (), d₁) ∧
          ∀ m₁, ∃ m₁', msg_decoder_next (d₁, m₁) = some (.ok n, d', m₁') ∧ m'.Same m₁' := by
  have hst := h.stands hf
  refine ⟨?_, ?_, fun m => ?_⟩
  · cases hst with
    | still hp h0 => exact ⟨none, lastmsg_nothing hp h0⟩
    | behind hp h0 hn _ => exact ⟨_, (hp.lastmsg h0 hn).2.1⟩
  · obtain ⟨d₁, h1, h2, -, -⟩ := hst.rewind
    exact ⟨d₁, h1, h2⟩
  · have hcall := hst.placed.next m
    generalize hx : msg_decoder_next (d, m) = x at hcall
    cases hcall with
    | eof d' m' _ _ _ => exact ⟨.ok 0, d', m', rfl, fun n hn h0 => by cases hn; exact absurd h0 (Nat.lt_irrefl 0)⟩
    | failed e d' m' _ _ => exact ⟨.error e, d', m', rfl, fun n hn => nomatch hn⟩
    | message n d₀ m₀ m' hp _ h0 hn hd =>
      refine ⟨.ok n, _, m', rfl, fun n' heq _ => ?_⟩
      cases heq
      obtain ⟨hoff, hlast, hin, hbytes⟩ := hp.lastmsg h0 hn
      have hle := (hp.advance h0 hn).le
      refine ⟨fun m₂ => ?_, hoff, hle, ⟨_, hlast, hin, hbytes⟩, ?_⟩
      · rw [hp.left]
        rcases msg_decode_append hwcfg d₀.window d₀.fd.data m₀ m₂ with ⟨-, a, ha⟩ | ⟨r, a, b, ha, hb, hsame⟩
        · rw [hd] at ha
          cases ha
        · rw [hd] at ha
          cases ha
          exact ⟨b, hb, hsame n rfl⟩
      · have hpass : d₀.passes m' = true := by simp [MsgDecoder.passes, hp.unfiltered]
        have hagain := fun m₁ => msg_decoder_next_rewind hp.inv hn (hp.cfg.symm ▸ hd) hpass (.inl hp.unfiltered) m₁
        have hrew := rewind_advance hp.inv h0 hn
        refine ⟨_, hrew, rewind_nothing hp.of_last rfl, fun m₁ => ?_⟩
        obtain ⟨d₁, m₁', h1, h2, hsame⟩ := hagain m₁
        rw [hrew] at h1
        cases h1
        exact ⟨m₁', h2, hsame⟩

end Runs

/-- Through a buffer of three bytes, behind the first of two messages of two bytes. The second one is carried over. -/
theorem msg_decoder_positions_carried : let cfg : HwCfg := ⟨0, 0, 0, 0, 0, false, false, false⟩
    let S : List UInt8 := [0x0c, 0x17, 0x0c, 0x2b]
    ∃ d, Played cfg S (-1) [0, 0, 0] d 2 ∧ ((∃ i, msg_decoder_lastmsg d = some (.ok i, d)) ∧
      (∃ d₁, msg_decoder_rewind_last d = some (.ok (), d₁) ∧ msg_decoder_rewind_last d₁ = some (.ok (), d₁)) ∧
      ∀ m, ∃ r d' m', msg_decoder_next (d, m) = some (r, d', m') ∧ ∀ n, r = .ok n → 0 < n →
        (∀ m₂, ∃ m₂', msg_decode cfg (S.drop 2) m₂ = some (.ok n, m₂') ∧ m'.Same m₂') ∧
        msg_decoder_offset d' = 2 ∧ 2 + n ≤ S.length ∧
        (∃ i, msg_decoder_lastmsg d' = some (.ok (some i), d') ∧ i + n ≤ d'.buffer.length ∧
          (d'.buffer.drop i).take n = (S.drop 2).take n) ∧
        ∃ d₁, msg_decoder_rewind_last d' = some (.ok (), d₁) ∧ msg_decoder_rewind_last d₁ = some (.ok (), d₁) ∧
          ∀ m₁, ∃ m₁', msg_decoder_next (d₁, m₁) = some (.ok n, d', m₁') ∧ m'.Same m₁') := by
  have hrun : Played ⟨0, 0, 0, 0, 0, false, false, false⟩ [0x0c, 0x17, 0x0c, 0x2b] (-1) [0, 0, 0]
      ⟨⟨0, 0, 0, 0, 0, false, false, false⟩, ⟨[0x2b], []⟩, -1, [0x0c, 0x17, 0x0c], 3, 0, 3, 2, 2⟩ (0 + delivered (.ok 2)) :=
    .next (m := Msg.zero) .init rfl
  exact ⟨_, hrun, msg_decoder_positions (by decide) hrun⟩

end nexusrv
