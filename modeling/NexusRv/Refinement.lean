import NexusRv.MsgDecoder
/-!
# Buffered decoding refines plain decoding

`plain_next` iterates `nexusrv_msg_decode` over the bytes of a stream, without a
buffer. `Buffered` relates the buffered decoder to what is left of the stream;
every call keeps it and returns what `plain_next` returns.
-/

namespace nexusrv

/-! ## The frames of a stream -/

/-- The frames of a stream, each up to its next byte with MSEO 3, and the bytes
behind the last of them. -/
def split_frames : List UInt8 → List (List UInt8) × List UInt8
  | [] => ([], [])
  | b :: bs =>
    let (fs, rest) := split_frames bs
    if mseo b = 3 then ([b] :: fs, rest)
    else match fs with
      | [] => ([], b :: rest)
      | f :: fs => ((b :: f) :: fs, rest)

/-- A buffer of `size` bytes holds every frame, and more than the bytes behind the last one. -/
structure Fits (size : Nat) (bs : List UInt8) : Prop where
  frames : ∀ f ∈ (split_frames bs).1, f.length ≤ size
  rest : (split_frames bs).2 ≠ [] → (split_frames bs).2.length < size

theorem split_frames_unended {bs : List UInt8} (h : Unended bs) : split_frames bs = ([], bs) := by
  induction bs with
  | nil => rfl
  | cons b bs ih =>
    have hb : mseo b ≠ 3 := h b List.mem_cons_self
    rw [split_frames, ih fun x hx => h x (List.mem_cons_of_mem _ hx)]
    simp only [hb, if_false]

theorem split_frames_frame {f : List UInt8} (bs : List UInt8) (h : IsFrame f) :
    split_frames (f ++ bs) = (f :: (split_frames bs).1, (split_frames bs).2) := by
  obtain ⟨as, b, rfl, has, hb⟩ := h
  induction as with
  | nil =>
    rw [List.nil_append, List.singleton_append, split_frames]
    simp only [hb, if_true]
  | cons a as ih =>
    have ha : mseo a ≠ 3 := has a List.mem_cons_self
    rw [List.cons_append, List.cons_append, split_frames, ih fun x hx => has x (List.mem_cons_of_mem _ hx)]
    simp only [ha, if_false]

/-- A stream starts with a frame, or has none. -/
theorem unended_or_frame (bs : List UInt8) : Unended bs ∨ ∃ f rest, bs = f ++ rest ∧ IsFrame f := by
  induction bs with
  | nil => exact .inl fun b hb => nomatch hb
  | cons b bs ih =>
    by_cases hb : mseo b = 3
    · exact .inr ⟨[b], bs, rfl, [], b, rfl, fun x hx => (nomatch hx), hb⟩
    · rcases ih with hu | ⟨f, rest, rfl, as, x, rfl, has, hx⟩
      · left
        intro y hy
        rcases List.mem_cons.1 hy with rfl | hy
        · exact hb
        · exact hu y hy
      · refine .inr ⟨b :: as ++ [x], rest, by simp, b :: as, x, rfl, ?_, hx⟩
        intro y hy
        rcases List.mem_cons.1 hy with rfl | hy
        · exact hb
        · exact has y hy

section Fits
variable {size : Nat} {bs : List UInt8}

theorem Fits.frame {f : List UInt8} (h : Fits size (f ++ bs)) (hf : IsFrame f) : f.length ≤ size ∧ Fits size bs := by
  obtain ⟨h1, h2⟩ := h
  rw [split_frames_frame bs hf] at h1 h2
  exact ⟨h1 f List.mem_cons_self, fun g hg => h1 g (List.mem_cons_of_mem _ hg), h2⟩

theorem Fits.drop (h : Fits size bs) {n : Nat} (hn : IsFrame (bs.take n)) : Fits size (bs.drop n) := by
  rw [← List.take_append_drop n bs] at h
  exact (h.frame hn).2

/-- Bytes that end no message do not fill the buffer. -/
theorem Fits.unended_lt {w q : List UInt8} (h : Fits size (w ++ q)) (hw : Unended w) (hne : w ≠ []) : w.length < size := by
  rcases unended_or_frame (w ++ q) with hu | ⟨f, rest, heq, hf⟩
  · have hrest := h.rest
    rw [split_frames_unended hu] at hrest
    have hlt := hrest (by simp [hne])
    rw [List.length_append] at hlt
    omega
  · have hle := h
    rw [heq] at hle
    have hsize := (hle.frame hf).1
    obtain ⟨as, b, rfl, -, hb⟩ := hf
    rw [List.length_append, List.length_singleton] at hsize
    -- the byte that ends the first frame is behind `w`
    have hlen : w.length ≤ as.length := by
      refine Nat.le_of_not_lt fun hlt => hw b ?_ hb
      have hget : (w ++ q)[as.length]? = some b := by rw [heq]; simp
      rw [List.getElem?_append_left hlt] at hget
      exact List.mem_of_getElem? hget
    omega

end Fits

/-! ## Plain decoding -/

/-- Decode from the bytes of the stream that are left; past the last one, nothing. -/
def plain_next (hwcfg : HwCfg) : Proc (List UInt8 × Msg) NexusError Nat := fun s =>
  if s.1 = [] then some (.ok 0, s)
  else match msg_decode hwcfg s.1 s.2 with
    | none => none
    | some (.ok n, m) => some (.ok n, s.1.drop n, m)
    | some (.error e, m) => some (.error e, s.1, m)

/-- The results of repeated calls, the messages with them; each call writes into
the next message of the list. -/
def calls {σ : Type} (next : Proc (σ × Msg) NexusError Nat) : σ → List Msg → Option (List (Except NexusError Nat × Msg))
  | _, [] => some []
  | s, m :: ms =>
    match next (s, m) with
    | none => none
    | some (r, s', m') => (calls next s' ms).map ((r, m') :: ·)

theorem calls_cons {σ : Type} {next : Proc (σ × Msg) NexusError Nat} {s s' : σ} {m m' : Msg} {r : Except NexusError Nat}
    (h : next (s, m) = some (r, s', m')) (ms : List Msg) : calls next s (m :: ms) = (calls next s' ms).map ((r, m') :: ·) := by
  rw [calls, h]

/-- The same result, and the same message if there is one. -/
def SameResult (a b : Except NexusError Nat × Msg) : Prop := a.1 = b.1 ∧ ∀ n, a.1 = .ok (n + 1) → a.2.Same b.2

/-- What is left of the stream behind a call. -/
def behind (bs : List UInt8) : Except NexusError Nat → List UInt8
  | .ok n => bs.drop n
  | .error _ => bs

/-- Plain decoding of `bs` returns `r` and the message `m`, whatever it writes into. -/
def Plain (hwcfg : HwCfg) (bs : List UInt8) (r : Except NexusError Nat) (m : Msg) : Prop :=
  ∀ m₂, ∃ m₂', plain_next hwcfg (bs, m₂) = some (r, behind bs r, m₂') ∧ SameResult (r, m) (r, m₂')

theorem plain_eof (hwcfg : HwCfg) (m : Msg) : Plain hwcfg [] (.ok 0) m :=
  fun m₂ => ⟨m₂, rfl, rfl, fun _ h => nomatch h⟩

/-- A result of `nexusrv_msg_decode` on the first bytes is the one on all of them,
if it is not that bytes are missing. -/
theorem plain_prefix {hwcfg : HwCfg} {w q : List UInt8} {r : Except NexusError Nat} {m m' : Msg}
    (h : msg_decode hwcfg w m = some (r, m')) (hne : w ≠ []) (hr : r = .error .stream_truncate → q = []) :
    Plain hwcfg (w ++ q) r m' := by
  intro m₂
  have hcons : w ++ q ≠ [] := by simp [hne]
  rcases msg_decode_append hwcfg w q m m₂ with ⟨hq, a, ha⟩ | ⟨r', a, b, ha, hb, hsame⟩
  · rw [h] at ha
    cases ha
    exact absurd (hr rfl) hq
  · rw [h] at ha
    cases ha
    refine ⟨b, ?_, rfl, fun n hn => hsame (n + 1) hn⟩
    cases r <;> simp [plain_next, hcons, hb, behind]

/-! ## The buffered decoder -/

/-- The decoder, over a regular file, has the bytes `bs` of the stream still to
deliver, and the buffer is large enough for them. A buffer that is partly filled holds the end of the stream, and so does
one that was read up to its last byte. -/
structure Buffered (hwcfg : HwCfg) (d : MsgDecoder) (bs : List UInt8) : Prop where
  inv : DecoderInv d
  cfg : d.hw_cfg = hwcfg
  unfiltered : d.src_filter < 0
  regular : d.fd.reads = []
  left : bs = d.window ++ d.fd.data
  fits : Fits d.bufsz bs
  all_read : 0 < d.filled → d.filled < d.bufsz → d.fd.data = []
  at_end : d.pos = d.filled → 0 < d.pos → d.fd.data = []

/-- Without room for a byte there is none. -/
theorem Fits.nil_of_zero {bs : List UInt8} (h : Fits 0 bs) : bs = [] := by
  rcases unended_or_frame bs with hu | ⟨f, rest, rfl, hf⟩
  · refine Classical.byContradiction fun hne => absurd (Fits.unended_lt (q := []) ?_ hu hne) (Nat.not_lt_zero _)
    rwa [List.append_nil]
  · have hle := (h.frame hf).1
    obtain ⟨as, b, rfl, -, -⟩ := hf
    simp at hle

section Buffered
variable {hwcfg : HwCfg} {d : MsgDecoder} {bs : List UInt8}

theorem window_nil (h : DecoderInv d) (heq : d.pos = d.filled) : d.window = [] :=
  List.eq_nil_of_length_eq_zero (by rw [window_length h]; omega)

theorem window_ne_nil (h : DecoderInv d) (hne : d.pos ≠ d.filled) : d.window ≠ [] := by
  intro hw
  have hlen := window_length h
  have := h.pos_le
  rw [hw, List.length_nil] at hlen
  omega

theorem init_buffered (hwcfg : HwCfg) {bs : List UInt8} {filter : Int16} (hfilter : filter < 0) {buffer : List UInt8} {size : Nat}
    (h : buffer.length = size) (hfits : Fits size bs) : Buffered hwcfg (msg_decoder_init hwcfg ⟨bs, []⟩ filter buffer size) bs :=
  ⟨init_inv hwcfg _ filter h, rfl, hfilter, rfl, rfl, hfits, fun h0 => absurd h0 (Nat.lt_irrefl 0), fun _ h0 => absurd h0 (Nat.lt_irrefl 0)⟩

theorem Buffered.of_last (h : Buffered hwcfg d bs) : Buffered hwcfg { d with lastmsg_len := 0 } bs :=
  ⟨⟨h.inv.pos_le, h.inv.filled_le, h.inv.buffer_len, .inl (Nat.zero_le _)⟩, h.cfg, h.unfiltered, h.regular, h.left, h.fits,
    h.all_read, h.at_end⟩

theorem Buffered.passes (h : Buffered hwcfg d bs) (m : Msg) : d.passes m = true := by
  have hneg : ¬ d.src_filter ≥ 0 := Int16.not_le.2 h.unfiltered
  simp [MsgDecoder.passes, hneg]

theorem advance_window (h : DecoderInv d) (n : Nat) : (d.advance n).window = d.window.drop n := by
  have h2 := h.filled_le
  have h3 := h.buffer_len
  by_cases hend : d.pos + n = d.bufsz
  · rw [advance_of_eq hend, MsgDecoder.window, MsgDecoder.window, List.drop_drop,
      List.drop_eq_nil_of_le (by simp), List.drop_eq_nil_of_le (by simp; omega)]
  · rw [advance_of_ne hend, MsgDecoder.window, MsgDecoder.window, List.drop_drop]

theorem Buffered.advance (h : Buffered hwcfg d bs) {n : Nat} (h0 : 0 < n) (hn : n ≤ d.window.length)
    (hframe : IsFrame (d.window.take n)) : Buffered hwcfg (d.advance n) (bs.drop n) := by
  obtain ⟨hinv, hcfg, hfilter, hregular, hleft, hfits, hall, hend⟩ := h
  have hinv' := advance_inv hinv hn
  have hwin := advance_window hinv n
  have hdrop : bs.drop n = d.window.drop n ++ d.fd.data := by rw [hleft, List.drop_append_of_le_length hn]
  have hfits' : Fits d.bufsz (bs.drop n) := hfits.drop (by rwa [hleft, List.take_append_of_le_length hn])
  rw [window_length hinv] at hn
  have h1 := hinv.pos_le
  have h2 := hinv.filled_le
  by_cases hfull : d.pos + n = d.bufsz
  · rw [advance_of_eq hfull] at hinv' hwin ⊢
    exact ⟨hinv', hcfg, hfilter, hregular, by rw [hwin]; exact hdrop, hfits', fun h => absurd h (Nat.lt_irrefl 0),
      fun _ h => absurd h (Nat.lt_irrefl 0)⟩
  · rw [advance_of_ne hfull] at hinv' hwin ⊢
    refine ⟨hinv', hcfg, hfilter, hregular, by rw [hwin]; exact hdrop, hfits', hall, fun heq _ => ?_⟩
    -- all that was filled is used up, and the buffer is not full
    dsimp only at heq
    exact hall (by omega) (by omega)

/-- What is read goes behind what was left in the buffer. -/
theorem refill_window (hinv : DecoderInv d) (hd : d.filled = d.bufsz ∨ d.pos = d.filled) (hok : d.refill.1 = true) :
    d.refill.2.window = d.window ++ (read_all d.fd (d.bufsz - (d.filled - d.pos))).1 := by
  have hw := window_length hinv
  have h1 := hinv.pos_le
  have h2 := hinv.filled_le
  have hlen := hinv.buffer_len
  have hcarry : (d.buffer.drop (d.bufsz - (d.filled - d.pos))).take (d.filled - d.pos) = d.window := by
    rcases hd with hfull | heq
    · have hall : d.buffer.take d.bufsz = d.buffer := List.take_of_length_le (by omega)
      have hpos : d.bufsz - (d.bufsz - d.pos) = d.pos := by omega
      rw [MsgDecoder.window, hfull, hall, hpos]
      exact List.take_of_length_le (by rw [List.length_drop]; omega)
    · rw [window_nil hinv heq, heq, Nat.sub_self, List.take_zero]
  simp only [MsgDecoder.refill] at hok
  have hmoved : (d.window ++ d.buffer.drop (d.filled - d.pos)).take (d.filled - d.pos) = d.window := List.take_left' hw
  have hlen' : d.filled - d.pos + (read_all d.fd (d.bufsz - (d.filled - d.pos))).1.length =
      (d.window ++ (read_all d.fd (d.bufsz - (d.filled - d.pos))).1).length := by rw [List.length_append, hw]
  rw [MsgDecoder.window]
  simp only [MsgDecoder.refill, hok, hcarry, hmoved, if_true, List.drop_zero]
  exact List.take_left' hlen'.symm

/-- The file is read behind what was left in the buffer. -/
theorem refill_regular (hinv : DecoderInv d) (hreg : d.fd.reads = []) (hd : d.filled = d.bufsz ∨ d.pos = d.filled) :
    d.refill.1 = true ∧ d.refill.2.filled = d.filled - d.pos + min (d.bufsz - (d.filled - d.pos)) d.fd.data.length ∧
      d.refill.2.window = d.window ++ d.fd.data.take (d.bufsz - (d.filled - d.pos)) ∧
      d.refill.2.fd = ⟨d.fd.data.drop (d.bufsz - (d.filled - d.pos)), []⟩ := by
  have hread : read_all d.fd (d.bufsz - (d.filled - d.pos)) =
      (d.fd.data.take (d.bufsz - (d.filled - d.pos)), true, ⟨d.fd.data.drop (d.bufsz - (d.filled - d.pos)), []⟩) := by
    rw [← read_all_regular _ d.fd.data _ (Nat.le_refl _), ← hreg]
    rfl
  have hok : d.refill.1 = true := by simp [MsgDecoder.refill, hread]
  refine ⟨hok, by simp [MsgDecoder.refill, hread], ?_, by simp [MsgDecoder.refill, hread]⟩
  rw [refill_window hinv hd hok, hread]

theorem Buffered.refill (h : Buffered hwcfg d bs) (h0 : d.lastmsg_len = 0) (hd : d.filled = d.bufsz ∨ d.pos = d.filled) :
    Buffered hwcfg d.refill.2 bs := by
  obtain ⟨hinv, hsetup, -, hpos, -⟩ := refill_spec h.inv h0
  obtain ⟨-, hfilled, hwin, hfd⟩ := refill_regular h.inv h.regular hd
  have h1 := h.inv.pos_le
  have h2 := h.inv.filled_le
  refine ⟨hinv, hsetup.1.trans h.cfg, by rw [hsetup.2.1]; exact h.unfiltered, by rw [hfd], ?_, by rw [hsetup.2.2]; exact h.fits, ?_, ?_⟩
  · rw [hwin, hfd, List.append_assoc, List.take_append_drop]
    exact h.left
  · -- what is read does not fill the buffer only when the file ends
    rw [hfilled, hsetup.2.2, hfd]
    intro _ hlt
    exact List.drop_of_length_le (by omega)
  · rw [hpos]
    exact fun _ h => absurd h (Nat.lt_irrefl 0)

/-- Past the last byte the positions are set to the end of the buffer. -/
theorem Buffered.at_max (h : Buffered hwcfg d []) : Buffered hwcfg { d with pos := d.bufsz, filled := d.bufsz } [] := by
  obtain ⟨hinv, hcfg, hfilter, hregular, hleft, hfits, -, -⟩ := h
  have hdata : d.fd.data = [] := (List.append_eq_nil_iff.1 hleft.symm).2
  have hlast : d.lastmsg_len ≤ d.bufsz := by
    have := hinv.pos_le
    have := hinv.filled_le
    rcases hinv.last_le with h | ⟨-, -, -, h⟩ <;> omega
  refine ⟨⟨Nat.le_refl _, Nat.le_refl _, hinv.buffer_len, .inl hlast⟩, hcfg, hfilter, hregular, ?_, hfits,
    fun _ h => absurd h (Nat.lt_irrefl _), fun _ _ => hdata⟩
  rw [hdata, List.append_nil, MsgDecoder.window]
  exact (List.drop_eq_nil_of_le (by simp)).symm

/-- One round: it returns what plain decoding returns, or fills the buffer. -/
inductive Matched (hwcfg : HwCfg) (d : MsgDecoder) (bs : List UInt8) :
    Option (Except NexusError (Option Nat) × MsgDecoder × Msg) → Prop where
  | returned (r : Except NexusError Nat) (d' : MsgDecoder) (m' : Msg) : Plain hwcfg bs r m' → Buffered hwcfg d' (behind bs r) →
      Matched hwcfg d bs (some (r.map some, d', m'))
  | refilled (d' : MsgDecoder) (m' : Msg) : Buffered hwcfg d' bs → d'.pos = 0 → 0 < d'.filled → d.pos ≠ 0 ∨ d.filled = 0 →
      Matched hwcfg d bs (some (.ok none, d', m'))

theorem Matched.of_last {r : Option (Except NexusError (Option Nat) × MsgDecoder × Msg)}
    (h : Matched hwcfg { d with lastmsg_len := 0 } bs r) : Matched hwcfg d bs r := by
  cases h with
  | returned r d' m' hp hb => exact .returned r d' m' hp hb
  | refilled d' m' hb hp hf hr => exact .refilled d' m' hb hp hf hr

theorem read_buffer_matched (h : Buffered hwcfg d bs) (h0 : d.lastmsg_len = 0) (hd : d.filled = d.bufsz ∨ d.pos = d.filled)
    (hr : d.pos ≠ 0 ∨ d.filled = 0) (m : Msg) : Matched hwcfg d bs (read_buffer (d, m)) := by
  obtain ⟨-, hsetup, -, hpos, -⟩ := refill_spec h.inv h0
  obtain ⟨hok, hfilled, hwin, hfd⟩ := refill_regular h.inv h.regular hd
  have hbuf := h.refill h0 hd
  simp only [read_buffer, Proc.get_bind_apply, Proc.modify_bind_apply, Proc.ite_apply, hok, Bool.not_true, Bool.false_eq_true,
    if_false]
  split
  · exact .refilled _ _ hbuf hpos ‹_› hr
  · rename_i hz
    have heq : d.pos = d.filled := by have := h.inv.pos_le; omega
    have hnil : bs = [] := by
      by_cases hsize : d.bufsz = 0
      · have hfits := h.fits
        rw [hsize] at hfits
        exact hfits.nil_of_zero
      · rw [h.left, window_nil h.inv heq, List.nil_append, ← List.length_eq_zero_iff]
        omega
    rw [hnil] at hbuf ⊢
    exact .returned (.ok 0) _ _ (plain_eof hwcfg m) hbuf.at_max

theorem try_again_matched (h : Buffered hwcfg d bs) (m : Msg) :
    Matched hwcfg d bs (try_again (d, m)) := by
  have hbuf := h.of_last
  have hwin := window_length h.inv
  simp only [try_again, Proc.modify_bind_apply, Proc.get_bind_apply, Proc.ite_apply]
  by_cases heq : d.pos = d.filled
  · rw [if_pos heq]
    by_cases hp : d.pos = 0
    · rw [if_neg (by simpa using hp)]
      exact (read_buffer_matched hbuf rfl (.inr heq) (.inr (by dsimp only; omega)) m).of_last
    · rw [if_pos hp]
      have hnil : bs = [] := by rw [h.left, window_nil h.inv heq, h.at_end heq (by omega), List.nil_append]
      rw [hnil] at hbuf ⊢
      exact .returned (.ok 0) _ _ (plain_eof hwcfg m) hbuf
  · rw [if_neg heq]
    have hne := window_ne_nil h.inv heq
    have hleft := h.left
    have hw : ({ d with lastmsg_len := 0 } : MsgDecoder).window = d.window := rfl
    rw [hw]
    rcases msg_decode_total d.hw_cfg d.window m with ⟨n, m', hd, hle, hframe⟩ | ⟨e, m', hd, htrunc⟩
    · have hpos := (msg_decode_ok_pos hd).1
      have hplain := plain_prefix hd hne (q := d.fd.data) (by simp)
      rw [← hleft, h.cfg] at hplain
      simp only [hd, Proc.modify_bind_apply, hbuf.passes, if_true, advance_last]
      exact .returned (.ok n) _ _ hplain (h.advance hpos hle hframe)
    · simp only [hd, Proc.modify_bind_apply, Proc.ite_apply]
      have hpos_le := h.inv.pos_le
      by_cases hlast : (d.filled ≠ d.bufsz || e ≠ .stream_truncate) = true
      · rw [if_pos hlast]
        have hplain := plain_prefix hd hne (q := d.fd.data) ?_
        · rw [← hleft, h.cfg] at hplain
          exact .returned (.error e) _ _ hplain hbuf
        · -- a buffer that is partly filled has read the whole file
          intro he
          cases he
          have hfilled := h.inv.filled_le
          exact h.all_read (by omega) (by simp at hlast; omega)
      · obtain ⟨hfull, rfl⟩ : d.filled = d.bufsz ∧ e = .stream_truncate := by simpa using hlast
        have hlt : d.window.length < d.bufsz := (hleft ▸ h.fits).unended_lt (htrunc rfl) hne
        have hp : d.pos ≠ 0 := by omega
        rw [if_neg hlast, if_neg hp]
        exact (read_buffer_matched hbuf rfl (.inl hfull) (.inl hp) m').of_last

/-- A call of the buffered decoder returns what plain decoding returns. -/
theorem msg_decoder_next_plain (h : Buffered hwcfg d bs) (m : Msg) :
    ∃ r d' m', msg_decoder_next (d, m) = some (r, d', m') ∧ Plain hwcfg bs r m' ∧ Buffered hwcfg d' (behind bs r) := by
  have hloop : msg_decoder_next (d, m) = msg_decoder_next_loop (2 * d.bytesLeft + 1 + 1) (d, m) := by
    simp [msg_decoder_next, h.inv.pos_le, h.inv.filled_le]
  -- at most one round fills the buffer
  have hreturned : ∀ (fuel : Nat) (d : MsgDecoder) (m : Msg) (r : Except NexusError Nat) (d' : MsgDecoder) (m' : Msg),
      try_again (d, m) = some (r.map some, d', m') → msg_decoder_next_loop (fuel + 1) (d, m) = some (r, d', m') := by
    intro fuel d m r d' m' hr
    rw [msg_decoder_next_loop]
    cases r with
    | ok n => rw [Proc.bind_ok hr]; rfl
    | error e => rw [Proc.bind_error hr]
  rw [hloop]
  have hround := try_again_matched h m
  generalize hr : try_again (d, m) = x at hround
  cases hround with
  | returned r d' m' hp hb => exact ⟨r, d', m', hreturned _ _ _ _ _ _ hr, hp, hb⟩
  | refilled d₁ m₁ hb hpos hf _ =>
    rw [msg_decoder_next_loop, Proc.bind_ok hr]
    have hround := try_again_matched hb m₁
    generalize hr : try_again (d₁, m₁) = x at hround
    cases hround with
    | returned r d' m' hp hb => exact ⟨r, d', m', hreturned _ _ _ _ _ _ hr, hp, hb⟩
    | refilled d₂ m₂ _ _ _ hor => omega

end Buffered

/-- Over a stream whose frames fit into the buffer, repeated calls of
`nexusrv_msg_decoder_next` return what iterating `nexusrv_msg_decode` over the
stream returns, with the same messages. -/
theorem msg_decoder_next_refines (hwcfg : HwCfg) (bs buffer : List UInt8) (filter : Int16) (hfilter : filter < 0)
    (hfits : Fits buffer.length bs) (ms ms' : List Msg) (hlen : ms.length = ms'.length) :
    ∃ rs rs', calls msg_decoder_next (msg_decoder_init hwcfg ⟨bs, []⟩ filter buffer buffer.length) ms = some rs ∧
      calls (plain_next hwcfg) bs ms' = some rs' ∧ List.Forall₂ SameResult rs rs' := by
  have hstart := init_buffered hwcfg hfilter rfl hfits
  generalize msg_decoder_init hwcfg ⟨bs, []⟩ filter buffer buffer.length = d at hstart
  clear hfits
  induction ms generalizing ms' d bs with
  | nil =>
    obtain rfl := List.eq_nil_of_length_eq_zero hlen.symm
    exact ⟨[], [], rfl, rfl, .nil⟩
  | cons m ms ih =>
    obtain ⟨m₂, ms₂, rfl⟩ := List.exists_cons_of_length_eq_add_one hlen.symm
    obtain ⟨r, d', m', hnext, hplain, hbuf⟩ := msg_decoder_next_plain hstart m
    obtain ⟨m₂', hnext', hsame⟩ := hplain m₂
    obtain ⟨rs, rs', hrs, hrs', hall⟩ := ih (behind bs r) ms₂ (by simpa using hlen) d' hbuf
    exact ⟨(r, m') :: rs, (r, m₂') :: rs', by rw [calls_cons hnext, hrs]; rfl, by rw [calls_cons hnext', hrs']; rfl, .cons hsame hall⟩

/-- Two messages and the start of a third, through a buffer of two bytes. -/
theorem msg_decoder_next_refines_two : let cfg : HwCfg := ⟨0, 0, 0, 0, 0, false, false, false⟩
    let bs : List UInt8 := [0x0c, 0x17, 0xff, 0x0c]
    ∃ rs rs', calls msg_decoder_next (msg_decoder_init cfg ⟨bs, []⟩ (-1) [0, 0] 2) (List.replicate 4 Msg.zero) = some rs ∧
      calls (plain_next cfg) bs (List.replicate 4 Msg.zero) = some rs' ∧ List.Forall₂ SameResult rs rs' :=
  msg_decoder_next_refines _ _ [0, 0] (-1) (by decide) ⟨by decide, by decide⟩ _ _ rfl

end nexusrv
