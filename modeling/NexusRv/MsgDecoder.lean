import NexusRv.DecodeLaws
/-!
# The buffered message decoder

`nexusrv_msg_decoder` and `read_all`. The decoder fills its buffer from a file,
decodes from the buffer, carries a message that is cut off to the front and reads
on. `DecoderInv` is kept by every call; `msg_decoder_next_total` says what a call
can return, and `msg_decoder_next_rewind` that a message that was put back is
delivered again.
-/

namespace nexusrv

/-! ## Reading -/

/-- A file descriptor: the bytes to come, and what the next calls of `read(2)` do:
fail, or return at most so many bytes. A call past the end of `reads` returns all
that is asked for and there. -/
structure Fd where
  data : List UInt8
  reads : List (Option Nat)

def read (fd : Fd) (count : Nat) : Option (List UInt8) × Fd :=
  match fd.reads with
  | [] => (some (fd.data.take count), ⟨fd.data.drop count, []⟩)
  | none :: reads => (none, ⟨fd.data, reads⟩)
  | some k :: reads => (some (fd.data.take (min k count)), ⟨fd.data.drop (min k count), reads⟩)

def MAX_READ_SIZE : Nat := 1000 * 1000 * 1000

def chunk_size (count : Nat) : Nat := if MAX_READ_SIZE > count then count else MAX_READ_SIZE

/-- The loop of `read_all`: the bytes stored, and whether it did not fail. Every
full read stores at least one byte, so `fuel = count` rounds are enough. -/
def read_all_loop : Nat → Fd → Nat → List UInt8 × Bool × Fd
  | 0, fd, _ => ([], true, fd)
  | fuel + 1, fd, count =>
    if count = 0 then ([], true, fd)
    else
      let chunk := chunk_size count
      match read fd chunk with
      | (none, fd) => ([], false, fd)
      | (some bytes, fd) =>
        if bytes.length < chunk then (bytes, true, fd)
        else
          let rest := read_all_loop fuel fd (count - bytes.length)
          (bytes ++ rest.1, rest.2)

def read_all (fd : Fd) (count : Nat) : List UInt8 × Bool × Fd := read_all_loop count fd count

/-! ## The decoder -/

/-- `nexusrv_msg_decoder`; `buffer` has `bufsz` bytes. -/
structure MsgDecoder where
  hw_cfg : HwCfg
  fd : Fd
  src_filter : Int16
  buffer : List UInt8
  bufsz : Nat
  nread : Nat
  filled : Nat
  pos : Nat
  lastmsg_len : Nat

def msg_decoder_init (hwcfg : HwCfg) (fd : Fd) (src_filter : Int16) (buffer : List UInt8) (bufsz : Nat) : MsgDecoder :=
  ⟨hwcfg, fd, src_filter, buffer, bufsz, 0, 0, 0, 0⟩

/-- The decoder, and the message it writes. -/
abbrev Mdec := Proc (MsgDecoder × Msg) NexusError

/-- The bytes that `nexusrv_msg_decode` gets. -/
def MsgDecoder.window (d : MsgDecoder) : List UInt8 := (d.buffer.take d.filled).drop d.pos

/-- Behind a message of `rc` bytes. -/
def MsgDecoder.advance (d : MsgDecoder) (rc : Nat) : MsgDecoder :=
  let d := { d with pos := d.pos + rc }
  let d := if d.pos = d.bufsz then { d with nread := d.nread + d.pos, pos := 0, filled := 0 } else d
  { d with lastmsg_len := rc }

/-- Move what is left to the front and read on behind it. -/
def MsgDecoder.refill (d : MsgDecoder) : Bool × MsgDecoder :=
  let carry := d.filled - d.pos
  let r := read_all d.fd (d.bufsz - carry)
  let moved := (d.buffer.drop (d.bufsz - carry)).take carry ++ d.buffer.drop carry
  (r.2.1, { d with
    buffer := moved.take carry ++ r.1 ++ moved.drop (carry + r.1.length)
    nread := d.nread + d.pos
    pos := 0
    filled := if r.2.1 then carry + r.1.length else carry
    fd := r.2.2 })

/-- `read_buffer:`, up to its jump to `try_again`, which is `none`. -/
def read_buffer : Mdec (Option Nat) := do
  let s ← Proc.get
  let r := s.1.refill
  Proc.modify fun s => (r.2, s.2)
  if !r.1 then Proc.fail .stream_read_failed
  else if r.2.filled > 0 then pure none
  else do
    Proc.modify fun s => ({ s.1 with pos := s.1.bufsz, filled := s.1.bufsz }, s.2)
    pure (some 0)

/-- The SRC filter lets a message through. -/
def MsgDecoder.passes (d : MsgDecoder) (m : Msg) : Bool := !(d.src_filter ≥ 0 && d.src_filter.toInt ≠ m.src.toNat)

/-- `try_again:`, up to the next jump to `try_again`, which is `none`. -/
def try_again : Mdec (Option Nat) := do
  Proc.modify fun s => ({ s.1 with lastmsg_len := 0 }, s.2)
  let s ← Proc.get
  let d := s.1
  if d.pos = d.filled then
    if d.pos ≠ 0 then pure (some 0) else read_buffer
  else
    match msg_decode d.hw_cfg d.window s.2 with
    | none => Proc.assert false >>= fun _ => pure none
    | some (.ok rc, m) => do
      Proc.modify fun s => (s.1.advance rc, m)
      if d.passes m then pure (some rc) else pure none
    | some (.error e, m) => do
      Proc.modify fun s => (s.1, m)
      if d.filled ≠ d.bufsz || e ≠ .stream_truncate then Proc.fail e
      else if d.pos = 0 then Proc.fail .buffer_too_small
      else read_buffer

def msg_decoder_next_loop : Nat → Mdec Nat
  | 0 => Proc.assert false >>= fun _ => pure 0
  | fuel + 1 => do
    match ← try_again with
    | some rc => pure rc
    | none => msg_decoder_next_loop fuel

/-- The bytes the decoder has not consumed. -/
def MsgDecoder.bytesLeft (d : MsgDecoder) : Nat := d.filled - d.pos + d.fd.data.length

/-- `nexusrv_msg_decoder_next`. Every second round consumes a byte that is left. -/
def msg_decoder_next : Mdec Nat := do
  let s ← Proc.get
  Proc.assert (s.1.pos ≤ s.1.filled)
  Proc.assert (s.1.filled ≤ s.1.bufsz)
  msg_decoder_next_loop (2 * s.1.bytesLeft + 2)

/-- `nexusrv_msg_decoder_rewind_last`. -/
def msg_decoder_rewind_last : Proc MsgDecoder NexusError Unit := do
  let d ← Proc.get
  Proc.assert (d.pos ≤ d.filled)
  Proc.assert (d.filled ≤ d.bufsz)
  Proc.when (d.lastmsg_len ≠ 0) (do
    Proc.assert (d.pos = 0 || d.pos ≥ d.lastmsg_len)
    Proc.when (d.pos = 0) (do
      Proc.assert (d.filled = 0)
      Proc.assert (d.nread ≥ d.bufsz)
      Proc.modify fun d => { d with pos := d.bufsz, filled := d.bufsz, nread := d.nread - d.bufsz })
    Proc.modify fun d => { d with pos := d.pos - d.lastmsg_len, lastmsg_len := 0 })

/-! ## `read_all` -/

theorem read_spec (fd : Fd) (count : Nat) :
    (read fd count).1.getD [] ++ (read fd count).2.data = fd.data ∧ ((read fd count).1.getD []).length ≤ count := by
  unfold read
  rcases fd.reads with _ | ⟨_ | k, reads⟩
  · exact ⟨List.take_append_drop _ _, by simp⟩
  · exact ⟨rfl, Nat.zero_le _⟩
  · refine ⟨List.take_append_drop _ _, ?_⟩
    simp only [Option.getD_some, List.length_take]
    omega

/-- What `read_all` stores are the next bytes of the file. -/
theorem read_all_loop_spec (fuel : Nat) : ∀ (fd : Fd) (count : Nat),
    (read_all_loop fuel fd count).1 ++ (read_all_loop fuel fd count).2.2.data = fd.data ∧
      (read_all_loop fuel fd count).1.length ≤ count := by
  induction fuel with
  | zero => intro fd count; exact ⟨rfl, Nat.zero_le _⟩
  | succ fuel ih =>
    intro fd count
    rw [read_all_loop]
    split
    · exact ⟨rfl, Nat.zero_le _⟩
    · have hchunk : chunk_size count ≤ count := by unfold chunk_size; split <;> omega
      obtain ⟨hdata, hlen⟩ := read_spec fd (chunk_size count)
      dsimp only
      generalize read fd (chunk_size count) = r at hdata hlen ⊢
      obtain ⟨_ | bytes, fd'⟩ := r
      · exact ⟨hdata, Nat.zero_le _⟩
      · simp only [Option.getD_some] at hdata hlen
        dsimp only
        split
        · exact ⟨hdata, Nat.le_trans hlen hchunk⟩
        · obtain ⟨ih1, ih2⟩ := ih fd' (count - bytes.length)
          refine ⟨by rw [List.append_assoc, ih1, hdata], ?_⟩
          rw [List.length_append]
          omega

/-- A file whose reads are short only at its end. -/
theorem read_all_regular (fuel : Nat) : ∀ (data : List UInt8) (count : Nat), count ≤ fuel →
    read_all_loop fuel ⟨data, []⟩ count = (data.take count, true, ⟨data.drop count, []⟩) := by
  induction fuel with
  | zero => intro data count h; rw [Nat.le_zero.1 h]; rfl
  | succ fuel ih =>
    intro data count h
    rw [read_all_loop]
    split
    · rename_i h0; simp [h0]
    · have hle : chunk_size count ≤ count ∧ 0 < chunk_size count := by
        have hmax : 0 < MAX_READ_SIZE := by decide
        unfold chunk_size
        split <;> omega
      generalize chunk_size count = chunk at hle
      simp only [read, List.length_take]
      split
      · have hall : data.length ≤ chunk := by omega
        rw [List.take_of_length_le hall, List.drop_of_length_le hall, List.take_of_length_le (by omega),
          List.drop_of_length_le (by omega)]
      · rw [Nat.min_eq_left (by omega), ih _ _ (by omega), ← List.take_add, List.drop_drop, Nat.add_sub_cancel' hle.1]

/-! ## The invariant -/

/-- What every call of the decoder's functions keeps. -/
structure DecoderInv (d : MsgDecoder) : Prop where
  pos_le : d.pos ≤ d.filled
  filled_le : d.filled ≤ d.bufsz
  buffer_len : d.buffer.length = d.bufsz
  last_le : d.lastmsg_len ≤ d.pos ∨ d.pos = 0 ∧ d.filled = 0 ∧ d.bufsz ≤ d.nread ∧ d.lastmsg_len ≤ d.bufsz

/-- The same decoder, at another place. -/
def SameSetup (d d' : MsgDecoder) : Prop := d'.hw_cfg = d.hw_cfg ∧ d'.src_filter = d.src_filter ∧ d'.bufsz = d.bufsz

theorem init_inv (hwcfg : HwCfg) (fd : Fd) (filter : Int16) {buffer : List UInt8} {bufsz : Nat} (h : buffer.length = bufsz) :
    DecoderInv (msg_decoder_init hwcfg fd filter buffer bufsz) :=
  ⟨Nat.le_refl _, Nat.zero_le _, h, .inl (Nat.le_refl _)⟩

section Round
variable {d : MsgDecoder}

theorem window_length (h : DecoderInv d) : d.window.length = d.filled - d.pos := by
  have := h.filled_le
  rw [MsgDecoder.window, List.length_drop, List.length_take, h.buffer_len]
  omega

theorem advance_of_eq {n : Nat} (h : d.pos + n = d.bufsz) :
    d.advance n = { d with pos := 0, filled := 0, nread := d.nread + d.bufsz, lastmsg_len := n } := by
  simp [MsgDecoder.advance, h]

theorem advance_of_ne {n : Nat} (h : d.pos + n ≠ d.bufsz) : d.advance n = { d with pos := d.pos + n, lastmsg_len := n } := by
  simp [MsgDecoder.advance, h]

theorem advance_inv (h : DecoderInv d) {n : Nat} (hn : n ≤ d.window.length) : DecoderInv (d.advance n) := by
  rw [window_length h] at hn
  obtain ⟨h1, h2, h3, -⟩ := h
  unfold MsgDecoder.advance
  dsimp only
  split
  · exact ⟨Nat.le_refl _, Nat.zero_le _, h3, .inr ⟨rfl, rfl, by dsimp only; omega, by dsimp only; omega⟩⟩
  · exact ⟨by dsimp only; omega, h2, h3, .inl (Nat.le_add_left _ _)⟩

theorem advance_setup (n : Nat) : SameSetup d (d.advance n) := by
  unfold MsgDecoder.advance
  dsimp only
  split <;> exact ⟨rfl, rfl, rfl⟩

theorem advance_bytesLeft (h : DecoderInv d) {n : Nat} (hn : n ≤ d.window.length) :
    (d.advance n).bytesLeft + n = d.bytesLeft := by
  rw [window_length h] at hn
  have := h.pos_le
  have := h.filled_le
  unfold MsgDecoder.advance MsgDecoder.bytesLeft
  dsimp only
  split <;> dsimp only <;> omega

/-- Rewinding goes back to where the message was decoded. -/
theorem rewind_advance (h : DecoderInv d) {n : Nat} (h0 : 0 < n) (hn : n ≤ d.window.length) :
    msg_decoder_rewind_last (d.advance n) = some (.ok (), { d with lastmsg_len := 0 }) := by
  have hinv := advance_inv h hn
  rw [window_length h] at hn
  have h1 := h.pos_le
  have h2 := h.filled_le
  have hne : n ≠ 0 := by omega
  have hpos := hinv.pos_le
  have hfilled := hinv.filled_le
  by_cases hend : d.pos + n = d.bufsz
  · have hfull : d.filled = d.bufsz := by omega
    rw [advance_of_eq hend]
    simp [msg_decoder_rewind_last, hne]
    omega
  · rw [advance_of_ne hend]
    simp [msg_decoder_rewind_last, hne]
    omega

theorem refill_spec (h : DecoderInv d) (h0 : d.lastmsg_len = 0) : DecoderInv d.refill.2 ∧ SameSetup d d.refill.2 ∧
    d.refill.2.lastmsg_len = 0 ∧ d.refill.2.pos = 0 ∧ d.refill.2.bytesLeft ≤ d.bytesLeft := by
  obtain ⟨hdata, hlen⟩ := read_all_loop_spec (d.bufsz - (d.filled - d.pos)) d.fd (d.bufsz - (d.filled - d.pos))
  have hdlen := congrArg List.length hdata
  rw [List.length_append] at hdlen
  obtain ⟨h1, h2, h3, -⟩ := h
  unfold MsgDecoder.refill MsgDecoder.bytesLeft read_all
  refine ⟨⟨Nat.zero_le _, ?_, ?_, .inl (by dsimp only; omega)⟩, ⟨rfl, rfl, rfl⟩, h0, rfl, ?_⟩
  · dsimp only
    split <;> omega
  · dsimp only
    simp only [List.length_append, List.length_take, List.length_drop, h3]
    omega
  · dsimp only
    split <;> omega

/-- No more messages. -/
def AtEof (d : MsgDecoder) : Prop := d.pos = d.filled ∧ (d.pos ≠ 0 ∨ d.bufsz = 0)

/-- One round: a message is delivered or filtered out, the end is reported, the
buffer is filled again, or the call fails. -/
inductive Round (d : MsgDecoder) (m : Msg) : Option (Except NexusError (Option Nat) × MsgDecoder × Msg) → Prop where
  | delivered (n : Nat) (m' : Msg) : 0 < n → n ≤ d.window.length → msg_decode d.hw_cfg d.window m = some (.ok n, m') →
      d.passes m' → Round d m (some (.ok (some n), d.advance n, m'))
  | filtered (n : Nat) (m' : Msg) : 0 < n → n ≤ d.window.length → Round d m (some (.ok none, d.advance n, m'))
  | eof (d' : MsgDecoder) (m' : Msg) : DecoderInv d' → SameSetup d d' → d'.lastmsg_len = 0 → d'.bytesLeft ≤ d.bytesLeft →
      AtEof d' → Round d m (some (.ok (some 0), d', m'))
  | refilled (d' : MsgDecoder) (m' : Msg) : DecoderInv d' → SameSetup d d' → d'.lastmsg_len = 0 → d'.bytesLeft ≤ d.bytesLeft →
      d'.pos = 0 → 0 < d'.filled → d.pos ≠ 0 ∨ d.filled = 0 → Round d m (some (.ok none, d', m'))
  | failed (e : NexusError) (d' : MsgDecoder) (m' : Msg) : DecoderInv d' → SameSetup d d' → d'.lastmsg_len = 0 →
      d'.bytesLeft ≤ d.bytesLeft → Round d m (some (.error e, d', m'))

theorem read_buffer_round (h : DecoderInv d) (h0 : d.lastmsg_len = 0) (hr : d.pos ≠ 0 ∨ d.filled = 0) (m m₁ : Msg) :
    Round d m (read_buffer (d, m₁)) := by
  obtain ⟨hinv, hsetup, hlast, hpos, hleft⟩ := refill_spec h h0
  simp only [read_buffer, Proc.get_bind_apply, Proc.modify_bind_apply, Proc.ite_apply]
  split
  · exact .failed _ _ _ hinv hsetup hlast hleft
  · split
    · exact .refilled _ _ hinv hsetup hlast hleft hpos ‹_› hr
    · rename_i hz
      have hfd : d.refill.2.filled = 0 := by omega
      refine .eof _ _ ⟨Nat.le_refl _, Nat.le_refl _, hinv.buffer_len, .inl (by dsimp only; omega)⟩ hsetup hlast ?_ ⟨rfl, ?_⟩
      · unfold MsgDecoder.bytesLeft at hleft ⊢
        dsimp only
        omega
      · dsimp only; omega

theorem advance_last (d : MsgDecoder) (n k : Nat) : ({ d with lastmsg_len := k } : MsgDecoder).advance n = d.advance n := by
  unfold MsgDecoder.advance
  dsimp only
  split <;> rfl

theorem Round.of_last {m : Msg} {r : Option (Except NexusError (Option Nat) × MsgDecoder × Msg)}
    (h : Round { d with lastmsg_len := 0 } m r) : Round d m r := by
  cases h with
  | delivered n m' h0 hn hd hp => rw [advance_last]; exact .delivered n m' h0 hn hd hp
  | filtered n m' h0 hn => rw [advance_last]; exact .filtered n m' h0 hn
  | eof d' m' hinv hs hl hb he => exact .eof d' m' hinv hs hl hb he
  | refilled d' m' hinv hs hl hb hp hf hr => exact .refilled d' m' hinv hs hl hb hp hf hr
  | failed e d' m' hinv hs hl hb => exact .failed e d' m' hinv hs hl hb

theorem msg_decode_ok_pos {hwcfg : HwCfg} {buffer : List UInt8} {m m' : Msg} {n : Nat}
    (h : msg_decode hwcfg buffer m = some (.ok n, m')) : 0 < n ∧ n ≤ buffer.length ∧ IsFrame (buffer.take n) := by
  rcases msg_decode_total hwcfg buffer m with ⟨k, m'', hk, hle, hframe⟩ | ⟨e, m'', he, -⟩
  · rw [h] at hk
    cases hk
    have hshape := hframe
    obtain ⟨as, b, htake, -, -⟩ := hshape
    refine ⟨Nat.pos_of_ne_zero fun h0 => ?_, hle, hframe⟩
    rw [h0] at htake
    simp at htake
  · rw [h] at he
    cases he

theorem try_again_round (h : DecoderInv d) (m : Msg) : Round d m (try_again (d, m)) := by
  refine Round.of_last ?_
  have hinv : DecoderInv { d with lastmsg_len := 0 } := ⟨h.pos_le, h.filled_le, h.buffer_len, .inl (Nat.zero_le _)⟩
  simp only [try_again, Proc.modify_bind_apply, Proc.get_bind_apply, Proc.ite_apply]
  by_cases heq : d.pos = d.filled
  · rw [if_pos heq]
    by_cases hp : d.pos = 0
    · rw [if_neg (by simpa using hp)]
      exact read_buffer_round hinv rfl (.inr (by dsimp only; omega)) m m
    · rw [if_pos hp]
      exact .eof _ _ hinv ⟨rfl, rfl, rfl⟩ rfl (Nat.le_refl _) ⟨heq, .inl hp⟩
  · rw [if_neg heq]
    have hw : ({ d with lastmsg_len := 0 } : MsgDecoder).window = d.window := rfl
    rcases msg_decode_total d.hw_cfg d.window m with ⟨n, m', hd, hle, -⟩ | ⟨e, m', hd, -⟩
    · have hpos := (msg_decode_ok_pos hd).1
      rw [hw, hd]
      simp only [Proc.modify_bind_apply, Proc.ite_apply]
      split
      · exact .delivered n m' hpos hle hd ‹_›
      · exact .filtered n m' hpos hle
    · rw [hw, hd]
      simp only [Proc.modify_bind_apply, Proc.ite_apply]
      split
      · exact .failed _ _ _ hinv ⟨rfl, rfl, rfl⟩ rfl (Nat.le_refl _)
      · split
        · exact .failed _ _ _ hinv ⟨rfl, rfl, rfl⟩ rfl (Nat.le_refl _)
        · exact read_buffer_round hinv rfl (.inl ‹_›) m m'

/-- A round, written out. -/
def round (d : MsgDecoder) (m : Msg) : Option (Except NexusError (Option Nat) × MsgDecoder × Msg) :=
  if d.pos = d.filled then
    if d.pos ≠ 0 then some (.ok (some 0), d, m) else read_buffer (d, m)
  else match msg_decode d.hw_cfg d.window m with
    | none => none
    | some (.ok n, m') => some (if d.passes m' then .ok (some n) else .ok none, d.advance n, m')
    | some (.error e, m') =>
      if d.filled ≠ d.bufsz || e ≠ .stream_truncate then some (.error e, d, m')
      else if d.pos = 0 then some (.error .buffer_too_small, d, m')
      else read_buffer (d, m')

theorem try_again_eq (d : MsgDecoder) (m : Msg) : try_again (d, m) = round { d with lastmsg_len := 0 } m := by
  simp only [try_again, Proc.modify_bind_apply, Proc.get_bind_apply, Proc.ite_apply, round]
  split
  · rfl
  · rcases msg_decode _ _ m with _ | ⟨e | n, m'⟩
    · rfl
    · simp only [Proc.modify_bind_apply, Proc.ite_apply]
      split
      · rfl
      · split <;> rfl
    · simp only [Proc.modify_bind_apply, Proc.ite_apply]
      split <;> rfl

end Round

/-! ## A whole call -/

theorem SameSetup.trans {a b c : MsgDecoder} (h : SameSetup a b) (h' : SameSetup b c) : SameSetup a c :=
  ⟨h'.1.trans h.1, h'.2.1.trans h.2.1, h'.2.2.trans h.2.2⟩

/-- What a call of `nexusrv_msg_decoder_next` returns and leaves: a message, with
the decoder `src` that it was decoded from, the end, or an error. -/
inductive Next (d : MsgDecoder) : Option (Except NexusError Nat × MsgDecoder × Msg) → Prop where
  | message (n : Nat) (src : MsgDecoder) (m m' : Msg) : 0 < n → n ≤ src.window.length → DecoderInv src → SameSetup d src →
      src.bytesLeft ≤ d.bytesLeft → msg_decode src.hw_cfg src.window m = some (.ok n, m') → src.passes m' →
      Next d (some (.ok n, src.advance n, m'))
  | eof (d' : MsgDecoder) (m' : Msg) : DecoderInv d' → SameSetup d d' → d'.lastmsg_len = 0 → d'.bytesLeft ≤ d.bytesLeft →
      AtEof d' → Next d (some (.ok 0, d', m'))
  | failed (e : NexusError) (d' : MsgDecoder) (m' : Msg) : DecoderInv d' → SameSetup d d' → d'.lastmsg_len = 0 →
      d'.bytesLeft ≤ d.bytesLeft → Next d (some (.error e, d', m'))

theorem Next.of_setup {d d₁ : MsgDecoder} {r : Option (Except NexusError Nat × MsgDecoder × Msg)} (hs : SameSetup d d₁)
    (hb : d₁.bytesLeft ≤ d.bytesLeft) (h : Next d₁ r) : Next d r := by
  cases h with
  | message n src m m' h0 hn hinv hs' hb' hd hp => exact .message n src m m' h0 hn hinv (hs.trans hs') (by omega) hd hp
  | eof d' m' hinv hs' hl hb' he => exact .eof d' m' hinv (hs.trans hs') hl (by omega) he
  | failed e d' m' hinv hs' hl hb' => exact .failed e d' m' hinv (hs.trans hs') hl (by omega)

/-- No fill follows a fill without a message in between. -/
def roundsLeft (d : MsgDecoder) : Nat := 2 * d.bytesLeft + if d.pos = 0 ∧ 0 < d.filled then 0 else 1

theorem rounds_enough (d : MsgDecoder) : roundsLeft d < 2 * d.bytesLeft + 2 := by
  simp only [roundsLeft]
  split <;> omega

/-- A round that goes on leaves fewer rounds. -/
theorem Round.again {d d' : MsgDecoder} {m m' : Msg} (hinv : DecoderInv d) (h : Round d m (some (.ok none, d', m'))) :
    DecoderInv d' ∧ SameSetup d d' ∧ d'.bytesLeft ≤ d.bytesLeft ∧ roundsLeft d' < roundsLeft d := by
  generalize hr : (some (.ok none, d', m') : Option (Except NexusError (Option Nat) × MsgDecoder × Msg)) = r at h
  cases h with
  | filtered n _ h0 hn =>
    cases hr
    have hleft := advance_bytesLeft hinv hn
    refine ⟨advance_inv hinv hn, advance_setup n, by omega, ?_⟩
    simp only [roundsLeft]
    split <;> split <;> omega
  | refilled _ _ hinv' hs hl hb hp hf hor =>
    cases hr
    refine ⟨hinv', hs, hb, ?_⟩
    simp only [roundsLeft]
    rw [if_pos ⟨hp, hf⟩, if_neg (by omega)]
    omega
  | delivered => cases hr
  | eof => cases hr
  | failed => cases hr

theorem next_loop_total (fuel : Nat) : ∀ {d : MsgDecoder} (m : Msg), DecoderInv d → roundsLeft d < fuel →
    Next d (msg_decoder_next_loop fuel (d, m)) := by
  induction fuel with
  | zero => intro d m _ h; omega
  | succ fuel ih =>
    intro d m hinv hfuel
    have hround := try_again_round hinv m
    have hnext : ∀ {d' m'}, try_again (d, m) = some (.ok none, d', m') →
        Next d (msg_decoder_next_loop fuel (d', m')) := by
      intro d' m' hr
      rw [hr] at hround
      obtain ⟨hinv', hs, hb, hlt⟩ := hround.again hinv
      exact (ih m' hinv' (by omega)).of_setup hs hb
    rw [msg_decoder_next_loop]
    generalize hr : try_again (d, m) = r at hround
    cases hround with
    | delivered n m' h0 hn hd hp =>
      rw [Proc.bind_ok hr]
      exact .message n d m m' h0 hn hinv ⟨rfl, rfl, rfl⟩ (Nat.le_refl _) hd hp
    | filtered n m' h0 hn => rw [Proc.bind_ok hr]; exact hnext hr
    | eof d' m' hinv' hs hl hb he => rw [Proc.bind_ok hr]; exact .eof d' m' hinv' hs hl hb he
    | refilled d' m' hinv' hs hl hb hp hf hor => rw [Proc.bind_ok hr]; exact hnext hr
    | failed e d' m' hinv' hs hl hb => rw [Proc.bind_error hr]; exact .failed e d' m' hinv' hs hl hb

/-- Two fuels that are enough. -/
theorem next_loop_fuel (fuel : Nat) : ∀ {fuel' : Nat} {d : MsgDecoder} (m : Msg), DecoderInv d → roundsLeft d < fuel →
    roundsLeft d < fuel' → msg_decoder_next_loop fuel (d, m) = msg_decoder_next_loop fuel' (d, m) := by
  induction fuel with
  | zero => intro _ d m _ h; omega
  | succ fuel ih =>
    intro fuel' d m hinv hfuel hfuel'
    obtain ⟨k, rfl⟩ : ∃ k, fuel' = k + 1 := ⟨fuel' - 1, by omega⟩
    rw [msg_decoder_next_loop, msg_decoder_next_loop]
    rcases hr : try_again (d, m) with _ | ⟨_ | _ | n, d', m'⟩
    · rw [Proc.bind_none hr, Proc.bind_none hr]
    · rw [Proc.bind_error hr, Proc.bind_error hr]
    · obtain ⟨hinv', -, -, hlt⟩ := (hr ▸ try_again_round hinv m).again hinv
      rw [Proc.bind_ok hr, Proc.bind_ok hr]
      exact ih m' hinv' (by omega) (by omega)
    · rw [Proc.bind_ok hr, Proc.bind_ok hr]

theorem next_eq_loop {d : MsgDecoder} (h : DecoderInv d) (m : Msg) :
    msg_decoder_next (d, m) = msg_decoder_next_loop (2 * d.bytesLeft + 2) (d, m) := by
  simp [msg_decoder_next, h.pos_le, h.filled_le]

/-- Every call returns, and fails no assertion. -/
theorem msg_decoder_next_total {d : MsgDecoder} (h : DecoderInv d) (m : Msg) : Next d (msg_decoder_next (d, m)) := by
  rw [next_eq_loop h]
  exact next_loop_total _ m h (rounds_enough d)

/-- What is left behind a call. -/
theorem next_left {d d' : MsgDecoder} {m m' : Msg} {r : Except NexusError Nat} (hinv : DecoderInv d) (h : msg_decoder_next (d, m) = some (r, d', m')) :
    DecoderInv d' ∧ SameSetup d d' ∧ d'.bytesLeft ≤ d.bytesLeft ∧ ∀ n, r = .ok (n + 1) → d'.bytesLeft < d.bytesLeft := by
  have htotal := msg_decoder_next_total hinv m
  rw [h] at htotal
  generalize hx : (some (r, d', m') : Option (Except NexusError Nat × MsgDecoder × Msg)) = x at htotal
  cases htotal with
  | message n src _ _ h0 hn hinv' hs hb =>
    cases hx
    have hleft := advance_bytesLeft hinv' hn
    exact ⟨advance_inv hinv' hn, hs.trans (advance_setup n), by omega, fun _ _ => by omega⟩
  | eof _ _ hinv' hs _ hb => cases hx; exact ⟨hinv', hs, hb, fun _ h => nomatch h⟩
  | failed _ _ _ hinv' hs _ hb => cases hx; exact ⟨hinv', hs, hb, fun _ h => nomatch h⟩

/-- A call, by its first round. -/
theorem msg_decoder_next_eq {d : MsgDecoder} (h : DecoderInv d) (m : Msg) : msg_decoder_next (d, m) =
    match try_again (d, m) with
    | some (.ok none, d', m') => msg_decoder_next (d', m')
    | some (.ok (some n), s) => some (.ok n, s)
    | some (.error e, s) => some (.error e, s)
    | none => none := by
  rw [next_eq_loop h, msg_decoder_next_loop]
  rcases hr : try_again (d, m) with _ | ⟨_ | _ | n, d', m'⟩
  · rw [Proc.bind_none hr]
  · rw [Proc.bind_error hr]
  · obtain ⟨hinv', -, -, hlt⟩ := (hr ▸ try_again_round h m).again h
    have hfuel := rounds_enough d
    rw [Proc.bind_ok hr]
    change msg_decoder_next_loop _ (d', m') = msg_decoder_next (d', m')
    rw [next_eq_loop hinv']
    exact next_loop_fuel _ m' hinv' (by omega) (rounds_enough d')
  · rw [Proc.bind_ok hr]
    rfl

/-- Only the trace decoder calls a message unsupported. -/
theorem msg_decoder_next_supports {d d' : MsgDecoder} (hinv : DecoderInv d) {m m' : Msg} {e : NexusError}
    (h : msg_decoder_next (d, m) = some (.error e, d', m')) : e ≠ .msg_unsupported := by
  have hread : ∀ {d d' : MsgDecoder} {m m' : Msg}, read_buffer (d, m) = some (.error e, d', m') → e ≠ .msg_unsupported := by
    intro d d' m m' h
    simp only [read_buffer, Proc.get_bind_apply, Proc.modify_bind_apply, Proc.ite_apply] at h
    split at h
    · cases h
      decide
    · split at h <;> cases h
  have hround : ∀ {d d' : MsgDecoder} {m m' : Msg}, try_again (d, m) = some (.error e, d', m') → e ≠ .msg_unsupported := by
    intro d d' m m' h
    rw [try_again_eq, round] at h
    split at h
    · split at h
      · cases h
      · exact hread h
    · split at h
      · cases h
      · split at h <;> cases h
      · rename_i hd
        split at h
        · cases h
          exact msg_decode_supports hd
        · split at h
          · cases h
            decide
          · exact hread h
  induction hk : roundsLeft d using Nat.strong_induction_on generalizing d m with
  | _ k ih =>
    rw [msg_decoder_next_eq hinv] at h
    rcases hr : try_again (d, m) with _ | ⟨e' | _ | n, d₁, m₁⟩ <;> rw [hr] at h
    · cases h
    · cases h
      exact hround hr
    · obtain ⟨hinv', -, -, hlt⟩ := (hr ▸ try_again_round hinv m).again hinv
      exact ih (roundsLeft d₁) (hk ▸ hlt) hinv' h rfl
    · cases h

/-- The SRC of a message is written, unless it is Idle. -/
theorem Msg.Same.passes {d : MsgDecoder} {a b : Msg} (h : a.Same b) (hok : d.src_filter < 0 ∨ a.tcode ≠ .Idle) :
    d.passes a = d.passes b := by
  rcases hok with hneg | hidle
  · have hnot : ¬ d.src_filter ≥ 0 := Int16.not_le.2 hneg
    simp [MsgDecoder.passes, hnot]
  · simp only [MsgDecoder.passes, h.src hidle]

/-- A message that was put back is delivered again, and the decoder comes to the
same state again. -/
theorem msg_decoder_next_rewind {d : MsgDecoder} {n : Nat} {m m' : Msg} (hinv : DecoderInv d) (hn : n ≤ d.window.length)
    (hd : msg_decode d.hw_cfg d.window m = some (.ok n, m')) (hp : d.passes m') (hok : d.src_filter < 0 ∨ m'.tcode ≠ .Idle)
    (m₂ : Msg) :
    ∃ d' m₂', msg_decoder_rewind_last (d.advance n) = some (.ok (), d') ∧
      msg_decoder_next (d', m₂) = some (.ok n, d.advance n, m₂') ∧ m'.Same m₂' := by
  have hpos := (msg_decode_ok_pos hd).1
  have hdec := msg_decode_append d.hw_cfg d.window [] m m₂
  rw [List.append_nil] at hdec
  obtain ⟨hne, -⟩ | ⟨r, a, b, ha, hb, hsame⟩ := hdec
  · exact absurd rfl hne
  · rw [hd] at ha
    cases ha
    have hsame := hsame n rfl
    have hwin := window_length hinv
    have hpass : ({ d with lastmsg_len := 0 } : MsgDecoder).passes b = true := (hsame.passes hok).symm.trans hp
    have hround : try_again ({ d with lastmsg_len := 0 }, m₂) = some (.ok (some n), d.advance n, b) := by
      have hw : ({ d with lastmsg_len := 0 } : MsgDecoder).window = d.window := rfl
      have hneq : d.pos ≠ d.filled := by omega
      simp only [try_again, Proc.modify_bind_apply, Proc.get_bind_apply, Proc.ite_apply, if_neg hneq, hw, hb, hpass, if_true,
        Proc.pure_apply, advance_last]
    refine ⟨_, b, rewind_advance hinv hpos hn, ?_, hsame⟩
    simp only [msg_decoder_next, Proc.get_bind_apply, Proc.assert_bind_apply, hinv.pos_le, hinv.filled_le, decide_true, if_true,
      msg_decoder_next_loop]
    rw [Proc.bind_ok hround]
    rfl

end nexusrv
