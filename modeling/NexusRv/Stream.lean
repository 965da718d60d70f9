import NexusRv.Position
import NexusRv.Lib.Splice
/-!
# Streams of messages

A stream of bytes as the messages that decoding it over and over gives. Where a message
ends the next one starts, so streams of whole messages can be put together and taken
apart.
-/

namespace nexusrv

/-- Decoding the bytes `bs` takes `n` of them and gives the message `m`, whatever it writes into. -/
def Reads (hwcfg : HwCfg) (bs : List UInt8) (n : Nat) (m : Msg) : Prop :=
  ∀ m₀, ∃ m', msg_decode hwcfg bs m₀ = some (.ok n, m') ∧ m'.Same m

/-- Decoding the bytes over and over gives these messages, of these lengths, and comes to the bytes `rest`. -/
inductive Decodes (hwcfg : HwCfg) : List UInt8 → List (Nat × Msg) → List UInt8 → Prop where
  | nil (bs : List UInt8) : Decodes hwcfg bs [] bs
  | cons {bs rest : List UInt8} {n : Nat} {m : Msg} {ms : List (Nat × Msg)} : Reads hwcfg bs n m → Decodes hwcfg (bs.drop n) ms rest →
      Decodes hwcfg bs ((n, m) :: ms) rest

section Stream
variable {hwcfg : HwCfg} {bs rest q : List UInt8} {n : Nat} {m m₀ : Msg} {ms ms' : List (Nat × Msg)}

/-- A message that was decoded once is decoded always, whatever follows. -/
theorem reads_of_decode (h : msg_decode hwcfg bs m₀ = some (.ok n, m)) (q : List UInt8) : Reads hwcfg (bs ++ q) n m := by
  intro m₁
  rcases msg_decode_append hwcfg bs q m₀ m₁ with ⟨-, a, ha⟩ | ⟨r, a, b, ha, hb, hsame⟩
  · rw [h] at ha
    cases ha
  · rw [h] at ha
    cases ha
    exact ⟨b, hb, (hsame n rfl).symm⟩

theorem Reads.decode (h : Reads hwcfg bs n m) : ∃ m', msg_decode hwcfg bs Msg.zero = some (.ok n, m') ∧ m'.Same m := h Msg.zero

theorem Reads.same {m' : Msg} (h : Reads hwcfg bs n m) (hs : m.Same m') : Reads hwcfg bs n m' := fun m₀ => by
  obtain ⟨m₁, hd, h1⟩ := h m₀
  exact ⟨m₁, hd, h1.trans hs⟩

theorem Reads.append (h : Reads hwcfg bs n m) (q : List UInt8) : Reads hwcfg (bs ++ q) n m := by
  obtain ⟨m', hd, hs⟩ := h.decode
  exact (reads_of_decode hd q).same hs

theorem Reads.pos (h : Reads hwcfg bs n m) : 0 < n := by
  obtain ⟨m', hd, -⟩ := h.decode
  refine Nat.pos_of_ne_zero fun h0 => ?_
  rcases msg_decode_total hwcfg bs Msg.zero with ⟨k, m₁, hd₁, -, as, b, hf, -⟩ | ⟨e, m₁, hd₁, -⟩
  · rw [hd₁] at hd
    cases hd
    rw [h0, List.take_zero] at hf
    simp at hf
  · rw [hd₁] at hd
    cases hd

theorem Reads.le (h : Reads hwcfg bs n m) : n ≤ bs.length ∧ IsFrame (bs.take n) := by
  obtain ⟨m', hd, -⟩ := h.decode
  rcases msg_decode_total hwcfg bs Msg.zero with ⟨k, m₁, hd₁, hle, hf⟩ | ⟨e, m₁, hd₁, -⟩
  · rw [hd₁] at hd
    cases hd
    exact ⟨hle, hf⟩
  · rw [hd₁] at hd
    cases hd

/-- The bytes that were taken are enough. -/
theorem Reads.frame (h : Reads hwcfg bs n m) : Reads hwcfg (bs.take n) n m := by
  obtain ⟨-, as, b, hf, -, hb⟩ := h.le
  obtain ⟨m', hd, hs⟩ := h.decode
  have happ := msg_decode_append hwcfg (bs.take n) (bs.drop n) Msg.zero Msg.zero
  rw [List.take_append_drop, hd] at happ
  rcases happ with ⟨-, a, ha⟩ | ⟨r, a, c, ha, hc, hsame⟩
  · -- a frame is not cut off
    rcases msg_decode_total hwcfg (bs.take n) Msg.zero with ⟨k, m₁, hd₁, -⟩ | ⟨e, m₁, hd₁, htrunc⟩
    · rw [ha] at hd₁
      cases hd₁
    · rw [ha] at hd₁
      cases hd₁
      exact absurd hb (htrunc rfl b (by rw [hf]; simp))
  · cases hc
    have hread := reads_of_decode ha []
    rw [List.append_nil] at hread
    exact hread.same ((hsame n rfl).trans hs)

theorem Decodes.of_nil (h : Decodes hwcfg bs [] rest) : bs = rest := by
  cases h
  rfl

theorem Decodes.of_cons (h : Decodes hwcfg bs ((n, m) :: ms) rest) : Reads hwcfg bs n m ∧ Decodes hwcfg (bs.drop n) ms rest := by
  cases h with
  | cons h1 h2 => exact ⟨h1, h2⟩

theorem Decodes.append (h : Decodes hwcfg bs ms []) (h' : Decodes hwcfg q ms' rest) : Decodes hwcfg (bs ++ q) (ms ++ ms') rest := by
  generalize hr : ([] : List UInt8) = r at h
  induction h with
  | nil bs =>
    rw [← hr]
    exact h'
  | cons hread _ ih =>
    refine .cons (hread.append q) ?_
    rw [List.drop_append_of_le_length hread.le.1]
    exact ih hr

/-- One message that takes all the bytes. -/
theorem Decodes.single (h : Reads hwcfg bs bs.length m) : Decodes hwcfg bs [(bs.length, m)] [] := by
  refine .cons h ?_
  rw [List.drop_length]
  exact .nil []

theorem Decodes.length_le {bs rest : List UInt8} {ms : List (Nat × Msg)} (h : Decodes hwcfg bs ms rest) : ms.length ≤ bs.length := by
  induction h with
  | nil bs => exact Nat.zero_le _
  | cons hread _ ih =>
    have hpos := hread.pos
    have hle := hread.le.1
    rw [List.length_drop] at ih
    rw [List.length_cons]
    omega

end Stream

/-! ## Reading a stream through the buffer -/

section Buffer
variable {hwcfg : HwCfg} {S : List UInt8} {d : MsgDecoder} {p n : Nat} {m : Msg}

/-- The decoder stands at `p` in the file `S`, and its buffer holds every frame that comes. -/
def Streams (hwcfg : HwCfg) (S : List UInt8) (d : MsgDecoder) (p : Nat) : Prop := Placed hwcfg S d p ∧ Buffered hwcfg d (S.drop p)

theorem init_streams (hwcfg : HwCfg) {S buffer : List UInt8} (hfits : Fits buffer.length S) :
    Streams hwcfg S (msg_decoder_init hwcfg ⟨S, []⟩ (-1) buffer buffer.length) 0 :=
  ⟨init_placed hwcfg S (by decide) buffer, init_buffered hwcfg (by decide) rfl hfits⟩

/-- The message that comes next is delivered, and the decoder stands behind it. -/
theorem Streams.next (h : Streams hwcfg S d p) (hread : Reads hwcfg (S.drop p) n m) (m₀ : Msg) :
    ∃ d' m' i, msg_decoder_next (d, m₀) = some (.ok n, d', m') ∧ m'.Same m ∧ Streams hwcfg S d' (p + n) ∧ msg_decoder_offset d' = p ∧
      msg_decoder_lastmsg d' = some (.ok (some i), d') ∧ i + n ≤ d'.buffer.length ∧ (d'.buffer.drop i).take n = (S.drop p).take n := by
  obtain ⟨r, d', m', hnext, hplain, hbuf⟩ := msg_decoder_next_plain h.2 m₀
  obtain ⟨m₁, hdec, hs⟩ := hread.decode
  have hpos := hread.pos
  have hle := hread.le.1
  have hne : S.drop p ≠ [] := fun hnil => by
    rw [hnil, List.length_nil] at hle
    omega
  obtain ⟨m₂, hp, -, hsame⟩ := hplain Msg.zero
  simp only [plain_next, hne, if_false, hdec, Option.some.injEq, Prod.mk.injEq] at hp
  obtain ⟨rfl, -, rfl⟩ := hp
  obtain ⟨k, rfl⟩ := Nat.exists_eq_succ_of_ne_zero (Nat.ne_of_gt hpos)
  have hcall := h.1.next m₀
  rw [hnext] at hcall
  generalize hx : (some (.ok (k + 1), d', m') : Option (Except NexusError Nat × MsgDecoder × Msg)) = x at hcall
  cases hcall with
  | eof => cases hx
  | failed => cases hx
  | message n d₀ m₃ _ hp₀ _ h0 hn hd =>
    cases hx
    obtain ⟨hoff, hlast, hin, hbytes⟩ := hp₀.lastmsg h0 hn
    rw [behind, List.drop_drop] at hbuf
    exact ⟨_, m', d₀.pos, hnext, (hsame k rfl).trans hs, ⟨hp₀.advance h0 hn, hbuf⟩, hoff, hlast, hin, hbytes⟩

/-- At the end of the file no message comes. -/
theorem Streams.eof (h : Streams hwcfg S d p) (hend : S.drop p = []) (m₀ : Msg) : ∃ d' m', msg_decoder_next (d, m₀) = some (.ok 0, d', m') := by
  obtain ⟨r, d', m', hnext, hplain, -⟩ := msg_decoder_next_plain h.2 m₀
  obtain ⟨m₂, hp, -⟩ := hplain Msg.zero
  simp only [plain_next, hend, if_true, Option.some.injEq, Prod.mk.injEq] at hp
  rw [← hp.1] at hnext
  exact ⟨d', m', hnext⟩

end Buffer

end nexusrv
