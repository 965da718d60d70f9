import NexusRv.Refinement
/-!
# Partial reads

`read(2)` may return less than it is asked for before the end of the file.
`read_all` stops there, and the decoder takes a buffer that is not full for the
end of the file. `Whole` is the condition on the reads to come under which
filling the buffer is as it is for a regular file; in a run that meets it the
decoder does not see that the file is a pipe.
-/

namespace nexusrv

/-! ## Reads that are not cut short -/

/-- A `read_all` of `count` bytes, with `left` bytes to come, sees no read that is
short before the last of them, and none that fails. -/
def whole : List (Option Nat) → Nat → Nat → Prop
  | [], _, _ => True
  | none :: _, count, _ => count = 0
  | some k :: reads, count, left =>
    count = 0 ∨ left < chunk_size count ∧ left ≤ k ∨ chunk_size count ≤ k ∧ chunk_size count ≤ left ∧
      whole reads (count - chunk_size count) (left - chunk_size count)

/-- The same file, as a regular one. -/
def Fd.regular (fd : Fd) : Fd := ⟨fd.data, []⟩

theorem chunk_size_le (count : Nat) : chunk_size count ≤ count := by
  unfold chunk_size
  split <;> omega

/-- `read_all` returns what is asked for, or all that is left. -/
theorem read_all_whole (fuel : Nat) : ∀ (fd : Fd) (count : Nat), count ≤ fuel → whole fd.reads count fd.data.length →
    ∃ reads, read_all_loop fuel fd count = (fd.data.take count, true, ⟨fd.data.drop count, reads⟩) := by
  induction fuel with
  | zero =>
    intro fd count h _
    rw [Nat.le_zero.1 h]
    exact ⟨fd.reads, rfl⟩
  | succ fuel ih =>
    intro fd count h hwhole
    obtain ⟨data, reads⟩ := fd
    rcases reads with _ | ⟨k, reads⟩
    · exact ⟨[], read_all_regular _ data count h⟩
    rw [read_all_loop]
    split
    · rename_i h0
      exact ⟨k :: reads, by simp [h0]⟩
    rename_i h0
    have hchunk := chunk_size_le count
    have hpos : 0 < chunk_size count := by
      have hmax : 0 < MAX_READ_SIZE := by decide
      unfold chunk_size
      split <;> omega
    rcases k with _ | k
    · exact absurd hwhole h0
    dsimp only at hwhole ⊢
    simp only [read, List.length_take]
    rcases hwhole with h0' | ⟨hlt, hk⟩ | ⟨hk, hle, hrest⟩
    · exact absurd h0' h0
    · -- this read reaches the end of the file
      rw [if_pos (by omega), List.take_of_length_le (by omega), List.drop_of_length_le (by omega),
        List.take_of_length_le (by omega), List.drop_of_length_le (by omega)]
      exact ⟨reads, rfl⟩
    · have hmin : min k (chunk_size count) = chunk_size count := by omega
      obtain ⟨reads', hrec⟩ := ih ⟨data.drop (chunk_size count), reads⟩ (count - chunk_size count) (by omega) (by simpa using hrest)
      rw [if_neg (by omega), hmin, Nat.min_eq_left hle, hrec]
      refine ⟨reads', ?_⟩
      rw [← List.take_add, List.drop_drop, Nat.add_sub_cancel' hchunk]

/-! ## In step with a regular file -/

/-- The same decoder over a regular file. -/
def MsgDecoder.regular (d : MsgDecoder) : MsgDecoder := { d with fd := d.fd.regular }

/-- The next round fills the buffer: it is empty, or it is full and ends in a message that is cut off. -/
def MsgDecoder.Refills (d : MsgDecoder) : Prop :=
  d.pos = 0 ∧ d.filled = 0 ∨ d.pos ≠ 0 ∧ d.pos ≠ d.filled ∧ d.filled = d.bufsz ∧
    (msg_decode d.hw_cfg d.window Msg.zero).map Prod.fst = some (.error .stream_truncate)

/-- If the next round fills the buffer, no read is short before the end of the file. -/
def MsgDecoder.Whole (d : MsgDecoder) : Prop :=
  d.Refills → whole d.fd.reads (d.bufsz - (d.filled - d.pos)) d.fd.data.length

/-- The states that the rounds of a call come to. -/
inductive Rounds (d : MsgDecoder) (m : Msg) : MsgDecoder → Msg → Prop where
  | first : Rounds d m d m
  | again {d₁ d₂ m₁ m₂} : Rounds d m d₁ m₁ → try_again (d₁, m₁) = some (.ok none, d₂, m₂) → Rounds d m d₂ m₂

/-- Every round of repeated calls meets the condition. -/
def AllWhole : MsgDecoder → List Msg → Prop
  | _, [] => True
  | d, m :: ms => (∀ d₁ m₁, Rounds d m d₁ m₁ → d₁.Whole) ∧
    ∀ r d' m', msg_decoder_next (d, m) = some (r, d', m') → AllWhole d' ms

section Whole
variable {d : MsgDecoder}

theorem refill_whole (h : whole d.fd.reads (d.bufsz - (d.filled - d.pos)) d.fd.data.length) :
    d.regular.refill = (d.refill.1, d.refill.2.regular) := by
  obtain ⟨reads, hread⟩ := read_all_whole _ d.fd _ (Nat.le_refl _) h
  have hregular := read_all_regular _ d.fd.data _ (Nat.le_refl (d.bufsz - (d.filled - d.pos)))
  simp only [MsgDecoder.refill, MsgDecoder.regular, Fd.regular, read_all, hread, hregular]

theorem read_buffer_whole (h : whole d.fd.reads (d.bufsz - (d.filled - d.pos)) d.fd.data.length) (m : Msg) :
    read_buffer (d.regular, m) = (read_buffer (d, m)).map fun r => (r.1, r.2.1.regular, r.2.2) := by
  simp only [read_buffer, Proc.get_bind_apply, Proc.modify_bind_apply, Proc.ite_apply, refill_whole h]
  have hfilled : d.refill.2.regular.filled = d.refill.2.filled := rfl
  rw [hfilled]
  split
  · rfl
  · split <;> rfl

theorem advance_regular (n : Nat) : d.regular.advance n = (d.advance n).regular := by
  unfold MsgDecoder.advance MsgDecoder.regular
  dsimp only
  split <;> rfl

theorem try_again_whole (h : d.Whole) (m : Msg) : try_again (d.regular, m) =
    (try_again (d, m)).map fun r => (r.1, r.2.1.regular, r.2.2) := by
  have hlast : ({ d.regular with lastmsg_len := 0 } : MsgDecoder) = ({ d with lastmsg_len := 0 } : MsgDecoder).regular := rfl
  have h : ({ d with lastmsg_len := 0 } : MsgDecoder).Whole := h
  rw [try_again_eq, try_again_eq, hlast]
  generalize ({ d with lastmsg_len := 0 } : MsgDecoder) = d at h ⊢
  unfold round
  have hpos : d.regular.pos = d.pos := rfl
  have hfilled : d.regular.filled = d.filled := rfl
  have hbufsz : d.regular.bufsz = d.bufsz := rfl
  have hcfg : d.regular.hw_cfg = d.hw_cfg := rfl
  have hwin : d.regular.window = d.window := rfl
  have hpass : ∀ m, d.regular.passes m = d.passes m := fun _ => rfl
  simp only [hpos, hfilled, hbufsz, hcfg, hwin, hpass, advance_regular]
  split
  · split
    · rfl
    · exact read_buffer_whole (h (.inl (by omega))) m
  · rename_i hne
    rcases hdec : msg_decode d.hw_cfg d.window m with _ | ⟨e | n, m'⟩
    · rfl
    · dsimp only
      split
      · rfl
      · rename_i hlast
        obtain ⟨hfull, rfl⟩ : d.filled = d.bufsz ∧ e = .stream_truncate := by simpa using hlast
        split
        · rfl
        · obtain ⟨r, a, b, ha, hb, -⟩ := msg_decode_any d.hw_cfg d.window m Msg.zero
          rw [hdec] at ha
          cases ha
          exact read_buffer_whole (h (.inr ⟨‹_›, hne, hfull, by rw [hb]; rfl⟩)) m'
    · rfl

theorem next_whole (hinv : DecoderInv d) (m : Msg) (h : ∀ d₁ m₁, Rounds d m d₁ m₁ → d₁.Whole) :
    msg_decoder_next (d.regular, m) = (msg_decoder_next (d, m)).map fun r => (r.1, r.2.1.regular, r.2.2) := by
  induction hk : roundsLeft d using Nat.strong_induction_on generalizing d m with
  | _ k ih =>
    have hinv' : DecoderInv d.regular := ⟨hinv.pos_le, hinv.filled_le, hinv.buffer_len, hinv.last_le⟩
    rw [msg_decoder_next_eq hinv, msg_decoder_next_eq hinv', try_again_whole (h d m .first)]
    rcases hr : try_again (d, m) with _ | ⟨_ | _ | n, d₁, m₁⟩
    · rfl
    · rfl
    · obtain ⟨hinv₁, -, -, hlt⟩ := (hr ▸ try_again_round hinv m).again hinv
      refine ih (roundsLeft d₁) (hk ▸ hlt) hinv₁ m₁ (fun d₂ m₂ h₂ => h d₂ m₂ ?_) rfl
      induction h₂ with
      | first => exact .again .first hr
      | again _ hr₂ ih₂ => exact .again ih₂ hr₂
    · rfl

/-- A regular file meets the condition. -/
theorem whole_regular (h : d.fd.reads = []) : d.Whole := by
  intro _
  rw [h]
  trivial

theorem regular_self (h : d.fd.reads = []) : d.regular = d := by
  unfold MsgDecoder.regular Fd.regular
  rw [← h]

theorem try_again_regular (h : d.fd.reads = []) {r : Except NexusError (Option Nat)} {d' : MsgDecoder} {m m' : Msg}
    (hr : try_again (d, m) = some (r, d', m')) : d'.fd.reads = [] := by
  have hwhole := try_again_whole (whole_regular h) m
  rw [regular_self h, hr] at hwhole
  simp only [Option.map_some, Option.some.injEq, Prod.mk.injEq, true_and, and_true] at hwhole
  rw [hwhole]
  rfl

theorem rounds_regular (h : d.fd.reads = []) {d₁ : MsgDecoder} {m m₁ : Msg} (hr : Rounds d m d₁ m₁) : d₁.fd.reads = [] := by
  induction hr with
  | first => exact h
  | again _ hr ih => exact try_again_regular ih hr

theorem allWhole_regular (ms : List Msg) (hinv : DecoderInv d) (h : d.fd.reads = []) : AllWhole d ms := by
  induction ms generalizing d with
  | nil => trivial
  | cons m ms ih =>
    have hrounds : ∀ d₁ m₁, Rounds d m d₁ m₁ → d₁.Whole := fun _ _ hr => whole_regular (rounds_regular h hr)
    refine ⟨hrounds, fun r d' m' hr => ih (next_left hinv hr).1 ?_⟩
    have hnext := next_whole hinv m hrounds
    rw [regular_self h, hr] at hnext
    simp only [Option.map_some, Option.some.injEq, Prod.mk.injEq, true_and, and_true] at hnext
    rw [hnext]
    rfl

end Whole

/-- In a run where no read that fills the buffer is short before the end of the file,
the calls return what they return for a regular file. -/
theorem msg_decoder_next_whole (hwcfg : HwCfg) (bs : List UInt8) (reads : List (Option Nat)) (filter : Int16) (buffer : List UInt8)
    (ms : List Msg) (h : AllWhole (msg_decoder_init hwcfg ⟨bs, reads⟩ filter buffer buffer.length) ms) :
    ∃ rs, calls msg_decoder_next (msg_decoder_init hwcfg ⟨bs, reads⟩ filter buffer buffer.length) ms = some rs ∧
      calls msg_decoder_next (msg_decoder_init hwcfg ⟨bs, []⟩ filter buffer buffer.length) ms = some rs := by
  have hinv := init_inv hwcfg ⟨bs, reads⟩ filter (rfl : buffer.length = buffer.length)
  have hregular : msg_decoder_init hwcfg ⟨bs, []⟩ filter buffer buffer.length =
      (msg_decoder_init hwcfg ⟨bs, reads⟩ filter buffer buffer.length).regular := rfl
  rw [hregular]
  generalize msg_decoder_init hwcfg ⟨bs, reads⟩ filter buffer buffer.length = d at h hinv ⊢
  induction ms generalizing d with
  | nil => exact ⟨[], rfl, rfl⟩
  | cons m ms ih =>
    obtain ⟨hrounds, hrest⟩ := h
    have hnext := next_whole hinv m hrounds
    have htotal := msg_decoder_next_total hinv m
    rcases hr : msg_decoder_next (d, m) with _ | ⟨r, d', m'⟩
    · rw [hr] at htotal
      exact nomatch htotal
    · rw [hr] at hnext
      obtain ⟨rs, hrs, hrs'⟩ := ih d' (hrest r d' m' hr) (next_left hinv hr).1
      exact ⟨(r, m') :: rs, by rw [calls_cons hr, hrs]; rfl, by rw [calls_cons hnext, hrs']; rfl⟩

/-- A pipe that gives both messages at once. -/
theorem msg_decoder_next_whole_two : let cfg : HwCfg := ⟨0, 0, 0, 0, 0, false, false, false⟩
    ∃ rs, calls msg_decoder_next (msg_decoder_init cfg ⟨[0xff, 0xff], [some 5]⟩ (-1) [0, 0] 2) [Msg.zero, Msg.zero] = some rs ∧
      calls msg_decoder_next (msg_decoder_init cfg ⟨[0xff, 0xff], []⟩ (-1) [0, 0] 2) [Msg.zero, Msg.zero] = some rs := by
  intro cfg
  refine msg_decoder_next_whole cfg _ _ _ [0, 0] _ ⟨fun d₁ m₁ h => ?_, fun r d' m' h => ?_⟩
  · -- the first round fills the buffer and uses up the schedule
    have hcases : d₁ = msg_decoder_init cfg ⟨[0xff, 0xff], [some 5]⟩ (-1) [0, 0] 2 ∧ m₁ = Msg.zero ∨ d₁.fd.reads = [] := by
      induction h with
      | first => exact .inl ⟨rfl, rfl⟩
      | again _ hr ih =>
        rcases ih with ⟨rfl, rfl⟩ | ih
        · have hreads : (try_again (msg_decoder_init cfg ⟨[0xff, 0xff], [some 5]⟩ (-1) [0, 0] 2, Msg.zero)).map (·.2.1.fd.reads) =
              some [] := by decide
          rw [hr] at hreads
          exact .inr (Option.some.inj hreads)
        · exact .inr (try_again_regular ih hr)
    rcases hcases with ⟨rfl, -⟩ | h
    · exact fun _ => .inr (.inr ⟨by decide, by decide, trivial⟩)
    · exact whole_regular h
  · have hreads : (msg_decoder_next (msg_decoder_init cfg ⟨[0xff, 0xff], [some 5]⟩ (-1) [0, 0] 2, Msg.zero)).map (·.2.1.fd.reads) =
        some [] := by decide
    have hinv := init_inv cfg ⟨[0xff, 0xff], [some 5]⟩ (-1) (rfl : ([0, 0] : List UInt8).length = 2)
    have h : msg_decoder_next (msg_decoder_init cfg ⟨[0xff, 0xff], [some 5]⟩ (-1) [0, 0] 2, Msg.zero) = some (r, d', m') := h
    rw [h] at hreads
    exact allWhole_regular _ (next_left hinv h).1 (Option.some.inj hreads)

/-- A pipe that gives the two messages one by one: the second is not delivered. -/
theorem partial_read_ends_trace : let cfg : HwCfg := ⟨0, 0, 0, 0, 0, false, false, false⟩
    ¬ ∃ rs rs', calls msg_decoder_next (msg_decoder_init cfg ⟨[0xff, 0xff], [some 1, some 1]⟩ (-1) [0, 0] 2) [Msg.zero, Msg.zero] = some rs ∧
      calls msg_decoder_next (msg_decoder_init cfg ⟨[0xff, 0xff], []⟩ (-1) [0, 0] 2) [Msg.zero, Msg.zero] = some rs' ∧
      List.Forall₂ SameResult rs rs' := by
  rintro cfg ⟨rs, rs', hrs, hrs', hall⟩
  have hpipe : (calls msg_decoder_next (msg_decoder_init cfg ⟨[0xff, 0xff], [some 1, some 1]⟩ (-1) [0, 0] 2)
      [Msg.zero, Msg.zero]).map (·.map Prod.fst) = some [.ok 1, .ok 0] := by decide
  have hfile : (calls msg_decoder_next (msg_decoder_init cfg ⟨[0xff, 0xff], []⟩ (-1) [0, 0] 2)
      [Msg.zero, Msg.zero]).map (·.map Prod.fst) = some [.ok 1, .ok 1] := by decide
  have hsame : rs.map Prod.fst = rs'.map Prod.fst := by
    clear hrs hrs'
    induction hall with
    | nil => rfl
    | cons h _ ih => rw [List.map_cons, List.map_cons, h.1, ih]
  rw [hrs] at hpipe
  rw [hrs'] at hfile
  rw [Option.map_some, hsame] at hpipe
  exact absurd (hpipe.symm.trans hfile) (by decide)

end nexusrv
