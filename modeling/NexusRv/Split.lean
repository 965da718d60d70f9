import NexusRv.Filter
import NexusRv.Recode
import NexusRv.Stream
import NexusRv.Position
/-!
# Splitting a trace by source

The loop of `split.c`: every message that is known and not Idle goes, as the bytes that it
was decoded from, to the file of its source. The bytes are taken from the buffer of the
decoder after it has moved on.
-/

namespace nexusrv

/-! ## The program -/

/-- What `split` has for a source: `fp_array` as the bytes written so far, and the counts. -/
structure SplitFile where
  bytes : List UInt8
  decoded_src : Nat
  msgid_src : Nat

/-- The locals of `split`. -/
structure Splitter where
  decoder : MsgDecoder
  msgid : Nat
  decoded_bytes : Nat
  files : List SplitFile

def split_init (hwcfg : HwCfg) (S buffer : List UInt8) : Splitter :=
  ⟨msg_decoder_init hwcfg ⟨S, []⟩ (-1) buffer buffer.length, 0, 0, List.replicate (2 ^ hwcfg.src_bits) ⟨[], 0, 0⟩⟩

/-- The next message. Its storage holds `mem msgid` before. -/
def split_next (mem : Nat → Msg) : Proc Splitter NexusError (Nat × Msg) := fun s =>
  match msg_decoder_next (s.decoder, mem s.msgid) with
  | none => none
  | some (.error e, d, _) => some (.error e, { s with decoder := d })
  | some (.ok rc, d, m) => some (.ok (rc, m), { s with decoder := d })

def SplitFile.append (f : SplitFile) (raw : List UInt8) : SplitFile := ⟨f.bytes ++ raw, f.decoded_src + raw.length, f.msgid_src + 1⟩

/-- Count the last message and write its bytes to the file of its source. An index or a pointer outside of its array is not defined. -/
def split_write (rc : Nat) (m : Msg) : Proc Splitter NexusError Unit := do
  let s ← Proc.get
  Proc.assert (m.src.toNat < s.files.length)
  match msg_decoder_lastmsg s.decoder with
  | some (.ok (some i), _) => do
    Proc.assert (i + rc ≤ s.decoder.buffer.length)
    Proc.modify fun s => { s with files := s.files.modify m.src.toNat fun f => f.append ((s.decoder.buffer.drop i).take rc) }
  | _ => Proc.assert false

/-- The loop. Every round but the last one takes a byte of the file. -/
def split_loop (mem : Nat → Msg) : Nat → Proc Splitter NexusError Unit
  | 0 => Proc.assert false
  | fuel + 1 => do
    let r ← split_next mem
    if r.1 = 0 then pure ()
    else do
      Proc.when (msg_known r.2 && !msg_idle r.2) (split_write r.1 r.2)
      Proc.modify fun s => { s with msgid := s.msgid + 1, decoded_bytes := s.decoded_bytes + r.1 }
      split_loop mem fuel

def split (hwcfg : HwCfg) (S buffer : List UInt8) (mem : Nat → Msg) : Option (Except NexusError Unit × Splitter) :=
  split_loop mem (S.length + 1) (split_init hwcfg S buffer)

/-! ## The SRC of a decoded message -/

/-- The SRC of a message that is not Idle was read from as many bits as the hardware has for it. -/
theorem decoded_src_lt {hwcfg : HwCfg} {bs : List UInt8} {m m' : Msg} {n : Nat} (h : msg_decode hwcfg bs m = some (.ok n, m'))
    (hidle : m'.tcode ≠ .Idle) : m'.src.toNat < 2 ^ hwcfg.src_bits := by
  have hbody : Proc.Post (fun _ => True) (decode_body hwcfg) (fun _ s => s.msg.src.toNat < 2 ^ hwcfg.src_bits) fun _ _ => True := by
    have hrest : ∀ {x : Dec Unit}, KeepsHead (fun _ src => src.toNat < 2 ^ hwcfg.src_bits) x →
        Proc.Post (fun s => s.msg.src.toNat < 2 ^ hwcfg.src_bits) x (fun _ s => s.msg.src.toNat < 2 ^ hwcfg.src_bits) fun _ _ => True := fun h => h
    refine Proc.Post.bind (Q := fun _ s => s.msg.src = 0) (Proc.post_modify fun _ _ => rfl) fun _ => ?_
    refine Proc.Post.bind (Q := fun _ s => s.msg.src.toNat < 2 ^ hwcfg.src_bits) ?_ fun _ => hrest (keeps_get fun _ => ?_)
    · refine Proc.Post.when (fun hbits => ?_) fun _ s hs => by rw [hs]; exact Nat.two_pow_pos _
      refine Proc.Post.get_bind fun s _ => Proc.Post.ite (fun _ => Proc.post_fail fun _ _ => trivial) fun _ => Proc.post_modify fun t ht => ?_
      have hlt := (unpack_bits_lt t.group t.bit_offset hwcfg.src_bits).1
      simp only [Msg.set_src, UInt16.toNat_ofNat']
      exact Nat.lt_of_le_of_lt (Nat.mod_le _ _) hlt
    · exact ((keeps_common hwcfg).bind fun _ => keeps_finished hwcfg).ite (keeps_rest hwcfg _)
  obtain ⟨⟨r, s⟩, hrun, hres⟩ := Option.map_eq_some_iff.1 h
  simp only [Prod.mk.injEq] at hres
  obtain ⟨hr, rfl⟩ := hres
  rcases r with e | u
  · cases hr
  rcases hc : consume_bytes bs with e | ⟨k, eom⟩
  · simp [decode_msg, CONSUME_BYTES, hc] at hrun
  · rw [decode_msg_eq hwcfg hc] at hrun
    by_cases htc : first_tcode bs k = .Idle
    · rw [if_pos htc] at hrun
      cases eom with
      | false => cases hrun
      | true => cases hrun; exact absurd htc hidle
    · rw [if_neg htc] at hrun
      exact (hbody _ trivial).1 _ _ hrun

/-! ## Frames and their messages -/

/-- The bytes of each message, with the message. -/
def raw_frames : List UInt8 → List (Nat × Msg) → List (List UInt8 × Msg)
  | _, [] => []
  | bs, (n, m) :: ms => (bs.take n, m) :: raw_frames (bs.drop n) ms

/-- A message that is known, not Idle, and of the source `src`. -/
def goes_to (src : Nat) (m : Msg) : Bool := msg_known m && !msg_idle m && m.src.toNat = src

/-- The frames of a source, in order. -/
def frames_of (src : Nat) (fs : List (List UInt8 × Msg)) : List (List UInt8) := (fs.filter fun f => goes_to src f.2).map Prod.fst

section Frames
variable {hwcfg : HwCfg} {S bs : List UInt8} {ms : List (Nat × Msg)} {size src : Nat}

theorem Msg.Same.known {a b : Msg} (h : a.Same b) : msg_known a = msg_known b := by
  obtain ⟨ht, -, hc, -⟩ := h
  cases htc : b.tcode with
  | ProgTraceCorrelation =>
    simp only [Msg.carried, ht, htc, List.cons.injEq] at hc
    simp only [msg_known, ht, htc, hc.2.2.1]
  | ICT =>
    simp only [Msg.carried, ht, htc, List.cons.injEq] at hc
    simp only [msg_known, ht, htc, hc.2.1]
  | _ => simp only [msg_known, ht, htc]

theorem Reads.src_lt {n : Nat} {m : Msg} (h : Reads hwcfg bs n m) (hidle : m.tcode ≠ .Idle) : m.src.toNat < 2 ^ hwcfg.src_bits := by
  obtain ⟨m', hd, hs⟩ := h.decode
  have hidle' : m'.tcode ≠ .Idle := hs.1 ▸ hidle
  rw [← hs.src hidle']
  exact decoded_src_lt hd hidle'

/-- The buffer that holds the longest frame is large enough. -/
theorem Decodes.fits (h : Decodes hwcfg bs ms []) (hsize : ∀ q ∈ ms, q.1 ≤ size) : Fits size bs := by
  generalize hr : ([] : List UInt8) = r at h
  induction h with
  | nil bs =>
    rw [← hr]
    exact ⟨fun f hf => (nomatch hf), fun hne => absurd rfl hne⟩
  | @cons bs rest n m ms hread _ ih =>
    have ih := ih (fun q hq => hsize q (List.mem_cons_of_mem _ hq)) hr
    have hsplit := split_frames_frame (bs.drop n) hread.le.2
    rw [List.take_append_drop] at hsplit
    refine ⟨fun f hf => ?_, by rw [hsplit]; exact ih.rest⟩
    rw [hsplit] at hf
    rcases List.mem_cons.1 hf with rfl | hf
    · exact Nat.le_trans (List.length_take_le _ _) (hsize _ List.mem_cons_self)
    · exact ih.frames f hf

theorem frames_of_cons {n : Nat} {m : Msg} : frames_of src (raw_frames bs ((n, m) :: ms)) =
    (if goes_to src m then [bs.take n] else []) ++ frames_of src (raw_frames (bs.drop n) ms) := by
  unfold frames_of
  rw [raw_frames, List.filter_cons]
  split <;> rfl

/-- The frames of a source, put together, are read as its messages. -/
theorem frames_decode {rest : List UInt8} (h : Decodes hwcfg bs ms rest) :
    Decodes hwcfg (frames_of src (raw_frames bs ms)).flatten (ms.filter fun q => goes_to src q.2) [] := by
  induction h with
  | nil bs => exact .nil []
  | @cons bs rest n m ms hread _ ih =>
    rw [frames_of_cons, List.filter_cons]
    dsimp only
    split
    · have hlen : (bs.take n).length = n := by rw [List.length_take, Nat.min_eq_left hread.le.1]
      have hsingle : Decodes hwcfg (bs.take n) [((bs.take n).length, m)] [] := .single (by rw [hlen]; exact hread.frame)
      rw [hlen] at hsingle
      rw [List.singleton_append, List.flatten_cons]
      exact hsingle.append ih
    · exact ih

end Frames

/-! ## The loop -/

/-- A file behind which frames were written. -/
def SplitFile.extend (f : SplitFile) (raws : List (List UInt8)) : SplitFile :=
  ⟨f.bytes ++ raws.flatten, f.decoded_src + raws.flatten.length, f.msgid_src + raws.length⟩

theorem extend_nil (f : SplitFile) : f.extend [] = f := by
  cases f
  simp [SplitFile.extend]

theorem extend_cons (f : SplitFile) (raw : List UInt8) (raws : List (List UInt8)) : f.extend (raw :: raws) = (f.append raw).extend raws := by
  simp [SplitFile.extend, SplitFile.append, Nat.add_assoc, Nat.add_comm 1]

section Loop
variable {hwcfg : HwCfg} {S : List UInt8} {s : Splitter} {p n : Nat} {m : Msg}

/-- The files behind a round: the frame of a message that goes to a file is put behind it. -/
def put_frame (m : Msg) (raw : List UInt8) (files : List SplitFile) : List SplitFile :=
  if msg_known m && !msg_idle m then files.modify m.src.toNat (·.append raw) else files

theorem put_frame_length (m : Msg) (raw : List UInt8) (files : List SplitFile) : (put_frame m raw files).length = files.length := by
  unfold put_frame
  split
  · exact List.length_modify _ _ _
  · rfl

theorem round_files {m' : Msg} {d : MsgDecoder} {i : Nat} (hlast : msg_decoder_lastmsg s.decoder = some (.ok (some i), d))
    (hin : i + n ≤ s.decoder.buffer.length) (hlt : m.tcode ≠ .Idle → m.src.toNat < s.files.length) (hsame : m'.Same m) :
    Proc.when (msg_known m' && !msg_idle m') (split_write n m') s = 
      some (.ok (), { s with files := put_frame m ((s.decoder.buffer.drop i).take n) s.files }) := by
  have hidle : msg_idle m' = msg_idle m := by simp only [msg_idle, hsame.1]
  rw [hsame.known, hidle, put_frame]
  cases hgo : msg_known m && !msg_idle m with
  | false => rfl
  | true =>
    have hne : m.tcode ≠ .Idle := by
      intro ht
      simp [msg_idle, ht] at hgo
    have hsrc := hsame.src (hsame.1 ▸ hne)
    have hlt := hlt hne
    rw [← hsrc] at hlt ⊢
    simp only [Proc.when_true, split_write, Proc.get_bind_apply, Proc.assert_bind_apply, hlt, decide_true, if_true, hlast, hin]
    rfl

theorem modify_files {raw : List UInt8} {files : List SplitFile} (i : Nat) (raws : List (List UInt8)) :
    ((put_frame m raw files)[i]?).map (·.extend raws) =
      (files[i]?).map (·.extend ((if goes_to i m then [raw] else []) ++ raws)) := by
  unfold put_frame
  cases hgo : msg_known m && !msg_idle m with
  | false => simp [goes_to, hgo]
  | true =>
    simp only [goes_to, hgo, if_true, Bool.true_and, decide_eq_true_eq, List.getElem?_modify]
    split
    · cases files[i]? with
      | none => rfl
      | some f => simp [extend_cons]
    · simp

/-- From where the decoder stands, the loop puts the frames of every source behind its file. -/
theorem split_loop_files (mem : Nat → Msg) (ms : List (Nat × Msg)) : ∀ {fuel : Nat} {s : Splitter} {p : Nat}, Streams hwcfg S s.decoder p →
    Decodes hwcfg (S.drop p) ms [] → ms.length < fuel → s.files.length = 2 ^ hwcfg.src_bits →
    ∃ s' : Splitter, split_loop mem fuel s = some (.ok (), s') ∧ ∀ i : Nat, s'.files[i]? = (s.files[i]?).map (·.extend (frames_of i (raw_frames (S.drop p) ms))) := by
  induction ms with
  | nil =>
    intro fuel s p hst hdec hfuel hlen
    obtain ⟨fuel, rfl⟩ := Nat.exists_eq_succ_of_ne_zero (Nat.ne_of_gt hfuel)
    obtain ⟨d', m', hnext⟩ := hst.eof hdec.of_nil (mem s.msgid)
    refine ⟨{ s with decoder := d' }, ?_, fun i => ?_⟩
    · have hrun : split_next mem s = some (.ok (0, m'), { s with decoder := d' }) := by simp only [split_next, hnext]
      rw [split_loop, Proc.bind_ok hrun]
      rfl
    · rw [show frames_of i (raw_frames (S.drop p) []) = [] from rfl]
      cases s.files[i]? with
      | none => rfl
      | some f => rw [Option.map_some, extend_nil]
  | cons q ms ih =>
    intro fuel s p hst hdec hfuel hlen
    obtain ⟨n, m⟩ := q
    obtain ⟨fuel, rfl⟩ := Nat.exists_eq_succ_of_ne_zero (show fuel ≠ 0 by omega)
    obtain ⟨hread, hrest⟩ := hdec.of_cons
    have hpos := hread.pos
    obtain ⟨d', m', i, hnext, hsame, hst', -, hlast, hin, hbytes⟩ := hst.next hread (mem s.msgid)
    have hlt := hread.src_lt
    have hrun : split_next mem s = some (.ok (n, m'), { s with decoder := d' }) := by simp only [split_next, hnext]
    have hfiles := round_files (s := { s with decoder := d' }) (n := n) hlast hin (by rw [hlen]; exact hlt) hsame
    dsimp only at hfiles
    rw [hbytes] at hfiles
    rw [List.drop_drop] at hrest
    have hlen' := (put_frame_length m ((S.drop p).take n) s.files).trans hlen
    obtain ⟨s', hloop, hall⟩ := ih (s := ⟨d', s.msgid + 1, s.decoded_bytes + n, put_frame m ((S.drop p).take n) s.files⟩) hst' hrest (Nat.lt_of_succ_lt_succ hfuel) hlen'
    refine ⟨s', ?_, fun i => ?_⟩
    · rw [split_loop, Proc.bind_ok hrun, if_neg (Nat.ne_of_gt hpos), Proc.bind_ok hfiles]
      exact hloop
    · rw [hall i, frames_of_cons, List.drop_drop]
      exact modify_files i _

theorem Decodes.src_lt {bs rest : List UInt8} {ms : List (Nat × Msg)} (h : Decodes hwcfg bs ms rest) :
    ∀ q ∈ ms, q.2.tcode ≠ .Idle → q.2.src.toNat < 2 ^ hwcfg.src_bits := by
  induction h with
  | nil bs => exact fun q hq => nomatch hq
  | cons hread _ ih =>
    intro q hq hidle
    rcases List.mem_cons.1 hq with rfl | hq
    · exact hread.src_lt hidle
    · exact ih q hq hidle

/-- A trace that is read to its end is split: the file of a source holds the frames of the
known messages of the source that are not Idle, one behind the other, and is read as these
messages. -/
theorem split_partition {buffer : List UInt8} {ms : List (Nat × Msg)} (hdec : Decodes hwcfg S ms []) (hsize : ∀ q ∈ ms, q.1 ≤ buffer.length)
    (mem : Nat → Msg) : ∃ s' : Splitter, split hwcfg S buffer mem = some (.ok (), s') ∧ s'.files.length = 2 ^ hwcfg.src_bits ∧
      (∀ q ∈ ms, q.2.tcode ≠ .Idle → q.2.src.toNat < 2 ^ hwcfg.src_bits) ∧
      ∀ src < 2 ^ hwcfg.src_bits, ∃ f, s'.files[src]? = some f ∧ f.bytes = (frames_of src (raw_frames S ms)).flatten ∧
        f.msgid_src = (frames_of src (raw_frames S ms)).length ∧ f.decoded_src = f.bytes.length ∧
        Decodes hwcfg f.bytes (ms.filter fun q => goes_to src q.2) [] := by
  have hinit := init_streams hwcfg (hdec.fits hsize)
  obtain ⟨s', hrun, hfiles⟩ := split_loop_files mem ms (s := split_init hwcfg S buffer) hinit hdec (Nat.lt_succ_of_le hdec.length_le)
    List.length_replicate
  have hget : ∀ i : Nat, s'.files[i]? = if i < 2 ^ hwcfg.src_bits then some ((⟨[], 0, 0⟩ : SplitFile).extend (frames_of i (raw_frames S ms))) else none := by
    intro i
    rw [hfiles i, split_init, List.getElem?_replicate]
    split <;> rfl
  refine ⟨s', hrun, ?_, hdec.src_lt, fun src hlt => ⟨_, (hget src).trans (if_pos hlt), ?_, ?_, ?_, ?_⟩⟩
  · have hlast : s'.files.length ≤ 2 ^ hwcfg.src_bits := by
      have hnone := hget (2 ^ hwcfg.src_bits)
      rw [if_neg (Nat.lt_irrefl _)] at hnone
      exact List.getElem?_eq_none_iff.1 hnone
    refine Nat.le_antisymm hlast (Nat.le_of_not_lt fun hlt => ?_)
    have hsome := hget s'.files.length
    rw [if_pos hlt, List.getElem?_eq_none (Nat.le_refl _)] at hsome
    cases hsome
  · simp [SplitFile.extend]
  · simp [SplitFile.extend]
  · simp [SplitFile.extend]
  · have hframes : Decodes hwcfg (frames_of src (raw_frames S ms)).flatten (ms.filter fun q => goes_to src q.2) [] := frames_decode hdec
    simpa [SplitFile.extend] using hframes

/-- Messages of two sources and an Idle message, through a buffer of three bytes. -/
theorem split_partition_two : let cfg : HwCfg := ⟨1, 0, 0, 0, 0, false, false, false⟩
    let S : List UInt8 := [0x0c, 0x2f, 0xff, 0x0c, 0x2b]
    let ms := [(2, { Msg.zero with tcode := .DirectBranch, icnt := 5, src := 1 }), (1, { Msg.zero with tcode := .Idle }),
      (2, { Msg.zero with tcode := .DirectBranch, icnt := 5 })]
    ∃ s' : Splitter, split cfg S [0, 0, 0] (fun _ => Msg.zero) = some (.ok (), s') ∧ s'.files.length = 2 ^ cfg.src_bits ∧
      (∀ q ∈ ms, q.2.tcode ≠ .Idle → q.2.src.toNat < 2 ^ cfg.src_bits) ∧
      ∀ src < 2 ^ cfg.src_bits, ∃ f, s'.files[src]? = some f ∧ f.bytes = (frames_of src (raw_frames S ms)).flatten ∧
        f.msgid_src = (frames_of src (raw_frames S ms)).length ∧ f.decoded_src = f.bytes.length ∧
        Decodes cfg f.bytes (ms.filter fun q => goes_to src q.2) [] := by
  have hread : ∀ {bs : List UInt8} {n : Nat} {m : Msg}, msg_decode ⟨1, 0, 0, 0, 0, false, false, false⟩ bs Msg.zero = some (.ok n, m) →
      Reads ⟨1, 0, 0, 0, 0, false, false, false⟩ bs n m := fun h => by
    have h := reads_of_decode h []
    rwa [List.append_nil] at h
  refine split_partition ?_ (by decide) _
  exact .cons (hread (by decide)) (.cons (hread (by decide)) (.cons (hread (by decide)) (.nil _)))

end Loop

end nexusrv
