import NexusRv.Recode
import NexusRv.Stream
import NexusRv.Position
/-!
# Patching a trace file

The loop of `patch.c`. A message is edited in place: it is encoded again over as many
bytes of 0xff as it had, so that what it does not need any more is read as Idle messages.
-/

namespace nexusrv

/-- `pwrite(2)`: what it leaves of the file. -/
def pwrite (file bytes : List UInt8) (off : Nat) : List UInt8 := splice 0 file bytes off

/-- The `icnt=` command on the message `m` of `rc` bytes at `off`: how encoding it went, and the file it leaves. -/
def patch_icnt (hwcfg : HwCfg) (file : List UInt8) (off rc : Nat) (m : Msg) (icnt : UInt32) : Option (Except NexusError Unit × List UInt8) :=
  (msg_encode hwcfg (List.replicate rc 0xff) rc { m with icnt := icnt }).map fun r =>
    match r with
    | (.error e, _) => (.error e, file)
    | (.ok _, bytes) => (.ok (), pwrite file bytes off)

/-! ## An edited message -/

section Edit
variable {hwcfg : HwCfg} {m : Msg}

/-- An Idle message. -/
def idle_msg : Msg := { Msg.zero with tcode := .Idle }

theorem reads_idle (q : List UInt8) : Reads hwcfg (0xff :: q) 1 idle_msg := fun m₀ =>
  ⟨_, msg_decode_idle_byte hwcfg q m₀, rfl, rfl, rfl, rfl⟩

/-- The bytes that were filled in are Idle messages. -/
theorem decodes_fill (k : Nat) : Decodes hwcfg (List.replicate k 0xff) (List.replicate k (1, idle_msg)) [] := by
  induction k with
  | zero => exact .nil []
  | succ k ih =>
    rw [List.replicate_succ, List.replicate_succ]
    exact .cons (reads_idle _) ih

theorem known_has_icnt {v : UInt32} (hi : msg_has_icnt m = true) :
    msg_known { m with icnt := v } = true → recodable { m with icnt := v } = true := by
  intro hk
  cases ht : m.tcode <;> simp [msg_has_icnt, ht] at hi <;> simp_all [recodable, encodable, msg_known]

/-- Only the I-CNT of a message that has one is written. -/
theorem Msg.Wiped.set_icnt {v : UInt32} (hi : msg_has_icnt m = true) (h : m.Wiped) : Msg.Wiped { m with icnt := v } := by
  cases ht : m.tcode <;> simp [msg_has_icnt, ht] at hi <;> simp_all [Msg.Wiped, Msg.res_code, Msg.cdf]

/-- What encoding a decoded message with another I-CNT leaves, if it does not fail: the bytes
of the edited message, and the rest as it was. -/
theorem edited_bytes (hsrc : hwcfg.src_bits ≤ 16) {f : List UInt8} {m₀ : Msg} (h : msg_decode hwcfg f m₀ = some (.ok f.length, m))
    (hi : msg_has_icnt m = true) (v : UInt32) : ∃ r bytes, msg_encode hwcfg (List.replicate f.length 0xff) f.length { m with icnt := v } = some (r, bytes) ∧
      ∀ k, r = .ok k → k ≤ f.length ∧ bytes.length = f.length ∧ Decodes hwcfg bytes ((k, { m with icnt := v }) :: List.replicate (f.length - k) (1, idle_msg)) [] := by
  cases hk : msg_known { m with icnt := v } with
  | false => exact ⟨.error .msg_unsupported, List.replicate f.length 0xff, by simp [msg_encode, encode_msg, hk], fun k hk => by cases hk⟩
  | true =>
    have hrec := known_has_icnt hi hk
    have hrec₀ : recodable m = true := known_has_icnt (v := m.icnt) hi hk
    obtain ⟨-, hfit, hts, hw⟩ := decoded_fits h hrec₀
    have hlim : f.length ≤ (List.replicate f.length (0xff : UInt8)).length := by rw [List.length_replicate]
    have henc := (Bool.and_eq_true_iff.1 hrec).1
    have hspec := msg_encode_spec hlim hwcfg _ henc
    dsimp only at hspec
    split at hspec
    · rename_i hroom
      refine ⟨_, _, hspec, fun k hk => ?_⟩
      have hback := fun rest m₁ => recoded hlim hsrc hrec hfit hts (hw.set_icnt hi) hspec rest m₁
      cases hk
      generalize hlay : frame (groups (layout hwcfg { m with icnt := v })) = bytes at hroom hback ⊢
      have hfill : (List.replicate f.length (0xff : UInt8)).drop bytes.length = List.replicate (f.length - bytes.length) 0xff :=
        List.drop_replicate
      rw [hfill]
      have hread : Reads hwcfg bytes bytes.length { m with icnt := v } := fun m₁ => by
        have hm := hback [] m₁
        rwa [List.take_left, List.append_nil] at hm
      refine ⟨hroom, ?_, ?_⟩
      · rw [List.length_append, List.length_replicate]
        omega
      · exact (Decodes.single hread).append (decodes_fill _)
    · obtain ⟨bytes, hspec⟩ := hspec
      exact ⟨_, _, hspec, fun k hk => by cases hk⟩

/-- Editing a message leaves the file alone, or as many bytes, which are read as the message
with the new I-CNT and Idle messages of one byte. The messages in front of it and behind it
stay what they are. -/
theorem patch_icnt_aligned (hsrc : hwcfg.src_bits ≤ 16) {f : List UInt8} {m₀ : Msg} (h : msg_decode hwcfg f m₀ = some (.ok f.length, m))
    (hi : msg_has_icnt m = true) (v : UInt32) (pre post : List UInt8) :
    ∃ r file', patch_icnt hwcfg (pre ++ f ++ post) pre.length f.length m v = some (r, file') ∧
      match r with
      | .error _ => file' = pre ++ f ++ post
      | .ok () => ∃ bytes k, file' = pre ++ bytes ++ post ∧ bytes.length = f.length ∧ k ≤ f.length ∧
        ∀ ms ms' rest, Decodes hwcfg pre ms [] → Decodes hwcfg post ms' rest →
          Decodes hwcfg (pre ++ f ++ post) (ms ++ (f.length, m) :: ms') rest ∧
          Decodes hwcfg (pre ++ bytes ++ post)
            (ms ++ (k, { m with icnt := v }) :: (List.replicate (f.length - k) (1, idle_msg) ++ ms')) rest := by
  obtain ⟨r, bytes, henc, hok⟩ := edited_bytes hsrc h hi v
  rw [patch_icnt, henc]
  rcases r with e | k
  · exact ⟨_, _, rfl, rfl⟩
  · obtain ⟨hk, hlen, hdec⟩ := hok k rfl
    refine ⟨_, _, rfl, bytes, k, splice_block hlen, hlen, hk, fun ms ms' rest hpre hpost => ⟨?_, ?_⟩⟩
    · have hread := reads_of_decode h []
      rw [List.append_nil] at hread
      rw [List.append_assoc]
      exact hpre.append ((Decodes.single hread).append hpost)
    · rw [List.append_assoc]
      exact hpre.append (hdec.append hpost)

/-- A DirectBranch message of three bytes gets the I-CNT 9, in two bytes, and an Idle message follows it. -/
theorem patch_icnt_aligned_nine : let cfg : HwCfg := ⟨0, 0, 0, 0, 0, false, false, false⟩
    let m : Msg := { Msg.zero with tcode := .DirectBranch, icnt := 5 }
    let f : List UInt8 := [0x0c, 0x14, 0x03]
    ∃ r file', patch_icnt cfg ([0xff] ++ f ++ [0x0c, 0x17]) ([0xff] : List UInt8).length f.length m 9 = some (r, file') ∧
      match r with
      | .error _ => file' = [0xff] ++ f ++ [0x0c, 0x17]
      | .ok () => ∃ bytes k, file' = [0xff] ++ bytes ++ [0x0c, 0x17] ∧ bytes.length = f.length ∧ k ≤ f.length ∧
        ∀ ms ms' rest, Decodes cfg [0xff] ms [] → Decodes cfg [0x0c, 0x17] ms' rest →
          Decodes cfg ([0xff] ++ f ++ [0x0c, 0x17]) (ms ++ (f.length, m) :: ms') rest ∧
          Decodes cfg ([0xff] ++ bytes ++ [0x0c, 0x17])
            (ms ++ (k, { m with icnt := 9 }) :: (List.replicate (f.length - k) (1, idle_msg) ++ ms')) rest :=
  have hdec : msg_decode ⟨0, 0, 0, 0, 0, false, false, false⟩ [0x0c, 0x14, 0x03] Msg.zero =
      some (.ok 3, { Msg.zero with tcode := .DirectBranch, icnt := 5 }) := by decide
  patch_icnt_aligned (by decide) hdec (by decide) 9 [0xff] [0x0c, 0x17]

end Edit

/-! ## The commands -/

/-- A command, with the numbers that `strtoul` returned. -/
inductive PatchCmd where
  | seek (off : UInt64)
  | next
  | show
  | icnt (v : UInt64)
  | unknown

/-- Why the program stops: at the end of the file, or with an error. -/
inductive PatchStop where
  | eof
  | decode (e : NexusError)
  | no_icnt
  | encode (e : NexusError)
  | seek
  | unknown

/-- The file and the locals of `patch`; the descriptor of the file is that of the decoder. What `show` prints is `shown`. -/
structure Patcher where
  file : List UInt8
  fileoff : Nat
  decoder : MsgDecoder
  shown : List (Nat × Msg)

/-- A `pwrite` of `len` bytes at `off`, and the decoder behind the message that they replace. -/
structure Write where
  off : Nat
  len : Nat
  decoder : MsgDecoder

/-- `open_seek_file` on a regular file: where its descriptor is. `lseek` fails where an `off_t` is negative; it returns -1, which is also what
the offset 2^64 - 1 is compared as, so that one is let through, and the descriptor stays where it was. -/
def open_seek_file (file_offset : UInt64) : Except PatchStop Nat :=
  if file_offset.toNat < 2 ^ 63 then .ok file_offset.toNat
  else if file_offset.toNat = 2 ^ 64 - 1 then .ok 0
  else .error .seek

/-- In front of the commands, with the descriptor at `start`. -/
def patch_start (hwcfg : HwCfg) (file : List UInt8) (start : Nat) (buffer : List UInt8) : Patcher :=
  ⟨file, 0, msg_decoder_init hwcfg ⟨file.drop start, []⟩ (-1) buffer buffer.length, []⟩

/-- Decode a message into storage that holds `m₀`. -/
def patch_next (m₀ : Msg) : Proc Patcher PatchStop (Nat × Msg) := fun s =>
  match msg_decoder_next (s.decoder, m₀) with
  | none => none
  | some (.error e, d, _) => some (.error (.decode e), { s with decoder := d })
  | some (.ok 0, d, _) => some (.error .eof, { s with decoder := d })
  | some (.ok rc, d, m) => some (.ok (rc, m), { s with decoder := d })

/-- `// Re-init`. `lseek` fails where an `off_t` is negative. -/
def patch_reinit (hwcfg : HwCfg) (fileoff : Nat) : Proc Patcher PatchStop Unit := do
  Proc.modify fun s => { s with fileoff := fileoff }
  if fileoff < 2 ^ 63 then Proc.modify fun s =>
    { s with decoder := msg_decoder_init hwcfg ⟨s.file.drop fileoff, []⟩ (-1) s.decoder.buffer s.decoder.bufsz }
  else Proc.fail .seek

/-- One command, and what it wrote. -/
def patch_cmd (hwcfg : HwCfg) (m₀ : Msg) : PatchCmd → Proc Patcher PatchStop (Option Write)
  | .seek off => do
    patch_reinit hwcfg off.toNat
    pure none
  | .next => do
    let _ ← patch_next m₀
    pure none
  | .show => do
    let r ← patch_next m₀
    let s ← Proc.get
    let cur_off := msg_decoder_offset s.decoder
    Proc.modify fun s => { s with shown := s.shown ++ [(cur_off + s.fileoff, r.2)] }
    patch_reinit hwcfg (s.fileoff + cur_off)
    pure none
  | .icnt v => do
    let r ← patch_next m₀
    let s ← Proc.get
    let cur_off := msg_decoder_offset s.decoder
    if !msg_has_icnt r.2 then Proc.fail .no_icnt
    else match patch_icnt hwcfg s.file (cur_off + s.fileoff) r.1 r.2 v.toUInt32 with
      | none => Proc.assert false >>= fun _ => pure none
      | some (.error e, _) => Proc.fail (.encode e)
      | some (.ok (), file) => do
        Proc.modify fun s => { s with file := file }
        patch_reinit hwcfg (s.fileoff + cur_off)
        pure (some ⟨cur_off + s.fileoff, r.1, s.decoder⟩)
  | .unknown => do
    let _ ← patch_next m₀
    Proc.fail .unknown

/-- The commands in order, each with what the storage of its message holds, and what they wrote. -/
def patch (hwcfg : HwCfg) : List (Msg × PatchCmd) → Proc Patcher PatchStop (List Write)
  | [] => pure []
  | (m₀, c) :: cs => do
    let w ← patch_cmd hwcfg m₀ c
    let ws ← patch hwcfg cs
    pure (w.toList ++ ws)

/-- The program on `<file>:<offset>`. -/
def patch_file (hwcfg : HwCfg) (file : List UInt8) (file_offset : UInt64) (buffer : List UInt8) (cs : List (Msg × PatchCmd)) :
    Option (Except PatchStop (List Write) × Patcher) :=
  match open_seek_file file_offset with
  | .error e => some (.error e, patch_start hwcfg file 0 buffer)
  | .ok start => patch hwcfg cs (patch_start hwcfg file start buffer)

/-! ## What a command does -/

/-- Where the last message of the decoder was read from, in a file of `size` bytes. -/
def last_at (size : Nat) (d : MsgDecoder) : Nat := size - d.bytesLeft - d.lastmsg_len

/-- The first command that is not `next` is `icnt=`. -/
def icnt_first : List (Msg × PatchCmd) → Bool
  | (_, .next) :: cs => icnt_first cs
  | (_, .icnt _) :: _ => true
  | _ => false

section Commands
variable {hwcfg : HwCfg} {s s' : Patcher} {base p : Nat} {m₀ : Msg}

/-- The decoder reads the file from `base` on, and stands at `p` behind it. -/
def Based (hwcfg : HwCfg) (s : Patcher) (base p : Nat) : Prop := Placed hwcfg (s.file.drop base) s.decoder p

/-- The offset that is kept is where the decoder started. -/
def Tied (hwcfg : HwCfg) (s : Patcher) : Prop := ∃ p, Based hwcfg s s.fileoff p

theorem start_based (hwcfg : HwCfg) (file : List UInt8) (start : Nat) (buffer : List UInt8) :
    Based hwcfg (patch_start hwcfg file start buffer) start 0 :=
  init_placed hwcfg _ (by decide) buffer

/-- What a message that was decoded tells of the file. -/
structure Fetches (hwcfg : HwCfg) (s : Patcher) (base p rc : Nat) (m : Msg) (s' : Patcher) : Prop where
  file : s'.file = s.file
  fileoff : s'.fileoff = s.fileoff
  based : Based hwcfg s' base (p + rc)
  offset : msg_decoder_offset s'.decoder = p
  last : s'.decoder.lastmsg_len = rc
  read : last_at s.file.length s'.decoder = base + p
  inside : base + p + rc ≤ s.file.length
  reads : Reads hwcfg (s.file.drop (base + p)) rc m

theorem patch_next_spec (h : Based hwcfg s base p) {rc : Nat} {m : Msg} (hrun : patch_next m₀ s = some (.ok (rc, m), s')) :
    Fetches hwcfg s base p rc m s' := by
  have hcall := Placed.next h m₀
  unfold patch_next at hrun
  generalize hx : msg_decoder_next (s.decoder, m₀) = x at hcall hrun
  cases hcall with
  | eof => cases hrun
  | failed => cases hrun
  | message n d₀ m₁ m' hp _ h0 hn hd =>
    obtain ⟨k, rfl⟩ := Nat.exists_eq_succ_of_ne_zero (Nat.ne_of_gt h0)
    cases hrun
    have hadv := hp.advance h0 hn
    have hleft := hadv.bytesLeft
    have hle := hadv.le
    have hlast : (d₀.advance (k + 1)).lastmsg_len = k + 1 := rfl
    rw [List.length_drop] at hleft hle
    refine ⟨rfl, rfl, hadv, (hp.lastmsg h0 hn).1, hlast, ?_, by omega, ?_⟩
    · unfold last_at
      dsimp only
      rw [hlast]
      omega
    · rw [← List.drop_drop, hp.left]
      exact reads_of_decode hd _

theorem patch_reinit_spec (h : DecoderInv s.decoder) {off : Nat} (hrun : patch_reinit hwcfg off s = some (.ok (), s')) :
    s'.file = s.file ∧ Tied hwcfg s' := by
  simp only [patch_reinit, Proc.modify_bind_apply, Proc.ite_apply] at hrun
  split at hrun
  · cases hrun
    refine ⟨rfl, 0, ?_⟩
    unfold Based
    dsimp only
    rw [← h.buffer_len]
    exact init_placed hwcfg _ (by decide) _
  · cases hrun

/-- What one command does to the file, if the decoder reads it from `base` on. -/
inductive Does (hwcfg : HwCfg) (s : Patcher) (base p : Nat) : PatchCmd → Option Write → Patcher → Prop where
  | next {rc : Nat} {m : Msg} {s' : Patcher} : Fetches hwcfg s base p rc m s' → Does hwcfg s base p .next none s'
  | reads {c : PatchCmd} {s' : Patcher} : c ≠ .next → (∀ v, c ≠ .icnt v) → s'.file = s.file → Tied hwcfg s' → Does hwcfg s base p c none s'
  | writes {v : UInt64} {rc : Nat} {m : Msg} {bytes : List UInt8} {t s' : Patcher} : Fetches hwcfg s base p rc m t → bytes.length = rc →
      s'.file = pwrite s.file bytes (p + s.fileoff) → Tied hwcfg s' →
      Does hwcfg s base p (.icnt v) (some ⟨p + s.fileoff, rc, t.decoder⟩) s'

theorem patch_icnt_ok {file file' : List UInt8} {off rc : Nat} {m : Msg} {v : UInt32}
    (h : patch_icnt hwcfg file off rc m v = some (.ok (), file')) : ∃ bytes, bytes.length = rc ∧ file' = pwrite file bytes off := by
  obtain ⟨⟨r, bytes⟩, henc, heq⟩ := Option.map_eq_some_iff.1 h
  rcases r with e | k
  · cases heq
  · cases heq
    have hlen := (msg_encode_untouched henc).1
    rw [List.length_replicate] at hlen
    exact ⟨bytes, hlen, rfl⟩

theorem patch_cmd_spec (h : Based hwcfg s base p) {c : PatchCmd} {w : Option Write} (hrun : patch_cmd hwcfg m₀ c s = some (.ok w, s')) :
    Does hwcfg s base p c w s' := by
  cases c with
  | seek off =>
    obtain ⟨_, t, hre, hrun⟩ := Proc.bind_eq_ok.1 hrun
    cases hrun
    obtain ⟨hfile, htied⟩ := patch_reinit_spec h.inv hre
    exact .reads (fun h => nomatch h) (fun _ h => nomatch h) hfile htied
  | next =>
    obtain ⟨r, t, hnext, hrun⟩ := Proc.bind_eq_ok.1 hrun
    cases hrun
    exact .next (patch_next_spec h hnext)
  | «show» =>
    obtain ⟨r, t, hnext, hrun⟩ := Proc.bind_eq_ok.1 hrun
    have hf := patch_next_spec h hnext
    rw [Proc.get_bind_apply, Proc.modify_bind_apply] at hrun
    obtain ⟨_, u, hre, hrun⟩ := Proc.bind_eq_ok.1 hrun
    cases hrun
    obtain ⟨hfile, htied⟩ := patch_reinit_spec (s := { t with shown := t.shown ++ [(msg_decoder_offset t.decoder + t.fileoff, r.2)] }) hf.based.inv hre
    exact .reads (fun h => nomatch h) (fun _ h => nomatch h) (hfile.trans hf.file) htied
  | icnt v =>
    obtain ⟨r, t, hnext, hrun⟩ := Proc.bind_eq_ok.1 hrun
    have hf := patch_next_spec h hnext
    rw [Proc.get_bind_apply, Proc.ite_apply] at hrun
    split at hrun
    · cases hrun
    · rcases hedit : patch_icnt hwcfg t.file (msg_decoder_offset t.decoder + t.fileoff) r.1 r.2 v.toUInt32 with _ | ⟨e | ⟨⟩, file⟩ <;>
        rw [hedit] at hrun
      · cases hrun
      · cases hrun
      · dsimp only at hrun
        rw [Proc.modify_bind_apply] at hrun
        obtain ⟨_, u, hre, hrun⟩ := Proc.bind_eq_ok.1 hrun
        cases hrun
        obtain ⟨hfile, htied⟩ := patch_reinit_spec (s := { t with file := file }) hf.based.inv hre
        obtain ⟨bytes, hlen, hbytes⟩ := patch_icnt_ok hedit
        rw [hf.offset, hf.fileoff] at hbytes ⊢
        rw [hf.file] at hbytes
        exact .writes hf hlen (hfile.trans hbytes) htied
  | unknown =>
    obtain ⟨r, t, hnext, hrun⟩ := Proc.bind_eq_ok.1 hrun
    cases hrun

/-! ## What a run writes -/

/-- Every write covers the bytes that its message was read from, and all other bytes stay. -/
def Rewrites (file file' : List UInt8) (ws : List Write) : Prop :=
  (∀ w ∈ ws, w.off = last_at file.length w.decoder ∧ w.len = w.decoder.lastmsg_len) ∧ file'.length = file.length ∧
    ∀ i, (∀ w ∈ ws, i < last_at file.length w.decoder ∨ last_at file.length w.decoder + w.decoder.lastmsg_len ≤ i) → file'[i]? = file[i]?

theorem Rewrites.trans {f g k : List UInt8} {ws us : List Write} (h : Rewrites f g ws) (h' : Rewrites g k us) : Rewrites f k (ws ++ us) := by
  obtain ⟨h1, h2, h3⟩ := h
  obtain ⟨h1', h2', h3'⟩ := h'
  rw [h2] at h1' h2' h3'
  refine ⟨fun w hw => ?_, h2', fun i hi => ?_⟩
  · exact (List.mem_append.1 hw).elim (h1 w) (h1' w)
  · rw [h3' i fun w hw => hi w (List.mem_append_right _ hw), h3 i fun w hw => hi w (List.mem_append_left _ hw)]

theorem rewrites_none (file : List UInt8) : Rewrites file file [] := ⟨fun _ hw => (nomatch hw), rfl, fun _ _ => rfl⟩

/-- A step from where the decoder started. -/
theorem Does.tied (h : Does hwcfg s s.fileoff p c w s') : Tied hwcfg s' ∧ Rewrites s.file s'.file w.toList := by
  cases h with
  | next hf => exact ⟨⟨_, hf.fileoff ▸ hf.based⟩, by rw [hf.file]; exact rewrites_none _⟩
  | reads _ _ hfile ht => exact ⟨ht, by rw [hfile]; exact rewrites_none _⟩
  | @writes v rc m bytes t _ hf hlen hfile ht =>
    have hread := hf.read
    have hin := hf.inside
    have hroom : p + s.fileoff + bytes.length ≤ s.file.length := by omega
    refine ⟨ht, ?_, ?_, ?_⟩
    · intro w hw
      obtain rfl := List.mem_singleton.1 hw
      exact ⟨by dsimp only; omega, hf.last.symm⟩
    · rw [hfile, pwrite, splice_length hroom]
    · intro i hi
      have hi := hi _ List.mem_cons_self
      dsimp only at hi
      rw [hread, hf.last] at hi
      rw [hfile, pwrite, splice_outside hroom (by omega)]

theorem patch_tied (cs : List (Msg × PatchCmd)) : ∀ {s s' : Patcher} {ws : List Write}, Tied hwcfg s →
    patch hwcfg cs s = some (.ok ws, s') → Rewrites s.file s'.file ws := by
  induction cs with
  | nil =>
    intro s s' ws _ hrun
    cases hrun
    exact rewrites_none _
  | cons c cs ih =>
    intro s s' ws ⟨p, hb⟩ hrun
    obtain ⟨w, t, hcmd, hrun⟩ := Proc.bind_eq_ok.1 hrun
    obtain ⟨us, u, hrest, hrun⟩ := Proc.bind_eq_ok.1 hrun
    cases hrun
    obtain ⟨htied, hrew⟩ := (patch_cmd_spec hb hcmd).tied
    exact hrew.trans (ih htied hrest)

/-- The descriptor was moved, but the offset that is kept is still 0. -/
theorem patch_moved {start : Nat} (hstart : start ≠ 0) (cs : List (Msg × PatchCmd)) : ∀ {s s' : Patcher} {p : Nat} {ws : List Write},
    Based hwcfg s start p → s.fileoff = 0 → patch hwcfg cs s = some (.ok ws, s') → (Rewrites s.file s'.file ws ↔ icnt_first cs = false) := by
  induction cs with
  | nil =>
    intro s s' p ws _ _ hrun
    cases hrun
    exact ⟨fun _ => rfl, fun _ => rewrites_none _⟩
  | cons c cs ih =>
    intro s s' p ws hb h0 hrun
    obtain ⟨m₀, c⟩ := c
    obtain ⟨w, t, hcmd, hrun⟩ := Proc.bind_eq_ok.1 hrun
    obtain ⟨us, u, hrest, hrun⟩ := Proc.bind_eq_ok.1 hrun
    cases hrun
    cases patch_cmd_spec hb hcmd with
    | next hf =>
      rw [← hf.file]
      exact ih hf.based (hf.fileoff.trans h0) hrest
    | reads hnext hicnt hfile ht =>
      have hfirst : icnt_first ((m₀, c) :: cs) = false := by
        cases c with
        | next => exact absurd rfl hnext
        | icnt v => exact absurd rfl (hicnt v)
        | _ => rfl
      rw [← hfile]
      exact ⟨fun _ => hfirst, fun _ => patch_tied cs ht hrest⟩
    | @writes v rc m bytes t _ hf hlen hfile ht =>
      -- the message was read behind `start`
      constructor
      · intro hrew
        have hw := (hrew.1 _ List.mem_cons_self).1
        dsimp only at hw
        rw [hf.read, h0] at hw
        omega
      · exact fun h => nomatch h

/-- Once the descriptor is at `start`, the messages that were decoded are rewritten exactly if that is the front of the file, or the first command
that is not `next` is not `icnt=`. -/
theorem patch_rewrites_from {file buffer : List UInt8} {start : Nat} {cs : List (Msg × PatchCmd)} {ws : List Write}
    (hrun : patch hwcfg cs (patch_start hwcfg file start buffer) = some (.ok ws, s')) :
    Rewrites file s'.file ws ↔ start = 0 ∨ icnt_first cs = false := by
  have hb := start_based hwcfg file start buffer
  by_cases hstart : start = 0
  · rw [hstart] at hb hrun
    exact ⟨fun _ => .inl hstart, fun _ => patch_tied cs ⟨0, hb⟩ hrun⟩
  · have hiff := patch_moved hstart cs hb rfl hrun
    exact ⟨fun h => .inr (hiff.1 h), fun h => hiff.2 (h.resolve_left hstart)⟩

theorem patch_file_ok {file buffer : List UInt8} {file_offset : UInt64} {cs : List (Msg × PatchCmd)} {ws : List Write}
    (hrun : patch_file hwcfg file file_offset buffer cs = some (.ok ws, s')) :
    ∃ start, open_seek_file file_offset = .ok start ∧ patch hwcfg cs (patch_start hwcfg file start buffer) = some (.ok ws, s') := by
  unfold patch_file at hrun
  split at hrun
  · cases hrun
  · rename_i start hopen
    exact ⟨start, hopen, hrun⟩

/-- The descriptor is at the front of the file exactly for two offsets. -/
theorem open_seek_front {file_offset : UInt64} {start : Nat} (h : open_seek_file file_offset = .ok start) :
    start = 0 ↔ file_offset.toNat = 0 ∨ file_offset.toNat = 2 ^ 64 - 1 := by
  unfold open_seek_file at h
  split at h
  · cases h
    omega
  · split at h
    · cases h
      omega
    · cases h

/-- The program rewrites the messages that it decoded exactly if it starts at the front of
the file, or is told where to go or shows a message before it edits one. -/
theorem patch_rewrites_iff {file buffer : List UInt8} {file_offset : UInt64} {cs : List (Msg × PatchCmd)} {ws : List Write}
    (hrun : patch_file hwcfg file file_offset buffer cs = some (.ok ws, s')) :
    Rewrites file s'.file ws ↔ (file_offset.toNat = 0 ∨ file_offset.toNat = 2 ^ 64 - 1) ∨ icnt_first cs = false := by
  obtain ⟨start, hopen, hpatch⟩ := patch_file_ok hrun
  rw [patch_rewrites_from hpatch, open_seek_front hopen]

end Commands

def patch_cfg : HwCfg := ⟨0, 0, 0, 0, 0, false, false, false⟩

/-- A run that completes, by where it wrote, where the messages were read from, and the file it left. -/
theorem patch_of_shown {hwcfg : HwCfg} {cs : List (Msg × PatchCmd)} {file buffer : List UInt8} {file_offset : UInt64} {offs : List (Nat × Nat)}
    {file' : List UInt8} (h : ((patch_file hwcfg file file_offset buffer cs).bind fun r => r.1.toOption.map fun ws =>
      (ws.map fun w => (w.off, last_at file.length w.decoder), r.2.file)) = some (offs, file')) :
    ∃ ws s', patch_file hwcfg file file_offset buffer cs = some (.ok ws, s') ∧ ws.map (fun w => (w.off, last_at file.length w.decoder)) = offs ∧
      s'.file = file' := by
  obtain ⟨⟨r, s'⟩, hrun, hshown⟩ := Option.bind_eq_some_iff.1 h
  rcases r with e | ws
  · cases hshown
  · cases hshown
    exact ⟨ws, s', hrun, rfl, rfl⟩

/-- The second of two messages is edited. -/
theorem patch_rewrites_second : let file : List UInt8 := [0x0c, 0x17, 0x0c, 0x2b]
    let cs := [(Msg.zero, .next), (Msg.zero, .icnt 9)]
    ∃ ws s', patch_file patch_cfg file 0 [0, 0, 0] cs = some (.ok ws, s') ∧ s'.file = [0x0c, 0x17, 0x0c, 0x27] ∧
      (Rewrites file s'.file ws ↔ ((0 : UInt64).toNat = 0 ∨ (0 : UInt64).toNat = 2 ^ 64 - 1) ∨ icnt_first cs = false) := by
  dsimp only
  obtain ⟨ws, s', hrun, -, hfile⟩ := @patch_of_shown patch_cfg [(Msg.zero, .next), (Msg.zero, .icnt 9)] [0x0c, 0x17, 0x0c, 0x2b] [0, 0, 0] 0
    [(2, 2)] [0x0c, 0x17, 0x0c, 0x27] (by decide +kernel)
  exact ⟨ws, s', hrun, hfile, patch_rewrites_iff hrun⟩

/-- From the third byte on there is a message, but its new bytes are written to the front of the file. -/
theorem patch_writes_elsewhere : ¬ ∀ (hwcfg : HwCfg) (file buffer : List UInt8) (file_offset : UInt64) (cs : List (Msg × PatchCmd))
    (ws : List Write) (s' : Patcher), patch_file hwcfg file file_offset buffer cs = some (.ok ws, s') → Rewrites file s'.file ws := by
  intro hall
  obtain ⟨ws, s', hrun, hoffs, -⟩ := @patch_of_shown patch_cfg [(Msg.zero, .icnt 9)] [0xff, 0xff, 0x0c, 0x17] [0, 0, 0] 2
    [(0, 2)] [0x0c, 0x27, 0x0c, 0x17] (by decide +kernel)
  have hrew := hall _ _ _ _ _ ws s' hrun
  rcases ws with _ | ⟨w, ws⟩
  · cases hoffs
  · obtain ⟨hoff, -⟩ := List.cons.inj hoffs
    have hw := (hrew.1 w List.mem_cons_self).1
    simp only [Prod.mk.injEq] at hoff
    have hlast : last_at 4 w.decoder = 2 := hoff.2
    exact absurd (hoff.1.symm.trans (hw.trans hlast)) (by decide)

end nexusrv
