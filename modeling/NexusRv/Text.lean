import Mathlib.Data.List.Forall2
import NexusRv.Recode
import NexusRv.MessageSize
import NexusRv.Stream
import NexusRv.Lib.Scan
/-!
# Messages as text

`nexusrv-dump` and `nexusrv-assemble`: the printer and the reader of messages, with the
formats of `msg-format.h` that both use, and the two programs. The line that `dump` starts
a message with is not the one that `assemble` reads.
-/

namespace nexusrv

open Scan

/-! ## Formats -/

/-- A format of `msg-format.h`: the text, and the base and the bits of the number behind it. -/
structure Format where
  text : String
  base : Nat
  bits : Nat

def NEXUS_FMT_SRC : Format := ⟨" Src=", 10, 32⟩
def NEXUS_FMT_TIMESTAMP : Format := ⟨" Time=", 10, 64⟩
def NEXUS_FMT_TCODE : Format := ⟨" TCODE=", 10, 32⟩
def NEXUS_FMT_OWNER_FORMAT : Format := ⟨" FORMAT=", 10, 32⟩
def NEXUS_FMT_OWNER_PRV : Format := ⟨" PRV=", 10, 32⟩
def NEXUS_FMT_OWNER_V : Format := ⟨" V=", 10, 32⟩
def NEXUS_FMT_OWNER_CONTEXT : Format := ⟨" CONTEXT=0x", 16, 64⟩
def NEXUS_FMT_ERROR_ETYPE : Format := ⟨" ETYPE=", 10, 32⟩
def NEXUS_FMT_ERROR_ECODE : Format := ⟨" ECODE=0x", 16, 32⟩
def NEXUS_FMT_DA_IDTAG : Format := ⟨" IDTAG=", 10, 32⟩
def NEXUS_FMT_DA_DQDATA : Format := ⟨" DQDATA=0x", 16, 64⟩
def NEXUS_FMT_ICNT : Format := ⟨" ICNT=", 10, 32⟩
def NEXUS_FMT_SYNC : Format := ⟨" SYNC=", 10, 32⟩
def NEXUS_FMT_BTYPE : Format := ⟨" BTYPE=", 10, 32⟩
def NEXUS_FMT_XADDR : Format := ⟨" XADDR=0x", 16, 64⟩
def NEXUS_FMT_HIST : Format := ⟨" HIST=0x", 16, 32⟩
def NEXUS_FMT_RCODE : Format := ⟨" RCODE=", 10, 32⟩
def NEXUS_FMT_RDATA : Format := ⟨" RDATA=0x", 16, 32⟩
def NEXUS_FMT_HREPEAT : Format := ⟨" HREPEAT=", 10, 32⟩
def NEXUS_FMT_EVCODE : Format := ⟨" EVCODE=", 10, 32⟩
def NEXUS_FMT_CDF : Format := ⟨" CDF=", 10, 32⟩
def NEXUS_FMT_CKSRC : Format := ⟨" CKSRC=", 10, 32⟩
def NEXUS_FMT_CKDF : Format := ⟨" CKDF=", 10, 32⟩
def NEXUS_FMT_CKDATA0 : Format := ⟨" CKDATA0=0x", 16, 64⟩
def NEXUS_FMT_CKDATA1 : Format := ⟨" CKDATA1=0x", 16, 64⟩

def Format.print (f : Format) (v : Nat) : List Char := f.text.toList ++ Nat.toDigits f.base v

def Format.scan (f : Format) : List Directive := directives f.text.toList ++ [.number f.base f.bits]

/-! ## The printer -/

def tcode_str : Tcode → String
  | .Ownership => "Ownership"
  | .DirectBranch => "DirectBranch"
  | .IndirectBranch => "IndirectBranch"
  | .Error => "Error"
  | .DataAcquisition => "DataAcquisition"
  | .ProgTraceSync => "ProgTraceSync"
  | .DirectBranchSync => "DirectBranchSync"
  | .IndirectBranchSync => "IndirectBranchSync"
  | .ResourceFull => "ResourceFull"
  | .IndirectBranchHist => "IndirectBranchHist"
  | .IndirectBranchHistSync => "IndirectBranchHistSync"
  | .RepeatBranch => "RepeatBranch"
  | .ICT => "ICT"
  | .ProgTraceCorrelation => "ProgTraceCorrelation"
  | .Idle => "Idle"
  | .other .. => "Unknown"

/-- The text of a part that is printed if `p`. -/
def print_if (p : Bool) (s : List Char) : List Char := if p then s else []

def print_common (m : Msg) : List Char :=
  print_if (msg_is_sync m) (NEXUS_FMT_SYNC.print m.sync_type) ++
  (print_if (msg_is_indir_branch m) (NEXUS_FMT_BTYPE.print m.branch_type) ++
  (print_if (msg_has_icnt m) (NEXUS_FMT_ICNT.print m.icnt.toNat) ++
  (print_if (msg_has_xaddr m) (NEXUS_FMT_XADDR.print m.xaddr.toNat) ++
  print_if (msg_has_hist m) (NEXUS_FMT_HIST.print m.hist.toNat))))

/-- `handle_rest`, and what is printed of the other messages. -/
def print_rest (m : Msg) : List Char :=
  match m.tcode with
  | .Idle => []
  | .Ownership => NEXUS_FMT_OWNER_FORMAT.print m.ownership_fmt ++ (NEXUS_FMT_OWNER_PRV.print m.ownership_priv ++
    (NEXUS_FMT_OWNER_V.print m.ownership_v ++ NEXUS_FMT_OWNER_CONTEXT.print m.context.toNat))
  | .Error => NEXUS_FMT_ERROR_ETYPE.print m.error_type ++ NEXUS_FMT_ERROR_ECODE.print m.error_code.toNat
  | .DataAcquisition => NEXUS_FMT_DA_IDTAG.print m.idtag ++ NEXUS_FMT_DA_DQDATA.print m.dqdata.toNat
  | .ResourceFull => NEXUS_FMT_RCODE.print m.res_code ++
    if m.res_code > 2 then NEXUS_FMT_RDATA.print m.res_data.toNat
    else match m.res_code with
      | 0 => NEXUS_FMT_ICNT.print m.icnt.toNat
      | 1 => NEXUS_FMT_HIST.print m.hist.toNat
      | _ => NEXUS_FMT_HIST.print m.hist.toNat ++ NEXUS_FMT_HREPEAT.print m.hrepeat.toNat
  | .RepeatBranch => NEXUS_FMT_HREPEAT.print m.hrepeat.toNat
  | .ProgTraceCorrelation => NEXUS_FMT_EVCODE.print m.stop_code ++ (NEXUS_FMT_CDF.print m.cdf ++ (NEXUS_FMT_ICNT.print m.icnt.toNat ++
    print_if (m.cdf = 1) (NEXUS_FMT_HIST.print m.hist.toNat)))
  | .ICT => NEXUS_FMT_CKSRC.print m.cksrc ++ (NEXUS_FMT_CKDF.print m.ckdf ++ (NEXUS_FMT_CKDATA0.print m.ckdata0 ++
    print_if (m.ckdf > 0) (NEXUS_FMT_CKDATA1.print m.ckdata1.toNat)))
  | _ => print_common m

/-- What `nexusrv_print_msg` writes behind the name of the TCODE. -/
def print_fields (m : Msg) : List Char :=
  NEXUS_FMT_TIMESTAMP.print m.timestamp.toNat ++ (NEXUS_FMT_TCODE.print m.tcode.code ++
    (print_if (msg_has_src m) (NEXUS_FMT_SRC.print m.src.toNat) ++ print_rest m))

def print_msg (m : Msg) : List Char := (tcode_str m.tcode).toList ++ print_fields m

/-! ## The reader -/

/-- The text to come, and the message that is read. -/
abbrev Reader := Proc (List Char × Msg) NexusError

def CHECK_SCANF (f : Format) (field : Nat → Msg → Msg) : Reader Unit := do
  let s ← Proc.get
  let r := scan f.scan s.1
  match r.values with
  | [.number v] => Proc.modify fun s => (r.rest, field v s.2)
  | _ => do
    Proc.modify fun s => (r.rest, s.2)
    Proc.fail .msg_missing_field

def read_common : Reader Unit := do
  let s ← Proc.get
  Proc.when (msg_is_sync s.2) (CHECK_SCANF NEXUS_FMT_SYNC Msg.set_sync_type)
  Proc.when (msg_is_indir_branch s.2) (CHECK_SCANF NEXUS_FMT_BTYPE Msg.set_branch_type)
  Proc.assert (msg_has_icnt s.2)
  Proc.modify fun s => (s.1, s.2.set_hrepeat 0)
  CHECK_SCANF NEXUS_FMT_ICNT Msg.set_icnt
  Proc.when (msg_has_xaddr s.2) (CHECK_SCANF NEXUS_FMT_XADDR Msg.set_xaddr)
  Proc.when (msg_has_hist s.2) (CHECK_SCANF NEXUS_FMT_HIST Msg.set_hist)

def read_reset : Reader Unit := Proc.modify fun s => (s.1, ((s.2.set_icnt 0).set_hist 0).set_hrepeat 0)

/-- `handle_rest` of the reader. -/
def read_rest (tcode : Tcode) : Reader Unit :=
  match tcode with
  | .Ownership => do
    CHECK_SCANF NEXUS_FMT_OWNER_FORMAT Msg.set_ownership_fmt
    CHECK_SCANF NEXUS_FMT_OWNER_PRV Msg.set_ownership_priv
    CHECK_SCANF NEXUS_FMT_OWNER_V Msg.set_ownership_v
    CHECK_SCANF NEXUS_FMT_OWNER_CONTEXT Msg.set_context
  | .Error => do
    CHECK_SCANF NEXUS_FMT_ERROR_ETYPE Msg.set_error_type
    CHECK_SCANF NEXUS_FMT_ERROR_ECODE Msg.set_error_code
  | .ResourceFull => do
    CHECK_SCANF NEXUS_FMT_RCODE Msg.set_res_code
    let s ← Proc.get
    if s.2.res_code > 2 then CHECK_SCANF NEXUS_FMT_RDATA Msg.set_res_data
    else do
      read_reset
      match s.2.res_code with
      | 0 => CHECK_SCANF NEXUS_FMT_ICNT Msg.set_icnt
      | 1 => CHECK_SCANF NEXUS_FMT_HIST Msg.set_hist
      | _ => do
        CHECK_SCANF NEXUS_FMT_HIST Msg.set_hist
        CHECK_SCANF NEXUS_FMT_HREPEAT Msg.set_hrepeat
  | .RepeatBranch => CHECK_SCANF NEXUS_FMT_HREPEAT Msg.set_hrepeat
  | .ProgTraceCorrelation => do
    read_reset
    CHECK_SCANF NEXUS_FMT_EVCODE Msg.set_stop_code
    CHECK_SCANF NEXUS_FMT_CDF Msg.set_cdf
    CHECK_SCANF NEXUS_FMT_ICNT Msg.set_icnt
    let s ← Proc.get
    Proc.when (s.2.cdf = 1) (CHECK_SCANF NEXUS_FMT_HIST Msg.set_hist)
  | .ICT => do
    CHECK_SCANF NEXUS_FMT_CKSRC Msg.set_cksrc
    CHECK_SCANF NEXUS_FMT_CKDF Msg.set_ckdf
    CHECK_SCANF NEXUS_FMT_CKDATA0 Msg.set_ckdata0
    let s ← Proc.get
    Proc.when (s.2.ckdf > 0) (CHECK_SCANF NEXUS_FMT_CKDATA1 Msg.set_ckdata1)
  | _ => pure ()

/-- `nexusrv_read_msg`. -/
def read_msg : Reader Unit := do
  CHECK_SCANF NEXUS_FMT_TIMESTAMP Msg.set_timestamp
  CHECK_SCANF NEXUS_FMT_TCODE Msg.set_tcode
  let s ← Proc.get
  if s.2.tcode = .Idle then pure ()
  else do
    CHECK_SCANF NEXUS_FMT_SRC Msg.set_src
    if common_tcode s.2 then read_common else read_rest s.2.tcode

/-! ## The programs -/

/-- The locals of `dump`, and what it wrote. -/
structure Dumper where
  decoder : MsgDecoder
  msgid : Nat
  total_bytes : Nat
  fp : List Char

/-- A line of `dump`: `"Msg #%zu +%zu "`, the message and a newline. -/
def dump_line (msgid offset : Nat) (m : Msg) : List Char :=
  "Msg #".toList ++ Nat.toDigits 10 msgid ++ (" +".toList ++ Nat.toDigits 10 offset) ++ (" ".toList ++ print_msg m ++ "\n".toList)

/-- The loop of `dump`. Every round but the last one takes a byte of the file. -/
def dump_loop (mem : Nat → Msg) : Nat → Proc Dumper NexusError Unit
  | 0 => Proc.assert false
  | fuel + 1 => fun s =>
    match msg_decoder_next (s.decoder, mem s.msgid) with
    | none => none
    | some (.error e, d, _) => some (.error e, { s with decoder := d })
    | some (.ok 0, d, _) => some (.ok (), { s with decoder := d })
    | some (.ok rc, d, m) =>
      dump_loop mem fuel ⟨d, s.msgid + 1, s.total_bytes + rc, s.fp ++ dump_line s.msgid (msg_decoder_offset d) m⟩

/-- `dump`: how it ends, and the text. -/
def dump (hwcfg : HwCfg) (S : List UInt8) (filter : Int16) (buffer : List UInt8) (mem : Nat → Msg) : Option (Except NexusError Unit × List Char) :=
  (dump_loop mem (S.length + 1) ⟨msg_decoder_init hwcfg ⟨S, []⟩ filter buffer buffer.length, 0, 0, []⟩).map fun r => (r.1, r.2.fp)

/-- Why `assemble` stops. -/
inductive AsmStop where
  | no_message
  | parse (e : NexusError)
  deriving DecidableEq

/-- The input and the output of `assemble`, and its locals. -/
structure Assembler where
  stdin : List Char
  msgid : Nat
  emitted : Nat
  fp : List UInt8

/-- `" Msg #%zu %ms"`. -/
def asm_format : List Directive := directives " Msg #".toList ++ [.number 10 64, .space, .word]

/-- A message that was read is encoded. After an error of the encoder the program goes on with a negative size, which is not defined. -/
def assemble_msg (hwcfg : HwCfg) (m : Msg) : Proc Assembler AsmStop Unit := fun s =>
  match msg_encode hwcfg (List.replicate NEXUS_RV_MSG_MAX_BYTES 0) NEXUS_RV_MSG_MAX_BYTES m with
  | some (.ok bytes, buffer) => some (.ok (), { s with emitted := s.emitted + bytes, fp := s.fp ++ buffer.take bytes })
  | _ => none

/-- The loop of `assemble`. Every round takes a character; `mem` is what the storage of a message holds, by the number of characters left. -/
def assemble_loop (hwcfg : HwCfg) (mem : Nat → Msg) : Nat → Proc Assembler AsmStop Unit
  | 0 => Proc.assert false
  | fuel + 1 => do
    let s ← Proc.get
    let r := scan asm_format s.stdin
    Proc.modify fun s => { s with stdin := r.rest }
    match r.values with
    | [] => if r.eof then pure () else Proc.fail .no_message
    | [.number msgid, .word _] => do
      Proc.modify fun s => { s with msgid := msgid }
      match read_msg (r.rest, mem r.rest.length) with
      | none => Proc.assert false
      | some (.error e, rest, _) => do
        Proc.modify fun s => { s with stdin := rest }
        Proc.fail (.parse e)
      | some (.ok (), rest, m) => do
        Proc.modify fun s => { s with stdin := rest }
        assemble_msg hwcfg m
        assemble_loop hwcfg mem fuel
    | _ => Proc.fail .no_message

/-- `assemble`: how it ends, and the bytes. -/
def assemble (hwcfg : HwCfg) (text : List Char) (mem : Nat → Msg) : Option (Except AsmStop Unit × List UInt8) :=
  (assemble_loop hwcfg mem (text.length + 1) ⟨text, 0, 0, []⟩).map fun r => (r.1, r.2.fp)

/-! ## What `assemble` makes of a dump -/

theorem scan_line {n : Nat} (hn : n < 2 ^ 64) {w s : List Char} (hne : w ≠ []) (hw : ∀ c ∈ w, isSpace c = false)
    (hs : ∀ c ∈ s.head?, isSpace c = true) :
    scan asm_format ("Msg #".toList ++ Nat.toDigits 10 n ++ (' ' :: (w ++ s))) = ⟨[.number n, .word w], false, s⟩ := by
  have hformat : asm_format = .space :: .char 'M' :: .char 's' :: .char 'g' :: .space :: .char '#' :: [.number 10 64, .space, .word] := rfl
  have htext : "Msg #".toList = ['M', 's', 'g', ' ', '#'] := rfl
  have hstop : Stops (' ' :: (w ++ s)) := fun c hc => by
    cases hc
    rfl
  have hword : ∀ c ∈ (w ++ s).head?, isSpace c = false := fun c hc => by
    rcases w with _ | ⟨x, xs⟩
    · exact absurd rfl hne
    · cases hc
      exact hw _ List.mem_cons_self
  rw [hformat, htext]
  simp only [List.cons_append, List.nil_append]
  rw [scan_no_space fun c hc => by cases hc; rfl, scan_char, scan_char, scan_char, scan_space _ fun c hc => by cases hc; rfl, scan_char,
    scan_number (by decide) (by decide) hn (by decide) hstop, scan_space _ hword, scan_word hne hw hs]
  rfl

theorem tcode_str_head (t : Tcode) : ∃ c cs, (tcode_str t).toList = c :: cs ∧ isSpace c = false ∧ c ≠ 'T' := by
  cases t with
  | other c hlt hne =>
    have hname : "Unknown".toList = 'U' :: "nknown".toList := by decide
    exact ⟨_, _, hname, by decide, by decide⟩
  | _ => refine ⟨_, _, rfl, ?_, ?_⟩ <;> decide

/-- The name of the TCODE is not the timestamp. -/
theorem read_name (t : Tcode) (s : List Char) (m : Msg) : ∃ rest, read_msg (' ' :: ((tcode_str t).toList ++ s), m) = some (.error .msg_missing_field, rest, m) := by
  obtain ⟨c, cs, hname, hspace, hT⟩ := tcode_str_head t
  have hformat : NEXUS_FMT_TIMESTAMP.scan = .space :: .char 'T' :: directives "ime=".toList ++ [.number 10 64] := rfl
  have hscan : scan NEXUS_FMT_TIMESTAMP.scan (' ' :: ((tcode_str t).toList ++ s)) = ⟨[], false, c :: (cs ++ s)⟩ := by
    rw [hformat, hname, List.cons_append, List.cons_append, List.cons_append, scan_space _ fun x hx => by cases hx; exact hspace, scan, if_neg hT]
  refine ⟨c :: (cs ++ s), Proc.bind_error ?_⟩
  simp only [CHECK_SCANF, Proc.get_bind_apply, hscan, Proc.modify_bind_apply, Proc.fail_apply]

/-- `assemble` fails on the first line of a dump. -/
theorem assemble_dumped (hwcfg : HwCfg) (offset : Nat) (m : Msg) (t : List Char) (mem : Nat → Msg) :
    ∃ out, assemble hwcfg (dump_line 0 offset m ++ t) mem = some (.error (.parse .msg_missing_field), out) := by
  have hword : ∀ c ∈ '+' :: Nat.toDigits 10 offset, isSpace c = false := by
    intro c hc
    rcases List.mem_cons.1 hc with rfl | hc
    · rfl
    · exact toDigits_no_space (by decide) (by decide) hc
  have hline : dump_line 0 offset m ++ t = "Msg #".toList ++ Nat.toDigits 10 0 ++ (' ' :: (('+' :: Nat.toDigits 10 offset) ++
      (' ' :: ((tcode_str m.tcode).toList ++ (print_fields m ++ "\n".toList ++ t))))) := by
    simp [dump_line, print_msg]
  have hscan := scan_line (n := 0) (by decide) (List.cons_ne_nil _ _) hword (s := ' ' :: ((tcode_str m.tcode).toList ++
    (print_fields m ++ "\n".toList ++ t))) fun c hc => by cases hc; rfl
  obtain ⟨rest, hread⟩ := read_name m.tcode (print_fields m ++ "\n".toList ++ t)
    (mem (' ' :: ((tcode_str m.tcode).toList ++ (print_fields m ++ "\n".toList ++ t))).length)
  rw [assemble, hline, assemble_loop]
  simp only [Proc.get_bind_apply, Proc.modify_bind_apply, hscan, hread, Proc.fail_apply, Option.map_some]
  exact ⟨_, rfl⟩

/-! ## A stream through both programs -/

/-- The stream `S` is made of encoded messages. -/
inductive Encoded (hwcfg : HwCfg) : List UInt8 → List Msg → Prop where
  | nil : Encoded hwcfg [] []
  | cons {buffer buffer' S : List UInt8} {limit n : Nat} {m : Msg} {ms : List Msg} : limit ≤ buffer.length →
      msg_encode hwcfg buffer limit m = some (.ok n, buffer') → Encoded hwcfg S ms → Encoded hwcfg (buffer'.take n ++ S) (m :: ms)

/-- The text of a dump is accepted, and the bytes that are emitted are read as the messages of the stream. -/
def Reassembles (hwcfg : HwCfg) (S buffer : List UInt8) (mem mem' : Nat → Msg) : Prop :=
  ∃ text out ms ms', dump hwcfg S (-1) buffer mem = some (.ok (), text) ∧ assemble hwcfg text mem' = some (.ok (), out) ∧
    Decodes hwcfg S ms [] ∧ Decodes hwcfg out ms' [] ∧ List.Forall₂ (fun a b => a.2.Same b.2) ms ms'

section Programs
variable {hwcfg : HwCfg} {S buffer : List UInt8} {ms : List Msg} {mem mem' : Nat → Msg} {text : List Char}

theorem frame_ne_nil (hwcfg : HwCfg) (m : Msg) : frame (groups (layout hwcfg m)) ≠ [] := by
  intro hnil
  have hlen := (groupBytes_length (layout hwcfg m)).2
  have hmono := bitLen_mono [.field 6 m.tcode.code] (Token.opt (m.tcode ≠ .Idle) (bodyLayout hwcfg m))
  have h6 : bitLen (groups [.field 6 m.tcode.code]) = 6 := by simp [groups, bitLen, closedBytes, Fields.width]
  have hzero := congrArg List.length hnil
  rw [frame, endMark_length, List.length_nil] at hzero
  change _ ≤ bitLen (groups (layout hwcfg m)) at hmono
  omega

theorem encode_ne_nil {buffer' : List UInt8} {limit n : Nat} {m : Msg} (hlim : limit ≤ buffer.length)
    (h : msg_encode hwcfg buffer limit m = some (.ok n, buffer')) : buffer'.take n ≠ [] := by
  have henc : encodable m = true := by
    by_cases hict : m.tcode = .ICT
    · exact ict_encodable hict h
    · exact encodable_of_encode h hict
  obtain ⟨hn, hbuf⟩ := msg_encode_take hlim henc h
  rw [hbuf, ← hn, List.take_left]
  exact frame_ne_nil hwcfg m

theorem dump_loop_appends (fuel : Nat) : ∀ {s s' : Dumper}, dump_loop mem fuel s = some (.ok (), s') → ∃ t, s'.fp = s.fp ++ t := by
  induction fuel with
  | zero => exact fun h => nomatch h
  | succ fuel ih =>
    intro s s' h
    unfold dump_loop at h
    split at h
    · cases h
    · cases h
    · cases h
      exact ⟨[], (List.append_nil _).symm⟩
    · obtain ⟨t, ht⟩ := ih h
      exact ⟨_, ht.trans (List.append_assoc _ _ _)⟩

/-- The text of a dump is empty, or starts with the line of the first message. -/
theorem dump_first {filter : Int16} (h : dump hwcfg S filter buffer mem = some (.ok (), text)) :
    text = [] ∨ ∃ offset m t, text = dump_line 0 offset m ++ t := by
  obtain ⟨⟨r, s'⟩, hrun, heq⟩ := Option.map_eq_some_iff.1 h
  cases heq
  unfold dump_loop at hrun
  split at hrun
  · cases hrun
  · cases hrun
  · cases hrun
    exact .inl rfl
  · obtain ⟨t, ht⟩ := dump_loop_appends _ hrun
    exact .inr ⟨_, _, t, ht⟩

theorem assemble_nothing (hwcfg : HwCfg) (mem : Nat → Msg) : assemble hwcfg [] mem = some (.ok (), []) := rfl

theorem dump_nothing (hwcfg : HwCfg) (buffer : List UInt8) (mem : Nat → Msg) : dump hwcfg [] (-1) buffer mem = some (.ok (), []) := by
  have hfits : Fits buffer.length [] := ⟨fun f hf => (nomatch hf), fun h => absurd rfl h⟩
  obtain ⟨d', m', hnext⟩ := (init_streams hwcfg hfits).eof rfl (mem 0)
  rw [dump, dump_loop]
  simp only [hnext, Option.map_some]

theorem reassembles_nil (h : Encoded hwcfg S ms) (hre : Reassembles hwcfg S buffer mem mem') : ms = [] := by
  obtain ⟨text, out, qs, qs', hdump, hasm, hS, hout, hsame⟩ := hre
  rcases dump_first hdump with rfl | ⟨offset, m, t, rfl⟩
  · rw [assemble_nothing] at hasm
    cases hasm
    have hle := hout.length_le
    rw [← hsame.length_eq, List.length_nil] at hle
    rw [List.eq_nil_of_length_eq_zero (Nat.le_zero.1 hle)] at hS
    have hnil := hS.of_nil
    cases h with
    | nil => rfl
    | cons hlim henc _ => exact absurd (List.append_eq_nil_iff.1 hnil).1 (encode_ne_nil hlim henc)
  · obtain ⟨out', herr⟩ := assemble_dumped hwcfg offset m t mem'
    rw [herr] at hasm
    cases hasm

theorem nil_reassembles (h : Encoded hwcfg S []) : Reassembles hwcfg S buffer mem mem' := by
  cases h
  exact ⟨[], [], [], [], dump_nothing hwcfg buffer mem, assemble_nothing hwcfg mem', .nil [], .nil [], .nil⟩

/-- `assemble` takes the offset that `dump` prints for the name of the TCODE, and then finds
the name where the timestamp should be: a dump is read back only if there are no messages. -/
theorem dump_assemble_iff (h : Encoded hwcfg S ms) (buffer : List UInt8) (mem mem' : Nat → Msg) :
    Reassembles hwcfg S buffer mem mem' ↔ ms = [] :=
  ⟨reassembles_nil h, fun hms => nil_reassembles (hms ▸ h)⟩

end Programs

theorem encoded_branch : Encoded ⟨0, 0, 0, 0, 0, false, false, false⟩ [0x0c, 0x17] [{ Msg.zero with tcode := .DirectBranch, icnt := 5 }] := by
  have henc : msg_encode ⟨0, 0, 0, 0, 0, false, false, false⟩ [0, 0] 2 { Msg.zero with tcode := .DirectBranch, icnt := 5 } =
      some (.ok 2, [0x0c, 0x17]) := by decide
  exact .cons (by decide) henc .nil

theorem dump_assemble_branch : let m : Msg := { Msg.zero with tcode := .DirectBranch, icnt := 5 }
    Reassembles ⟨0, 0, 0, 0, 0, false, false, false⟩ [0x0c, 0x17] [0, 0, 0] (fun _ => Msg.zero) (fun _ => Msg.zero) ↔ [m] = [] :=
  dump_assemble_iff encoded_branch _ _ _

/-- The dump of one DirectBranch message is not read back. -/
theorem dump_not_assembled : ¬ ∀ (hwcfg : HwCfg) (S buffer : List UInt8) (ms : List Msg) (mem mem' : Nat → Msg), hwcfg.src_bits ≤ 16 →
    Encoded hwcfg S ms → NEXUS_RV_MSG_MAX_BYTES ≤ buffer.length → Reassembles hwcfg S buffer mem mem' := by
  intro hall
  have hre := hall _ _ (List.replicate 38 0) _ (fun _ => Msg.zero) (fun _ => Msg.zero) (by decide) encoded_branch (by decide)
  exact absurd (reassembles_nil encoded_branch hre) (List.cons_ne_nil _ _)

end nexusrv
