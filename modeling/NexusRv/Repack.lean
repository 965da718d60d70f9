import NexusRv.ReadBack
import NexusRv.Reprint
import NexusRv.Sifting
/-!
# Assembling a listing of a trace

`assemble` reads the lines that `dump` writes, once the offset is left out of each, and writes a trace with the same messages, in no more
bytes. To whoever decodes or replays it, it is the trace that was listed.
-/

namespace nexusrv

open Scan

/-! ## Files with the same messages -/

/-- The messages of two files, up to the bytes that each takes. -/
abbrev SameMsgs (ms ms' : List (Nat × Msg)) : Prop := List.Forall₂ (fun q r => q.2.Same r.2) ms ms'

/-- Both are at the end, or none is. -/
def BothEnd (n n' : Nat) : Prop := n = 0 ↔ n' = 0

/-- Decoders in two files, before the same messages. -/
inductive Retold (hwcfg : HwCfg) (S S' : List UInt8) : MsgDecoder → MsgDecoder → Prop where
  | mk {d e : MsgDecoder} {p q : Nat} {ms ms' : List (Nat × Msg)} : Streams hwcfg S d p → Streams hwcfg S' e q →
      Decodes hwcfg (S.drop p) ms [] → Decodes hwcfg (S'.drop q) ms' [] → SameMsgs ms ms' → Retold hwcfg S S' d e

section Retold
variable {hwcfg : HwCfg} {S S' : List UInt8} {s t : TraceDecoder MsgDecoder}

theorem retold_pairs (hwcfg : HwCfg) (S S' : List UInt8) : msg_source.Pairs msg_source (Retold hwcfg S S') BothEnd fun _ => True := by
  apply Source.Pairs.of_lawful msg_source_lawful msg_source_lawful
  · exact id
  · rintro d e ⟨hd, he, -⟩
    exact ⟨hd.1.inv, he.1.inv⟩
  · rintro d e ⟨hd, he, -⟩
    exact hd.1.cfg.trans he.1.cfg.symm
  · rintro d e ⟨hd, he, hdec, hdec', hsame⟩ a b
    cases hsame with
    | nil =>
      obtain ⟨d', a', ha⟩ := hd.eof hdec.of_nil a
      obtain ⟨e', b', hb⟩ := he.eof hdec'.of_nil b
      obtain ⟨hd', d₀, hd₀, hback⟩ := hd.moves ha
      obtain ⟨he', e₀, he₀, hback'⟩ := he.moves hb
      refine ⟨.ok 0, .ok 0, _, _, ha, hb, .ok Iff.rfl, .mk hd' he' hdec hdec' .nil, ?_, fun _ _ => ?_⟩
      · -- no message is encoded_bytes
        intro n hn h
        cases hn
        rw [next_eof hd.1.inv hd.1.unfiltered ha, next_eof he.1.inv he.1.unfiltered hb]
        exact (h.resolve_left fun h0 => h0 rfl).1
      · exact ⟨d₀, e₀, hd₀, he₀, .mk hback hback' hdec hdec' .nil⟩
    | @cons q r ms ms' hm hms =>
      obtain ⟨n, m⟩ := q
      obtain ⟨n', m'⟩ := r
      obtain ⟨hread, hrest⟩ := hdec.of_cons
      obtain ⟨hread', hrest'⟩ := hdec'.of_cons
      rw [List.drop_drop] at hrest hrest'
      obtain ⟨d', a', -, ha, hsame, -⟩ := hd.next hread a
      obtain ⟨e', b', -, hb, hsame', -⟩ := he.next hread' b
      obtain ⟨hd', d₀, hd₀, hback⟩ := hd.moves ha
      obtain ⟨he', e₀, he₀, hback'⟩ := he.moves hb
      have hpos : BothEnd n n' := by
        have hn := hread.pos
        have hn' := hread'.pos
        unfold BothEnd
        omega
      refine ⟨.ok n, .ok n', _, _, ha, hb, .ok hpos, .mk hd' he' hrest hrest' hms, fun _ _ _ => ?_, fun _ _ => ?_⟩
      · exact hsame.trans (hm.trans hsame'.symm)
      · exact ⟨d₀, e₀, hd₀, he₀, .mk hback hback' hdec hdec' (.cons hm hms)⟩

theorem play_retold {max : Nat} (hmax : max < 2 ^ 31) (calls : List (Env × Env × Call)) (h : Twins (Retold hwcfg S S') (RetStack.Alike max) s t)
    (hroom : ∀ x ∈ calls, SameRoom x.1 x.2.1 ∧ x.1.msg2 = x.2.1.msg2) :
    SameCalls BothEnd (play msg_source (calls.map fun x => (x.1, x.2.2)) s) (play msg_source (calls.map fun x => (x.2.1, x.2.2)) t) := by
  have hrun := play_related (N := BothEnd) (K := fun calls s t => Twins (Retold hwcfg S S') (RetStack.Alike max) s t ∧
    ∀ x ∈ calls, SameRoom x.1 x.2.1 ∧ x.1.msg2 = x.2.1.msg2) ?_ calls ⟨h, hroom⟩
  · rcases hrun with hnone | ⟨rs, u, rs', v, hu, hv, hrs, hend, -⟩
    · exact .inl hnone
    · exact .inr ⟨rs, u, rs', v, hu, hv, hrs, by cases hend; rfl, hend.return_stack.contents_eq⟩
  · rintro env env' c calls s t ⟨h, hroom⟩
    obtain ⟨⟨halloc, hmem, hmem'⟩, hmsg2⟩ := hroom _ List.mem_cons_self
    rcases exec_paired (retold_pairs hwcfg S S') (fun _ => Iff.rfl) hmax h halloc hmem hmem' (.inr ⟨hmsg2, fun _ => trivial⟩) with
      hnone | ⟨r, u, r', v, hs, ht, hr, huv⟩
    · exact .inl hnone
    · exact .inr ⟨r, u, r', v, hs, ht, hr, huv, fun x hx => hroom x (List.mem_cons_of_mem _ hx)⟩

/-- The offsets of messages are not looked at. -/
def no_offset (_ : Nat) : Nat := 0

theorem retold_reprints (h : SameStack (Retold hwcfg S S') s t) (code : Code) (env : Nat → Nat → Env) (n : Nat) :
    printout no_offset (replay_rounds msg_source msg_decoder_offset code env 0 n (replay_start s)) =
      printout no_offset (replay_rounds msg_source msg_decoder_offset code env 0 n (replay_start t)) := by
  have hoffset : ∀ {d e : MsgDecoder}, Retold hwcfg S S' d e → no_offset (msg_decoder_offset d) = no_offset (msg_decoder_offset e) := fun _ => rfl
  have hstart : Abreast no_offset (Retold hwcfg S S') (replay_start s) (replay_start t) := .mk t [] h rfl
  exact (replay_rounds_reprints (retold_pairs hwcfg S S') hoffset (fun _ _ _ => trivial) n hstart).printout

end Retold

/-! ## A dump without its offsets -/

/-- The lines of a text without their third words, behind `k` blanks of the first line. -/
def cut_offsets : Nat → List Char → List Char
  | _, [] => []
  | k, c :: s =>
    let k' := if c = '\n' then 0 else if c = ' ' then k + 1 else k
    if k = 2 ∧ c ≠ '\n' then cut_offsets k' s else c :: cut_offsets k' s

/-- A line of `dump` without the offset. -/
def list_line (msgid : Nat) (m : Msg) : List Char := "Msg #".toList ++ Nat.toDigits 10 msgid ++ (' ' :: (print_msg m ++ ['\n']))

/-- The lines of the messages, numbered from `msgid`. -/
def listing (msgid : Nat) : List Msg → List Char
  | [] => []
  | m :: ms => list_line msgid m ++ listing (msgid + 1) ms

/-- The lines that `dump` writes of messages that start at `p`. -/
def dump_lines (msgid p : Nat) : List (Nat × Msg) → List Char
  | [] => []
  | (n, m) :: ms => dump_line msgid p m ++ dump_lines (msgid + 1) (p + n) ms

def OneLine (s : List Char) : Prop := ∀ c ∈ s, c ≠ '\n'

section Dump
variable {hwcfg : HwCfg} {S : List UInt8} {s t : List Char} {k : Nat}

theorem one_line_append : OneLine (s ++ t) ↔ OneLine s ∧ OneLine t := List.forall_mem_append

theorem one_line_digits (n : Nat) {base : Nat} (h1 : 1 < base) (hb : base ≤ 16) : OneLine (Nat.toDigits base n) := by
  rintro c hc rfl
  exact Bool.noConfusion (toDigits_no_space h1 hb hc)

theorem one_line_print {f : Format} (hf : f.plain = true) (v : Nat) : OneLine (f.print v) := by
  obtain ⟨c, p, htext, hspace, h1, hb, -⟩ := f.plain_text hf
  rw [Format.print, htext]
  refine one_line_append.2 ⟨?_, one_line_digits v h1 hb⟩
  rintro x hx rfl
  rcases List.mem_cons.1 hx with hx | hx
  · cases hx
  · exact Bool.noConfusion (hspace _ hx)

theorem one_line_if {f : Format} (hf : f.plain = true) (p : Bool) (v : Nat) : OneLine (print_if p (f.print v)) := by
  cases p
  · exact fun c hc => by cases hc
  · exact one_line_print hf v

theorem one_line_rest (m : Msg) : OneLine (print_rest m) := by
  unfold print_rest print_common
  cases m.tcode with
  | Idle => exact fun c hc => by cases hc
  | ResourceFull =>
    refine one_line_append.2 ⟨one_line_print rfl _, ?_⟩
    split
    · exact one_line_print rfl _
    · split
      · exact one_line_print rfl _
      · exact one_line_print rfl _
      · exact one_line_append.2 ⟨one_line_print rfl _, one_line_print rfl _⟩
  | _ => simp (disch := decide) [one_line_append, one_line_print, one_line_if]

theorem tcode_str_word (t : Tcode) : (tcode_str t).toList ≠ [] ∧ ∀ c ∈ (tcode_str t).toList, isSpace c = false := by
  have hword : (tcode_str t).toList.isEmpty = false ∧ (tcode_str t).toList.all (fun c => !isSpace c) = true := by
    cases t with
    | other c hlt hne =>
      have hname : tcode_str (.other c hlt hne) = "Unknown" := rfl
      rw [hname]
      exact ⟨rfl, rfl⟩
    | _ => exact ⟨rfl, rfl⟩
  constructor
  · intro hnil
    rw [hnil] at hword
    cases hword.1
  · intro c hc
    simpa using List.all_eq_true.1 hword.2 c hc

theorem one_line_msg (m : Msg) : OneLine (print_msg m) := by
  refine one_line_append.2 ⟨?_, one_line_append.2 ⟨one_line_print rfl _, one_line_append.2 ⟨one_line_print rfl _,
    one_line_append.2 ⟨one_line_if rfl _ _, one_line_rest m⟩⟩⟩⟩
  rintro c hc rfl
  exact Bool.noConfusion ((tcode_str_word m.tcode).2 _ hc)

theorem cut_word (hs : ∀ c ∈ s, isSpace c = false) : cut_offsets k (s ++ t) = if k = 2 then cut_offsets k t else s ++ cut_offsets k t := by
  induction s with
  | nil => simp
  | cons c s ih =>
    have hc := hs c List.mem_cons_self
    have hnl : c ≠ '\n' := by
      rintro rfl
      cases hc
    have hblank : c ≠ ' ' := by
      rintro rfl
      cases hc
    have ih := ih fun x hx => hs x (List.mem_cons_of_mem c hx)
    simp only [List.cons_append, cut_offsets, hnl, hblank, if_false, ih, ne_eq, not_false_eq_true, and_true]
    split <;> rfl

theorem cut_blank (s : List Char) : cut_offsets k (' ' :: s) = if k = 2 then cut_offsets 3 s else ' ' :: cut_offsets (k + 1) s := by
  by_cases h : k = 2
  · simp [cut_offsets, h]
  · simp [cut_offsets, h]

/-- Behind the offset a line is kept. -/
theorem cut_rest (hs : OneLine s) : ∀ {k : Nat}, 2 < k → cut_offsets k (s ++ '\n' :: t) = s ++ '\n' :: cut_offsets 0 t := by
  induction s with
  | nil =>
    intro k hk
    simp [cut_offsets]
  | cons c s ih =>
    intro k hk
    have hnl : c ≠ '\n' := hs c List.mem_cons_self
    have hk2 : ¬ k = 2 := by omega
    simp only [List.cons_append, cut_offsets, hnl, hk2, false_and, if_false]
    rw [ih (fun x hx => hs x (List.mem_cons_of_mem c hx))]
    split <;> omega

theorem cut_line (msgid offset : Nat) (m : Msg) (t : List Char) :
    cut_offsets 0 (dump_line msgid offset m ++ t) = list_line msgid m ++ cut_offsets 0 t := by
  have hnumber : ∀ (x : Char) (n : Nat), isSpace x = false → ∀ c ∈ x :: Nat.toDigits 10 n, isSpace c = false := by
    intro x n hx c hc
    rcases List.mem_cons.1 hc with rfl | hc
    · exact hx
    · exact toDigits_no_space (by decide) (by decide) hc
  have hline : dump_line msgid offset m ++ t = "Msg".toList ++ (' ' :: (('#' :: Nat.toDigits 10 msgid) ++
      (' ' :: (('+' :: Nat.toDigits 10 offset) ++ (' ' :: (print_msg m ++ '\n' :: t)))))) := by
    simp [dump_line]
  have hmsg : ∀ c ∈ "Msg".toList, isSpace c = false := by simp [isSpace]
  rw [hline, cut_word hmsg, if_neg (by decide), cut_blank, if_neg (by decide), cut_word (hnumber '#' msgid rfl), if_neg (by decide), cut_blank,
    if_neg (by decide), cut_word (hnumber '+' offset rfl), if_pos rfl, cut_blank, if_pos rfl, cut_rest (one_line_msg m) (by decide)]
  simp [list_line]

theorem cut_dump_lines (ms : List (Nat × Msg)) : ∀ msgid p : Nat, cut_offsets 0 (dump_lines msgid p ms) = listing msgid (ms.map Prod.snd) := by
  induction ms with
  | nil => exact fun _ _ => rfl
  | cons q ms ih =>
    intro msgid p
    rw [dump_lines, cut_line, ih]
    rfl

/-- `dump` writes a line for each message. -/
theorem dump_loop_lines (mem : Nat → Msg) (fuel : Nat) : ∀ (s : Dumper) {p : Nat} {ms : List (Nat × Msg)}, Streams hwcfg S s.decoder p →
    Decodes hwcfg (S.drop p) ms [] → (S.drop p).length < fuel →
    ∃ s', dump_loop mem fuel s = some (.ok (), s') ∧ s'.fp = s.fp ++ dump_lines s.msgid p ms := by
  induction fuel with
  | zero => exact fun _ _ _ _ _ h => absurd h (Nat.not_lt_zero _)
  | succ fuel ih =>
    intro s p ms hd hdec hfuel
    rw [dump_loop]
    rcases ms with _ | ⟨⟨n, m⟩, ms⟩
    · obtain ⟨d', a, ha⟩ := hd.eof hdec.of_nil (mem s.msgid)
      simp only [ha]
      exact ⟨_, rfl, (List.append_nil s.fp).symm⟩
    · obtain ⟨hread, hrest⟩ := hdec.of_cons
      rw [List.drop_drop] at hrest
      have hle := hread.le.1
      obtain ⟨k, rfl⟩ := Nat.exists_eq_succ_of_ne_zero (Nat.ne_of_gt hread.pos)
      obtain ⟨d', a, -, ha, hsame, hd', hoffset, -⟩ := hd.next hread (mem s.msgid)
      simp only [ha]
      have hlen : (S.drop (p + (k + 1))).length < fuel := by
        rw [List.length_drop] at hfuel hle ⊢
        omega
      obtain ⟨s', hrun, hfp⟩ := ih ⟨d', s.msgid + 1, s.total_bytes + (k + 1), s.fp ++ dump_line s.msgid p m⟩ hd' hrest hlen
      have hline : dump_line s.msgid (msg_decoder_offset d') a = dump_line s.msgid p m := by rw [dump_line, dump_line, hoffset, hsame.print]
      refine ⟨s', ?_, ?_⟩
      · rw [hline]
        exact hrun
      · rw [hfp, List.append_assoc]
        rfl

theorem dump_listed {ms : List (Nat × Msg)} (h : Decodes hwcfg S ms []) {buffer : List UInt8} (hsize : ∀ q ∈ ms, q.1 ≤ buffer.length)
    (mem : Nat → Msg) : dump hwcfg S (-1) buffer mem = some (.ok (), dump_lines 0 0 ms) := by
  obtain ⟨s, hrun, hfp⟩ := dump_loop_lines mem (S.length + 1) ⟨msg_decoder_init hwcfg ⟨S, []⟩ (-1) buffer buffer.length, 0, 0, []⟩
    (init_streams hwcfg (h.fits hsize)) h (Nat.lt_succ_self _)
  rw [List.nil_append] at hfp
  rw [dump, hrun, Option.map_some, hfp]

end Dump

section Listing

theorem print_fields_space (m : Msg) (s : List Char) : ∀ c ∈ (print_fields m ++ s).head?, isSpace c = true := by
  intro c hc
  cases hc
  rfl

theorem scan_list_line {msgid : Nat} (hlt : msgid < 2 ^ 64) (m : Msg) (s : List Char) :
    scan asm_format (list_line msgid m ++ s) = ⟨[.number msgid, .word (tcode_str m.tcode).toList], false, print_fields m ++ '\n' :: s⟩ := by
  obtain ⟨hne, hword⟩ := tcode_str_word m.tcode
  rw [← scan_line hlt hne hword (print_fields_space m _)]
  simp [list_line, print_msg]

/-- White space in front of a line is skipped. -/
theorem scan_newline (s : List Char) : scan asm_format ('\n' :: s) = scan asm_format s := rfl

/-- The lines are read as the messages, up to what the text does not hold of them. -/
theorem text_msgs_listing (mem : Nat → Msg) : ∀ {ms : List Msg} {k : Nat}, (∀ m ∈ ms, msg_known m = true ∧ m.tcode ≠ .DataAcquisition) →
    k + ms.length ≤ 2 ^ 64 → ∀ s, scan asm_format s = scan asm_format (listing k ms) →
      ∃ rs, TextMsgs mem s rs (.ok ()) ∧ List.Forall₂ Restored ms rs := by
  intro ms
  induction ms with
  | nil =>
    intro k _ _ s hs
    refine ⟨[], .eof ?_ ?_, .nil⟩
    · rw [hs]
      rfl
    · rw [hs]
      rfl
  | cons m ms ih =>
    intro k hms hlen s hs
    rw [List.length_cons] at hlen
    rw [listing, scan_list_line (by omega)] at hs
    obtain ⟨hknown, hdata⟩ := hms m List.mem_cons_self
    obtain ⟨r, hread, hr⟩ := (consumes_fields hknown hdata (a := mem (print_fields m ++ '\n' :: listing (k + 1) ms).length)).reads
      (t := '\n' :: listing (k + 1) ms) (by intro c hc; cases hc; rfl)
    obtain ⟨rs, hrs, hall⟩ := ih (k := k + 1) (fun x hx => hms x (List.mem_cons_of_mem m hx)) (by omega) _ (scan_newline _)
    refine ⟨r :: rs, .cons (by rw [hs]) ?_ hrs, .cons hr hall⟩
    rw [hs]
    exact hread

end Listing

/-! ## The trace that is written -/

section Assembled
variable {hwcfg : HwCfg} {m r : Msg}

theorem Restored.src (h : Restored m r) (hidle : m.tcode ≠ .Idle) : r.src.toNat = m.src.toNat := by
  obtain ⟨-, ht, hc⟩ := h
  cases htc : m.tcode with
  | Idle => exact absurd htc hidle
  | _ =>
    simp only [Msg.carried, ht, htc, List.cons.injEq] at hc
    exact hc.1

theorem Restored.common_layout (h : Restored m r) (hcommon : common_tcode m = true) : commonLayout hwcfg r = commonLayout hwcfg m := by
  obtain ⟨-, ht, hc⟩ := h
  cases htc : m.tcode <;> simp [common_tcode, htc] at hcommon
  all_goals simp_all [Msg.carried, commonLayout, msg_is_sync, msg_is_indir_branch, msg_has_xaddr, msg_has_hist, Token.opt]

theorem Restored.rest_layout (h : Restored m r) (hrec : recodable m = true) : restLayout r = restLayout m := by
  obtain ⟨-, ht, hc⟩ := h
  cases htc : m.tcode with
  | ResourceFull =>
    simp only [Msg.carried, ht, htc, List.cons.injEq] at hc
    obtain ⟨-, hcode, hc⟩ := hc
    simp only [restLayout, ht, htc]
    rw [hcode] at hc ⊢
    rcases hm : m.res_code with _ | _ | _ | c <;> rw [hm] at hc <;> simp_all
  | ProgTraceCorrelation =>
    simp only [Msg.carried, ht, htc, List.cons.injEq] at hc
    obtain ⟨-, hstop, hcdf, hicnt, hc⟩ := hc
    have hle : m.cdf < 2 := by simpa [recodable, encodable, msg_known, htc] using hrec
    simp only [restLayout, ht, htc]
    rw [hstop, hcdf, hicnt]
    rw [hcdf] at hc
    by_cases h1 : m.cdf = 1
    · simp_all
    · have h0 : m.cdf = 0 := by omega
      simp [h0, Token.opt]
  | ICT =>
    have hckdf : m.ckdf > 0 := by
      simp [recodable, htc] at hrec
      exact hrec.2
    simp only [Msg.carried, ht, htc, List.cons.injEq] at hc
    obtain ⟨-, hcksrc, hckdf', hckdata0, hc⟩ := hc
    rw [hckdf', if_pos hckdf, if_pos hckdf, List.cons.injEq] at hc
    simp only [restLayout, ht, htc, hcksrc, hckdf', hckdata0, hc.1]
  | _ => simp_all [Msg.carried, restLayout]

/-- A message that is restored is encoded the same way. -/
theorem Restored.layout (h : Restored m r) (hrec : recodable m = true) : layout hwcfg r = layout hwcfg m := by
  by_cases hidle : m.tcode = .Idle
  · simp [nexusrv.layout, h.2.1, hidle, Token.opt]
  · have hcommon : common_tcode r = common_tcode m := by rw [common_tcode, common_tcode, h.2.1]
    have htime : timestampLayout hwcfg r = timestampLayout hwcfg m := by rw [timestampLayout, timestampLayout, msg_is_sync, msg_is_sync, h.1, h.2.1]
    rw [nexusrv.layout, nexusrv.layout, bodyLayout, bodyLayout, h.2.1, h.src hidle, htime, hcommon]
    by_cases hc : common_tcode m = true
    · rw [if_pos hc, if_pos hc, h.common_layout hc]
    · rw [if_neg hc, if_neg hc, h.rest_layout hrec]

/-- The bytes that the encoder writes of a message. -/
def encoded_bytes (hwcfg : HwCfg) (m : Msg) : List UInt8 := frame (groups (nexusrv.layout hwcfg m))

theorem encoded_bytes_length (hsrc : hwcfg.src_bits ≤ 16) (m : Msg) : (encoded_bytes hwcfg m).length ≤ NEXUS_RV_MSG_MAX_BYTES := by
  have hbits := reaches_bitLen (reaches_layout m hsrc)
  have hbytes := (groupBytes_length (nexusrv.layout hwcfg m)).1
  rw [encoded_bytes, frame, endMark_length, NEXUS_RV_MSG_MAX_BYTES]
  omega

theorem encode_encodable (hsrc : hwcfg.src_bits ≤ 16) (henc : encodable m = true) :
    msg_encode hwcfg (List.replicate NEXUS_RV_MSG_MAX_BYTES 0) NEXUS_RV_MSG_MAX_BYTES m = some (.ok (encoded_bytes hwcfg m).length,
      encoded_bytes hwcfg m ++ (List.replicate NEXUS_RV_MSG_MAX_BYTES 0).drop (encoded_bytes hwcfg m).length) := by
  have hbuf : NEXUS_RV_MSG_MAX_BYTES ≤ (List.replicate NEXUS_RV_MSG_MAX_BYTES (0 : UInt8)).length := by simp
  have hspec := msg_encode_spec hbuf hwcfg m henc
  dsimp only at hspec
  rw [← encoded_bytes] at hspec
  rw [if_pos (encoded_bytes_length hsrc m)] at hspec
  exact hspec

theorem Restored.encoding (hsrc : hwcfg.src_bits ≤ 16) (h : Restored m r) (hrec : recodable m = true) :
    encoding hwcfg r = some (encoded_bytes hwcfg m) := by
  have hrec' : recodable r = true := (recodable_of_carried h.2.1 h.2.2).trans hrec
  have henc : encodable r = true := (Bool.and_eq_true_iff.1 hrec').1
  rw [nexusrv.encoding, encode_encodable hsrc henc, encoded_bytes, encoded_bytes, h.layout hrec]
  simp

theorem Msg.Same.restored {a b : Msg} (h : a.Same b) : Restored b a := ⟨h.2.1, h.1, h.2.2.1⟩

/-- A message that was read from `n` bytes is written in no more, and read from them. -/
theorem Reads.encoded {bs : List UInt8} {n : Nat} (hsrc : hwcfg.src_bits ≤ 16) (h : Reads hwcfg bs n m) (hrec : recodable m = true) :
    (encoded_bytes hwcfg m).length ≤ n ∧ ∀ rest, Reads hwcfg (encoded_bytes hwcfg m ++ rest) (encoded_bytes hwcfg m).length m := by
  obtain ⟨m', hdec, hsame⟩ := h Msg.zero
  have hback : Restored m m' := hsame.restored
  have hrec' : recodable m' = true := (recodable_of_carried hback.2.1 hback.2.2).trans hrec
  have hlayout : encoded_bytes hwcfg m' = encoded_bytes hwcfg m := by rw [encoded_bytes, encoded_bytes, hback.layout hrec]
  obtain ⟨hroom, hfit, hts, hw⟩ := decoded_fits hdec hrec'
  rw [← hlayout]
  refine ⟨hroom, fun rest m₀ => ?_⟩
  have henc := encode_encodable hsrc (Bool.and_eq_true_iff.1 hrec').1
  obtain ⟨m'', hdec', hsame'⟩ := recoded (by simp) hsrc hrec' hfit hts hw henc rest m₀
  rw [List.take_left] at hdec'
  exact ⟨m'', hdec', hsame'.trans hsame⟩

theorem accepted_restored (hwcfg : HwCfg) (hsrc : hwcfg.src_bits ≤ 16) {ms rs : List Msg} (h : List.Forall₂ Restored ms rs)
    (hrec : ∀ m ∈ ms, recodable m = true) : (∀ r ∈ rs, (encoding hwcfg r).isSome = true) ∧ accepted hwcfg rs = ms.map (encoded_bytes hwcfg) := by
  induction h with
  | nil =>
    refine ⟨?_, rfl⟩
    intro r hr
    cases hr
  | @cons m r ms rs hr _ ih =>
    obtain ⟨hall, hacc⟩ := ih fun x hx => hrec x (List.mem_cons_of_mem m hx)
    have henc := hr.encoding hsrc (hrec m List.mem_cons_self)
    constructor
    · intro x hx
      rcases List.mem_cons.1 hx with rfl | hx
      · rw [henc]
        rfl
      · exact hall x hx
    · rw [accepted, henc, hacc]
      rfl

/-- The trace that is written has the messages of the one that was listed, and is no longer. -/
theorem Decodes.encoded {S : List UInt8} {ms : List (Nat × Msg)} (hsrc : hwcfg.src_bits ≤ 16) (h : Decodes hwcfg S ms [])
    (hrec : ∀ q ∈ ms, recodable q.2 = true) : (∀ q ∈ ms, (encoded_bytes hwcfg q.2).length ≤ q.1) ∧
      (ms.map fun q => encoded_bytes hwcfg q.2).flatten.length ≤ S.length ∧
      Decodes hwcfg (ms.map fun q => encoded_bytes hwcfg q.2).flatten (ms.map fun q => ((encoded_bytes hwcfg q.2).length, q.2)) [] := by
  generalize hr : ([] : List UInt8) = rest at h
  induction h with
  | nil bs =>
    subst hr
    refine ⟨?_, Nat.zero_le _, .nil _⟩
    intro q hq
    cases hq
  | @cons bs rest n m ms hread _ ih =>
    subst hr
    obtain ⟨hle, hlen, hdec⟩ := ih (fun q hq => hrec q (List.mem_cons_of_mem _ hq)) rfl
    obtain ⟨hroom, hback⟩ := hread.encoded hsrc (hrec _ List.mem_cons_self)
    have hbytes := hread.le.1
    refine ⟨?_, ?_, .cons (hback _) ?_⟩
    · intro q hq
      rcases List.mem_cons.1 hq with rfl | hq
      · exact hroom
      · exact hle q hq
    · rw [List.length_drop] at hlen
      simp only [List.map_cons, List.flatten_cons, List.length_append]
      omega
    · rw [List.map_cons, List.flatten_cons, List.drop_left]
      exact hdec

/-- The listing of a trace is assembled to the bytes that the encoder writes of its messages. -/
theorem assemble_listing {ms : List Msg} (hsrc : hwcfg.src_bits ≤ 16) (hrec : ∀ m ∈ ms, recodable m = true) (hlen : ms.length ≤ 2 ^ 64)
    (mem : Nat → Msg) : assemble hwcfg (listing 0 ms) mem = some (.ok (), (ms.map (encoded_bytes hwcfg)).flatten) := by
  have hreadable : ∀ m ∈ ms, msg_known m = true ∧ m.tcode ≠ .DataAcquisition := by
    intro m hm
    have henc : encodable m = true := (Bool.and_eq_true_iff.1 (hrec m hm)).1
    unfold encodable at henc
    cases htc : m.tcode <;> simp_all
  obtain ⟨rs, hmsgs, hrs⟩ := text_msgs_listing mem (k := 0) hreadable (by simpa using hlen) _ rfl
  obtain ⟨hall, hacc⟩ := accepted_restored hwcfg hsrc hrs hrec
  obtain ⟨a, hrun, hfp⟩ := mode_loop_accepted false hmsgs hall (Nat.lt_succ_self _) ⟨_, 0, 0, []⟩ rfl
  rw [← assemble_mode_binary, assemble_mode, hrun]
  simp [hfp, hacc, emit, Function.comp_def]

end Assembled

/-- The dump of a trace, without its offsets, is assembled to a trace in no more bytes, that is the same to the trace decoder and to the replayer,
up to the offsets of its messages. -/
theorem reassembled_is_same {hwcfg : HwCfg} {S : List UInt8} {ms : List (Nat × Msg)} (hsrc : hwcfg.src_bits ≤ 16) (hmax : hwcfg.max_stack < 2 ^ 31)
    (hdec : Decodes hwcfg S ms []) (hrec : ∀ q ∈ ms, recodable q.2 = true) (hlen : ms.length ≤ 2 ^ 64) (buffer : List UInt8)
    (hsize : ∀ q ∈ ms, q.1 ≤ buffer.length) (mem mem' : Nat → Msg) :
    ∃ text S', dump hwcfg S (-1) buffer mem = some (.ok (), text) ∧ assemble hwcfg (cut_offsets 0 text) mem' = some (.ok (), S') ∧
      S'.length ≤ S.length ∧ ∀ (old new : List UInt8), (∀ q ∈ ms, q.1 ≤ old.length) → (∀ q ∈ ms, min q.1 NEXUS_RV_MSG_MAX_BYTES ≤ new.length) →
        ∀ {s t : TraceDecoder MsgDecoder} {env : Env},
        trace_decoder_init msg_source env (msg_decoder_init hwcfg ⟨S, []⟩ (-1) old old.length) = .ok s →
        trace_decoder_init msg_source env (msg_decoder_init hwcfg ⟨S', []⟩ (-1) new new.length) = .ok t →
        (∀ calls : List (Env × Env × Call), (∀ x ∈ calls, SameRoom x.1 x.2.1 ∧ x.1.msg2 = x.2.1.msg2) →
          SameCalls BothEnd (play msg_source (calls.map fun x => (x.1, x.2.2)) s) (play msg_source (calls.map fun x => (x.2.1, x.2.2)) t)) ∧
        ∀ (code : Code) (env : Nat → Nat → Env) (n : Nat),
          printout no_offset (replay_rounds msg_source msg_decoder_offset code env 0 n (replay_start s)) =
            printout no_offset (replay_rounds msg_source msg_decoder_offset code env 0 n (replay_start t)) := by
  have hrec' : ∀ m ∈ ms.map Prod.snd, recodable m = true := by
    intro m hm
    obtain ⟨q, hq, rfl⟩ := List.mem_map.1 hm
    exact hrec q hq
  obtain ⟨hle, hshort, hdec'⟩ := hdec.encoded hsrc hrec
  refine ⟨_, _, dump_listed hdec hsize mem, ?_, hshort, ?_⟩
  · rw [cut_dump_lines, assemble_listing hsrc hrec' (by simpa using hlen), List.map_map]
    rfl
  intro old new hold hnew s t env hs ht
  have hfits : Fits new.length (ms.map fun q => encoded_bytes hwcfg q.2).flatten := by
    apply hdec'.fits
    intro r hr
    obtain ⟨q, hq, rfl⟩ := List.mem_map.1 hr
    exact (Nat.le_min.2 ⟨hle q hq, encoded_bytes_length hsrc q.2⟩).trans (hnew q hq)
  have hretold : Retold hwcfg S (ms.map fun q => encoded_bytes hwcfg q.2).flatten (msg_decoder_init hwcfg ⟨S, []⟩ (-1) old old.length)
      (msg_decoder_init hwcfg ⟨(ms.map fun q => encoded_bytes hwcfg q.2).flatten, []⟩ (-1) new new.length) := by
    refine .mk (init_streams hwcfg (hdec.fits hold)) (init_streams hwcfg hfits) hdec hdec' ?_
    exact List.forall₂_map_right_iff.2 (List.forall₂_same.2 fun q _ => .refl q.2)
  exact ⟨fun calls hroom => play_retold hmax calls (init_twins hs ht rfl hretold) hroom,
    retold_reprints (init_same_stack hs ht rfl hretold)⟩

/-- A sync message, and a branch whose I-CNT was padded. -/
def padded_bytes : List UInt8 := [0x24, 0x01, 0x07, 0x0c, 0x14, 0x03]

theorem reassembled_is_same_two : ∃ (text : List Char) (S' : List UInt8) (s t : TraceDecoder MsgDecoder),
    dump plain_cfg padded_bytes (-1) [0, 0, 0] (fun _ => Msg.zero) = some (.ok (), text) ∧
    assemble plain_cfg (cut_offsets 0 text) (fun _ => Msg.zero) = some (.ok (), S') ∧ S'.length ≤ padded_bytes.length ∧
    SameCalls BothEnd (play msg_source [(roomy_env, .sync_reset), (roomy_env, .skip)] s)
      (play msg_source [(roomy_env, .sync_reset), (roomy_env, .skip)] t) ∧
    printout no_offset (replay_rounds msg_source msg_decoder_offset ret_code (fun _ _ => roomy_env) 0 2 (replay_start s)) =
      printout no_offset (replay_rounds msg_source msg_decoder_offset ret_code (fun _ _ => roomy_env) 0 2 (replay_start t)) := by
  have hread : ∀ {bs : List UInt8} {n : Nat} {m : Msg}, msg_decode plain_cfg bs Msg.zero = some (.ok n, m) → Reads plain_cfg bs n m := by
    intro bs n m h
    have h := reads_of_decode h []
    rwa [List.append_nil] at h
  have hdec : Decodes plain_cfg padded_bytes [(3, { Msg.zero with tcode := .ProgTraceSync, xaddr := 1 }),
      (3, { Msg.zero with tcode := .DirectBranch, icnt := 5 })] [] :=
    .cons (hread (by decide)) (.cons (hread (by decide)) (.nil _))
  have hinit : ∀ d : MsgDecoder, d.hw_cfg = plain_cfg → trace_decoder_init msg_source roomy_env d =
      .ok ⟨d, [], 0, 0, 0, 0, false, false, Msg.zero, 0, 0, ⟨[], 0, 0, 0, 0⟩⟩ := by
    intro d hd
    simp only [trace_decoder_init, msg_source, hd]
    rfl
  obtain ⟨text, S', hdump, hasm, hlen, hsame⟩ := reassembled_is_same (by decide) (by decide) hdec (by decide) (by decide) [0, 0, 0] (by decide)
    (fun _ => Msg.zero) fun _ => Msg.zero
  obtain ⟨hcalls, hprint⟩ := hsame [0, 0, 0] [0, 0, 0] (by decide) (by decide) (hinit _ rfl) (hinit _ rfl)
  refine ⟨text, S', _, _, hdump, hasm, hlen, hcalls [(roomy_env, roomy_env, .sync_reset), (roomy_env, roomy_env, .skip)] ?_, hprint _ _ _⟩
  intro x hx
  have henv : x.1 = roomy_env ∧ x.2.1 = roomy_env := by
    rcases List.mem_pair.1 hx with rfl | rfl
    · exact ⟨rfl, rfl⟩
    · exact ⟨rfl, rfl⟩
  rw [henv.1, henv.2]
  exact ⟨⟨rfl, fun _ => rfl, fun _ => rfl⟩, rfl⟩

end nexusrv
