import NexusRv.Text
import NexusRv.Lib.Delimit
/-!
# Finding the next message

Every encoded message ends with the one byte whose MSEO is 3, so a reader that is dropped
into a stream of them finds the end of a message in either direction, and decodes from there
on what was encoded. SRC is cut to its width in the stream; that leaves the bytes of a
message as they are.
-/

namespace nexusrv

open Fields Delimit

/-! ## The code -/

/-- The byte ends a message. -/
def ends_msg (b : UInt8) : Bool := mseo b = 3

/-- The loop of `nexusrv_sync_forward`. -/
def nexusrv_sync_forward_loop : List UInt8 → Nat → Except NexusError Nat
  | [], _ => .error .stream_truncate
  | b :: rest, consumed => if mseo b = 3 then .ok (consumed + 1) else nexusrv_sync_forward_loop rest (consumed + 1)

/-- The number of bytes up to the next message, of the bytes in `buffer`. -/
def nexusrv_sync_forward (buffer : List UInt8) : Except NexusError Nat := nexusrv_sync_forward_loop buffer 0

/-- Where the last message ends in front of `pos`. -/
def nexusrv_sync_backward (buffer : List UInt8) : Nat → Except NexusError Nat
  | 0 => .error .stream_truncate
  | consumed + 1 => if mseo (buffer.getD consumed 0) = 3 then .ok (consumed + 1) else nexusrv_sync_backward buffer consumed

theorem sync_forward_loop_eq (buffer : List UInt8) (consumed : Nat) : nexusrv_sync_forward_loop buffer consumed =
    match buffer.findIdx? ends_msg with
    | some i => .ok (consumed + (i + 1))
    | none => .error .stream_truncate := by
  induction buffer generalizing consumed with
  | nil => rfl
  | cons b rest ih =>
    unfold nexusrv_sync_forward_loop
    rw [List.findIdx?_cons, ih]
    by_cases hb : mseo b = 3
    · simp [ends_msg, hb]
    · simp only [ends_msg, hb, if_false, decide_false, Bool.false_eq_true]
      cases rest.findIdx? ends_msg with
      | none => rfl
      | some i =>
        simp only [Option.map_some, Except.ok.injEq]
        omega

/-! ## The frame of a message -/

/-- `f` is what the encoder writes for `m`. -/
def IsEncoding (hwcfg : HwCfg) (f : List UInt8) (m : Msg) : Prop :=
  ∃ (buffer buffer' : List UInt8) (limit n : Nat), limit ≤ buffer.length ∧ msg_encode hwcfg buffer limit m = some (.ok n, buffer') ∧ f = buffer'.take n

section Frame
variable {hwcfg : HwCfg} {m : Msg} {f rest : List UInt8} {m₀ : Msg}

/-- A frame depends on the widths and numbers of its groups only. -/
theorem frame_congr {gs gs' : List (List Field)} (h : gs.map (fun g => (width g, pack g)) = gs'.map fun g => (width g, pack g)) :
    frame gs = frame gs' := by
  have hframe : ∀ gs : List (List Field), frame gs = endMark 3
      ((((gs.map fun g => (width g, pack g)).dropLast.map fun p => endMark 1 (bitBytes p.1 p.2)).flatten) ++
        bitBytes (((gs.map fun g => (width g, pack g)).getLast?.getD (0, 0)).1) (((gs.map fun g => (width g, pack g)).getLast?.getD (0, 0)).2)) := by
    intro gs
    have hlast : (gs.map fun g => (width g, pack g)).getLast?.getD (0, 0) = (width (gs.getLast?.getD []), pack (gs.getLast?.getD [])) := by
      rw [List.getLast?_map]
      cases gs.getLast? <;> rfl
    rw [hlast, ← List.map_dropLast, List.map_map]
    rfl
  rw [hframe, hframe, h]

/-- SRC, as it is sent. -/
def sent_src (hwcfg : HwCfg) (m : Msg) : Msg := m.set_src (m.src.toNat % 2 ^ hwcfg.src_bits)

theorem sent_src_toNat (hwcfg : HwCfg) (m : Msg) : (sent_src hwcfg m).src.toNat = m.src.toNat % 2 ^ hwcfg.src_bits := by
  have hlt : m.src.toNat % 2 ^ hwcfg.src_bits < 2 ^ 16 := Nat.lt_of_le_of_lt (Nat.mod_le _ _) m.src.toNat_lt
  unfold sent_src Msg.set_src
  rw [UInt16.toNat_ofNat']
  exact Nat.mod_eq_of_lt hlt

theorem frame_sent_src (hwcfg : HwCfg) (m : Msg) : frame (groups (layout hwcfg (sent_src hwcfg m))) = frame (groups (layout hwcfg m)) := by
  have hbody : ∀ m, bodyLayout hwcfg m = Token.opt (hwcfg.src_bits ≠ 0) [.field hwcfg.src_bits m.src.toNat] ++
      ((if common_tcode m then commonLayout hwcfg m else restLayout m) ++ timestampLayout hwcfg m) := fun _ => rfl
  have hrest : (if common_tcode (sent_src hwcfg m) then commonLayout hwcfg (sent_src hwcfg m) else restLayout (sent_src hwcfg m)) ++
      timestampLayout hwcfg (sent_src hwcfg m) = (if common_tcode m then commonLayout hwcfg m else restLayout m) ++ timestampLayout hwcfg m := rfl
  have htc : (sent_src hwcfg m).tcode = m.tcode := rfl
  apply frame_congr
  rw [layout, layout, htc, hbody, hbody, hrest, sent_src_toNat]
  by_cases hidle : m.tcode = .Idle
  · simp [Token.opt, hidle]
  · by_cases hsrc : hwcfg.src_bits = 0
    · simp [Token.opt, hidle, hsrc]
    · simp [Token.opt, hidle, hsrc, groups, width, pack]

theorem IsEncoding.encodable (h : IsEncoding hwcfg f m) : encodable m ∧ f = frame (groups (layout hwcfg m)) := by
  obtain ⟨buffer, buffer', limit, n, hlim, henc, rfl⟩ := h
  have hm : nexusrv.encodable m = true := by
    by_cases hict : m.tcode = .ICT
    · exact ict_encodable hict henc
    · exact encodable_of_encode henc hict
  obtain ⟨hn, hbuf⟩ := msg_encode_take hlim hm henc
  exact ⟨hm, by rw [hbuf, ← hn, List.take_left]⟩

/-- The decoder takes the bytes of one message, and the TCODE is the one that was encoded. -/
theorem IsEncoding.reads (h : IsEncoding hwcfg f m) : ∃ m', Reads hwcfg f f.length m' ∧ m'.tcode = m.tcode := by
  obtain ⟨hm, rfl⟩ := h.encodable
  have hsent : nexusrv.encodable (sent_src hwcfg m) = true := hm
  have hdec : ∃ m', msg_decode hwcfg (frame (groups (layout hwcfg (sent_src hwcfg m))) ++ []) Msg.zero =
      some (.ok (frame (groups (layout hwcfg (sent_src hwcfg m)))).length, m') ∧ m'.tcode = m.tcode := by
    by_cases hict : m.tcode = .ICT
    · have hsent' : (sent_src hwcfg m).tcode = .ICT := hict
      obtain ⟨m', hd, hh, -⟩ := decode_of_returns (returns_ict hsent') Msg.zero
      exact ⟨m', hd, hh.tcode.trans hict.symm⟩
    · have hfit : (sent_src hwcfg m).src.toNat < 2 ^ hwcfg.src_bits := by
        rw [sent_src_toNat]
        exact Nat.mod_lt _ (Nat.two_pow_pos _)
      obtain ⟨m', hd, htc, -⟩ := decode_of_returns (returns_decode hfit hsent hict) Msg.zero
      exact ⟨m', hd, htc⟩
  obtain ⟨m', hd, htc⟩ := hdec
  rw [frame_sent_src, List.append_nil] at hd
  have hread := reads_of_decode hd []
  rw [List.append_nil] at hread
  exact ⟨m', hread, htc⟩

theorem IsEncoding.word (h : IsEncoding hwcfg f m) : Word ends_msg f := by
  obtain ⟨m', hread, -⟩ := h.reads
  obtain ⟨-, as, b, hf, has, hb⟩ := hread.le
  rw [List.take_length] at hf
  refine ⟨as, b, hf, fun a ha => ?_, decide_eq_true hb⟩
  exact decide_eq_false (has a ha)

end Frame

/-! ## A cut in the stream -/

/-- The bytes of encoded messages, one behind the other. -/
def stream_of (ps : List (List UInt8 × Msg)) : List UInt8 := (ps.map Prod.fst).flatten

/-- `p` bytes are a number of whole messages. -/
def MsgBoundary (ps : List (List UInt8 × Msg)) (p : Nat) : Prop := Boundary (ps.map Prod.fst) p

/-- What a reader finds that is dropped into the stream at `c`. -/
structure Resyncs (hwcfg : HwCfg) (ps : List (List UInt8 × Msg)) (c : Nat) : Prop where
  forward_end : nexusrv_sync_forward ((stream_of ps).drop c) = .error .stream_truncate ↔ c = (stream_of ps).length
  forward : c < (stream_of ps).length → ∃ d, nexusrv_sync_forward ((stream_of ps).drop c) = .ok d ∧ 0 < d ∧ MsgBoundary ps (c + d) ∧
    ∀ p, MsgBoundary ps p → c < p → c + d ≤ p
  backward_none : nexusrv_sync_backward (stream_of ps) c = .error .stream_truncate ↔ ∀ p, MsgBoundary ps p → p ≤ c → p = 0
  backward : (∃ q, MsgBoundary ps q ∧ 0 < q ∧ q ≤ c) → ∃ p, nexusrv_sync_backward (stream_of ps) c = .ok p ∧ 0 < p ∧ p ≤ c ∧ MsgBoundary ps p ∧
    ∀ q, MsgBoundary ps q → q ≤ c → q ≤ p
  decodes : ∀ p, MsgBoundary ps p → ∃ k ds, p = (stream_of (ps.take k)).length ∧ Decodes hwcfg ((stream_of ps).drop p) ds [] ∧
    List.Forall₂ (fun d q => d.1 = q.1.length ∧ d.2.tcode = q.2.tcode) ds (ps.drop k)

section Cut
variable {hwcfg : HwCfg} {ps : List (List UInt8 × Msg)} {c : Nat}

theorem stream_words (h : ∀ q ∈ ps, IsEncoding hwcfg q.1 q.2) : ∀ w ∈ ps.map Prod.fst, Word ends_msg w := by
  intro w hw
  obtain ⟨q, hq, rfl⟩ := List.mem_map.1 hw
  exact (h q hq).word

/-- One message is decoded for each that was encoded. -/
theorem stream_decodes (h : ∀ q ∈ ps, IsEncoding hwcfg q.1 q.2) :
    ∃ ds, Decodes hwcfg (stream_of ps) ds [] ∧ List.Forall₂ (fun d q => d.1 = q.1.length ∧ d.2.tcode = q.2.tcode) ds ps := by
  induction ps with
  | nil => exact ⟨[], .nil [], .nil⟩
  | cons q ps ih =>
    obtain ⟨ds, hds, hall⟩ := ih fun p hp => h p (List.mem_cons_of_mem _ hp)
    obtain ⟨m', hread, htc⟩ := (h q List.mem_cons_self).reads
    exact ⟨(q.1.length, m') :: ds, (Decodes.single hread).append hds, .cons ⟨rfl, htc⟩ hall⟩

/-- The search backward, at every position up to the end. -/
theorem sync_backward_spec {ws : List (List UInt8)} (hw : ∀ w ∈ ws, Word ends_msg w) (hc : c ≤ ws.flatten.length) :
    match nexusrv_sync_backward ws.flatten c with
    | .ok p => 0 < p ∧ p ≤ c ∧ Boundary ws p ∧ ∀ q, Boundary ws q → q ≤ c → q ≤ p
    | .error e => e = .stream_truncate ∧ ∀ q, Boundary ws q → q ≤ c → q = 0 := by
  induction c with
  | zero => exact ⟨rfl, fun q _ hq => Nat.le_zero.1 hq⟩
  | succ c ih =>
    have hget : ws.flatten[c]? = some (ws.flatten.getD c 0) := by
      rw [List.getD_eq_getElem?_getD, List.getElem?_eq_getElem (by omega)]
      rfl
    have hstop : Boundary ws (c + 1) ↔ mseo (ws.flatten.getD c 0) = 3 := by
      rw [boundary_succ_iff hw, hget]
      simp [ends_msg]
    unfold nexusrv_sync_backward
    by_cases hb : mseo (ws.flatten.getD c 0) = 3
    · rw [if_pos hb]
      exact ⟨Nat.succ_pos c, Nat.le_refl _, hstop.2 hb, fun q _ hq => hq⟩
    · rw [if_neg hb]
      have hne : ∀ q, Boundary ws q → q ≤ c + 1 → q ≤ c := by
        intro q hq hle
        rcases Nat.lt_or_eq_of_le hle with hlt | heq
        · exact Nat.le_of_lt_succ hlt
        · exact absurd (hstop.1 (heq ▸ hq)) hb
      have ih := ih (by omega)
      split at ih
      · obtain ⟨hpos, hle, hbound, hlast⟩ := ih
        exact ⟨hpos, by omega, hbound, fun q hq hle => hlast q hq (hne q hq hle)⟩
      · exact ⟨ih.1, fun q hq hle => ih.2 q hq (hne q hq hle)⟩

/-- A reader finds the next message and the last one at every position of a stream of encoded
messages, and from the end of every message on it decodes those that are left. -/
theorem resyncs (h : ∀ q ∈ ps, IsEncoding hwcfg q.1 q.2) (hc : c ≤ (stream_of ps).length) : Resyncs hwcfg ps c := by
  have hw := stream_words h
  have hnext := next_boundary (c := c) hw
  have hback := sync_backward_spec hw hc
  have hforward : nexusrv_sync_forward ((stream_of ps).drop c) = match ((ps.map Prod.fst).flatten.drop c).findIdx? ends_msg with
      | some i => .ok (i + 1)
      | none => .error .stream_truncate := by
    rw [nexusrv_sync_forward, sync_forward_loop_eq]
    simp only [Nat.zero_add]
    rfl
  have hlast : MsgBoundary ps (stream_of ps).length := boundary_length _
  constructor
  · rw [hforward]
    cases hi : ((ps.map Prod.fst).flatten.drop c).findIdx? ends_msg with
    | none =>
      rw [hi] at hnext
      exact ⟨fun _ => Nat.le_antisymm hc (Nat.le_of_not_lt (hnext _ hlast)), fun _ => rfl⟩
    | some i =>
      rw [hi] at hnext
      have hle : c + (i + 1) ≤ (stream_of ps).length := hnext.1.le
      refine ⟨fun he => (nomatch he), fun he => ?_⟩
      omega
  · intro hlt
    rw [hforward]
    cases hi : ((ps.map Prod.fst).flatten.drop c).findIdx? ends_msg with
    | none =>
      rw [hi] at hnext
      exact absurd hlt (hnext _ hlast)
    | some i =>
      rw [hi] at hnext
      exact ⟨i + 1, rfl, Nat.succ_pos i, hnext⟩
  · change nexusrv_sync_backward (ps.map Prod.fst).flatten c = _ ↔ _
    split at hback
    · rename_i p hp
      rw [hp]
      refine ⟨fun he => (nomatch he), fun hall => ?_⟩
      exact absurd (hall p hback.2.2.1 hback.2.1) (Nat.ne_of_gt hback.1)
    · rename_i e he
      rw [he, hback.1]
      exact ⟨fun _ => hback.2, fun _ => rfl⟩
  · rintro ⟨q, hq, hpos, hle⟩
    change ∃ p, nexusrv_sync_backward (ps.map Prod.fst).flatten c = _ ∧ _
    split at hback
    · rename_i p hp
      exact ⟨p, hp, hback⟩
    · exact absurd (hback.2 q hq hle) (Nat.ne_of_gt hpos)
  · rintro p ⟨k, hk, rfl⟩
    rw [← List.map_take]
    have hsplit : stream_of ps = stream_of (ps.take k) ++ stream_of (ps.drop k) := by
      rw [stream_of, stream_of, stream_of, ← List.flatten_append, ← List.map_append, List.take_append_drop]
    have hdrop : ∀ q ∈ ps.drop k, IsEncoding hwcfg q.1 q.2 := fun q hq => h q (List.mem_of_mem_drop hq)
    obtain ⟨ds, hds, hall⟩ := stream_decodes hdrop
    refine ⟨k, ds, rfl, ?_, hall⟩
    change Decodes hwcfg ((stream_of ps).drop (stream_of (ps.take k)).length) ds []
    rw [hsplit, List.drop_left]
    exact hds

end Cut

/-- A DirectBranch message and an Idle message, cut inside the first one. -/
theorem resyncs_two : Resyncs ⟨0, 0, 0, 0, 0, false, false, false⟩
    [([0x0c, 0x17], { Msg.zero with tcode := .DirectBranch, icnt := 5 }), ([0xff], { Msg.zero with tcode := .Idle })] 1 :=
  have hbranch : msg_encode ⟨0, 0, 0, 0, 0, false, false, false⟩ [0, 0] 2 { Msg.zero with tcode := .DirectBranch, icnt := 5 } =
      some (.ok 2, [0x0c, 0x17]) := by decide
  have hidle : msg_encode ⟨0, 0, 0, 0, 0, false, false, false⟩ [0] 1 { Msg.zero with tcode := .Idle } = some (.ok 1, [0xff]) := by decide
  resyncs (List.forall_mem_cons.2 ⟨⟨[0, 0], [0x0c, 0x17], 2, 2, by decide, hbranch, rfl⟩,
    List.forall_mem_singleton.2 ⟨[0], [0xff], 1, 1, by decide, hidle, rfl⟩⟩) (by decide)

end nexusrv
