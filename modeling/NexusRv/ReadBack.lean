import NexusRv.Assemble
/-!
# Reading what was printed

The text that `nexusrv_print_msg` writes behind the name of the TCODE, in `nexusrv_read_msg`.
The printer writes the fields of a DataAcquisition message, and the reader has no case for
them: it returns without an error, and the fields stay in front of the next message.
-/

namespace nexusrv

open Scan

/-! ## The message that is read -/

/-- What `m` carries is in `b`. -/
def Restored (m b : Msg) : Prop := b.timestamp = m.timestamp ∧ b.tcode = m.tcode ∧ b.carried = m.carried

/-- The text of `m`, with `t` behind it, is rejected as unsupported or read as `m`. `m₀` is what
the storage of the message holds before. -/
def ReadsBack (m m₀ : Msg) (t : List Char) : Prop :=
  (∃ s, read_msg (print_fields m ++ t, m₀) = some (.error .msg_unsupported, s)) ∨
    ∃ m', read_msg (print_fields m ++ t, m₀) = some (.ok (), t, m') ∧ Restored m m'

/-! ## Readers on printed text -/

/-- `x` takes the text `s` off the front, and makes of `m` a message in `Q`. -/
structure Consumes (x : Reader Unit) (s : List Char) (m : Msg) (Q : Msg → Prop) : Prop where
  stops : ∀ {t}, Stops t → Stops (s ++ t)
  reads : ∀ {t}, Stops t → ∃ m', x (s ++ t, m) = some (.ok (), t, m') ∧ Q m'

/-- The text of a format is a blank and a word. -/
def Format.plain (f : Format) : Bool :=
  match f.text.toList with
  | ' ' :: c :: p => (c :: p).all (fun x => !isSpace x) && 1 < f.base && f.base ≤ 16 && f.bits ≤ 64
  | _ => false

section Consumes
variable {s s' : List Char} {m : Msg} {Q : Msg → Prop} {f : Format} {store : Nat → Msg → Msg} {v : Nat}

theorem Format.plain_text (hf : f.plain = true) : ∃ c p, f.text.toList = ' ' :: c :: p ∧ (∀ x ∈ c :: p, isSpace x = false) ∧
    1 < f.base ∧ f.base ≤ 16 ∧ f.bits ≤ 64 := by
  unfold Format.plain at hf
  split at hf
  · rename_i c p htext
    simp only [Bool.and_eq_true, decide_eq_true_eq, List.all_eq_true, Bool.not_eq_true'] at hf
    exact ⟨c, p, htext, hf.1.1.1, hf.1.1.2, hf.1.2, hf.2⟩
  · cases hf

/-- A field that was printed is scanned. -/
theorem scan_printed (hf : f.plain = true) (hv : v < 2 ^ f.bits) {t : List Char} (ht : Stops t) : scan f.scan (f.print v ++ t) = ⟨[.number v], false, t⟩ := by
  obtain ⟨c, p, htext, hspace, hb1, hb16, h64⟩ := f.plain_text hf
  have hfirst : ∀ x ∈ ((c :: p) ++ (Nat.toDigits f.base v ++ t)).head?, isSpace x = false := by
    intro x hx
    cases hx
    exact hspace _ List.mem_cons_self
  have hdirs : directives f.text.toList = .space :: directives (c :: p) := by
    rw [htext]
    rfl
  rw [Format.scan, Format.print, hdirs, htext, List.append_assoc, List.cons_append, List.cons_append, scan_space _ hfirst,
    scan_directives _ _ hspace, scan_number hb1 hb16 hv h64 ht]
  rfl

theorem stops_print (hf : f.plain = true) (t : List Char) : Stops (f.print v ++ t) := by
  obtain ⟨d, p, htext, -⟩ := f.plain_text hf
  intro c hc
  rw [Format.print, htext] at hc
  cases hc
  rfl

theorem scanf_printed (hf : f.plain = true) (hv : v < 2 ^ f.bits) {t : List Char} (ht : Stops t) :
    CHECK_SCANF f store (f.print v ++ t, m) = some (.ok (), t, store v m) := by
  simp only [CHECK_SCANF, Proc.get_bind_apply, scan_printed hf hv ht, Proc.modify_apply]

theorem Consumes.pure (hQ : Q m) : Consumes (pure ()) [] m Q := ⟨id, fun _ => ⟨m, rfl, hQ⟩⟩

theorem Consumes.field (hf : f.plain = true) (hv : v < 2 ^ f.bits) (hQ : Q (store v m)) : Consumes (CHECK_SCANF f store) (f.print v) m Q :=
  ⟨fun _ => stops_print hf _, fun ht => ⟨_, scanf_printed hf hv ht, hQ⟩⟩

theorem Consumes.field_bind {k : Unit → Reader Unit} (hf : f.plain = true) (hv : v < 2 ^ f.bits) (hk : Consumes (k ()) s (store v m) Q) :
    Consumes (CHECK_SCANF f store >>= k) (f.print v ++ s) m Q := by
  constructor
  · intro t _
    rw [List.append_assoc]
    exact stops_print hf _
  · intro t ht
    rw [List.append_assoc, Proc.bind_ok (scanf_printed hf hv (hk.stops ht))]
    exact hk.reads ht

/-- A field that is printed under the same condition as it is read. -/
theorem Consumes.when {p q : Bool} (hpq : p = q) (hf : f.plain = true) (hv : v < 2 ^ f.bits) (hQ : Q (if p then store v m else m)) :
    Consumes (Proc.when p (CHECK_SCANF f store)) (print_if q (f.print v)) m Q := by
  subst hpq
  cases p with
  | true => exact Consumes.field hf hv hQ
  | false => exact Consumes.pure hQ

theorem Consumes.when_bind {p q : Bool} {k : Unit → Reader Unit} (hpq : p = q) (hf : f.plain = true) (hv : v < 2 ^ f.bits)
    (hk : Consumes (k ()) s (if p then store v m else m) Q) :
    Consumes (Proc.when p (CHECK_SCANF f store) >>= k) (print_if q (f.print v) ++ s) m Q := by
  subst hpq
  cases p with
  | true => exact Consumes.field_bind hf hv hk
  | false => exact hk

/-- What is written before the next field is read. -/
theorem Consumes.modify_bind {g : Msg → Msg} {k : Unit → Reader Unit} (hk : Consumes (k ()) s (g m) Q) :
    Consumes (Proc.modify (fun r => (r.1, g r.2)) >>= k) s m Q :=
  ⟨hk.stops, hk.reads⟩

theorem Consumes.reset_bind {k : Unit → Reader Unit} (hk : Consumes (k ()) s (((m.set_icnt 0).set_hist 0).set_hrepeat 0) Q) :
    Consumes (read_reset >>= k) s m Q :=
  ⟨hk.stops, hk.reads⟩

theorem Consumes.get_bind {k : List Char × Msg → Reader Unit} (hk : ∀ u, Consumes (k (u, m)) s m Q) : Consumes (Proc.get >>= k) s m Q :=
  ⟨(hk []).stops, fun ht => (hk _).reads ht⟩

theorem Consumes.assert_bind {p : Bool} {k : Unit → Reader Unit} (hp : p = true) (hk : Consumes (k ()) s m Q) :
    Consumes (Proc.assert p >>= k) s m Q := by
  subst hp
  exact hk

end Consumes

/-! ## Message by message -/

section Messages
variable {m a : Msg}

/-- The fields in front of the rest are read. -/
structure Started (m a : Msg) : Prop where
  timestamp : a.timestamp = m.timestamp
  tcode : a.tcode = m.tcode
  src : a.src = m.src

theorem bitField_lt_bits {n : Nat} (lo : Nat) (b : UInt8) (h : n ≤ 32) : bitField lo n b < 2 ^ 32 :=
  Nat.lt_of_lt_of_le (bitField_lt lo n b) (Nat.pow_le_pow_right (by decide) h)

/-- A bit field is stored as it was printed. -/
theorem bitField_copied {lo n : Nat} (b c : UInt8) (h : lo + n ≤ 8) : bitField lo n (setBitField lo n (bitField lo n b) c) = bitField lo n b := by
  rw [bitField_setBitField _ _ h, Nat.mod_eq_of_lt (bitField_lt lo n b)]

theorem consumes_common (hm : Started m a) (hc : common_tcode m) : Consumes read_common (print_common m) a (Restored m) := by
  have ht := hm.tcode
  obtain ⟨hicnt, hhist⟩ := common_preds ht hc
  have hprint : print_if (msg_has_icnt m) (NEXUS_FMT_ICNT.print m.icnt.toNat) = NEXUS_FMT_ICNT.print m.icnt.toNat := by
    rw [(common_preds rfl hc).1]
    rfl
  rw [print_common, hprint]
  refine Consumes.get_bind fun u => ?_
  dsimp only
  refine .when_bind (by simp only [msg_is_sync, ht]) rfl (bitField_lt_bits 0 _ (by decide)) ?_
  refine .when_bind (by simp only [msg_is_indir_branch, ht]) rfl (bitField_lt_bits 4 _ (by decide)) ?_
  refine .assert_bind hicnt (.modify_bind ?_)
  refine .field_bind rfl m.icnt.toNat_lt ?_
  refine .when_bind (by simp only [msg_has_xaddr, ht]) rfl m.xaddr.toNat_lt ?_
  refine .when hhist rfl m.hist.toNat_lt ?_
  cases hm' : m.tcode with
  | DirectBranch | DirectBranchSync | IndirectBranch | IndirectBranchSync | IndirectBranchHist | IndirectBranchHistSync | ProgTraceSync =>
    simp [Restored, Msg.carried, hm', ht, hm.src, msg_is_sync, msg_is_indir_branch, msg_has_xaddr, msg_has_hist, Msg.set_icnt, Msg.set_hrepeat,
      Msg.set_sync_type, Msg.set_branch_type, Msg.set_bits, Msg.set_xaddr, Msg.set_hist, Msg.sync_type, Msg.branch_type,
      bitField_copied, bitField_setBitField_of_le, hm.timestamp]
  | _ => simp [common_tcode, hm'] at hc

theorem Started.restored {b : Msg} (hm : Started m a) (hts : b.timestamp = a.timestamp) (ht : b.tcode = a.tcode) (hc : b.carried = m.carried) :
    Restored m b :=
  ⟨hts.trans hm.timestamp, ht.trans hm.tcode, hc⟩

theorem consumes_ownership (hm : Started m a) (hm' : m.tcode = .Ownership) : Consumes (read_rest .Ownership) (print_rest m) a (Restored m) := by
  have ht := hm.tcode
  unfold print_rest
  rw [hm'] at ht ⊢
  refine .field_bind rfl (bitField_lt_bits 0 _ (by decide)) (.field_bind rfl (bitField_lt_bits 2 _ (by decide)) ?_)
  refine .field_bind rfl (bitField_lt_bits 4 _ (by decide)) (.field rfl m.context.toNat_lt (hm.restored rfl rfl ?_))
  simp [Msg.carried, hm', ht, hm.src, Msg.set_ownership_fmt, Msg.set_ownership_priv, Msg.set_ownership_v, Msg.set_context, Msg.set_bits, Msg.set_xaddr,
    Msg.ownership_fmt, Msg.ownership_priv, Msg.ownership_v, Msg.context, bitField_copied, bitField_setBitField_of_le]

theorem consumes_error (hm : Started m a) (hm' : m.tcode = .Error) : Consumes (read_rest .Error) (print_rest m) a (Restored m) := by
  have ht := hm.tcode
  unfold print_rest
  rw [hm'] at ht ⊢
  refine .field_bind rfl (bitField_lt_bits 0 _ (by decide)) (.field rfl m.error_code.toNat_lt (hm.restored rfl rfl ?_))
  simp [Msg.carried, hm', ht, hm.src, Msg.set_error_type, Msg.set_error_code, Msg.set_bits, Msg.set_icnt, Msg.error_type, Msg.error_code, bitField_copied]

theorem consumes_repeat (hm : Started m a) (hm' : m.tcode = .RepeatBranch) : Consumes (read_rest .RepeatBranch) (print_rest m) a (Restored m) := by
  have ht := hm.tcode
  unfold print_rest
  rw [hm'] at ht ⊢
  refine .field rfl m.hrepeat.toNat_lt (hm.restored rfl rfl ?_)
  simp [Msg.carried, hm', ht, hm.src, Msg.set_hrepeat]

theorem carried_resource {b : Msg} (ht : b.tcode = .ResourceFull) (hsrc : b.src = m.src) (hcode : b.res_code = m.res_code) (hm' : m.tcode = .ResourceFull)
    (hdata : m.res_code > 2 → b.icnt = m.icnt) (hicnt : m.res_code = 0 → b.icnt = m.icnt) (hhist : m.res_code = 1 ∨ m.res_code = 2 → b.hist = m.hist)
    (hrepeat : m.res_code = 2 → b.hrepeat = m.hrepeat) : b.carried = m.carried := by
  unfold Msg.carried
  simp only [ht, hm', hsrc, hcode, Msg.res_data]
  obtain h | h | h | h : m.res_code = 0 ∨ m.res_code = 1 ∨ m.res_code = 2 ∨ m.res_code > 2 := by omega
  · simp only [h, hicnt h]
  · simp only [h, hhist (.inl h)]
  · simp only [h, hhist (.inr h), hrepeat h]
  · rw [hdata h]
    split <;> first | rfl | omega

/-- RDATA is read if the RCODE is none of those that are handled, like it is printed. -/
theorem consumes_resource (hm : Started m a) (hm' : m.tcode = .ResourceFull) : Consumes (read_rest .ResourceFull) (print_rest m) a (Restored m) := by
  have ht := hm.tcode
  have hcode : (a.set_res_code m.res_code).res_code = m.res_code := bitField_copied _ _ (by decide)
  unfold print_rest
  rw [hm'] at ht ⊢
  refine .field_bind rfl (bitField_lt_bits 0 _ (by decide)) (.get_bind fun u => ?_)
  dsimp only
  rw [hcode]
  by_cases h2 : m.res_code > 2
  · rw [if_pos h2, if_pos h2]
    refine .field rfl m.res_data.toNat_lt (hm.restored rfl rfl (carried_resource ht hm.src hcode hm' ?_ ?_ ?_ ?_))
    · exact fun _ => UInt32.ofNat_toNat
    all_goals omega
  · rw [if_neg h2, if_neg h2]
    refine .reset_bind ?_
    obtain h0 | h1 | h2 : m.res_code = 0 ∨ m.res_code = 1 ∨ m.res_code = 2 := by omega
    · rw [h0]
      refine .field rfl m.icnt.toNat_lt (hm.restored rfl rfl (carried_resource ht hm.src (h0 ▸ hcode) hm' ?_ ?_ ?_ ?_))
      · exact fun h => absurd h (by omega)
      · exact fun _ => UInt32.ofNat_toNat
      · exact fun h => absurd h (by omega)
      · exact fun h => absurd h (by omega)
    · rw [h1]
      refine .field rfl m.hist.toNat_lt (hm.restored rfl rfl (carried_resource ht hm.src (h1 ▸ hcode) hm' ?_ ?_ ?_ ?_))
      · exact fun h => absurd h (by omega)
      · exact fun h => absurd h (by omega)
      · exact fun _ => UInt32.ofNat_toNat
      · exact fun h => absurd h (by omega)
    · rw [h2]
      refine .field_bind rfl m.hist.toNat_lt (.field rfl m.hrepeat.toNat_lt (hm.restored rfl rfl (carried_resource ht hm.src (h2 ▸ hcode) hm' ?_ ?_ ?_ ?_)))
      · exact fun h => absurd h (by omega)
      · exact fun h => absurd h (by omega)
      · exact fun _ => UInt32.ofNat_toNat
      · exact fun _ => UInt32.ofNat_toNat

theorem carried_stop {b : Msg} (ht : b.tcode = .ProgTraceCorrelation) (hsrc : b.src = m.src) (hstop : b.stop_code = m.stop_code) (hcdf : b.cdf = m.cdf)
    (hicnt : b.icnt = m.icnt) (hm' : m.tcode = .ProgTraceCorrelation) (hhist : m.cdf = 1 → b.hist = m.hist) : b.carried = m.carried := by
  unfold Msg.carried
  simp only [ht, hm', hsrc, hstop, hcdf, hicnt]
  split
  · rename_i h
    rw [hhist h]
  · rfl

theorem consumes_stop (hm : Started m a) (hm' : m.tcode = .ProgTraceCorrelation) :
    Consumes (read_rest .ProgTraceCorrelation) (print_rest m) a (Restored m) := by
  have ht := hm.tcode
  unfold print_rest
  rw [hm'] at ht ⊢
  refine .reset_bind (.field_bind rfl (bitField_lt_bits 0 _ (by decide)) (.field_bind rfl (bitField_lt_bits 4 _ (by decide)) ?_))
  refine .field_bind rfl m.icnt.toNat_lt (.get_bind fun u => ?_)
  dsimp only
  generalize hc : ((((a.set_icnt 0).set_hist 0).set_hrepeat 0).set_stop_code m.stop_code).set_cdf m.cdf = c
  have hstop : c.stop_code = m.stop_code := by
    rw [← hc]
    exact (bitField_setBitField_of_le _ _ (by decide) (by decide)).trans (bitField_copied _ _ (by decide))
  have hcdf : (c.set_icnt m.icnt.toNat).cdf = m.cdf := by
    rw [← hc]
    exact bitField_copied _ _ (by decide)
  have hsrc : c.src = m.src := by
    rw [← hc]
    exact hm.src
  have hts : c.timestamp = a.timestamp := hc ▸ rfl
  have htc : c.tcode = a.tcode := hc ▸ rfl
  refine .when (decide_eq_decide.2 (by rw [hcdf])) rfl m.hist.toNat_lt ?_
  rw [hcdf]
  by_cases h1 : m.cdf = 1
  · rw [if_pos (decide_eq_true h1)]
    exact hm.restored hts htc (carried_stop (htc.trans ht) hsrc hstop hcdf UInt32.ofNat_toNat hm' fun _ => UInt32.ofNat_toNat)
  · rw [if_neg (by simp [h1])]
    exact hm.restored hts htc (carried_stop (htc.trans ht) hsrc hstop hcdf UInt32.ofNat_toNat hm' fun h => absurd h h1)

theorem carried_ict {b : Msg} (ht : b.tcode = .ICT) (hsrc : b.src = m.src) (hcksrc : b.cksrc = m.cksrc) (hckdf : b.ckdf = m.ckdf)
    (hhist : b.hist = m.hist) (hrepeat : b.hrepeat = m.hrepeat) (hm' : m.tcode = .ICT) (hdata1 : m.ckdf > 0 → b.ckdata1 = m.ckdata1) : b.carried = m.carried := by
  unfold Msg.carried
  simp only [ht, hm', hsrc, hcksrc, hckdf, Msg.ckdata0, hhist, hrepeat]
  split
  · rename_i h
    rw [hdata1 h]
  · rfl

theorem hist_ckdata0 (m b : Msg) : (b.set_ckdata0 m.ckdata0).hist = m.hist := by
  have h := m.hist.toNat_lt
  refine UInt32.toNat_inj.1 ?_
  rw [Msg.set_ckdata0, UInt32.toNat_ofNat', Msg.ckdata0]
  omega

theorem hrepeat_ckdata0 (m b : Msg) : (b.set_ckdata0 m.ckdata0).hrepeat = m.hrepeat := by
  have h1 := m.hist.toNat_lt
  have h2 := m.hrepeat.toNat_lt
  refine UInt32.toNat_inj.1 ?_
  rw [Msg.set_ckdata0, UInt32.toNat_ofNat', Msg.ckdata0]
  omega

theorem cksrc_set_ckdata0 (v : Nat) (b : Msg) : (b.set_ckdata0 v).cksrc = b.cksrc := rfl

theorem ckdf_set_ckdata0 (v : Nat) (b : Msg) : (b.set_ckdata0 v).ckdf = b.ckdf := rfl

theorem consumes_ict (hm : Started m a) (hm' : m.tcode = .ICT) : Consumes (read_rest .ICT) (print_rest m) a (Restored m) := by
  have ht := hm.tcode
  unfold print_rest
  rw [hm'] at ht ⊢
  refine .field_bind rfl (bitField_lt_bits 0 _ (by decide)) (.field_bind rfl (bitField_lt_bits 4 _ (by decide)) ?_)
  refine .field_bind rfl (ckdata0_lt m) (.get_bind fun u => ?_)
  dsimp only
  generalize hc : (a.set_cksrc m.cksrc).set_ckdf m.ckdf = c
  have hcksrc : (c.set_ckdata0 m.ckdata0).cksrc = m.cksrc := by
    rw [cksrc_set_ckdata0, ← hc]
    exact (bitField_setBitField_of_le _ _ (by decide) (by decide)).trans (bitField_copied _ _ (by decide))
  have hckdf : (c.set_ckdata0 m.ckdata0).ckdf = m.ckdf := by
    rw [ckdf_set_ckdata0, ← hc]
    exact bitField_copied _ _ (by decide)
  have hsrc : c.src = m.src := by
    rw [← hc]
    exact hm.src
  have hts : c.timestamp = a.timestamp := hc ▸ rfl
  have htc : c.tcode = a.tcode := hc ▸ rfl
  refine .when (decide_eq_decide.2 (by rw [hckdf])) rfl m.ckdata1.toNat_lt ?_
  rw [hckdf]
  by_cases h1 : m.ckdf > 0
  · rw [if_pos (decide_eq_true h1)]
    exact hm.restored hts htc (carried_ict (htc.trans ht) hsrc hcksrc hckdf (hist_ckdata0 m c) (hrepeat_ckdata0 m c) hm' fun _ => UInt64.ofNat_toNat)
  · rw [if_neg (by simp [h1])]
    exact hm.restored hts htc (carried_ict (htc.trans ht) hsrc hcksrc hckdf (hist_ckdata0 m c) (hrepeat_ckdata0 m c) hm' fun h => absurd h h1)

theorem consumes_rest (hm : Started m a) (hknown : msg_known m = true) (hc : common_tcode m = false) (hidle : m.tcode ≠ .Idle)
    (hdata : m.tcode ≠ .DataAcquisition) : Consumes (read_rest m.tcode) (print_rest m) a (Restored m) := by
  cases hm' : m.tcode with
  | Ownership => exact consumes_ownership hm hm'
  | Error => exact consumes_error hm hm'
  | ResourceFull => exact consumes_resource hm hm'
  | RepeatBranch => exact consumes_repeat hm hm'
  | ProgTraceCorrelation => exact consumes_stop hm hm'
  | ICT => exact consumes_ict hm hm'
  | Idle => exact absurd hm' hidle
  | DataAcquisition => exact absurd hm' hdata
  | other => simp [msg_known, hm'] at hknown
  | _ => simp [common_tcode, hm'] at hc

theorem consumes_idle (hm' : m.tcode = .Idle) : Consumes read_msg (print_fields m) a (Restored m) := by
  have htcode : ((a.set_timestamp m.timestamp.toNat).set_tcode m.tcode.code).tcode = m.tcode := Tcode.ofNat_code _
  have hfields : print_fields m = NEXUS_FMT_TIMESTAMP.print m.timestamp.toNat ++ (NEXUS_FMT_TCODE.print m.tcode.code ++ []) := by
    simp [print_fields, print_rest, msg_has_src, msg_idle, print_if, hm']
  rw [hfields]
  refine .field_bind rfl m.timestamp.toNat_lt (.field_bind rfl (Nat.lt_of_lt_of_le m.tcode.code_lt (by decide)) (.get_bind fun u => ?_))
  dsimp only
  rw [htcode, if_pos hm']
  refine .pure ⟨UInt64.ofNat_toNat, htcode, ?_⟩
  unfold Msg.carried
  rw [htcode, hm']

/-- The fields that every message but Idle has. -/
def print_head (m : Msg) : List Char :=
  NEXUS_FMT_TIMESTAMP.print m.timestamp.toNat ++ (NEXUS_FMT_TCODE.print m.tcode.code ++ NEXUS_FMT_SRC.print m.src.toNat)

theorem print_fields_head (hidle : m.tcode ≠ .Idle) : print_fields m = print_head m ++ print_rest m := by
  have hsrc : print_if (msg_has_src m) (NEXUS_FMT_SRC.print m.src.toNat) = NEXUS_FMT_SRC.print m.src.toNat := by
    simp [print_if, msg_has_src, msg_idle, hidle]
  rw [print_fields, hsrc, print_head, List.append_assoc, List.append_assoc]

theorem consumes_head {s : List Char} {Q : Msg → Prop} (hidle : m.tcode ≠ .Idle)
    (hrest : ∀ b, Started m b → Consumes (if common_tcode m then read_common else read_rest m.tcode) s b Q) :
    Consumes read_msg (print_head m ++ s) a Q := by
  have htcode : ((a.set_timestamp m.timestamp.toNat).set_tcode m.tcode.code).tcode = m.tcode := Tcode.ofNat_code _
  have hcommon : common_tcode ((a.set_timestamp m.timestamp.toNat).set_tcode m.tcode.code) = common_tcode m := by
    simp only [common_tcode, htcode]
  rw [print_head, List.append_assoc, List.append_assoc]
  refine .field_bind rfl m.timestamp.toNat_lt (.field_bind rfl (Nat.lt_of_lt_of_le m.tcode.code_lt (by decide)) (.get_bind fun u => ?_))
  dsimp only
  rw [htcode, if_neg hidle, hcommon]
  exact .field_bind rfl (Nat.lt_of_lt_of_le m.src.toNat_lt (by decide)) (hrest _ ⟨UInt64.ofNat_toNat, htcode, UInt16.ofNat_toNat⟩)

theorem print_rest_common (hc : common_tcode m) : print_rest m = print_common m := by
  unfold print_rest
  cases hm' : m.tcode <;> first | rfl | simp [common_tcode, hm'] at hc

/-- The fields that every message has, and then those of its TCODE. -/
theorem consumes_fields (hknown : msg_known m = true) (hdata : m.tcode ≠ .DataAcquisition) : Consumes read_msg (print_fields m) a (Restored m) := by
  by_cases hidle : m.tcode = .Idle
  · exact consumes_idle hidle
  rw [print_fields_head hidle]
  refine consumes_head hidle fun b hb => ?_
  by_cases hc : common_tcode m
  · rw [if_pos hc, print_rest_common hc]
    exact consumes_common hb hc
  · rw [if_neg hc]
    exact consumes_rest hb hknown (Bool.eq_false_iff.2 hc) hidle hdata

end Messages

/-! ## The type that only the printer handles -/

section ReadBack
variable {m : Msg} {t : List Char}

/-- The reader stops behind the SRC. -/
theorem read_data_acquisition (m₀ : Msg) (hm' : m.tcode = .DataAcquisition) (t : List Char) :
    ∃ m', read_msg (print_fields m ++ t, m₀) = some (.ok (), print_rest m ++ t, m') := by
  have hidle : m.tcode ≠ .Idle := hm' ▸ by decide
  have hrest : print_rest m = NEXUS_FMT_DA_IDTAG.print m.idtag ++ NEXUS_FMT_DA_DQDATA.print m.dqdata.toNat := by
    rw [print_rest, hm']
  have hstops : Stops (print_rest m ++ t) := by
    rw [hrest, List.append_assoc]
    exact stops_print rfl _
  have hhead : Consumes read_msg (print_head m ++ []) m₀ fun _ => True := by
    refine consumes_head hidle fun b _ => ?_
    rw [hm', if_neg (by simp [common_tcode, hm'])]
    exact .pure trivial
  obtain ⟨m', hread, -⟩ := hhead.reads hstops
  rw [List.append_nil] at hread
  rw [print_fields_head hidle, List.append_assoc]
  exact ⟨m', hread⟩

/-- The fields of a DataAcquisition message are in front of the next one. -/
theorem data_acquisition_left (m₀ : Msg) (hm' : m.tcode = .DataAcquisition) (t : List Char) : ¬ ReadsBack m m₀ t := by
  obtain ⟨m', hread⟩ := read_data_acquisition m₀ hm' t
  rintro (⟨s, h⟩ | ⟨m'', h, -⟩)
  · rw [hread] at h
    cases h
  · rw [hread] at h
    have hleft : print_rest m ++ t = t := congrArg (fun r => r.elim t fun r => r.2.1) h
    rw [List.append_left_eq_self, print_rest, hm'] at hleft
    exact absurd hleft (by simp [Format.print, NEXUS_FMT_DA_IDTAG])

/-- The text of a message is read back, except that of a DataAcquisition message. -/
theorem reads_back_iff (hknown : msg_known m = true) (m₀ : Msg) (ht : Stops t) : ReadsBack m m₀ t ↔ m.tcode ≠ .DataAcquisition := by
  constructor
  · exact fun h hm' => data_acquisition_left m₀ hm' t h
  · exact fun hdata => .inr ((consumes_fields hknown hdata).reads ht)

end ReadBack

theorem reads_back_branch : let m : Msg := { Msg.zero with tcode := .DirectBranch, icnt := 5 }
    ReadsBack m Msg.zero ['\n'] ↔ m.tcode ≠ .DataAcquisition :=
  reads_back_iff (by decide) _ fun c hc => by cases hc; rfl

/-- `" IDTAG=1 DQDATA=0x7f"` is left unread. -/
theorem data_acquisition_unread : ¬ ∀ m m₀ : Msg, msg_known m = true → ReadsBack m m₀ [] := by
  intro h
  have hread := h { Msg.zero with tcode := .DataAcquisition, bits := 1, xaddr := 0x7f } Msg.zero (by decide)
  exact data_acquisition_left _ rfl _ hread

end nexusrv
