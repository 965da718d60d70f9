import NexusRv.EncoderBounds
/-!
# ICT messages

The encoder writes CKDATA1 of every ICT message, the decoder reads it only where
CKDF is not 0. Elsewhere it is one more group in front of the timestamp, and
stands in for a timestamp that is left out.
-/

namespace nexusrv

open Fields

section Finished
variable {hwcfg : HwCfg} {tail : List UInt8} {Φ : Msg → Prop} {b v : Nat} {ts : List Token}

/-- Groups that leave no byte make no difference. -/
theorem End.congr {us : List Token} {s : DecState} (h : End ts tail Φ s) (he : sentGroups ts = sentGroups us) : End us tail Φ s :=
  ⟨by rw [h.eom, he], by rw [h.buffer, he], h.msg⟩

/-- The rest of a message of two groups is consumed, up to the second one. -/
theorem returns_consume_two {c w : Nat} (hb : 0 < b) (hc : 0 < c) :
    Proc.Returns (End (.field b v :: .stop :: [.field c w, .stop]) tail Φ) CONSUME_REST fun _ => At [.field c w, .stop] tail Φ := by
  intro s hs
  have heom : s.eom = false := by rw [hs.eom, sentGroups_cons _ _ hb]; rfl
  have hend : End [.field c w, .stop] tail Φ (s.enter (.field b v :: .stop :: [.field c w, .stop]) tail) := ⟨rfl, rfl, hs.msg⟩
  have hmore : (s.enter (.field b v :: .stop :: [.field c w, .stop]) tail).eom = false := by rw [hend.eom, sentGroups_cons _ _ hc]; rfl
  have hlast : ((s.enter (.field b v :: .stop :: [.field c w, .stop]) tail).enter [.field c w, .stop] tail).eom = true := by
    simp [DecState.enter, laterGroups, groups, width]
  obtain ⟨n, hn⟩ : ∃ n, s.buffer.length = n + 1 := by
    refine Nat.exists_eq_add_one.2 (List.length_pos_iff.2 fun h0 => ?_)
    have hcons := consume_apply hb hs
    simp [CONSUME_BYTES, heom, h0, consume_bytes] at hcons
  refine ⟨(), _, ?_, at_enter hend⟩
  simp only [CONSUME_REST, Proc.get_bind_apply, consume_rest, hn, heom, Bool.not_false, Proc.when_true]
  rw [Proc.bind_ok (consume_apply hb hs)]
  simp only [Proc.get_bind_apply, hmore, Bool.not_false, Proc.when_true]
  rw [Proc.bind_ok (consume_apply hc hend), consume_rest_eom _ hlast]

/-- A group that the message does not have is taken for the timestamp, if there is none. -/
theorem returns_finished_extra (hwcfg : HwCfg) (m : Msg) (hsync : msg_is_sync m = false) (hb : 0 < b) (hv : v < 2 ^ b) (h64 : b ≤ 64)
    {Ψ : Msg → Prop} (hΨ : ∀ m', Φ m' → m'.timestamp = 0 → hwcfg.ts_bits = 0 → Ψ m')
    (hset : ∀ m', Φ m' → hwcfg.ts_bits ≠ 0 → Ψ (m'.set_timestamp (if m.timestamp = 0 then v else m.timestamp.toNat))) :
    Proc.Returns (End (.field b v :: .stop :: timestampLayout hwcfg m) tail fun m' => Φ m' ∧ m'.timestamp = 0) (finished_common hwcfg)
      fun _ => End [] tail Ψ := by
  intro s hs
  have heom : s.eom = false := by rw [hs.eom, sentGroups_cons _ _ hb]; rfl
  have hread : finished_common hwcfg s = (CONSUME_REST >>= fun _ =>
      Proc.when (hwcfg.ts_bits ≠ 0) (do let _ ← UNPACK_VAR_REQ Msg.set_timestamp)) s := by
    simp only [finished_common, Proc.get_bind_apply, heom, Bool.and_false, Bool.false_eq_true, if_false]
  by_cases hbits : hwcfg.ts_bits = 0
  · have hlay : timestampLayout hwcfg m = [] := by simp [timestampLayout, hbits, Token.opt]
    rw [hlay] at hs
    obtain ⟨⟨⟩, t, ht, hat⟩ := returns_consume_rest hb s hs
    refine ⟨(), t, ?_, hat.eom, hat.buffer, hΨ _ hat.msg.1 hat.msg.2 hbits⟩
    rw [hread, Proc.bind_ok ht, hbits]
    rfl
  · -- the last group, of `c` bits with the value `w`
    have hlast : ∀ {c w : Nat}, w < 2 ^ c → 0 < c → c ≤ 64 → w = (if m.timestamp = 0 then v else m.timestamp.toNat) →
        (∃ t, CONSUME_REST s = some (.ok (), t) ∧ At [.field c w, .stop] tail (fun m' => Φ m' ∧ m'.timestamp = 0) t) →
        ∃ a t, finished_common hwcfg s = some (.ok a, t) ∧ End [] tail Ψ t := by
      rintro c w hw hc h64 rfl ⟨t, ht, hat⟩
      have hlastvar : Proc.Returns (At [.field c (if m.timestamp = 0 then v else m.timestamp.toNat), .stop] tail fun m' => Φ m' ∧ m'.timestamp = 0)
          (UNPACK_VAR_REQ Msg.set_timestamp) fun n s => c ≤ n ∧ End [] tail Ψ s := returns_var_req hc hw h64 fun m' h => hset m' h.1 hbits
      obtain ⟨n, u, hvar, -, hend⟩ := hlastvar t hat
      refine ⟨(), u, ?_, hend⟩
      rw [hread, Proc.bind_ok ht, show decide (hwcfg.ts_bits ≠ 0) = true by simpa using hbits, Proc.when_true, Proc.bind_ok hvar]
      rfl
    have hlay : timestampLayout hwcfg m = varTokens m.timestamp.toNat := by simp [timestampLayout, hbits, hsync, Token.opt]
    rw [hlay] at hs
    by_cases h0 : m.timestamp = 0
    · have hsent : sentGroups (.field b v :: .stop :: varTokens m.timestamp.toNat) = sentGroups [.field b v, .stop] := by
        rw [h0]
        simp [sentGroups, groups, varTokens, clzg, List.filter_cons, width]
      obtain ⟨⟨⟩, t, ht, hat⟩ := returns_consume_rest hb s (hs.congr hsent)
      exact hlast hv hb h64 (by rw [if_pos h0]) ⟨t, ht, hat⟩
    · have hts := lt_two_pow_clzg m.timestamp.toNat_lt 64
      have hpos : 0 < m.timestamp.toNat := Nat.pos_of_ne_zero fun h => h0 (UInt64.toNat_inj.1 h)
      have hc : 0 < 64 - clzg m.timestamp.toNat 64 := by
        refine Nat.pos_of_ne_zero fun h => ?_
        rw [h] at hts
        have := hts.1
        omega
      obtain ⟨⟨⟩, t, ht, hat⟩ := returns_consume_two hb hc s hs
      exact hlast hts.1 hc (by omega) (by rw [if_neg h0]) ⟨t, ht, hat⟩

end Finished

/-! ## Reading an ICT message -/

/-- The timestamp that is read back. -/
def ict_timestamp (hwcfg : HwCfg) (m : Msg) : UInt64 :=
  if hwcfg.ts_bits = 0 then 0 else if m.ckdf = 0 ∧ m.timestamp = 0 then m.ckdata1 else m.timestamp

/-- An ICT message and how it is read back, up to CKDATA0. -/
structure IctHead (hwcfg : HwCfg) (m m' : Msg) : Prop where
  tcode : m'.tcode = .ICT
  src : m'.src.toNat = m.src.toNat % 2 ^ hwcfg.src_bits
  cksrc : m'.cksrc = m.cksrc
  ckdf : m'.ckdf = m.ckdf
  ckdata0 : m'.ckdata0 = m.ckdata0

theorem set_ckdata0_timestamp (v : Nat) (m : Msg) : (m.set_ckdata0 v).timestamp = m.timestamp := rfl

theorem ckdata0_set {v : Nat} (hv : v < 2 ^ 64) (m : Msg) : (m.set_ckdata0 v).ckdata0 = v := by
  simp only [Msg.set_ckdata0, Msg.ckdata0, UInt32.toNat_ofNat']
  omega

theorem IctHead.set_ckdata0 {hwcfg : HwCfg} {m m' : Msg} {v : Nat} (htc : m'.tcode = .ICT) (hsrc : m'.src.toNat = m.src.toNat % 2 ^ hwcfg.src_bits)
    (hcksrc : m'.cksrc = m.cksrc) (hckdf : m'.ckdf = m.ckdf) (hv : v = m.ckdata0) (hlt : v < 2 ^ 64) : IctHead hwcfg m (m'.set_ckdata0 v) :=
  ⟨htc, hsrc, hcksrc, hckdf, (ckdata0_set hlt m').trans hv⟩

theorem IctHead.set_timestamp {hwcfg : HwCfg} {m m' : Msg} (h : IctHead hwcfg m m') (v : Nat) : IctHead hwcfg m (m'.set_timestamp v) :=
  ⟨h.tcode, h.src, h.cksrc, h.ckdf, h.ckdata0⟩

theorem IctHead.set_ckdata1 {hwcfg : HwCfg} {m m' : Msg} (h : IctHead hwcfg m m') (v : Nat) : IctHead hwcfg m (m'.set_ckdata1 v) :=
  ⟨h.tcode, h.src, h.cksrc, h.ckdf, h.ckdata0⟩

theorem IctHead.carried {hwcfg : HwCfg} {m m' : Msg} (h : IctHead hwcfg m m') (ht : m.tcode = .ICT) (hfit : m.src.toNat < 2 ^ hwcfg.src_bits)
    (h1 : m.ckdf ≠ 0 → m'.ckdata1 = m.ckdata1) : m'.carried = m.carried := by
  have hsrc := h.src
  rw [Nat.mod_eq_of_lt hfit] at hsrc
  by_cases h0 : m.ckdf > 0
  · simp only [Msg.carried, h.tcode, ht, hsrc, h.cksrc, h.ckdf, h.ckdata0, if_pos h0, h1 (Nat.ne_of_gt h0)]
  · simp only [Msg.carried, h.tcode, ht, hsrc, h.cksrc, h.ckdf, h.ckdata0, if_neg h0]

section Ict
variable {hwcfg : HwCfg} {m : Msg} {tail : List UInt8}

theorem returns_ict_rest (hwcfg : HwCfg) (hm : m.tcode = .ICT) :
    Proc.Returns (At (restLayout m ++ timestampLayout hwcfg m) tail fun m' =>
        m'.tcode = .ICT ∧ m'.src.toNat = m.src.toNat % 2 ^ hwcfg.src_bits ∧ m'.timestamp = 0)
      (decode_rest hwcfg .ICT) fun _ => End [] tail fun m' => IctHead hwcfg m m' ∧ (m.ckdf ≠ 0 → m'.ckdata1 = m.ckdata1) ∧
        m'.timestamp = ict_timestamp hwcfg m := by
  simp only [restLayout, hm, List.append_assoc, List.cons_append, List.nil_append, decode_rest]
  refine Proc.Returns.bind (Q := fun _ => At (.field 2 m.ckdf :: (reqTokens m.ckdata0 ++ (reqTokens m.ckdata1.toNat ++ timestampLayout hwcfg m)))
    tail fun m' => m'.tcode = .ICT ∧ m'.src.toNat = m.src.toNat % 2 ^ hwcfg.src_bits ∧ m'.timestamp = 0 ∧ m'.cksrc = m.cksrc)
    (returns_fixed (by decide) (by decide) fun m' h => ⟨h.1, h.2.1, h.2.2, bitField_unpacked (by decide) m m'⟩) fun _ => ?_
  refine Proc.Returns.bind (Q := fun _ => At (reqTokens m.ckdata0 ++ (reqTokens m.ckdata1.toNat ++ timestampLayout hwcfg m)) tail fun m' =>
      m'.tcode = .ICT ∧ m'.src.toNat = m.src.toNat % 2 ^ hwcfg.src_bits ∧ m'.timestamp = 0 ∧ m'.cksrc = m.cksrc ∧ m'.ckdf = m.ckdf)
    (returns_fixed (by decide) (by decide) fun m' h => ⟨h.1, h.2.1, h.2.2.1,
      (bitField_set_bits_of_le _ m' (by decide) (by decide)).trans h.2.2.2, bitField_unpacked (by decide) m m'⟩) fun _ => ?_
  refine Proc.Returns.bind (Q := fun _ => End (reqTokens m.ckdata1.toNat ++ timestampLayout hwcfg m) tail fun m' =>
    IctHead hwcfg m m' ∧ m'.timestamp = 0) (returns_reqTokens (ckdata0_lt m)
      fun m' h => ⟨IctHead.set_ckdata0 h.1 h.2.1 h.2.2.2.1 h.2.2.2.2 rfl (ckdata0_lt m), (set_ckdata0_timestamp _ m').trans h.2.2.1⟩) fun _ => ?_
  refine Proc.Returns.get_bind fun s hs => ?_
  rw [show s.msg.ckdf = m.ckdf from hs.msg.1.ckdf]
  refine Proc.Returns.mono (R := (· = s)) ?_ (fun t ht => ht ▸ hs) fun _ _ h => h
  by_cases h0 : m.ckdf = 0
  · -- the decoder does not read what the encoder wrote
    rw [h0, show decide (0 > 0) = false from rfl, Proc.when_false]
    refine Proc.Returns.bind (Q := fun _ => End (reqTokens m.ckdata1.toNat ++ timestampLayout hwcfg m) tail fun m' =>
      IctHead hwcfg m m' ∧ m'.timestamp = 0) (Proc.returns_pure fun _ h => h) fun _ => ?_
    refine returns_finished_extra hwcfg m (by simp [msg_is_sync, hm]) (reqTokens_pos _) (lt_two_pow_clzg m.ckdata1.toNat_lt 63).1 (by omega)
      (fun m' h hts hbits => ⟨h, fun h => absurd rfl h, by rw [hts, ict_timestamp, if_pos hbits]⟩) fun m' h hbits => ?_
    refine ⟨h.set_timestamp _, fun h => absurd rfl h, ?_⟩
    rw [ict_timestamp, if_neg hbits]
    by_cases hts : m.timestamp = 0
    · simp [Msg.set_timestamp, hts, h0]
    · simp [Msg.set_timestamp, hts]
  · rw [show decide (m.ckdf > 0) = true by simpa using Nat.pos_of_ne_zero h0, Proc.when_true]
    refine Proc.Returns.bind (Q := fun _ => End (timestampLayout hwcfg m) tail fun m' => IctHead hwcfg m m' ∧ m'.ckdata1 = m.ckdata1 ∧
      m'.timestamp = 0) (returns_req_group m.ckdata1.toNat_lt fun m' h => ?_) fun _ => ?_
    · exact ⟨h.1.set_ckdata1 _, by simp [Msg.set_ckdata1, Msg.set_xaddr, Msg.ckdata1], h.2⟩
    · refine returns_timestamp hwcfg m (fun m' h => by simp only [msg_is_sync, h.1.tcode, hm]) (fun m' h hz => ⟨h.1, fun _ => h.2.1, ?_⟩)
        fun m' h hbits => ⟨h.1.set_timestamp _, fun _ => h.2.1, ?_⟩
      · rw [h.2.2, ict_timestamp]
        rcases hz with hz | hz
        · rw [if_pos hz]
        · simp [hz, h0]
      · simp [ict_timestamp, Msg.set_timestamp, hbits, h0]

theorem returns_ict (hm : m.tcode = .ICT) :
    Proc.Returns (End (layout hwcfg m) tail fun _ => True) (decode_msg hwcfg) fun _ => End [] tail fun m' =>
      IctHead hwcfg m m' ∧ (m.ckdf ≠ 0 → m'.ckdata1 = m.ckdata1) ∧ m'.timestamp = ict_timestamp hwcfg m := by
  have hlay : layout hwcfg m = .field 6 m.tcode.code :: (Token.opt (hwcfg.src_bits ≠ 0) [.field hwcfg.src_bits m.src.toNat] ++
      (restLayout m ++ timestampLayout hwcfg m)) := by simp [layout, bodyLayout, common_tcode, hm, Token.opt]
  rw [hlay]
  refine (Proc.returns_modify (S := fun _ => End _ tail fun m' => m'.timestamp = 0) fun s hs => ⟨hs.eom, hs.buffer, rfl⟩).bind fun _ => ?_
  refine (returns_consume (by decide)).bind fun _ => ?_
  refine (returns_fixed (Ψ := fun m' => m'.tcode = .ICT ∧ m'.timestamp = 0) (by decide) (by decide) fun m' h => ?_).bind
    fun _ => Proc.Returns.get_bind fun s hs => ?_
  · rw [hm]
    exact ⟨rfl, h⟩
  have htc := hs.msg.1
  rw [htc, if_neg (by decide)]
  refine Proc.Returns.mono (P := At _ tail fun m' : Msg => m'.tcode = .ICT ∧ m'.timestamp = 0) ?_ (fun t ht => ht ▸ hs) fun _ _ h => h
  refine (Proc.returns_modify (S := fun _ => At _ tail fun m' : Msg => m'.tcode = .ICT ∧ m'.timestamp = 0 ∧ m'.src = 0) fun s hs =>
      ⟨hs.spells, hs.le, hs.lt, hs.eom, hs.buffer, hs.msg.1, hs.msg.2, rfl⟩).bind fun _ => ?_
  have hread : Proc.Returns (At (Token.opt (hwcfg.src_bits ≠ 0) [.field hwcfg.src_bits m.src.toNat] ++ (restLayout m ++ timestampLayout hwcfg m))
      tail fun m' => m'.tcode = .ICT ∧ m'.timestamp = 0 ∧ m'.src = 0)
      (Proc.when (hwcfg.src_bits ≠ 0) (UNPACK_FIXED hwcfg.src_bits Msg.set_src)) fun _ => At (restLayout m ++ timestampLayout hwcfg m) tail
      fun m' => m'.tcode = .ICT ∧ m'.src.toNat = m.src.toNat % 2 ^ hwcfg.src_bits ∧ m'.timestamp = 0 := by
    by_cases h0 : hwcfg.src_bits = 0
    · simp only [h0, ne_eq, not_true_eq_false, decide_false, Proc.when_false]
      exact Proc.returns_pure fun s hs => hs.mono fun h => ⟨h.1, by simp [h.2.2, Nat.mod_one], h.2.1⟩
    · simp only [ne_eq, h0, not_false_eq_true, decide_true, Proc.when_true]
      refine returns_fixed_of (by omega) (.inr (Nat.lt_trans m.src.toNat_lt (by decide))) fun m' h => ⟨h.1, ?_, h.2.1⟩
      have hlt : m.src.toNat % 2 ^ hwcfg.src_bits < 2 ^ 16 := Nat.lt_of_le_of_lt (Nat.mod_le _ _) m.src.toNat_lt
      simp only [Msg.set_src, UInt16.toNat_ofNat']
      exact Nat.mod_eq_of_lt hlt
  refine hread.bind fun _ => Proc.Returns.get_bind fun s hs => ?_
  have htc := hs.msg.1
  rw [show common_tcode s.msg = false by simp only [common_tcode, htc], if_neg Bool.false_ne_true, htc]
  exact (returns_ict_rest hwcfg hm).mono (fun t ht => ht ▸ hs) fun _ _ h => h

/-! ## The round trip -/

/-- There is no case for CKDF 2 and 3. -/
theorem encode_rest_ckdf (limit : Nat) (hm : m.tcode = .ICT) (hgt : m.ckdf > 1) (s t : EncState) : encode_rest limit m s ≠ some (.ok (), t) := by
  intro hrun
  simp only [encode_rest, hm] at hrun
  obtain ⟨_, _, -, hrun⟩ := Proc.bind_eq_ok.1 hrun
  obtain ⟨_, _, -, hrun⟩ := Proc.bind_eq_ok.1 hrun
  obtain ⟨_, _, -, hrun⟩ := Proc.bind_eq_ok.1 hrun
  rw [if_pos hgt] at hrun
  cases hrun

/-- An ICT message that is accepted has CKDF 0 or 1. -/
theorem ict_encodable {buffer buffer' : List UInt8} {limit n : Nat} (hm : m.tcode = .ICT)
    (h : msg_encode hwcfg buffer limit m = some (.ok n, buffer')) : encodable m := by
  have hk : msg_known m := by
    cases hk : msg_known m with
    | true => rfl
    | false => simp [msg_encode, encode_msg, hk] at h
  have hckdf : m.ckdf ≤ 1 := by
    refine Nat.le_of_not_lt fun hgt => ?_
    simp only [msg_encode, encode_msg_eq hwcfg limit hk, Option.map_eq_some_iff] at h
    obtain ⟨⟨r, st⟩, hrun, heq⟩ := h
    cases heq
    obtain ⟨_, _, -, hrun⟩ := Proc.bind_eq_ok.1 hrun
    obtain ⟨_, _, hbody, -⟩ := Proc.bind_eq_ok.1 hrun
    rw [show decide (m.tcode ≠ .Idle) = true by simp [hm], Proc.when_true] at hbody
    obtain ⟨_, _, -, hbody⟩ := Proc.bind_eq_ok.1 hbody
    obtain ⟨_, _, hrest, -⟩ := Proc.bind_eq_ok.1 hbody
    rw [show common_tcode m = false by simp [common_tcode, hm], if_neg Bool.false_ne_true] at hrest
    exact encode_rest_ckdf limit hm hgt _ _ hrest
  simp [encodable, hm, hk, hckdf]

/-- Decoding the bytes of an ICT message, whatever follows them and whatever the caller's
message held before. -/
theorem ict_decode_encode {buffer buffer' : List UInt8} {limit n : Nat} (hlim : limit ≤ buffer.length) (_hsrc : hwcfg.src_bits ≤ 16)
    (hm : m.tcode = .ICT) (h : msg_encode hwcfg buffer limit m = some (.ok n, buffer')) (rest : List UInt8) (m₀ : Msg) :
    ∃ m', msg_decode hwcfg (buffer'.take n ++ rest) m₀ = some (.ok n, m') ∧ IctHead hwcfg m m' ∧ (m.ckdf ≠ 0 → m'.ckdata1 = m.ckdata1) ∧
      m'.timestamp = ict_timestamp hwcfg m := by
  obtain ⟨hn, hbuf⟩ := msg_encode_take hlim (ict_encodable hm h) h
  rw [hbuf, ← hn, List.take_left]
  exact decode_of_returns (returns_ict hm) m₀

/-- The fields of an ICT message come back, CKDATA1 if CKDF says that there is one, and
nothing is taken for a timestamp that is not one. -/
structure IctReturned (hwcfg : HwCfg) (m m' : Msg) : Prop where
  tcode : m'.tcode = .ICT
  cksrc : m'.cksrc = m.cksrc
  ckdf : m'.ckdf = m.ckdf
  ckdata0 : m'.ckdata0 = m.ckdata0
  ckdata1 : m.ckdf > 0 → m'.ckdata1 = m.ckdata1
  timestamp : m'.timestamp = if hwcfg.ts_bits = 0 then 0 else m.timestamp

/-- Without CKDF, timestamps or a nonzero timestamp in its place, CKDATA1 is read back as the
timestamp: an ICT message comes back exactly if that cannot be or CKDATA1 is 0. -/
theorem ict_returned_iff {buffer buffer' : List UInt8} {limit n : Nat} (hlim : limit ≤ buffer.length) (hsrc : hwcfg.src_bits ≤ 16)
    (hm : m.tcode = .ICT) (h : msg_encode hwcfg buffer limit m = some (.ok n, buffer')) :
    (∀ rest m₀, ∃ m', msg_decode hwcfg (buffer'.take n ++ rest) m₀ = some (.ok n, m') ∧ IctReturned hwcfg m m') ↔
      m.ckdf ≠ 0 ∨ hwcfg.ts_bits = 0 ∨ m.timestamp ≠ 0 ∨ m.ckdata1 = 0 := by
  constructor
  · intro hall
    obtain ⟨m', hdec, hret⟩ := hall [] Msg.zero
    obtain ⟨m'', hdec', -, -, hts⟩ := ict_decode_encode hlim hsrc hm h [] Msg.zero
    obtain rfl : m' = m'' := by
      rw [hdec] at hdec'
      simpa using hdec'
    by_cases hckdf : m.ckdf = 0
    · by_cases hbits : hwcfg.ts_bits = 0
      · exact .inr (.inl hbits)
      · by_cases hzero : m.timestamp = 0
        · have heq := hret.timestamp
          rw [hts, ict_timestamp, if_neg hbits, if_neg hbits, if_pos ⟨hckdf, hzero⟩, hzero] at heq
          exact .inr (.inr (.inr heq))
        · exact .inr (.inr (.inl hzero))
    · exact .inl hckdf
  · intro hcond rest m₀
    obtain ⟨m', hdec, hhead, hck, hts⟩ := ict_decode_encode hlim hsrc hm h rest m₀
    refine ⟨m', hdec, hhead.tcode, hhead.cksrc, hhead.ckdf, hhead.ckdata0, fun hpos => hck (Nat.ne_of_gt hpos), ?_⟩
    rw [hts, ict_timestamp]
    by_cases hbits : hwcfg.ts_bits = 0
    · rw [if_pos hbits, if_pos hbits]
    · rw [if_neg hbits, if_neg hbits]
      by_cases hboth : m.ckdf = 0 ∧ m.timestamp = 0
      · rw [if_pos hboth, hboth.2]
        simpa [hboth.1, hboth.2, hbits] using hcond
      · rw [if_neg hboth]

end Ict

def ict_cfg : HwCfg := ⟨0, 8, 0, 0, 0, false, false, false⟩

def ict_dropped : Msg := { Msg.zero with tcode := .ICT, hist := 5, xaddr := 9 }

/-- With a timestamp in the message, CKDATA1 is skipped. -/
theorem ict_returned_timestamp :
    (∀ rest m₀, ∃ m', msg_decode ict_cfg ([136, 0, 21, 37, 31, 0, 0, 0].take 5 ++ rest) m₀ = some (.ok 5, m') ∧
        IctReturned ict_cfg { ict_dropped with timestamp := 7 } m') ↔
      (Msg.ckdf { ict_dropped with timestamp := 7 } ≠ 0 ∨ ict_cfg.ts_bits = 0 ∨ ({ ict_dropped with timestamp := 7 } : Msg).timestamp ≠ 0 ∨
        Msg.ckdata1 { ict_dropped with timestamp := 7 } = 0) :=
  @ict_returned_iff _ _ (List.replicate 8 0) _ 8 5 (by decide) (by decide) rfl (by decide)

/-- CKDATA1 is 9 and there is no timestamp, but the timestamp is read as 9. -/
theorem ict_ckdata1_read_as_timestamp :
    ¬ ∀ (hwcfg : HwCfg) (m : Msg) (buffer buffer' : List UInt8) (limit n : Nat), limit ≤ buffer.length → hwcfg.src_bits ≤ 16 → m.tcode = .ICT →
      msg_encode hwcfg buffer limit m = some (.ok n, buffer') → ∀ rest m₀,
        ∃ m', msg_decode hwcfg (buffer'.take n ++ rest) m₀ = some (.ok n, m') ∧ IctReturned hwcfg m m' := by
  intro hall
  obtain ⟨m', hdec, hret⟩ := hall ict_cfg ict_dropped (List.replicate 8 0) [136, 0, 21, 39, 0, 0, 0, 0] 8 4 (by decide) (by decide) rfl
    (by decide) [] Msg.zero
  have hts : (msg_decode ict_cfg [136, 0, 21, 39] Msg.zero).map (fun r => r.2.timestamp) = some 9 := by decide
  have heq := hret.timestamp
  rw [show ([136, 0, 21, 39, 0, 0, 0, 0] : List UInt8).take 4 ++ [] = [136, 0, 21, 39] from rfl] at hdec
  rw [hdec] at hts
  simp [heq, ict_cfg, ict_dropped, Msg.zero] at hts

end nexusrv
