import NexusRv.Layout
import NexusRv.Decoder
/-!
# Decoding what was encoded

The decoder walks over the frame of a layout token by token: `At ts` is a
position inside a group with the tokens `ts` still to read, `End ts` a position
between two groups. Each `UNPACK` macro moves from one position to the next and
stores exactly the value the encoder packed there.
-/

namespace nexusrv

open Fields

/-! ## What a message carries -/

/-- The values of the fields a message of this TCODE carries, without the
timestamp. -/
def Msg.carried (m : Msg) : List Nat :=
  match m.tcode with
  | .Idle => []
  | .Ownership => [m.src.toNat, m.ownership_fmt, m.ownership_priv, m.ownership_v, m.context.toNat]
  | .Error => [m.src.toNat, m.error_type, m.error_code.toNat]
  | .DirectBranch => [m.src.toNat, m.icnt.toNat]
  | .DirectBranchSync => [m.src.toNat, m.sync_type, m.icnt.toNat, m.xaddr.toNat]
  | .IndirectBranch => [m.src.toNat, m.branch_type, m.icnt.toNat, m.xaddr.toNat]
  | .IndirectBranchSync => [m.src.toNat, m.sync_type, m.branch_type, m.icnt.toNat, m.xaddr.toNat]
  | .IndirectBranchHist => [m.src.toNat, m.branch_type, m.icnt.toNat, m.xaddr.toNat, m.hist.toNat]
  | .IndirectBranchHistSync =>
    [m.src.toNat, m.sync_type, m.branch_type, m.icnt.toNat, m.xaddr.toNat, m.hist.toNat]
  | .ProgTraceSync => [m.src.toNat, m.sync_type, m.icnt.toNat, m.xaddr.toNat]
  | .DataAcquisition => [m.src.toNat, m.idtag, m.dqdata.toNat]
  | .ResourceFull => m.src.toNat :: m.res_code ::
    match m.res_code with
    | 0 => [m.icnt.toNat]
    | 1 => [m.hist.toNat]
    | 2 => [m.hist.toNat, m.hrepeat.toNat]
    | _ => [m.res_data.toNat]
  | .RepeatBranch => [m.src.toNat, m.hrepeat.toNat]
  | .ProgTraceCorrelation => m.src.toNat :: m.stop_code :: m.cdf :: m.icnt.toNat ::
    if m.cdf = 1 then [m.hist.toNat] else []
  | .ICT => m.src.toNat :: m.cksrc :: m.ckdf :: m.ckdata0 :: if m.ckdf > 0 then [m.ckdata1.toNat] else []
  | .other .. => [m.src.toNat]

/-! ## `unpack_bits` -/

/-- Shift in `k` more bits below a 64-bit value. -/
theorem shl_or {k low : Nat} (x : Nat) (hk : k ≤ 64) (hlow : low < 2 ^ k) :
    x <<< k % 2 ^ 64 ||| low = (2 ^ k * x + low) % 2 ^ 64 := by
  have h64 : 2 ^ 64 = 2 ^ k * 2 ^ (64 - k) := by rw [← Nat.pow_add, Nat.add_sub_cancel' hk]
  rw [Nat.shiftLeft_eq, Nat.mul_comm, h64, Nat.mul_mod_mul_left, ← Nat.two_pow_add_eq_or_of_lt hlow,
    Nat.mod_mul, Nat.mul_add_mod, Nat.mod_eq_of_lt hlow, Nat.mul_add_div (Nat.two_pow_pos _),
    Nat.div_eq_of_lt hlow, Nat.add_zero, Nat.add_comm]

/-- The bytes whose `mdo` are the digits of `N`. -/
def Spells (bytes : List UInt8) (N : Nat) : Prop := ∀ i, mdo (bytes.getD i 0) = N / 2 ^ (6 * i) % 2 ^ 6

/-- The number with these digits. -/
def payload : List UInt8 → Nat
  | [] => 0
  | b :: bs => mdo b + 2 ^ 6 * payload bs

theorem spells_payload (bs : List UInt8) : Spells bs (payload bs) := by
  induction bs with
  | nil => intro i; simp [mdo, payload]
  | cons b bs ih =>
    have hb := mdo_lt b
    intro i
    cases i with
    | zero =>
      rw [List.getD_cons_zero, payload, Nat.mul_zero, Nat.pow_zero, Nat.div_one]
      omega
    | succ i =>
      rw [List.getD_cons_succ, ih i, payload, Nat.mul_succ, Nat.add_comm (6 * i), Nat.pow_add, ← Nat.div_div_eq_div_mul,
        Nat.add_mul_div_left _ _ (Nat.two_pow_pos 6), Nat.div_eq_of_lt (show mdo b < 2 ^ 6 from hb), Nat.zero_add]

/-- The loop holds the bits of `N` from byte `start_byte + n + 1` on. -/
theorem unpack_bits_loop_spec {bytes : List UInt8} {N shift : Nat} (start : Nat) (h : Spells bytes N) (hs : shift < 6) :
    ∀ n v, unpack_bits_loop bytes start shift n (v % 2 ^ 64) =
      (2 ^ (6 * (n + 1) - shift) * v + N / 2 ^ (6 * start + shift) % 2 ^ (6 * (n + 1) - shift)) % 2 ^ 64 := by
  intro n
  induction n with
  | zero =>
    intro v
    have hd : mdo (bytes.getD start 0) >>> shift = N / 2 ^ (6 * start + shift) % 2 ^ (6 - shift) := by
      rw [h, Nat.shiftRight_eq_div_pow, Nat.pow_add, ← Nat.div_div_eq_div_mul,
        show 2 ^ 6 = 2 ^ shift * 2 ^ (6 - shift) by rw [← Nat.pow_add, Nat.add_sub_cancel' (by omega)],
        Nat.mod_mul_right_div_self]
    rw [unpack_bits_loop, hd, shl_or _ (by simp only [MDO_BITS]; omega) (Nat.mod_lt _ (Nat.two_pow_pos _))]
    simp only [MDO_BITS, Nat.zero_add, Nat.mul_one]
    rw [Nat.add_mod, Nat.mul_mod, Nat.mod_mod, ← Nat.mul_mod, ← Nat.add_mod]
  | succ n ih =>
    intro v
    have hlow : mdo (bytes.getD (start + (n + 1)) 0) < 2 ^ 6 := by rw [h]; exact Nat.mod_lt _ (Nat.two_pow_pos _)
    have hstep : (v % 2 ^ 64) <<< MDO_BITS % 2 ^ 64 ||| mdo (bytes.getD (start + (n + 1)) 0) =
        (2 ^ 6 * v + mdo (bytes.getD (start + (n + 1)) 0)) % 2 ^ 64 := by
      rw [show MDO_BITS = 6 by rfl, shl_or _ (by decide) hlow, Nat.add_mod, Nat.mul_mod, Nat.mod_mod, ← Nat.mul_mod,
        ← Nat.add_mod]
    have hexp : 6 * (n + 1 + 1) - shift = 6 * (n + 1) - shift + 6 := by omega
    have hdig : N / 2 ^ (6 * start + shift) % 2 ^ (6 * (n + 1 + 1) - shift) =
        N / 2 ^ (6 * start + shift) % 2 ^ (6 * (n + 1) - shift) +
          2 ^ (6 * (n + 1) - shift) * mdo (bytes.getD (start + (n + 1)) 0) := by
      rw [hexp, Nat.pow_add _ _ 6, Nat.mod_mul, Nat.div_div_eq_div_mul, ← Nat.pow_add, h,
        show 6 * start + shift + (6 * (n + 1) - shift) = 6 * (start + (n + 1)) by omega]
    rw [unpack_bits_loop, hstep, ih, hdig, hexp, Nat.pow_add _ _ 6]
    congr 1
    ring

theorem unpack_bits_spec {bytes : List UInt8} {N off bits : Nat} (h : Spells bytes N) :
    unpack_bits bytes off bits = N / 2 ^ off % 2 ^ min bits 64 := by
  by_cases hb : bits = 0
  · simp [unpack_bits, hb, Nat.mod_one]
  have hloop := unpack_bits_loop_spec (off / 6) h (Nat.mod_lt off (by decide))
    ((off + bits - 1) / 6 - off / 6) 0
  rw [Nat.zero_mod, Nat.mul_zero, Nat.zero_add, Nat.div_add_mod] at hloop
  have hK : bits ≤ 6 * ((off + bits - 1) / 6 - off / 6 + 1) - off % 6 := by omega
  generalize 6 * ((off + bits - 1) / 6 - off / 6 + 1) - off % 6 = K at hloop hK
  have hcut : ∀ j, j ≤ K → N / 2 ^ off % 2 ^ K % 2 ^ j = N / 2 ^ off % 2 ^ j :=
    fun j hj => Nat.mod_mod_of_dvd _ (Nat.pow_dvd_pow 2 hj)
  simp only [unpack_bits, MDO_BITS, hloop]
  split
  · rename_i hlt
    rw [Nat.mod_mod_of_dvd _ (Nat.pow_dvd_pow 2 (by omega)), hcut _ hK, Nat.min_eq_left (by omega)]
  · rw [Nat.min_eq_right (by omega), hcut _ (by omega)]

/-! ## The groups of a frame -/

/-- The bytes of groups that are not empty, as a message. -/
def frames : List (List Field) → List UInt8
  | [] => []
  | g :: gs => endMark (if gs.isEmpty then 3 else 1) (openBytes g) ++ frames gs

theorem groupBytes_cons (g : List Field) {gs : List (List Field)} (h : gs ≠ []) :
    groupBytes (g :: gs) = endMark 1 (openBytes g) ++ groupBytes gs := by
  obtain ⟨c, cs, rfl⟩ := List.exists_cons_of_ne_nil h
  simp [groupBytes, closedBytes, List.getLast?_cons]

theorem endMark_eq_nil {m : Nat} {bs : List UInt8} : endMark m bs = [] ↔ bs = [] := by
  rw [← List.length_eq_zero_iff, endMark_length, List.length_eq_zero_iff]

/-- A group without bits leaves no bytes. -/
theorem frame_eq_frames {gs : List (List Field)} :
    frame gs = frames (gs.filter (width · ≠ 0)) := by
  induction gs with
  | nil => rfl
  | cons g gs ih =>
    by_cases hne : gs = []
    · subst hne
      by_cases hg : width g = 0
      · simp [frame, groupBytes, closedBytes, hg, openBytes_eq_nil.2 hg, frames, endMark]
      · simp [frame, groupBytes, closedBytes, hg, frames]
    · have hnil : groupBytes gs = [] ↔ frame gs = [] := by rw [frame, endMark_eq_nil]
      by_cases hg : width g = 0
      · rw [frame, groupBytes_cons g hne, openBytes_eq_nil.2 hg, show endMark 1 [] = [] from rfl, List.nil_append,
          ← frame, ih, List.filter_cons_of_neg (by simp [hg])]
      · rw [List.filter_cons_of_pos (by simp [hg]), frames]
        by_cases hf : gs.filter (width · ≠ 0) = []
        · have hb : groupBytes gs = [] := by rw [hnil, ih, hf]; rfl
          rw [hf, frame, groupBytes_cons g hne, hb, List.append_nil, endMark_endMark]
          simp [frames]
        · have hb : groupBytes gs ≠ [] := by
            rw [Ne, hnil, ih]
            obtain ⟨c, cs, hc⟩ := List.exists_cons_of_ne_nil hf
            have hw : width c ≠ 0 := by
              have : c ∈ gs.filter (width · ≠ 0) := by rw [hc]; simp
              simpa using (List.mem_filter.1 this).2
            rw [hc, frames]
            simp [endMark_eq_nil, openBytes_eq_nil, hw]
          have hne' : (gs.filter (width · ≠ 0)).isEmpty = false := by simpa [List.isEmpty_iff] using hf
          rw [frame, groupBytes_cons g hne, endMark_append _ _ _ hb, ← frame, ih, hne']
          rfl

/-- The bytes of a group that is not empty: all MSEO 0 but the last. -/
theorem endMark_openBytes {g : List Field} (m : Nat) (h : width g ≠ 0) :
    ∃ ds d, openBytes g = (ds ++ [d]).map (msg_byte 0) ∧
      endMark m (openBytes g) = ds.map (msg_byte 0) ++ [msg_byte m d] := by
  have hne : digits 6 (digitCount 6 (width g)) (pack g) ≠ [] := by
    intro he
    exact h (openBytes_eq_nil.1 (by rw [openBytes, bitBytes, he]; rfl))
  obtain hnil | ⟨ds, d, hd⟩ := (digits 6 (digitCount 6 (width g)) (pack g)).eq_nil_or_concat
  · exact absurd hnil hne
  · refine ⟨ds, d, by rw [openBytes, bitBytes, hd, List.concat_eq_append], ?_⟩
    rw [openBytes, bitBytes, hd, List.concat_eq_append]
    simp [endMark, List.getD_eq_getElem?_getD]

theorem consume_bytes_map (ds : List Nat) (bs : List UInt8) :
    consume_bytes (ds.map (msg_byte 0) ++ bs) = (consume_bytes bs).map fun r => (r.1 + ds.length, r.2) := by
  induction ds with
  | nil => simp only [List.map_nil, List.nil_append]; rcases consume_bytes bs with _ | ⟨_, _⟩ <;> rfl
  | cons d ds ih =>
    rw [List.map_cons, List.cons_append, consume_bytes, ih]
    rcases consume_bytes bs with _ | ⟨_, _⟩ <;> simp [Except.map, Nat.add_assoc]

theorem consume_bytes_group {g : List Field} {m : Nat} (h : width g ≠ 0) (hm : m = 1 ∨ m = 3) (rest : List UInt8) :
    consume_bytes (endMark m (openBytes g) ++ rest) = .ok ((openBytes g).length, m = 3) := by
  obtain ⟨ds, d, hopen, hend⟩ := endMark_openBytes m h
  rw [hend, hopen, List.append_assoc, consume_bytes_map]
  rcases hm with rfl | rfl <;> simp [consume_bytes, Except.map, Nat.add_comm]

theorem mdo_getD_map (ds : List Nat) (i : Nat) : mdo ((ds.map (msg_byte 0)).getD i 0) = ds.getD i 0 % 64 := by
  rw [List.getD_eq_getElem?_getD, List.getElem?_map, List.getD_eq_getElem?_getD]
  cases ds[i]? with
  | none => rfl
  | some d => exact mdo_msg_byte 0 d

theorem spells_group (g : List Field) (m : Nat) : Spells (endMark m (openBytes g)) (pack g) := by
  have hopen : ∀ i, mdo ((openBytes g).getD i 0) = pack g / 2 ^ (6 * i) % 2 ^ 6 := by
    intro i
    rw [openBytes, bitBytes, mdo_getD_map, digits, List.getD_eq_getElem?_getD, List.getElem?_map]
    by_cases hi : i < digitCount 6 (width g)
    · simp [hi]
    · have hle := le_digitCount_mul 6 (width g) (by decide)
      have hlt : pack g < 2 ^ (6 * i) := Nat.lt_of_lt_of_le (pack_lt g) (Nat.pow_le_pow_right (by decide) (by omega))
      simp [List.getElem?_eq_none (show (List.range (digitCount 6 (width g))).length ≤ i by simp; omega),
        Nat.div_eq_of_lt hlt]
  intro i
  rw [← hopen i]
  by_cases hw : width g = 0
  · rw [openBytes_eq_nil.2 hw]; rfl
  · obtain ⟨ds, d, ho, he⟩ := endMark_openBytes m hw
    rw [he, ho, List.map_append, List.map_singleton]
    rcases Nat.lt_or_ge i (ds.map (msg_byte 0)).length with hi | hi
    · rw [List.getD_append _ _ _ _ hi, List.getD_append _ _ _ _ hi]
    · rw [List.getD_append_right _ _ _ _ hi, List.getD_append_right _ _ _ _ hi]
      rcases i - (ds.map (msg_byte 0)).length with _ | k <;> simp

/-! ## Positions -/

/-- The groups the tokens make, from the open group on. -/
def openGroup (ts : List Token) : List Field := (groups ts).headD []

/-- The groups that leave bytes, behind the open one and with it. -/
def laterGroups (ts : List Token) : List (List Field) := (groups ts).tail.filter (width · ≠ 0)
def sentGroups (ts : List Token) : List (List Field) := (groups ts).filter (width · ≠ 0)

theorem openGroup_field (b v : Nat) (ts : List Token) : openGroup (.field b v :: ts) = (b, v) :: openGroup ts := rfl
theorem openGroup_stop (ts : List Token) : openGroup (.stop :: ts) = [] := rfl

theorem sentGroups_cons {b : Nat} (v : Nat) (ts : List Token) (hb : 0 < b) :
    sentGroups (.field b v :: ts) = openGroup (.field b v :: ts) :: laterGroups (.field b v :: ts) :=
  List.filter_cons_of_pos (by simp only [width]; exact decide_eq_true (by omega))

/-- Inside a group: the tokens `ts` are still to read, then `tail`. -/
structure At (ts : List Token) (tail : List UInt8) (Φ : Msg → Prop) (s : DecState) : Prop where
  spells : ∃ N, Spells s.group N ∧ N / 2 ^ s.bit_offset = pack (openGroup ts)
  le : s.bit_offset + width (openGroup ts) ≤ 6 * s.group.length
  lt : 6 * s.group.length < s.bit_offset + width (openGroup ts) + 6
  eom : s.eom = (laterGroups ts).isEmpty
  buffer : s.buffer = frames (laterGroups ts) ++ tail
  msg : Φ s.msg

/-- Behind a group: the tokens `ts` are still to read, then `tail`. -/
structure End (ts : List Token) (tail : List UInt8) (Φ : Msg → Prop) (s : DecState) : Prop where
  eom : s.eom = (sentGroups ts).isEmpty
  buffer : s.buffer = frames (sentGroups ts) ++ tail
  msg : Φ s.msg

section Rules
variable {ts : List Token} {tail : List UInt8} {Φ Ψ : Msg → Prop} {b v : Nat} {field : Nat → Msg → Msg}

/-- A fixed field comes back if it, or what was packed, has no more than 64 bits. -/
theorem returns_fixed_of (hb : 0 < b) (h64 : b ≤ 64 ∨ v < 2 ^ 64) (h : ∀ m, Φ m → Ψ (field (v % 2 ^ b) m)) :
    Proc.Returns (At (.field b v :: ts) tail Φ) (UNPACK_FIXED b field) fun _ => At ts tail Ψ := by
  intro s hs
  obtain ⟨N, hN, hdiv⟩ := hs.spells
  have hle := hs.le
  have hlt := hs.lt
  simp only [openGroup_field, width] at hle hlt
  have hok : ¬ s.group.length * MDO_BITS - s.bit_offset < b := by simp only [MDO_BITS]; omega
  have hval : unpack_bits s.group s.bit_offset b = v % 2 ^ b := by
    have hmod : pack ((b, v) :: openGroup ts) % 2 ^ b = v % 2 ^ b := pack_cons_mod (b, v) _
    rw [unpack_bits_spec hN, hdiv, openGroup_field]
    by_cases hle : b ≤ 64
    · rw [Nat.min_eq_left hle, hmod]
    · have hpow : 2 ^ 64 ≤ 2 ^ b := Nat.pow_le_pow_right (by decide) (by omega)
      have hv : v < 2 ^ 64 := h64.resolve_left hle
      rw [Nat.min_eq_right (by omega), ← Nat.mod_mod_of_dvd _ (Nat.pow_dvd_pow 2 (show 64 ≤ b by omega)), hmod,
        Nat.mod_eq_of_lt (Nat.lt_of_lt_of_le hv hpow), Nat.mod_eq_of_lt hv]
  have hrun : UNPACK_FIXED b field s =
      some (.ok (), { s with msg := field (v % 2 ^ b) s.msg, bit_offset := s.bit_offset + b }) := by
    simp only [UNPACK_FIXED, Proc.get_bind_apply, Proc.ite_apply, if_neg hok, Proc.modify_apply, hval]
  refine ⟨(), _, hrun, ⟨N, hN, ?_⟩, by dsimp only; omega, by dsimp only; omega, hs.eom, hs.buffer, h _ hs.msg⟩
  dsimp only
  rw [Nat.pow_add, ← Nat.div_div_eq_div_mul, hdiv]
  exact pack_cons_div (b, v) _

theorem returns_fixed (hb : 0 < b) (h64 : b ≤ 64) (h : ∀ m, Φ m → Ψ (field (v % 2 ^ b) m)) :
    Proc.Returns (At (.field b v :: ts) tail Φ) (UNPACK_FIXED b field) fun _ => At ts tail Ψ := returns_fixed_of hb (.inl h64) h

/-- The last field of a group, of at most 64 bits: the bits above it are zero. -/
theorem unpack_var_apply {s : DecState} {N w : Nat} (field : Nat → Msg → Msg) (hN : Spells s.group N)
    (hdiv : N / 2 ^ s.bit_offset = w) (hw : w < 2 ^ b) (h64 : b ≤ 64) (hle : s.bit_offset + b ≤ 6 * s.group.length)
    (hlt : 6 * s.group.length < s.bit_offset + b + 6) : UNPACK_VAR field s = some (.ok (6 * s.group.length - s.bit_offset), { s with
      msg := field w s.msg, bit_offset := 6 * s.group.length }) := by
  have hval : (if s.group.length * MDO_BITS - s.bit_offset = 0 then 0
      else unpack_bits s.group s.bit_offset ((s.group.length * MDO_BITS - s.bit_offset) % 2 ^ 32)) = w := by
    simp only [MDO_BITS]
    rw [Nat.mod_eq_of_lt (show s.group.length * 6 - s.bit_offset < 2 ^ 32 by omega)]
    split
    · rename_i h0
      rw [show b = 0 by omega] at hw
      omega
    · rw [unpack_bits_spec hN, hdiv]
      exact Nat.mod_eq_of_lt (Nat.lt_of_lt_of_le hw (Nat.pow_le_pow_right (by decide) (by omega)))
  simp only [UNPACK_VAR, Proc.get_bind_apply, Proc.modify_bind_apply, Proc.pure_apply, hval]
  rw [show s.group.length * MDO_BITS = 6 * s.group.length from Nat.mul_comm _ _,
    Nat.add_sub_cancel' (Nat.le_trans (Nat.le_add_right _ b) hle)]

theorem returns_var (hv : v < 2 ^ b) (h64 : b ≤ 64) (h : ∀ m, Φ m → Ψ (field v m)) :
    Proc.Returns (At (.field b v :: .stop :: ts) tail Φ) (UNPACK_VAR field) fun n s => b ≤ n ∧ End ts tail Ψ s := by
  intro s hs
  obtain ⟨N, hN, hdiv⟩ := hs.spells
  have hle := hs.le
  have hlt := hs.lt
  simp only [openGroup_field, openGroup_stop, width, pack, Nat.mod_eq_of_lt hv] at hle hlt hdiv
  exact ⟨_, _, unpack_var_apply field hN hdiv (by omega) h64 hle (by omega), by omega, hs.eom, hs.buffer, h _ hs.msg⟩

theorem returns_var_req (hb : 0 < b) (hv : v < 2 ^ b) (h64 : b ≤ 64) (h : ∀ m, Φ m → Ψ (field v m)) :
    Proc.Returns (At (.field b v :: .stop :: ts) tail Φ) (UNPACK_VAR_REQ field) fun n s => b ≤ n ∧ End ts tail Ψ s := by
  refine (returns_var hv h64 h).bind fun n s hs => ?_
  rw [Proc.ite_apply, if_neg (by omega)]
  exact ⟨n, s, rfl, hs⟩

/-- The state behind `CONSUME_BYTES`. -/
def DecState.enter (s : DecState) (ts : List Token) (tail : List UInt8) : DecState :=
  { s with
    group := endMark (if (laterGroups ts).isEmpty then 3 else 1) (openBytes (openGroup ts))
    buffer := frames (laterGroups ts) ++ tail
    bit_offset := 0
    eom := (laterGroups ts).isEmpty }

theorem consume_apply {s : DecState} (hb : 0 < b) (hs : End (.field b v :: ts) tail Φ s) :
    CONSUME_BYTES s = some (.ok (), s.enter (.field b v :: ts) tail) := by
  have hw : width (openGroup (.field b v :: ts)) ≠ 0 := by rw [openGroup_field, width]; omega
  have hsent := sentGroups_cons v ts hb
  have heom : s.eom = false := by rw [hs.eom, hsent]; rfl
  have hbuf := hs.buffer
  rw [hsent, frames, List.append_assoc] at hbuf
  have hcons := consume_bytes_group hw (m := if (laterGroups (.field b v :: ts)).isEmpty then 3 else 1)
    (by split <;> simp) (frames (laterGroups (.field b v :: ts)) ++ tail)
  rw [← hbuf] at hcons
  simp only [CONSUME_BYTES, Proc.get_bind_apply, heom, Bool.false_eq_true, if_false, hcons, Proc.modify_apply]
  rw [hbuf, ← endMark_length (if (laterGroups (.field b v :: ts)).isEmpty then 3 else 1)
    (openBytes (openGroup (.field b v :: ts))), List.take_left, List.drop_left, DecState.enter]
  cases (laterGroups (.field b v :: ts)).isEmpty <;> rfl

theorem at_enter {s : DecState} (hs : End ts tail Φ s) : At ts tail Φ (s.enter ts tail) := by
  have := le_digitCount_mul 6 (width (openGroup ts)) (by decide)
  refine ⟨⟨pack (openGroup ts), spells_group _ _, ?_⟩, ?_, ?_, rfl, rfl, hs.msg⟩
  · rw [DecState.enter, Nat.pow_zero, Nat.div_one]
  · simpa [DecState.enter, openBytes] using this
  · simpa [DecState.enter, openBytes] using digitCount_mul_lt 6 (width (openGroup ts)) (by decide)

theorem returns_consume (hb : 0 < b) :
    Proc.Returns (End (.field b v :: ts) tail Φ) CONSUME_BYTES fun _ => At (.field b v :: ts) tail Φ :=
  fun _ hs => ⟨(), _, consume_apply hb hs, at_enter hs⟩

/-! ## The fields of variable length -/

theorem lt_two_pow_clzg {v : Nat} (hv : v < 2 ^ 64) (prec : Nat) :
    v < 2 ^ (64 - clzg v prec) ∧ (0 < v → v < 2 ^ 63 → 64 - clzg v prec ≤ 63) := by
  unfold clzg
  split
  · rename_i h
    subst h
    exact ⟨Nat.two_pow_pos _, fun h => absurd h (by decide)⟩
  · rename_i h
    have h1 : Nat.log2 v < 64 := (Nat.log2_lt h).2 hv
    refine ⟨?_, fun _ h63 => ?_⟩
    · rw [show 64 - (63 - Nat.log2 v) = Nat.log2 v + 1 by omega]
      exact Nat.lt_log2_self
    · have := (Nat.log2_lt h).2 h63
      omega

theorem returns_varTokens (hv : v < 2 ^ 64) (h : ∀ m, Φ m → Ψ (field v m)) :
    Proc.Returns (At (varTokens v ++ ts) tail Φ) (UNPACK_VAR field) fun _ => End ts tail Ψ :=
  (returns_var (lt_two_pow_clzg hv 64).1 (by omega) h).mono (fun _ h => h) fun _ _ h => h.2

/-- No variable field is longer than it has to be. -/
theorem clzg_le {v k prec : Nat} (h : v < 2 ^ k) (h64 : v < 2 ^ 64) (hp : 64 - prec ≤ k) : 64 - clzg v prec ≤ k := by
  unfold clzg
  split
  · exact hp
  · rename_i h0
    have h1 := (Nat.log2_lt h0).2 h
    have h2 := (Nat.log2_lt h0).2 h64
    omega

theorem reqTokens_pos (v : Nat) : 0 < 64 - clzg v 63 := by
  unfold clzg
  split <;> omega

theorem returns_reqTokens (hv : v < 2 ^ 64) (h : ∀ m, Φ m → Ψ (field v m)) :
    Proc.Returns (At (reqTokens v ++ ts) tail Φ) (UNPACK_VAR_REQ field) fun _ => End ts tail Ψ :=
  (returns_var_req (reqTokens_pos v) (lt_two_pow_clzg hv 63).1 (by omega) h).mono (fun _ h => h) fun _ _ h => h.2

/-- A required field in a group of its own. -/
theorem returns_req_group (hv : v < 2 ^ 64) (h : ∀ m, Φ m → Ψ (field v m)) :
    Proc.Returns (End (reqTokens v ++ ts) tail Φ) (do CONSUME_BYTES; let _ ← UNPACK_VAR_REQ field)
      fun _ => End ts tail Ψ :=
  (returns_consume (reqTokens_pos v)).bind fun _ => (returns_reqTokens hv h).bind fun _ => Proc.returns_pure fun _ h => h

/-- An address is sent in as many bits as its sign extension can restore. -/
theorem xaddr_vao_bits_spec {v : Nat} (hv : v < 2 ^ 64) :
    xaddr_vao_bits 0 v = 64 ∨ 0 < xaddr_vao_bits 0 v ∧ xaddr_vao_bits 0 v < 64 ∧ xaddr_vao_bits 0 v % 6 = 0 ∧
      (v < 2 ^ (xaddr_vao_bits 0 v - 1) ∨ 2 ^ 64 - 1 - v < 2 ^ (xaddr_vao_bits 0 v - 1)) := by
  have hlow := (lt_two_pow_clzg hv 64).1
  have hnot := (lt_two_pow_clzg (v := 2 ^ 64 - 1 - v) (by omega) 64).1
  have hle : ∀ x, clzg x 64 ≤ 64 := by intro x; unfold clzg; split <;> omega
  have h1 := hle v
  have h2 := hle (2 ^ 64 - 1 - v)
  -- `bits` is one more than the length of the address or of its complement
  have hbits : ∃ k, (v < 2 ^ k ∨ 2 ^ 64 - 1 - v < 2 ^ k) ∧ xaddr_vao_bits 0 v =
      if (k + 1 + 5) / 6 * 6 > 64 then 64 else (k + 1 + 5) / 6 * 6 := by
    by_cases hk : 64 - clzg v 64 < 64
    · refine ⟨64 - clzg v 64, .inl hlow, ?_⟩
      simp only [xaddr_vao_bits, if_pos hk, MDO_BITS, Nat.zero_add, Nat.sub_zero]
      rfl
    · refine ⟨64 - clzg (2 ^ 64 - 1 - v) 64, .inr hnot, ?_⟩
      simp only [xaddr_vao_bits, if_neg hk, MDO_BITS, Nat.zero_add, Nat.sub_zero]
      rw [show 65 - clzg (2 ^ 64 - 1 - v) 64 + 6 - 1 = 64 - clzg (2 ^ 64 - 1 - v) 64 + 1 + 5 by omega]
  obtain ⟨k, hk, hb⟩ := hbits
  rw [hb]
  split
  · exact .inl rfl
  · have hmono : 2 ^ k ≤ 2 ^ ((k + 1 + 5) / 6 * 6 - 1) := Nat.pow_le_pow_right (by decide) (by omega)
    by_cases h64 : (k + 1 + 5) / 6 * 6 = 64
    · exact .inl h64
    · refine .inr ⟨by omega, by omega, by omega, hk.imp ?_ ?_⟩ <;> intro h <;> omega

theorem sign_extend_spec {b v : Nat} (hv : v < 2 ^ 64) (hb : 0 < b) (h64 : b < 64)
    (h : v < 2 ^ (b - 1) ∨ 2 ^ 64 - 1 - v < 2 ^ (b - 1)) : sign_extend b (v % 2 ^ b) = v := by
  have hhalf : 2 ^ b = 2 * 2 ^ (b - 1) := by rw [← Nat.pow_succ', Nat.succ_eq_add_one, Nat.sub_add_cancel hb]
  have h64' : 2 ^ 64 = 2 ^ b * 2 ^ (64 - b) := by rw [← Nat.pow_add, Nat.add_sub_cancel' (by omega)]
  have hone : 1 ≤ 2 ^ (64 - b) := Nat.two_pow_pos _
  unfold sign_extend
  rcases h with h | h
  · rw [Nat.mod_eq_of_lt (by omega), Nat.testBit_lt_two_pow h]
    rfl
  · -- the high bits of `v` are all set
    obtain ⟨w, hw⟩ : ∃ w, v = 2 ^ b * (2 ^ (64 - b) - 1) + w := by
      refine ⟨v - 2 ^ b * (2 ^ (64 - b) - 1), ?_⟩
      rw [Nat.mul_sub, ← h64', Nat.mul_one]
      omega
    have hw' : v = 2 ^ 64 - 2 ^ b + w := by rw [hw, Nat.mul_sub, ← h64', Nat.mul_one]
    have hle : 2 ^ b ≤ 2 ^ 64 := Nat.pow_le_pow_right (by decide) (by omega)
    have hlt : w < 2 ^ b := by omega
    have hbit : w.testBit (b - 1) = true :=
      Nat.testBit_of_two_pow_le_and_two_pow_add_one_gt (by omega) (by rw [Nat.sub_add_cancel hb]; exact hlt)
    have hhigh : 2 ^ 64 - 2 ^ b = 2 ^ b * (2 ^ (64 - b) - 1) := by rw [Nat.mul_sub, ← h64', Nat.mul_one]
    rw [hw, Nat.mul_add_mod, Nat.mod_eq_of_lt hlt, hbit, if_pos rfl, Nat.or_comm, hhigh,
      Nat.two_pow_add_eq_or_of_lt hlt]

theorem xaddr_vao_apply {s : DecState} {b : Nat} (hb : xaddr_vao_bits 0 v = b) (hv : v < 2 ^ 64)
    (hs : End (.field b v :: .stop :: ts) tail Φ s) (h : ∀ m, Φ m → Ψ (m.set_xaddr v)) :
    ∃ s', (CONSUME_BYTES >>= fun _ => UNPACK_XADDR_VAO) s = some (.ok (), s') ∧ End ts tail Ψ s' := by
  have hspec := xaddr_vao_bits_spec hv
  rw [hb] at hspec
  have hb0 : 0 < b := by omega
  have hb64 : b ≤ 64 := by omega
  have hat := at_enter hs
  have hlen : 6 * (s.enter (.field b v :: .stop :: ts) tail).group.length = 6 * digitCount 6 b := by
    simp [DecState.enter, openBytes, openGroup_field, openGroup_stop, width]
  have hvar := unpack_var_apply (b := b) (w := v % 2 ^ b) Msg.set_xaddr (spells_group _ _)
    (s := s.enter (.field b v :: .stop :: ts) tail)
    (by simp [DecState.enter, openGroup_field, openGroup_stop, pack]) (Nat.mod_lt _ (Nat.two_pow_pos _)) hb64
    (by have := le_digitCount_mul 6 b (by decide); rw [hlen]; simp only [DecState.enter]; omega)
    (by have := digitCount_mul_lt 6 b (by decide); rw [hlen]; simp only [DecState.enter]; omega)
  have hoff : (s.enter (.field b v :: .stop :: ts) tail).bit_offset = 0 := rfl
  rw [hlen, hoff, Nat.sub_zero] at hvar
  have hcount : 6 * digitCount 6 b = if b = 64 then 66 else b := by
    simp only [digitCount]; split <;> omega
  rw [Proc.bind_ok (consume_apply hb0 hs), UNPACK_XADDR_VAO, UNPACK_VAR_REQ, Proc.bind_assoc_apply, Proc.bind_ok hvar,
    hcount]
  by_cases h64 : b = 64
  · subst h64
    exact ⟨_, rfl, hat.eom, hat.buffer, by
      dsimp only; rw [Nat.mod_eq_of_lt hv]; exact h _ hat.msg⟩
  · obtain ⟨-, hlt, -, hsign⟩ := hspec.resolve_left h64
    have hw : v % 2 ^ b < 2 ^ 64 := Nat.lt_of_le_of_lt (Nat.mod_le _ _) hv
    have hval : sign_extend b (((s.enter (.field b v :: .stop :: ts) tail).msg.set_xaddr (v % 2 ^ b)).xaddr.toNat) = v := by
      rw [Msg.set_xaddr, UInt64.toNat_ofNat_of_lt' hw, sign_extend_spec hv hb0 hlt hsign]
    rw [if_neg h64, Proc.ite_bind_apply, if_neg (by omega), Proc.pure_bind_apply, show decide (b < 64) = true by simpa using hlt,
      Proc.when_true]
    refine ⟨_, rfl, hat.eom, hat.buffer, ?_⟩
    have hmsg := h _ hat.msg
    dsimp only
    rw [hval]
    exact hmsg

theorem returns_xaddr (vao : Bool) (hv : v < 2 ^ 64) (h : ∀ m, Φ m → Ψ (m.set_xaddr v)) :
    Proc.Returns (End (xaddrTokens vao v ++ ts) tail Φ)
      (do CONSUME_BYTES; if vao then UNPACK_XADDR_VAO else do let _ ← UNPACK_VAR_REQ Msg.set_xaddr)
      fun _ => End ts tail Ψ := by
  cases vao
  · exact returns_req_group hv h
  · exact fun s hs => ⟨(), xaddr_vao_apply rfl hv hs h⟩

end Rules

/-! ## The decoder reads the layout -/

section Spec
variable {hwcfg : HwCfg} {m : Msg} {tail : List UInt8}

/-- All but the timestamp has been read. -/
def Got (m m' : Msg) : Prop := m'.tcode = m.tcode ∧ m'.timestamp = 0 ∧ m'.carried = m.carried

theorem consume_rest_eom {s : DecState} (fuel : Nat) (h : s.eom = true) : consume_rest fuel s = some (.ok (), s) := by
  cases fuel with
  | zero => rfl
  | succ fuel => simp only [consume_rest, Proc.get_bind_apply, h, Bool.not_true, Proc.when_false, Proc.pure_apply]

/-- Behind the last group there is nothing more to consume. -/
theorem returns_consume_rest {b v : Nat} {Φ : Msg → Prop} (hb : 0 < b) :
    Proc.Returns (End [.field b v, .stop] tail Φ) CONSUME_REST fun _ => At [.field b v, .stop] tail Φ := by
  intro s hs
  have heom : s.eom = false := by rw [hs.eom, sentGroups_cons _ _ hb]; rfl
  have hlast : (s.enter [.field b v, .stop] tail).eom = true := by simp [DecState.enter, laterGroups, groups, width]
  refine ⟨(), _, ?_, at_enter hs⟩
  simp only [CONSUME_REST, Proc.get_bind_apply, consume_rest, heom, Bool.not_false, Proc.when_true]
  rw [Proc.bind_ok (consume_apply hb hs), consume_rest_eom _ hlast]

/-- A timestamp is one group; it is left out if it is zero and not required. -/
theorem timestampLayout_eq (m : Msg) (hts : hwcfg.ts_bits ≠ 0) : ∃ b, timestampLayout hwcfg m = [.field b m.timestamp.toNat, .stop] ∧
    m.timestamp.toNat < 2 ^ b ∧ b ≤ 64 ∧ (msg_is_sync m → 0 < b) := by
  have hv := m.timestamp.toNat_lt
  have hopt : timestampLayout hwcfg m = if msg_is_sync m then reqTokens m.timestamp.toNat else varTokens m.timestamp.toNat := by
    simp [timestampLayout, Token.opt, hts]
  rw [hopt]
  split
  · exact ⟨_, rfl, (lt_two_pow_clzg hv 63).1, by omega, fun _ => reqTokens_pos _⟩
  · rename_i h
    exact ⟨_, rfl, (lt_two_pow_clzg hv 64).1, by omega, fun h' => absurd h' h⟩

/-- The timestamp is read where there is one, and is 0 where there is none. -/
theorem returns_timestamp (hwcfg : HwCfg) (m : Msg) {Φ Ψ : Msg → Prop} (hsync : ∀ m', Φ m' → msg_is_sync m' = msg_is_sync m)
    (hnone : ∀ m', Φ m' → hwcfg.ts_bits = 0 ∨ m.timestamp = 0 → Ψ m')
    (hset : ∀ m', Φ m' → hwcfg.ts_bits ≠ 0 → Ψ (m'.set_timestamp m.timestamp.toNat)) :
    Proc.Returns (End (timestampLayout hwcfg m) tail Φ) (finished_common hwcfg) fun _ => End [] tail Ψ := by
  intro s hs
  by_cases hbits : hwcfg.ts_bits = 0
  · -- no timestamps in this configuration
    have heom : s.eom = true := by rw [hs.eom, timestampLayout, hbits]; rfl
    refine ⟨(), s, ?_, ?_⟩
    · simp [finished_common, hbits, CONSUME_REST, Proc.bind_apply, consume_rest_eom _ heom]
    · rw [timestampLayout, hbits] at hs
      exact ⟨hs.eom, hs.buffer, hnone _ hs.msg (.inl hbits)⟩
  · obtain ⟨b, hlay, hv, h64, hreq⟩ := timestampLayout_eq m hbits
    rw [hlay] at hs
    by_cases hb : 0 < b
    · have heom : s.eom = false := by rw [hs.eom, sentGroups_cons _ _ hb]; rfl
      obtain ⟨⟨⟩, t, ht, hat⟩ := returns_consume_rest hb s hs
      have hread : Proc.Returns (At [.field b m.timestamp.toNat, .stop] tail Φ) (UNPACK_VAR_REQ Msg.set_timestamp)
          fun n s => b ≤ n ∧ End [] tail Ψ s := returns_var_req hb hv h64 fun m' h => hset m' h hbits
      obtain ⟨n, s', hvar, -, hend⟩ := hread t hat
      refine ⟨(), s', ?_, hend⟩
      simp only [finished_common, Proc.get_bind_apply, heom, Bool.and_false, Bool.false_eq_true, if_false]
      rw [Proc.bind_ok ht, show decide (hwcfg.ts_bits ≠ 0) = true by simpa using hbits, Proc.when_true, Proc.bind_ok hvar]
      rfl
    · have hb0 : b = 0 := by omega
      subst hb0
      have hzero : m.timestamp = 0 := by
        apply UInt64.toNat_inj.1
        simpa using hv
      have heom : s.eom = true := by rw [hs.eom]; rfl
      have hns : msg_is_sync m = false := Bool.eq_false_iff.2 fun h => absurd (hreq h) (by decide)
      refine ⟨(), s, ?_, hs.eom, hs.buffer, hnone _ hs.msg (.inr hzero)⟩
      simp [finished_common, heom, hsync _ hs.msg, hns, hbits]

theorem returns_finished (hwcfg : HwCfg) (m : Msg) :
    Proc.Returns (End (timestampLayout hwcfg m) tail (Got m)) (finished_common hwcfg) fun _ => End [] tail fun m' =>
      m'.tcode = m.tcode ∧ m'.carried = m.carried ∧ m'.timestamp = if hwcfg.ts_bits = 0 then 0 else m.timestamp := by
  refine returns_timestamp hwcfg m (fun m' h => by simp only [msg_is_sync, h.1]) (fun m' h h0 => ⟨h.1, h.2.2, ?_⟩)
    fun m' h hbits => ⟨h.1, h.2.2, by simp [Msg.set_timestamp, hbits]⟩
  rw [h.2.1]
  split
  · rfl
  · rcases h0 with h0 | h0
    · exact absurd h0 ‹_›
    · exact h0.symm

theorem bitField_lt (lo n : Nat) (b : UInt8) : bitField lo n b < 2 ^ n := Nat.mod_lt _ (Nat.two_pow_pos _)

/-- What `UNPACK_FIXED` stores of a bit field the encoder packed. -/
theorem bitField_unpacked {lo n : Nat} (h : lo + n ≤ 8) (m m' : Msg) :
    bitField lo n (m'.set_bits lo n (bitField lo n m.bits % 2 ^ n)).bits = bitField lo n m.bits := by
  rw [Msg.set_bits, bitField_setBitField _ _ h, Nat.mod_mod, Nat.mod_eq_of_lt (bitField_lt lo n _)]

theorem bitField_set_bits_of_le {lo n lo' n' : Nat} (v : Nat) (m : Msg) (h : lo + n ≤ 8) (h' : lo + n ≤ lo' ∨ lo' + n' ≤ lo) :
    bitField lo' n' (m.set_bits lo n v).bits = bitField lo' n' m.bits :=
  bitField_setBitField_of_le v m.bits h h'

/-- The TCODE and the SRC have been read. -/
def Begun (m m' : Msg) : Prop := m'.tcode = m.tcode ∧ m'.timestamp = 0 ∧ m'.src = m.src

theorem At.mono {ts : List Token} {Φ Ψ : Msg → Prop} {s : DecState} (h : At ts tail Φ s) (hm : Φ s.msg → Ψ s.msg) :
    At ts tail Ψ s := ⟨h.spells, h.le, h.lt, h.eom, h.buffer, hm h.msg⟩

theorem End.mono {ts : List Token} {Φ Ψ : Msg → Prop} {s : DecState} (h : End ts tail Φ s) (hm : Φ s.msg → Ψ s.msg) :
    End ts tail Ψ s := ⟨h.eom, h.buffer, hm h.msg⟩

section Optional
variable {p : Bool} {us ts : List Token} {Φ Ψ : Msg → Prop} {x : Dec Unit}

/-- An optional part is read in step with its optional tokens. -/
theorem returns_opt_at (hx : Proc.Returns (At (us ++ ts) tail Φ) x fun _ => At ts tail Ψ)
    (hn : ∀ m, p = false → Φ m → Ψ m) : Proc.Returns (At (Token.opt p us ++ ts) tail Φ) (Proc.when p x) fun _ => At ts tail Ψ := by
  cases p
  · exact Proc.returns_pure fun s hs => hs.mono (hn _ rfl)
  · exact hx

theorem returns_opt_end (hx : Proc.Returns (End (us ++ ts) tail Φ) x fun _ => End ts tail Ψ)
    (hn : ∀ m, p = false → Φ m → Ψ m) : Proc.Returns (End (Token.opt p us ++ ts) tail Φ) (Proc.when p x) fun _ => End ts tail Ψ := by
  cases p
  · exact Proc.returns_pure fun s hs => hs.mono (hn _ rfl)
  · exact hx

end Optional

/-- The fields of a branch or sync message, as far as they have been read. -/
structure Common (m : Msg) (sync indir icnt xaddr hist : Bool) (m' : Msg) : Prop where
  begun : Begun m m'
  sync_type : sync → m'.sync_type = m.sync_type
  branch_type : indir → m'.branch_type = m.branch_type
  icnt : icnt → m'.icnt = m.icnt
  xaddr : xaddr → m'.xaddr = m.xaddr
  hist : hist → m'.hist = m.hist

theorem Common.got {m m' : Msg} (hc : common_tcode m)
    (h : Common m (msg_is_sync m) (msg_is_indir_branch m) true (msg_has_xaddr m) (msg_has_hist m) m') : Got m m' := by
  obtain ⟨⟨htc, hts, hsrc⟩, hsync, hbt, hi, hx, hh⟩ := h
  refine ⟨htc, hts, ?_⟩
  unfold Msg.carried
  rw [htc]
  revert hsync hbt hx hh hc
  simp only [common_tcode, msg_is_sync, msg_is_indir_branch, msg_has_xaddr, msg_has_hist]
  cases m.tcode <;> simp_all

theorem common_preds {a b : Msg} (h : a.tcode = b.tcode) (hc : common_tcode b) :
    msg_has_icnt a = true ∧ msg_has_hist a = msg_has_hist b := by
  simp only [common_tcode, msg_has_icnt, msg_has_hist, h] at hc ⊢
  cases hb : b.tcode <;> simp_all

theorem returns_common {ts : List Token} (hwcfg : HwCfg) (m : Msg) (hc : common_tcode m) :
    Proc.Returns (At (commonLayout hwcfg m ++ ts) tail (Begun m)) (decode_common hwcfg) fun _ => End ts tail (Got m) := by
  simp only [commonLayout, List.append_assoc]
  refine Proc.Returns.get_bind fun s hs => ?_
  have htc := hs.msg.1
  obtain ⟨hicnt, hhist⟩ := common_preds htc hc
  rw [show msg_is_sync s.msg = msg_is_sync m by simp only [msg_is_sync, htc],
    show msg_is_indir_branch s.msg = msg_is_indir_branch m by simp only [msg_is_indir_branch, htc],
    show msg_has_xaddr s.msg = msg_has_xaddr m by simp only [msg_has_xaddr, htc], hicnt, hhist]
  have hstart := hs.mono fun h => (⟨h, nofun, nofun, nofun, nofun, nofun⟩ : Common m false false false false false s.msg)
  refine Proc.Returns.mono (R := (· = s)) ?_ (fun t ht => ht ▸ hstart) fun _ _ h => h
  have hsync : ∀ m', Common m false false false false false m' →
      Common m (msg_is_sync m) false false false false (m'.set_sync_type (m.sync_type % 2 ^ 4)) := fun m' h =>
    ⟨h.begun, fun _ => bitField_unpacked (by decide) m m', nofun, nofun, nofun, nofun⟩
  have hbranch : ∀ m', Common m (msg_is_sync m) false false false false m' →
      Common m (msg_is_sync m) (msg_is_indir_branch m) false false false (m'.set_branch_type (m.branch_type % 2 ^ 2)) :=
    fun m' h => ⟨h.begun, fun hs => (bitField_set_bits_of_le _ m' (by decide) (by decide)).trans (h.sync_type hs),
      fun _ => bitField_unpacked (by decide) m m', nofun, nofun, nofun⟩
  have hicnt' : ∀ m', Common m (msg_is_sync m) (msg_is_indir_branch m) false false false m' →
      Common m (msg_is_sync m) (msg_is_indir_branch m) true false false (m'.set_icnt m.icnt.toNat) :=
    fun m' h => ⟨h.begun, h.sync_type, h.branch_type, fun _ => by simp [Msg.set_icnt], nofun, nofun⟩
  have hxaddr : ∀ m', Common m (msg_is_sync m) (msg_is_indir_branch m) true false false m' →
      Common m (msg_is_sync m) (msg_is_indir_branch m) true (msg_has_xaddr m) false (m'.set_xaddr m.xaddr.toNat) :=
    fun m' h => ⟨h.begun, h.sync_type, h.branch_type, h.icnt, fun _ => by simp [Msg.set_xaddr], nofun⟩
  have hhist' : ∀ m', Common m (msg_is_sync m) (msg_is_indir_branch m) true (msg_has_xaddr m) false m' →
      Common m (msg_is_sync m) (msg_is_indir_branch m) true (msg_has_xaddr m) (msg_has_hist m) (m'.set_hist m.hist.toNat) :=
    fun m' h => ⟨h.begun, h.sync_type, h.branch_type, h.icnt, h.xaddr, fun _ => by simp [Msg.set_hist]⟩
  refine (returns_opt_at (returns_fixed (by decide) (by decide) hsync) fun m' hf h =>
    ⟨h.begun, by simp [hf], nofun, nofun, nofun, nofun⟩).bind fun _ => ?_
  refine (returns_opt_at (returns_fixed (by decide) (by decide) hbranch) fun m' hf h =>
    ⟨h.begun, h.sync_type, by simp [hf], nofun, nofun, nofun⟩).bind fun _ => ?_
  refine Proc.Returns.bind (Q := fun _ => At _ tail (Common m (msg_is_sync m) (msg_is_indir_branch m) false false false))
    (fun t ht => ⟨(), t, rfl, ht⟩) fun _ => ?_
  refine (Proc.returns_modify (S := fun _ => At _ tail (Common m (msg_is_sync m) (msg_is_indir_branch m) false false false))
    fun t ht => ⟨ht.spells, ht.le, ht.lt, ht.eom, ht.buffer, ⟨ht.msg.begun, ht.msg.sync_type, ht.msg.branch_type, nofun, nofun, nofun⟩⟩).bind fun _ => ?_
  refine (returns_reqTokens (Nat.lt_trans m.icnt.toNat_lt (by decide)) hicnt').bind fun _ => ?_
  refine (returns_opt_end (returns_xaddr hwcfg.VAO m.xaddr.toNat_lt hxaddr) fun m' hf h =>
    ⟨h.begun, h.sync_type, h.branch_type, h.icnt, by simp [hf], nofun⟩).bind fun _ => ?_
  refine (returns_opt_end (returns_req_group (Nat.lt_trans m.hist.toNat_lt (by decide)) hhist') fun m' hf h =>
    ⟨h.begun, h.sync_type, h.branch_type, h.icnt, h.xaddr, by simp [hf]⟩).mono (fun _ h => h) fun _ t ht => ht.mono (Common.got hc)

/-- The decoded message. -/
def Decoded (hwcfg : HwCfg) (m m' : Msg) : Prop :=
  m'.tcode = m.tcode ∧ m'.carried = m.carried ∧ m'.timestamp = if hwcfg.ts_bits = 0 then 0 else m.timestamp

/-- The TCODE, the SRC and these bit fields have been read. -/
structure Bits (m : Msg) (fs : List (Nat × Nat)) (m' : Msg) : Prop where
  begun : Begun m m'
  same : ∀ f ∈ fs, bitField f.1 f.2 m'.bits = bitField f.1 f.2 m.bits

theorem Begun.bits {m m' : Msg} (h : Begun m m') : Bits m [] m' := ⟨h, nofun⟩

theorem returns_bits {ts : List Token} {fs : List (Nat × Nat)} (lo n : Nat) (hn : 0 < n) (h : lo + n ≤ 8)
    (hfs : ∀ f ∈ fs, lo + n ≤ f.1 ∨ f.1 + f.2 ≤ lo) :
    Proc.Returns (At (.field n (bitField lo n m.bits) :: ts) tail (Bits m fs)) (UNPACK_FIXED n (Msg.set_bits lo n))
      fun _ => At ts tail (Bits m ((lo, n) :: fs)) := by
  refine returns_fixed hn (by omega) fun m' hm' => ⟨hm'.begun, ?_⟩
  simp only [List.mem_cons, forall_eq_or_imp]
  exact ⟨bitField_unpacked h m m', fun f hf => (bitField_set_bits_of_le _ m' h (hfs f hf)).trans (hm'.same f hf)⟩

section Rest
variable (hwcfg m)

theorem returns_ownership (hm : m.tcode = .Ownership) :
    Proc.Returns (At (restLayout m ++ timestampLayout hwcfg m) tail (Bits m [])) (decode_rest hwcfg .Ownership)
      fun _ => End [] tail (Decoded hwcfg m) := by
  have hcontext : ∀ m', Bits m [(4, 1), (2, 2), (0, 2)] m' → Got m (m'.set_context m.context.toNat) := by
    rintro m' ⟨⟨htc, hts, hsrc⟩, hbits⟩
    simp only [List.mem_cons, List.not_mem_nil, or_false, forall_eq_or_imp, forall_eq] at hbits
    simp only [Got, Msg.carried, Msg.set_context, Msg.set_xaddr, htc, hm, hts, hsrc, Msg.ownership_fmt, Msg.ownership_priv,
      Msg.ownership_v, hbits, Msg.context, UInt64.ofNat_toNat, and_self]
  simp only [restLayout, hm, List.append_assoc, decode_rest]
  refine (returns_bits 0 2 (by decide) (by decide) (by decide)).bind fun _ => ?_
  refine (returns_bits 2 2 (by decide) (by decide) (by decide)).bind fun _ => ?_
  refine (returns_bits 4 1 (by decide) (by decide) (by decide)).bind fun _ => ?_
  exact (returns_varTokens m.context.toNat_lt hcontext).bind fun _ => returns_finished hwcfg m

theorem returns_error (hm : m.tcode = .Error) :
    Proc.Returns (At (restLayout m ++ timestampLayout hwcfg m) tail (Bits m [])) (decode_rest hwcfg .Error)
      fun _ => End [] tail (Decoded hwcfg m) := by
  have hcode : ∀ m', Bits m [(0, 4)] m' → Got m (m'.set_error_code m.error_code.toNat) := by
    rintro m' ⟨⟨htc, hts, hsrc⟩, hbits⟩
    simp only [List.mem_cons, List.not_mem_nil, or_false, forall_eq] at hbits
    simp only [Got, Msg.carried, Msg.set_error_code, Msg.set_icnt, htc, hm, hts, hsrc, Msg.error_type, hbits, Msg.error_code,
      UInt32.ofNat_toNat, and_self]
  simp only [restLayout, hm, List.append_assoc, decode_rest]
  refine (returns_bits 0 4 (by decide) (by decide) (by decide)).bind fun _ => ?_
  exact (returns_varTokens (Nat.lt_trans m.error_code.toNat_lt (by decide)) hcode).bind fun _ => returns_finished hwcfg m

theorem returns_repeat (hm : m.tcode = .RepeatBranch) :
    Proc.Returns (At (restLayout m ++ timestampLayout hwcfg m) tail (Bits m [])) (decode_rest hwcfg .RepeatBranch)
      fun _ => End [] tail (Decoded hwcfg m) := by
  have hrep : ∀ m', Bits m [] m' → Got m (m'.set_hrepeat m.hrepeat.toNat) := by
    rintro m' ⟨⟨htc, hts, hsrc⟩, -⟩
    simp only [Got, Msg.carried, Msg.set_hrepeat, htc, hm, hts, hsrc, UInt32.ofNat_toNat, and_self]
  simp only [restLayout, hm, decode_rest]
  exact (returns_reqTokens (Nat.lt_trans m.hrepeat.toNat_lt (by decide)) hrep).bind fun _ => returns_finished hwcfg m

theorem returns_reset {ts : List Token} {fs : List (Nat × Nat)} :
    Proc.Returns (At ts tail (Bits m fs)) reset_counts fun _ => At ts tail (Bits m fs) :=
  Proc.returns_modify fun _ hs => ⟨hs.spells, hs.le, hs.lt, hs.eom, hs.buffer, ⟨hs.msg.begun, hs.msg.same⟩⟩

theorem returns_correlation (hm : m.tcode = .ProgTraceCorrelation) (hcdf : m.cdf < 2) :
    Proc.Returns (At (restLayout m ++ timestampLayout hwcfg m) tail (Bits m [])) (decode_rest hwcfg .ProgTraceCorrelation)
      fun _ => End [] tail (Decoded hwcfg m) := by
  have hicnt : ∀ m', Bits m [(4, 2), (0, 4)] m' →
      Bits m [(4, 2), (0, 4)] (m'.set_icnt m.icnt.toNat) ∧ (m'.set_icnt m.icnt.toNat).icnt = m.icnt :=
    fun m' h => ⟨⟨h.begun, h.same⟩, by simp [Msg.set_icnt]⟩
  have hgot : ∀ m', Bits m [(4, 2), (0, 4)] m' → m'.icnt = m.icnt → (m.cdf = 1 → m'.hist = m.hist) → Got m m' := by
    rintro m' ⟨⟨htc, hts, hsrc⟩, hbits⟩ hi hh
    have hstop : m'.stop_code = m.stop_code := hbits (0, 4) (by simp)
    have hcdf' : m'.cdf = m.cdf := hbits (4, 2) (by simp)
    refine ⟨htc, hts, ?_⟩
    by_cases h1 : m.cdf = 1
    · simp only [Msg.carried, htc, hm, hsrc, hstop, hcdf', hi, hh h1]
    · simp only [Msg.carried, htc, hm, hsrc, hstop, hcdf', hi, if_neg h1]
  simp only [restLayout, hm, List.append_assoc, decode_rest]
  refine (returns_reset m).bind fun _ => ?_
  refine (returns_bits 0 4 (by decide) (by decide) (by decide)).bind fun _ => ?_
  refine (returns_bits 4 2 (by decide) (by decide) (by decide)).bind fun _ => ?_
  refine (returns_reqTokens (Ψ := fun m' => Bits m [(4, 2), (0, 4)] m' ∧ m'.icnt = m.icnt)
    (Nat.lt_trans m.icnt.toNat_lt (by decide)) hicnt).bind fun _ => ?_
  refine Proc.Returns.get_bind fun s hs => ?_
  have hcode : decide (s.msg.cdf = 1) = decide (m.cdf ≠ 0) := by
    have : s.msg.cdf = m.cdf := hs.msg.1.same (4, 2) (by simp)
    rw [this]
    exact decide_eq_decide.2 (by omega)
  rw [hcode]
  refine Proc.Returns.mono (R := (· = s)) ?_ (fun t ht => ht ▸ hs) fun _ _ h => h
  refine (returns_opt_end (returns_req_group (Nat.lt_trans m.hist.toNat_lt (by decide)) fun m' h => ?_) fun m' hf h => ?_).bind
    fun _ => returns_finished hwcfg m
  · exact hgot _ ⟨h.1.begun, h.1.same⟩ h.2 fun _ => by simp [Msg.set_hist]
  · exact hgot m' h.1 h.2 fun h1 => by simp [h1] at hf

theorem returns_resource (hm : m.tcode = .ResourceFull) :
    Proc.Returns (At (restLayout m ++ timestampLayout hwcfg m) tail (Bits m [])) (decode_rest hwcfg .ResourceFull)
      fun _ => End [] tail (Decoded hwcfg m) := by
  have hgot : ∀ m', Bits m [(0, 4)] m' → (m.res_code = 0 → m'.icnt = m.icnt) → (m.res_code = 1 → m'.hist = m.hist) →
      (m.res_code = 2 → m'.hist = m.hist ∧ m'.hrepeat = m.hrepeat) → (2 < m.res_code → m'.res_data = m.res_data) → Got m m' := by
    rintro m' ⟨⟨htc, hts, hsrc⟩, hbits⟩ h0 h1 h2 h3
    have hcode : m'.res_code = m.res_code := hbits (0, 4) (by simp)
    refine ⟨htc, hts, ?_⟩
    simp only [Msg.carried, htc, hm, hsrc, hcode]
    rcases hrc : m.res_code with _ | _ | _ | n
    · simp only [h0 hrc]
    · simp only [h1 hrc]
    · simp only [h2 hrc]
    · simp only [h3 (by omega)]
  have hhist := Nat.lt_trans m.hist.toNat_lt (show (2 ^ 32 : Nat) < 2 ^ 64 by decide)
  simp only [restLayout, hm, List.append_assoc, decode_rest]
  refine (returns_bits 0 4 (by decide) (by decide) (by decide)).bind fun _ => ?_
  refine Proc.Returns.get_bind fun s hs => ?_
  rw [show s.msg.res_code = m.res_code from hs.msg.same (0, 4) (by simp)]
  refine Proc.Returns.mono (R := (· = s)) ?_ (fun t ht => ht ▸ hs) fun _ _ h => h
  refine Proc.Returns.bind (Q := fun _ => End _ tail (Got m)) ?_ fun _ => returns_finished hwcfg m
  by_cases hgt : m.res_code > 2
  · rw [if_pos hgt, if_pos hgt]
    refine (returns_varTokens (Nat.lt_trans m.res_data.toNat_lt (by decide)) fun m' h => ?_).bind fun _ => Proc.returns_pure fun _ h => h
    exact hgot _ ⟨h.begun, h.same⟩ (by omega) (by omega) (by omega) fun _ => by simp [Msg.set_res_data, Msg.set_icnt, Msg.res_data]
  · rw [if_neg hgt, if_neg hgt]
    refine (returns_reset m).bind fun _ => ?_
    rcases hrc : m.res_code with _ | _ | _ | n
    · refine (returns_reqTokens (Nat.lt_trans m.icnt.toNat_lt (by decide)) fun m' h => ?_).bind fun _ => Proc.returns_pure fun _ h => h
      exact hgot _ ⟨h.begun, h.same⟩ (fun _ => by simp [Msg.set_icnt]) (by omega) (by omega) (by omega)
    · refine (returns_reqTokens hhist fun m' h => ?_).bind fun _ => Proc.returns_pure fun _ h => h
      exact hgot _ ⟨h.begun, h.same⟩ (by omega) (fun _ => by simp [Msg.set_hist]) (by omega) (by omega)
    · have hfirst : Proc.Returns
          (At (reqTokens m.hist.toNat ++ (reqTokens m.hrepeat.toNat ++ timestampLayout hwcfg m)) tail (Bits m [(0, 4)]))
          (UNPACK_VAR_REQ Msg.set_hist) fun _ => End (reqTokens m.hrepeat.toNat ++ timestampLayout hwcfg m) tail
            fun m' => Bits m [(0, 4)] m' ∧ m'.hist = m.hist :=
        returns_reqTokens hhist fun m' h => ⟨⟨h.begun, h.same⟩, by simp [Msg.set_hist]⟩
      refine hfirst.bind fun _ => ?_
      refine returns_req_group (Nat.lt_trans m.hrepeat.toNat_lt (by decide)) fun m' h => ?_
      exact hgot _ ⟨h.1.begun, h.1.same⟩ (by omega) (by omega) (fun _ => ⟨h.2, by simp [Msg.set_hrepeat]⟩) (by omega)
    · omega

end Rest

theorem returns_body (hfit : m.src.toNat < 2 ^ hwcfg.src_bits) (hm : encodable m)
    (hidle : m.tcode ≠ .Idle) (hict : m.tcode ≠ .ICT) :
    Proc.Returns (At (bodyLayout hwcfg m) tail fun m' => m'.tcode = m.tcode ∧ m'.timestamp = 0) (decode_body hwcfg)
      fun _ => End [] tail (Decoded hwcfg m) := by
  refine (Proc.returns_modify (S := fun _ => At (bodyLayout hwcfg m) tail fun m' =>
    m'.tcode = m.tcode ∧ m'.timestamp = 0 ∧ m'.src = 0) fun s hs =>
      ⟨hs.spells, hs.le, hs.lt, hs.eom, hs.buffer, hs.msg.1, hs.msg.2, rfl⟩).bind fun _ => ?_
  have hread : Proc.Returns (At (bodyLayout hwcfg m) tail fun m' => m'.tcode = m.tcode ∧ m'.timestamp = 0 ∧ m'.src = 0)
      (Proc.when (hwcfg.src_bits ≠ 0) (UNPACK_FIXED hwcfg.src_bits Msg.set_src)) fun _ =>
      At ((if common_tcode m then commonLayout hwcfg m else restLayout m) ++ timestampLayout hwcfg m) tail (Begun m) := by
    by_cases h0 : hwcfg.src_bits = 0
    · have hzero : m.src = 0 := by
        rw [h0] at hfit
        apply UInt16.toNat_inj.1
        simpa using hfit
      simp only [bodyLayout, h0, ne_eq, not_true_eq_false, decide_false, Proc.when_false]
      exact Proc.returns_pure fun s hs => hs.mono fun h => ⟨h.1, h.2.1, h.2.2.trans hzero.symm⟩
    · simp only [bodyLayout, ne_eq, h0, not_false_eq_true, decide_true, Proc.when_true]
      refine returns_fixed_of (by omega) (.inr (Nat.lt_trans m.src.toNat_lt (by decide))) fun m' h => ⟨h.1, h.2.1, ?_⟩
      simp [Msg.set_src, Nat.mod_eq_of_lt hfit]
  refine hread.bind fun _ => Proc.Returns.get_bind fun s hs => ?_
  have htc := hs.msg.1
  rw [show common_tcode s.msg = common_tcode m by simp only [common_tcode, htc], htc]
  refine Proc.Returns.mono (R := (· = s)) ?_ (fun t ht => ht ▸ hs) fun _ _ h => h
  by_cases hc : common_tcode m
  · rw [if_pos hc, if_pos hc]
    exact (returns_common hwcfg m hc).bind fun _ => returns_finished hwcfg m
  · rw [if_neg hc, if_neg hc]
    refine Proc.Returns.mono ?_ (fun t ht => ht.mono Begun.bits) fun _ _ h => h
    cases ht : m.tcode with
    | Ownership => exact returns_ownership hwcfg m ht
    | Error => exact returns_error hwcfg m ht
    | ResourceFull => exact returns_resource hwcfg m ht
    | RepeatBranch => exact returns_repeat hwcfg m ht
    | ProgTraceCorrelation =>
      exact returns_correlation hwcfg m ht (by simpa [encodable, msg_known, ht] using hm)
    | Idle => exact absurd ht hidle
    | ICT => exact absurd ht hict
    | DirectBranch | DirectBranchSync | IndirectBranch | IndirectBranchSync | IndirectBranchHist
    | IndirectBranchHistSync | ProgTraceSync => simp [common_tcode, ht] at hc
    | DataAcquisition | other => simp [encodable, msg_known, ht] at hm

/-- The timestamp the decoder reports. -/
def sentTimestamp (hwcfg : HwCfg) (m : Msg) : UInt64 :=
  if hwcfg.ts_bits = 0 ∨ m.tcode = .Idle then 0 else m.timestamp

theorem returns_decode (hfit : m.src.toNat < 2 ^ hwcfg.src_bits) (hm : encodable m)
    (hict : m.tcode ≠ .ICT) :
    Proc.Returns (End (layout hwcfg m) tail fun _ => True) (decode_msg hwcfg) fun _ => End [] tail fun m' =>
      m'.tcode = m.tcode ∧ m'.carried = m.carried ∧ m'.timestamp = sentTimestamp hwcfg m := by
  refine (Proc.returns_modify (S := fun _ => End (layout hwcfg m) tail fun m' => m'.timestamp = 0)
    fun s hs => ⟨hs.eom, hs.buffer, rfl⟩).bind fun _ => ?_
  refine (returns_consume (by decide)).bind fun _ => ?_
  refine (returns_fixed (Ψ := fun m' => m'.tcode = m.tcode ∧ m'.timestamp = 0) (by decide) (by decide) fun m' h => ?_).bind
    fun _ => Proc.Returns.get_bind fun s hs => ?_
  · have hcode : m.tcode.code < 2 ^ 6 := by
      cases ht : m.tcode with
      | other => simp [encodable, msg_known, ht] at hm
      | _ => decide
    rw [Nat.mod_eq_of_lt hcode]
    exact ⟨Tcode.ofNat_code m.tcode, h⟩
  rw [hs.msg.1]
  by_cases hidle : m.tcode = .Idle
  · have heom : s.eom = true := by rw [hs.eom, hidle]; rfl
    have hbuf : s.buffer = tail := by rw [hs.buffer, hidle]; rfl
    rw [if_pos hidle, heom]
    refine Proc.returns_pure fun t ht => ht ▸ ⟨heom, hbuf, hs.msg.1, ?_, ?_⟩
    · simp only [Msg.carried, hs.msg.1, hidle]
    · simp only [hs.msg.2, sentTimestamp, hidle, or_true, if_true]
  · have hopt : Token.opt (m.tcode ≠ .Idle) (bodyLayout hwcfg m) = bodyLayout hwcfg m := by simp [hidle, Token.opt]
    rw [if_neg hidle]
    refine (returns_body hfit hm hidle hict).mono (fun t ht => ht ▸ hopt ▸ hs) fun _ t ht => ht.mono fun h =>
      ⟨h.1, h.2.1, by simp [h.2.2, sentTimestamp, hidle]⟩

end Spec

/-! ## The round trip -/

/-- What the encoder accepts and has a case for. -/
theorem encodable_of_encode {hwcfg : HwCfg} {buffer buffer' : List UInt8} {limit n : Nat} {m : Msg}
    (h : msg_encode hwcfg buffer limit m = some (.ok n, buffer')) (hict : m.tcode ≠ .ICT) : encodable m := by
  by_cases hk : msg_known m
  · by_cases hd : m.tcode = .DataAcquisition
    · simp only [msg_encode, encode_msg_eq hwcfg limit hk, Option.map_eq_some_iff, Prod.mk.injEq] at h
      obtain ⟨⟨r, st⟩, hrun, rfl, -⟩ := h
      simp [Proc.bind_eq_ok, encode_body, encode_rest, common_tcode, hd] at hrun
    · unfold encodable
      split <;> simp_all
  · simp [msg_encode, encode_msg, hk] at h

/-- What the encoder returned, and the bytes it left. -/
theorem msg_encode_take {hwcfg : HwCfg} {buffer buffer' : List UInt8} {limit n : Nat} {m : Msg} (hlim : limit ≤ buffer.length) (hm : encodable m)
    (h : msg_encode hwcfg buffer limit m = some (.ok n, buffer')) : (frame (groups (layout hwcfg m))).length = n ∧
      buffer' = frame (groups (layout hwcfg m)) ++ buffer.drop n := by
  have hspec := msg_encode_spec hlim hwcfg m hm
  dsimp only at hspec
  split at hspec
  · rw [h] at hspec
    cases hspec
    exact ⟨rfl, rfl⟩
  · obtain ⟨b, hb⟩ := hspec
    rw [h] at hb
    cases hb

/-- A decoder that reads a layout takes the bytes of the frame. -/
theorem decode_of_returns {hwcfg : HwCfg} {m : Msg} {rest : List UInt8} {Ψ : Msg → Prop}
    (h : Proc.Returns (End (layout hwcfg m) rest fun _ => True) (decode_msg hwcfg) fun _ => End [] rest Ψ) (m₀ : Msg) :
    ∃ m', msg_decode hwcfg (frame (groups (layout hwcfg m)) ++ rest) m₀ = some (.ok (frame (groups (layout hwcfg m))).length, m') ∧ Ψ m' := by
  have hframe : frame (groups (layout hwcfg m)) = frames (sentGroups (layout hwcfg m)) := frame_eq_frames
  have hstart : End (layout hwcfg m) rest (fun _ => True) ⟨[], frame (groups (layout hwcfg m)) ++ rest, 0, false, m₀⟩ :=
    ⟨by simp [layout, sentGroups_cons], by rw [hframe], trivial⟩
  obtain ⟨⟨⟩, s', hrun, hend⟩ := h _ hstart
  refine ⟨s'.msg, ?_, hend.msg⟩
  have hbuf : s'.buffer = rest := hend.buffer
  simp [msg_decode, hrun, Except.map, hbuf]

/-- Decoding the bytes of an encoded message, whatever follows them and whatever
the caller's message held before, gives the message back. -/
theorem msg_decode_encode {hwcfg : HwCfg} {buffer buffer' : List UInt8} {limit n : Nat} {m : Msg}
    (hlim : limit ≤ buffer.length) (_hsrc : hwcfg.src_bits ≤ 16) (hfit : m.src.toNat < 2 ^ hwcfg.src_bits)
    (hict : m.tcode ≠ .ICT) (h : msg_encode hwcfg buffer limit m = some (.ok n, buffer')) (rest : List UInt8) (m₀ : Msg) :
    ∃ m', msg_decode hwcfg (buffer'.take n ++ rest) m₀ = some (.ok n, m') ∧
      m'.tcode = m.tcode ∧ m'.carried = m.carried ∧ m'.timestamp = sentTimestamp hwcfg m := by
  have hm := encodable_of_encode h hict
  obtain ⟨hn, hbuf⟩ := msg_encode_take hlim hm h
  rw [hbuf, ← hn, List.take_left]
  exact decode_of_returns (returns_decode hfit hm hict) m₀

/-- A sync message with a negative address, followed by one more byte. -/
theorem msg_decode_encode_hist_sync :
    let hwcfg : HwCfg := ⟨2, 40, 48, 1024, 0, true, true, true⟩
    let m : Msg := ⟨5, 1, .IndirectBranchHistSync, 0x11, 7, 3, 0, 0xFFFFFFFFFFFFFFF0⟩
    ∃ m', msg_decode hwcfg ([116, 20, 117, 193, 13, 23, 0, 0, 0, 0, 0, 0].take 6 ++ [3]) Msg.zero = some (.ok 6, m') ∧
      m'.tcode = m.tcode ∧ m'.carried = m.carried ∧ m'.timestamp = sentTimestamp hwcfg m :=
  @msg_decode_encode _ (List.replicate 12 0) _ 12 _ _ (by decide) (by decide) (by decide) (by decide) rfl [3] Msg.zero

end nexusrv
