import NexusRv.Roundtrip
/-!
# What decoding depends on

Decoding depends on the bytes of the first message only: not on what follows
them, and not on what the caller's message held before. `lock_decode` runs the
decoder on a buffer and on a longer one in step; `safe_decode` shows that no
assertion fails and that a decoded message is the first frame of the buffer.
-/

namespace nexusrv

/-! ## Equal messages -/

/-- Fields the decoder clears before it reads. -/
def Msg.cleared (m : Msg) : List Nat :=
  match m.tcode with
  | .DirectBranch | .DirectBranchSync | .IndirectBranch | .IndirectBranchSync | .IndirectBranchHist
  | .IndirectBranchHistSync | .ProgTraceSync => [m.hrepeat.toNat]
  | .ResourceFull => if m.res_code > 2 then [] else [m.icnt.toNat, m.hist.toNat, m.hrepeat.toNat]
  | .ProgTraceCorrelation => [m.hist.toNat, m.hrepeat.toNat]
  | _ => []

/-- The same message: equal in all that decoding a message of this TCODE writes. -/
def Msg.Same (a b : Msg) : Prop :=
  a.tcode = b.tcode ∧ a.timestamp = b.timestamp ∧ a.carried = b.carried ∧ a.cleared = b.cleared

theorem Msg.Same.symm {a b : Msg} (h : a.Same b) : b.Same a := ⟨h.1.symm, h.2.1.symm, h.2.2.1.symm, h.2.2.2.symm⟩

theorem Msg.Same.trans {a b c : Msg} (h : a.Same b) (h' : b.Same c) : a.Same c :=
  ⟨h.1.trans h'.1, h.2.1.trans h'.2.1, h.2.2.1.trans h'.2.2.1, h.2.2.2.trans h'.2.2.2⟩

theorem Msg.carried_head {m : Msg} (h : m.tcode ≠ .Idle) : m.carried.head? = some m.src.toNat := by
  unfold Msg.carried
  split <;> first | rfl | contradiction

theorem Msg.Same.src {a b : Msg} (h : a.Same b) (hidle : a.tcode ≠ .Idle) : a.src.toNat = b.src.toNat := by
  have hhead := congrArg List.head? h.2.2.1
  rw [carried_head hidle, carried_head (h.1 ▸ hidle)] at hhead
  exact Option.some.inj hhead

/-- Messages of one kind that agree in the fields read so far. -/
structure Agree (K : Msg → Prop) (fs : List (Msg → Nat)) (a b : Msg) : Prop where
  left : K a
  right : K b
  timestamp : a.timestamp = b.timestamp
  field : ∀ f ∈ fs, f a = f b

/-! ## Decoding in step -/

section Lock
variable {q : List UInt8} {D D' D'' : Msg → Msg → Prop}

/-- The second buffer goes on with `q`, the messages are related by `D`. -/
structure Ahead (q : List UInt8) (D : Msg → Msg → Prop) (s t : DecState) : Prop where
  group : t.group = s.group
  buffer : t.buffer = s.buffer ++ q
  bit_offset : t.bit_offset = s.bit_offset
  eom : t.eom = s.eom
  msg : D s.msg t.msg

/-- The error that more bytes may cure. -/
def Starved (q : List UInt8) (e : NexusError) : Prop := q ≠ [] ∧ e = .stream_truncate

/-- `x` and `y` read the same up to `q`. -/
def Lock (q : List UInt8) (D : Msg → Msg → Prop) {α : Type} (x y : Dec α) (D' : Msg → Msg → Prop) : Prop :=
  Proc.Couples (Starved q) (Ahead q D) x y fun r s t => ∀ a, r = .ok a → Ahead q D' s t

theorem Lock.bind {α β : Type} {x y : Dec α} {f g : α → Dec β} (hx : Lock q D x y D') (hf : ∀ a, Lock q D' (f a) (g a) D'') :
    Lock q D (x >>= f) (y >>= g) D'' :=
  Proc.Couples.bind hx (fun a => (hf a).mono (fun _ _ h => h a rfl) fun _ _ _ h => h) fun _ _ _ _ _ h => nomatch h

theorem Lock.mono {α : Type} {x y : Dec α} {C' : Msg → Msg → Prop} (hx : Lock q D x y D') (h : ∀ a b, D' a b → C' a b) : Lock q D x y C' :=
  Proc.Couples.mono hx (fun _ _ h => h) fun _ _ _ hq a ha =>
    ⟨(hq a ha).group, (hq a ha).buffer, (hq a ha).bit_offset, (hq a ha).eom, h _ _ (hq a ha).msg⟩

theorem Lock.pre {α : Type} {x y : Dec α} {C : Msg → Msg → Prop} (hx : Lock q D x y D') (h : ∀ a b, C a b → D a b) : Lock q C x y D' :=
  Proc.Couples.mono hx (fun _ _ hs => ⟨hs.group, hs.buffer, hs.bit_offset, hs.eom, h _ _ hs.msg⟩) fun _ _ _ h => h

theorem lock_pure {α : Type} (a : α) : Lock q D (pure a) (pure a) D :=
  Proc.couples_pure fun _ _ h _ _ => h

theorem lock_fail {α : Type} (e : NexusError) : Lock q D (Proc.fail e : Dec α) (Proc.fail e) D' :=
  Proc.couples_fail fun _ _ _ _ h => nomatch h

theorem lock_get_at {α : Type} {f : DecState → Dec α}
    (h : ∀ s t, Ahead q D s t → Lock q (fun a b => D a b ∧ a = s.msg ∧ b = t.msg) (f s) (f t) D') :
    Lock q D (Proc.get >>= f) (Proc.get >>= f) D' :=
  fun s t hst => h s t hst s t ⟨hst.group, hst.buffer, hst.bit_offset, hst.eom, hst.msg, rfl, rfl⟩

theorem lock_get {α : Type} {f : DecState → Dec α} (h : ∀ s t, Ahead q D s t → Lock q D (f s) (f t) D') :
    Lock q D (Proc.get >>= f) (Proc.get >>= f) D' :=
  lock_get_at fun s t hst => (h s t hst).pre fun _ _ hab => hab.1

theorem lock_assert (p : Bool) : Lock q D (Proc.assert p) (Proc.assert p) D :=
  Proc.couples_assert fun _ _ h _ _ => h

theorem lock_when {p : Bool} {x y : Dec Unit} (hx : p = true → Lock q D x y D') (hn : p = false → ∀ a b, D a b → D' a b) :
    Lock q D (Proc.when p x) (Proc.when p y) D' :=
  Proc.Couples.when hx fun hp _ _ h _ _ => ⟨h.group, h.buffer, h.bit_offset, h.eom, hn hp _ _ h.msg⟩

theorem lock_ite {α : Type} {p : Prop} [Decidable p] {x y x' y' : Dec α} (hx : p → Lock q D x y D')
    (hy : ¬ p → Lock q D x' y' D') : Lock q D (if p then x else x') (if p then y else y') D' :=
  Proc.Couples.ite hx hy

theorem lock_store {f : Msg → Msg} {E : Msg → Msg → Prop} (h : ∀ a b, D a b → E (f a) (f b)) :
    Lock q D (Proc.modify fun s => { s with msg := f s.msg }) (Proc.modify fun s => { s with msg := f s.msg }) E :=
  Proc.couples_modify fun _ _ hs _ _ => ⟨hs.group, hs.buffer, hs.bit_offset, hs.eom, h _ _ hs.msg⟩

theorem lock_fixed {n : Nat} {F : Nat → Msg → Msg} {E : Msg → Msg → Prop} (h : ∀ v a b, D a b → E (F v a) (F v b)) :
    Lock q D (UNPACK_FIXED n F) (UNPACK_FIXED n F) E := by
  refine lock_get fun s t hst => ?_
  rw [hst.group, hst.bit_offset]
  refine lock_ite (fun _ => lock_fail _) fun _ => Proc.couples_modify fun s' t' hs _ _ => ?_
  refine ⟨hs.group, hs.buffer, by simp only [hs.bit_offset], hs.eom, ?_⟩
  dsimp only
  rw [hs.group, hs.bit_offset]
  exact h _ _ _ hs.msg

theorem lock_var {field : Nat → Msg → Msg} (h : ∀ v a b, D a b → D' (field v a) (field v b)) :
    Lock q D (UNPACK_VAR field) (UNPACK_VAR field) D' := by
  refine lock_get fun s t hst => ?_
  rw [hst.group, hst.bit_offset]
  refine Lock.bind (Proc.couples_modify fun s' t' hs _ _ => ?_) fun _ => lock_pure _
  exact ⟨hs.group, hs.buffer, by simp only [hs.bit_offset], hs.eom, h _ _ _ hs.msg⟩

theorem lock_var_req {field : Nat → Msg → Msg} (h : ∀ v a b, D a b → D' (field v a) (field v b)) :
    Lock q D (UNPACK_VAR_REQ field) (UNPACK_VAR_REQ field) D' :=
  (lock_var h).bind fun _ => lock_ite (fun _ => lock_fail _) fun _ => lock_pure _

theorem lock_req {field : Nat → Msg → Msg} (h : ∀ v a b, D a b → D' (field v a) (field v b)) :
    Lock q D (do let _ ← UNPACK_VAR_REQ field) (do let _ ← UNPACK_VAR_REQ field) D' :=
  (lock_var_req h).bind fun _ => lock_pure _

/-- More bytes change nothing unless the group was cut off. -/
theorem consume_bytes_append (bs q : List UInt8) : consume_bytes bs = .error .stream_truncate ∨
    consume_bytes (bs ++ q) = consume_bytes bs := by
  induction bs with
  | nil => exact .inl rfl
  | cons b bs ih =>
    simp only [consume_bytes, List.cons_append]
    by_cases h2 : mseo b = 2
    · simp [h2]
    · by_cases h0 : mseo b = 0
      · rcases ih with h | h
        · left; simp [h0, h, Except.map]
        · right; simp [h0, h]
      · right; simp [h2, h0]

theorem consume_bytes_le {bs : List UInt8} {n : Nat} {eom : Bool} (h : consume_bytes bs = .ok (n, eom)) : 0 < n ∧ n ≤ bs.length := by
  induction bs generalizing n eom with
  | nil => simp [consume_bytes] at h
  | cons b bs ih =>
    simp only [consume_bytes] at h
    split at h
    · simp at h
    · split at h
      · cases hc : consume_bytes bs with
        | error e => simp [hc, Except.map] at h
        | ok r =>
          have := ih hc
          simp only [hc, Except.map, Except.ok.injEq, Prod.mk.injEq] at h
          simp only [List.length_cons]
          omega
      · simp only [Except.ok.injEq, Prod.mk.injEq] at h
        simp only [List.length_cons]
        omega

theorem CONSUME_BYTES_apply (u : DecState) : CONSUME_BYTES u = (if u.eom then Proc.fail .msg_missing_field
    else match consume_bytes u.buffer with
    | .error e => Proc.fail e
    | .ok (n, eom) => Proc.modify fun s =>
      { s with group := s.buffer.take n, buffer := s.buffer.drop n, bit_offset := 0, eom := eom }) u := rfl

theorem lock_consume : Lock q D CONSUME_BYTES CONSUME_BYTES D := by
  intro s t hst
  rw [CONSUME_BYTES_apply, CONSUME_BYTES_apply, hst.eom, hst.buffer]
  by_cases heom : s.eom
  · rw [if_pos heom, if_pos heom]
    exact .inr (.inr ⟨_, _, _, rfl, rfl, fun _ h => by cases h⟩)
  · rw [if_neg heom, if_neg heom]
    rcases consume_bytes_append s.buffer q with htr | happ
    · rw [htr]
      by_cases hq : q = []
      · rw [hq, List.append_nil, htr]
        exact .inr (.inr ⟨_, _, _, rfl, rfl, fun _ h => by cases h⟩)
      · exact .inr (.inl ⟨_, _, rfl, hq, rfl⟩)
    · rw [happ]
      cases hc : consume_bytes s.buffer with
      | error e => exact .inr (.inr ⟨_, _, _, rfl, rfl, fun _ h => by cases h⟩)
      | ok r =>
        have hle := (consume_bytes_le hc).2
        refine .inr (.inr ⟨_, _, _, rfl, rfl, fun _ _ => ⟨?_, ?_, rfl, rfl, hst.msg⟩⟩)
        · dsimp only; rw [hst.buffer, List.take_append_of_le_length hle]
        · dsimp only; rw [hst.buffer, List.drop_append_of_le_length hle]

theorem consume_shrinks {s s' : DecState} (h : CONSUME_BYTES s = some (.ok (), s')) : s'.buffer.length < s.buffer.length := by
  cases heom : s.eom with
  | true => simp [CONSUME_BYTES, heom] at h
  | false =>
    cases hc : consume_bytes s.buffer with
    | error e => simp [CONSUME_BYTES, heom, hc] at h
    | ok r =>
      have := consume_bytes_le hc
      simp only [CONSUME_BYTES, Proc.get_bind_apply, heom, hc, Bool.false_eq_true, if_false, Proc.modify_apply,
        Option.some.injEq, Prod.mk.injEq, true_and] at h
      subst h
      simp only [List.length_drop]
      omega

/-- With more rounds than bytes left, the loop ends by itself. -/
theorem consume_rest_fuel (f : Nat) : ∀ {f' : Nat} {s : DecState}, s.buffer.length < f → s.buffer.length < f' →
    consume_rest f s = consume_rest f' s := by
  induction f with
  | zero => intro f' s h; omega
  | succ f ih =>
    intro f' s h h'
    obtain ⟨f', rfl⟩ : ∃ k, f' = k + 1 := ⟨f' - 1, by omega⟩
    simp only [consume_rest, Proc.get_bind_apply]
    cases s.eom with
    | true => rfl
    | false =>
      simp only [Bool.not_false, Proc.when_true, Proc.bind_apply]
      rcases hc : CONSUME_BYTES s with _ | ⟨_ | _, s'⟩
      · rfl
      · rfl
      · have := consume_shrinks hc
        exact ih (by omega) (by omega)

theorem lock_consume_rest : Lock q D CONSUME_REST CONSUME_REST D := by
  have hloop : ∀ f, Lock q D (consume_rest f) (consume_rest f) D := by
    intro f
    induction f with
    | zero => exact lock_pure ()
    | succ f ih =>
      refine lock_get fun s t hst => ?_
      rw [hst.eom]
      exact lock_when (fun _ => lock_consume.bind fun _ => ih) fun _ _ _ h => h
  intro s t hst
  have hlen : s.buffer.length < t.buffer.length + 1 := by rw [hst.buffer, List.length_append]; omega
  have hs : CONSUME_REST s = consume_rest (t.buffer.length + 1) s := consume_rest_fuel _ (Nat.lt_succ_self _) hlen
  rw [hs]
  exact hloop _ s t hst

/-! ## The whole message in step -/

variable {K : Msg → Prop} {fs : List (Msg → Nat)}

/-- A store of the field `f` keeps the other fields. -/
theorem Agree.store (field : Nat → Msg → Msg) (f : Msg → Nat) (hK : ∀ v m, K m → K (field v m))
    (hts : ∀ v m, (field v m).timestamp = m.timestamp) (hf : ∀ v a b, f (field v a) = f (field v b))
    (hfs : ∀ g ∈ fs, ∀ v m, g (field v m) = g m) (v : Nat) (a b : Msg) (h : Agree K fs a b) :
    Agree K (f :: fs) (field v a) (field v b) := by
  refine ⟨hK v a h.left, hK v b h.right, by rw [hts, hts, h.timestamp], ?_⟩
  rintro g (_ | ⟨_, hg⟩)
  · exact hf v a b
  · rw [hfs g hg, hfs g hg, h.field g hg]

/-- As `Agree.store`, for a bit field. -/
theorem Agree.store_bits (lo n : Nat) (h8 : lo + n ≤ 8) (hK : ∀ v m, K m → K (Msg.set_bits lo n v m))
    (hfs : ∀ g ∈ fs, ∀ v m, g (Msg.set_bits lo n v m) = g m) (v : Nat) (a b : Msg) (h : Agree K fs a b) :
    Agree K ((fun m => bitField lo n m.bits) :: fs) (Msg.set_bits lo n v a) (Msg.set_bits lo n v b) := by
  refine Agree.store (Msg.set_bits lo n) (fun m => bitField lo n m.bits) hK (fun _ _ => rfl)
    (fun v a b => ?_) hfs v a b h
  exact (bitField_setBitField v a.bits h8).trans (bitField_setBitField v b.bits h8).symm

theorem Agree.subset {fs' : List (Msg → Nat)} {a b : Msg} (h : Agree K fs a b) (hsub : ∀ g ∈ fs', g ∈ fs) : Agree K fs' a b :=
  ⟨h.left, h.right, h.timestamp, fun g hg => h.field g (hsub g hg)⟩

theorem lock_finished (hwcfg : HwCfg) (hfs : ∀ g ∈ fs, ∀ v m, g (Msg.set_timestamp v m) = g m)
    (hK : ∀ v m, K m → K (Msg.set_timestamp v m)) (htc : ∀ a b, K a → K b → a.tcode = b.tcode)
    (h : ∀ a b, Agree K fs a b → a.carried = b.carried ∧ a.cleared = b.cleared) :
    Lock q (Agree K fs) (finished_common hwcfg) (finished_common hwcfg) Msg.Same := by
  have hsame : ∀ a b, Agree K fs a b → Msg.Same a b := fun a b hab => ⟨htc a b hab.left hab.right, hab.timestamp, h a b hab⟩
  refine lock_get fun s t hst => ?_
  have hsync : msg_is_sync t.msg = msg_is_sync s.msg := by simp only [msg_is_sync, htc _ _ hst.msg.left hst.msg.right]
  rw [hsync, hst.eom]
  refine lock_ite (fun _ => lock_ite (fun _ => lock_fail _) fun _ => (lock_pure ()).mono hsame) fun _ => ?_
  refine lock_consume_rest.bind fun _ => lock_when (fun _ => lock_req fun v a b hab => ?_) fun _ => hsame
  exact hsame _ _ ⟨hK v a hab.left, hK v b hab.right, rfl, fun g hg => by rw [hfs g hg, hfs g hg, hab.field g hg]⟩

/-! ### Branch and sync messages -/

/-- With `p`, one more field. -/
def withField (p : Bool) (f : Msg → Nat) (fs : List (Msg → Nat)) : List (Msg → Nat) := if p then f :: fs else fs

theorem withField_all {p : Bool} {f : Msg → Nat} {P : (Msg → Nat) → Prop} (h : P f) (hfs : ∀ g ∈ fs, P g) :
    ∀ g ∈ withField p f fs, P g := by
  cases p
  · exact hfs
  · exact List.forall_mem_cons.2 ⟨h, hfs⟩

theorem lock_opt {p : Bool} {f : Msg → Nat} {x y : Dec Unit} (hx : Lock q (Agree K fs) x y (Agree K (f :: fs))) :
    Lock q (Agree K fs) (Proc.when p x) (Proc.when p y) (Agree K (withField p f fs)) := by
  cases p
  · exact lock_pure ()
  · exact hx

theorem lock_xaddr (vao : Bool) (hK : ∀ v m, K m → K (Msg.set_xaddr v m)) (hfs : ∀ g ∈ fs, ∀ v m, g (Msg.set_xaddr v m) = g m) :
    Lock q (Agree K fs) (do CONSUME_BYTES; if vao then UNPACK_XADDR_VAO else do let _ ← UNPACK_VAR_REQ Msg.set_xaddr)
      (do CONSUME_BYTES; if vao then UNPACK_XADDR_VAO else do let _ ← UNPACK_VAR_REQ Msg.set_xaddr)
      (Agree K ((fun m => m.xaddr.toNat) :: fs)) := by
  have hstore := Agree.store (K := K) Msg.set_xaddr (fun m => m.xaddr.toNat) hK (fun _ _ => rfl) (fun _ _ _ => rfl) hfs
  refine lock_consume.bind fun _ => lock_ite (fun _ => ?_) fun _ => lock_req hstore
  refine (lock_var_req hstore).bind fun bits => lock_when (fun _ => ?_) fun _ _ _ h => h
  refine lock_store (f := fun m => m.set_xaddr (sign_extend bits m.xaddr.toNat)) fun a b h =>
    ⟨hK _ _ h.left, hK _ _ h.right, h.timestamp, List.forall_mem_cons.2 ⟨?_, fun g hg => ?_⟩⟩
  · have hx : a.xaddr.toNat = b.xaddr.toNat := h.field _ (List.mem_cons_self ..)
    simp only [Msg.set_xaddr, hx]
  · rw [hfs g hg, hfs g hg, h.field g (List.mem_cons_of_mem _ hg)]

/-- The fields of a branch or sync message in front of its I-CNT. -/
def headFields (t : Msg) : List (Msg → Nat) :=
  withField (msg_is_indir_branch t) (fun m => bitField 4 2 m.bits) <|
    withField (msg_is_sync t) (fun m => bitField 0 4 m.bits) [fun m => m.src.toNat]

theorem headFields_all {P : (Msg → Nat) → Prop} (t : Msg) (hbranch : P fun m => bitField 4 2 m.bits)
    (hsync : P fun m => bitField 0 4 m.bits) (hsrc : P fun m => m.src.toNat) : ∀ g ∈ headFields t, P g :=
  withField_all hbranch (withField_all hsync (List.forall_mem_singleton.2 hsrc))

/-- The fields of a branch or sync message. -/
def commonFields (t : Msg) : List (Msg → Nat) :=
  withField (msg_has_hist t) (fun m => m.hist.toNat) <| withField (msg_has_xaddr t) (fun m => m.xaddr.toNat) <|
    (fun m => m.icnt.toNat) :: (fun m => m.hrepeat.toNat) :: headFields t

theorem lock_common (hwcfg : HwCfg) (t : Msg) (hc : common_tcode t) :
    Lock q (Agree (·.tcode = t.tcode) [fun m => m.src.toNat]) (decode_common hwcfg) (decode_common hwcfg)
      (Agree (·.tcode = t.tcode) (commonFields t)) := by
  refine lock_get fun s u hsu => ?_
  have hs : s.msg.tcode = t.tcode := hsu.msg.left
  have hu : u.msg.tcode = t.tcode := hsu.msg.right
  have preds : ∀ m : Msg, m.tcode = t.tcode → msg_is_sync m = msg_is_sync t ∧ msg_is_indir_branch m = msg_is_indir_branch t ∧
      msg_has_xaddr m = msg_has_xaddr t := fun m h => by
    simp only [msg_is_sync, msg_is_indir_branch, msg_has_xaddr, h, and_self]
  rw [(preds _ hs).1, (preds _ hs).2.1, (preds _ hs).2.2, (preds _ hu).1, (preds _ hu).2.1, (preds _ hu).2.2,
    (common_preds hs hc).1, (common_preds hu hc).1, (common_preds hs hc).2, (common_preds hu hc).2]
  have hsync : ∀ g ∈ [fun m : Msg => m.src.toNat], ∀ v m, g (Msg.set_bits 0 4 v m) = g m := by simp [Msg.set_bits]
  have hindir : ∀ g ∈ withField (msg_is_sync t) (fun m => bitField 0 4 m.bits) [fun m : Msg => m.src.toNat],
      ∀ v m, g (Msg.set_bits 4 2 v m) = g m :=
    withField_all (fun v m => bitField_setBitField_of_le v m.bits (by decide) (by decide)) (by simp [Msg.set_bits])
  have hrep : ∀ g ∈ headFields t, ∀ v m, g (Msg.set_hrepeat v m) = g m :=
    headFields_all t (fun _ _ => rfl) (fun _ _ => rfl) fun _ _ => rfl
  have hicnt : ∀ g ∈ (fun m => m.hrepeat.toNat) :: headFields t, ∀ v m, g (Msg.set_icnt v m) = g m :=
    List.forall_mem_cons.2 ⟨fun _ _ => rfl, headFields_all t (fun _ _ => rfl) (fun _ _ => rfl) fun _ _ => rfl⟩
  have hxaddr : ∀ g ∈ (fun m => m.icnt.toNat) :: (fun m => m.hrepeat.toNat) :: headFields t,
      ∀ v m, g (Msg.set_xaddr v m) = g m :=
    List.forall_mem_cons.2 ⟨fun _ _ => rfl, List.forall_mem_cons.2 ⟨fun _ _ => rfl,
      headFields_all t (fun _ _ => rfl) (fun _ _ => rfl) fun _ _ => rfl⟩⟩
  have hhist : ∀ g ∈ withField (msg_has_xaddr t) (fun m => m.xaddr.toNat)
      ((fun m => m.icnt.toNat) :: (fun m => m.hrepeat.toNat) :: headFields t), ∀ v m, g (Msg.set_hist v m) = g m :=
    withField_all (fun _ _ => rfl) (List.forall_mem_cons.2 ⟨fun _ _ => rfl, List.forall_mem_cons.2 ⟨fun _ _ => rfl,
      headFields_all t (fun _ _ => rfl) (fun _ _ => rfl) fun _ _ => rfl⟩⟩)
  refine (lock_opt (lock_fixed (Agree.store_bits _ _ (by decide) (fun _ _ h => h) hsync))).bind fun _ => ?_
  refine (lock_opt (lock_fixed (Agree.store_bits _ _ (by decide) (fun _ _ h => h) hindir))).bind fun _ => (lock_assert true).bind fun _ => ?_
  refine (lock_store (f := Msg.set_hrepeat 0) (Agree.store Msg.set_hrepeat (fun m => m.hrepeat.toNat)
    (fun _ _ h => h) (fun _ _ => rfl) (fun _ _ _ => rfl) hrep 0)).bind fun _ => ?_
  refine (lock_var_req (Agree.store Msg.set_icnt (fun m => m.icnt.toNat) (fun _ _ h => h) (fun _ _ => rfl)
    (fun _ _ _ => rfl) hicnt)).bind fun _ => (lock_opt (lock_xaddr _ (fun _ _ h => h) hxaddr)).bind fun _ => lock_opt ?_
  exact lock_consume.bind fun _ => lock_req (Agree.store Msg.set_hist (fun m => m.hist.toNat)
    (fun _ _ h => h) (fun _ _ => rfl) (fun _ _ _ => rfl) hhist)

theorem mem_withField {p : Bool} {f g : Msg → Nat} (h : g ∈ fs) : g ∈ withField p f fs := by
  cases p
  · exact h
  · exact List.mem_cons_of_mem _ h

theorem withField_self {p : Bool} {f : Msg → Nat} (hp : p) : f ∈ withField p f fs := by
  rw [hp]
  exact List.mem_cons_self ..

theorem Agree.same_common {t a b : Msg} (hc : common_tcode t) (h : Agree (·.tcode = t.tcode) (commonFields t) a b) :
    a.carried = b.carried ∧ a.cleared = b.cleared := by
  have ha : a.tcode = t.tcode := h.left
  have hb : b.tcode = t.tcode := h.right
  have hhist : msg_has_hist t → a.hist.toNat = b.hist.toNat := fun hp => h.field _ (withField_self hp)
  have hxaddr : msg_has_xaddr t → a.xaddr.toNat = b.xaddr.toNat := fun hp => h.field _ (mem_withField (withField_self hp))
  have hhead : ∀ g ∈ (fun m => m.icnt.toNat) :: (fun m => m.hrepeat.toNat) :: headFields t, g a = g b :=
    fun g hg => h.field g (mem_withField (mem_withField hg))
  have hicnt : a.icnt.toNat = b.icnt.toNat := hhead (fun m => m.icnt.toNat) (by simp)
  have hrep : a.hrepeat.toNat = b.hrepeat.toNat := hhead (fun m => m.hrepeat.toNat) (by simp)
  have hfields : ∀ g ∈ headFields t, g a = g b := fun g hg => hhead g (by simp [hg])
  have hbranch : msg_is_indir_branch t → a.branch_type = b.branch_type := fun hp => hfields _ (withField_self hp)
  have hsync : msg_is_sync t → a.sync_type = b.sync_type := fun hp => hfields _ (mem_withField (withField_self hp))
  have hsrc : a.src.toNat = b.src.toNat := hfields (fun m => m.src.toNat) (mem_withField (mem_withField (by simp)))
  constructor
  · simp only [Msg.carried, ha, hb, hicnt, hsrc]
    revert hc hhist hxaddr hbranch hsync
    simp only [common_tcode, msg_has_hist, msg_has_xaddr, msg_is_indir_branch, msg_is_sync]
    cases t.tcode <;> simp_all
  · simp only [Msg.cleared, ha, hb, hrep]
    revert hc
    simp only [common_tcode]
    cases t.tcode <;> simp

theorem lock_common_finished (hwcfg : HwCfg) (t : Msg) (hc : common_tcode t) :
    Lock q (Agree (·.tcode = t.tcode) [fun m => m.src.toNat]) (do decode_common hwcfg; finished_common hwcfg)
      (do decode_common hwcfg; finished_common hwcfg) Msg.Same := by
  refine (lock_common hwcfg t hc).bind fun _ => lock_finished hwcfg ?_ (fun _ _ h => h) (fun _ _ h h' => h.trans h'.symm)
    fun a b => Agree.same_common hc
  exact withField_all (fun _ _ => rfl) (withField_all (fun _ _ => rfl) (List.forall_mem_cons.2 ⟨fun _ _ => rfl,
    List.forall_mem_cons.2 ⟨fun _ _ => rfl, headFields_all t (fun _ _ => rfl) (fun _ _ => rfl) fun _ _ => rfl⟩⟩))

/-! ### The other messages -/

/-- The message has this TCODE. -/
abbrev OfTcode (t : Tcode) (m : Msg) : Prop := m.tcode = t

theorem lock_ownership (hwcfg : HwCfg) :
    Lock q (Agree (OfTcode .Ownership) [fun m => m.src.toNat]) (decode_rest hwcfg .Ownership) (decode_rest hwcfg .Ownership)
      Msg.Same := by
  refine (lock_fixed (Agree.store_bits 0 2 (by decide) (fun _ _ h => h) (by simp [Msg.set_bits]))).bind fun _ => ?_
  refine (lock_fixed (Agree.store_bits 2 2 (by decide) (fun _ _ h => h) (by
    simp [Msg.set_bits, bitField_setBitField_of_le]))).bind fun _ => ?_
  refine (lock_fixed (Agree.store_bits 4 1 (by decide) (fun _ _ h => h) (by
    simp [Msg.set_bits, bitField_setBitField_of_le]))).bind fun _ => ?_
  refine (lock_var (Agree.store Msg.set_context (fun m => m.xaddr.toNat) (fun _ _ h => h) (fun _ _ => rfl)
    (fun _ _ _ => rfl) (by simp [Msg.set_context, Msg.set_xaddr]))).bind fun _ => ?_
  refine lock_finished hwcfg (by simp [Msg.set_timestamp]) (fun _ _ h => h) (fun _ _ h h' => h.trans h'.symm) fun a b h => ?_
  have hf := h.field
  simp only [List.mem_cons, List.not_mem_nil, or_false, forall_eq_or_imp, forall_eq] at hf
  simp only [Msg.carried, Msg.cleared, h.left, h.right, Msg.ownership_fmt, Msg.ownership_priv, Msg.ownership_v, Msg.context,
    hf, and_self]

theorem lock_error (hwcfg : HwCfg) :
    Lock q (Agree (OfTcode .Error) [fun m => m.src.toNat]) (decode_rest hwcfg .Error) (decode_rest hwcfg .Error) Msg.Same := by
  refine (lock_fixed (Agree.store_bits 0 4 (by decide) (fun _ _ h => h) (by simp [Msg.set_bits]))).bind fun _ => ?_
  refine (lock_var (Agree.store Msg.set_error_code (fun m => m.icnt.toNat) (fun _ _ h => h) (fun _ _ => rfl)
    (fun _ _ _ => rfl) (by simp [Msg.set_error_code, Msg.set_icnt]))).bind fun _ => ?_
  refine lock_finished hwcfg (by simp [Msg.set_timestamp]) (fun _ _ h => h) (fun _ _ h h' => h.trans h'.symm) fun a b h => ?_
  have hf := h.field
  simp only [List.mem_cons, List.not_mem_nil, or_false, forall_eq_or_imp, forall_eq] at hf
  simp only [Msg.carried, Msg.cleared, h.left, h.right, Msg.error_type, Msg.error_code, hf, and_self]

theorem lock_data_acq (hwcfg : HwCfg) :
    Lock q (Agree (OfTcode .DataAcquisition) [fun m => m.src.toNat]) (decode_rest hwcfg .DataAcquisition)
      (decode_rest hwcfg .DataAcquisition) Msg.Same := by
  refine (lock_var_req (Agree.store_bits 0 3 (by decide) (fun _ _ h => h) (by simp [Msg.set_bits]))).bind fun _ => ?_
  refine lock_consume.bind fun _ => ?_
  refine (lock_var_req (Agree.store Msg.set_dqdata (fun m => m.xaddr.toNat) (fun _ _ h => h) (fun _ _ => rfl)
    (fun _ _ _ => rfl) (by simp [Msg.set_dqdata, Msg.set_xaddr]))).bind fun _ => ?_
  refine lock_finished hwcfg (by simp [Msg.set_timestamp]) (fun _ _ h => h) (fun _ _ h h' => h.trans h'.symm) fun a b h => ?_
  have hf := h.field
  simp only [List.mem_cons, List.not_mem_nil, or_false, forall_eq_or_imp, forall_eq] at hf
  simp only [Msg.carried, Msg.cleared, h.left, h.right, Msg.idtag, Msg.dqdata, hf, and_self]

theorem lock_repeat (hwcfg : HwCfg) :
    Lock q (Agree (OfTcode .RepeatBranch) [fun m => m.src.toNat]) (decode_rest hwcfg .RepeatBranch)
      (decode_rest hwcfg .RepeatBranch) Msg.Same := by
  refine (lock_var_req (Agree.store Msg.set_hrepeat (fun m => m.hrepeat.toNat) (fun _ _ h => h) (fun _ _ => rfl)
    (fun _ _ _ => rfl) (by simp [Msg.set_hrepeat]))).bind fun _ => ?_
  refine lock_finished hwcfg (by simp [Msg.set_timestamp]) (fun _ _ h => h) (fun _ _ h h' => h.trans h'.symm) fun a b h => ?_
  have hf := h.field
  simp only [List.mem_cons, List.not_mem_nil, or_false, forall_eq_or_imp, forall_eq] at hf
  simp only [Msg.carried, Msg.cleared, h.left, h.right, hf, and_self]

/-- The counts that `reset_counts` clears. -/
abbrev countFields : List (Msg → Nat) := [fun m => m.hrepeat.toNat, fun m => m.hist.toNat, fun m => m.icnt.toNat]

theorem lock_reset (hK : ∀ m, K m → K (((m.set_icnt 0).set_hist 0).set_hrepeat 0))
    (hfs : ∀ g ∈ fs, ∀ m, g (((m.set_icnt 0).set_hist 0).set_hrepeat 0) = g m) :
    Lock q (Agree K fs) reset_counts reset_counts (Agree K (countFields ++ fs)) := by
  refine lock_store (f := fun m => ((m.set_icnt 0).set_hist 0).set_hrepeat 0) fun a b h =>
    ⟨hK a h.left, hK b h.right, h.timestamp, fun g hg => ?_⟩
  rcases List.mem_append.1 hg with hg | hg
  · simp only [List.mem_cons, List.not_mem_nil, or_false] at hg
    rcases hg with rfl | rfl | rfl <;> rfl
  · rw [hfs g hg, hfs g hg, h.field g hg]

/-- A store of a field that is already equal. -/
theorem Agree.restore (field : Nat → Msg → Msg) (f : Msg → Nat) (fs' : List (Msg → Nat)) (hK : ∀ v m, K m → K (field v m))
    (hts : ∀ v m, (field v m).timestamp = m.timestamp) (hf : ∀ v a b, f (field v a) = f (field v b))
    (hfs : ∀ g ∈ fs', ∀ v m, g (field v m) = g m) (hsub : ∀ g ∈ fs', g ∈ fs) (hall : ∀ g ∈ fs, g = f ∨ g ∈ fs')
    (v : Nat) (a b : Msg) (h : Agree K fs a b) : Agree K fs (field v a) (field v b) :=
  (Agree.store field f hK hts hf hfs v a b (h.subset hsub)).subset fun g hg => by
    rcases hall g hg with rfl | hg'
    · exact List.mem_cons_self ..
    · exact List.mem_cons_of_mem _ hg'

theorem lock_correlation (hwcfg : HwCfg) :
    Lock q (Agree (OfTcode .ProgTraceCorrelation) [fun m => m.src.toNat]) (decode_rest hwcfg .ProgTraceCorrelation)
      (decode_rest hwcfg .ProgTraceCorrelation) Msg.Same := by
  refine (lock_reset (fun _ h => h) (by simp [Msg.set_icnt, Msg.set_hist, Msg.set_hrepeat])).bind fun _ => ?_
  refine (lock_fixed (Agree.store_bits 0 4 (by decide) (fun _ _ h => h) (by simp [Msg.set_bits]))).bind fun _ => ?_
  refine (lock_fixed (Agree.store_bits 4 2 (by decide) (fun _ _ h => h) (by
    simp [Msg.set_bits, bitField_setBitField_of_le]))).bind fun _ => ?_
  refine (lock_var_req (Agree.restore Msg.set_icnt (fun m => m.icnt.toNat)
      [fun m => bitField 4 2 m.bits, fun m => bitField 0 4 m.bits, fun m => m.hrepeat.toNat, fun m => m.hist.toNat,
      fun m => m.src.toNat] (fun _ _ h => h) (fun _ _ => rfl) (fun _ _ _ => rfl) (by simp [Msg.set_icnt]) (by simp)
    (by simp))).bind fun _ => ?_
  refine lock_get fun s t hst => ?_
  have hcdf : t.msg.cdf = s.msg.cdf := (hst.msg.field (fun m => bitField 4 2 m.bits) (by simp)).symm
  rw [hcdf]
  refine (lock_when (fun _ => lock_consume.bind fun _ => lock_req ?_) fun _ _ _ h => h).bind fun _ =>
    lock_finished hwcfg (by simp [Msg.set_timestamp]) (fun _ _ h => h) (fun _ _ h h' => h.trans h'.symm) fun a b h => ?_
  · exact Agree.restore Msg.set_hist (fun m => m.hist.toNat)
      [fun m => bitField 4 2 m.bits, fun m => bitField 0 4 m.bits, fun m => m.hrepeat.toNat, fun m => m.icnt.toNat,
        fun m => m.src.toNat] (fun _ _ h => h) (fun _ _ => rfl) (fun _ _ _ => rfl) (by simp [Msg.set_hist]) (by simp)
      (by simp)
  · have hf := h.field
    simp only [List.cons_append, List.nil_append, List.mem_cons, List.not_mem_nil, or_false, forall_eq_or_imp, forall_eq] at hf
    simp only [Msg.carried, Msg.cleared, h.left, h.right, Msg.stop_code, Msg.cdf, hf, and_true]
    rfl

theorem lock_ict (hwcfg : HwCfg) :
    Lock q (Agree (OfTcode .ICT) [fun m => m.src.toNat]) (decode_rest hwcfg .ICT) (decode_rest hwcfg .ICT) Msg.Same := by
  refine (lock_fixed (Agree.store_bits 0 4 (by decide) (fun _ _ h => h) (by simp [Msg.set_bits]))).bind fun _ => ?_
  refine (lock_fixed (Agree.store_bits 4 2 (by decide) (fun _ _ h => h) (by
    simp [Msg.set_bits, bitField_setBitField_of_le]))).bind fun _ => ?_
  refine (lock_var_req (Agree.store Msg.set_ckdata0 (fun m => m.ckdata0) (fun _ _ h => h) (fun _ _ => rfl)
    (fun _ _ _ => rfl) (by simp [Msg.set_ckdata0]))).bind fun _ => ?_
  refine lock_get_at fun s t hst => ?_
  have hckdf : t.msg.ckdf = s.msg.ckdf := (hst.msg.field (fun m => bitField 4 2 m.bits) (by simp)).symm
  rw [hckdf]
  -- from here on the value of CKDF is known
  refine Lock.pre (D := Agree (fun m => m.tcode = .ICT ∧ m.ckdf = s.msg.ckdf) _) ?_ fun a b h =>
    ⟨⟨h.1.left, by rw [h.2.1]⟩, ⟨h.1.right, by rw [h.2.2, hckdf]⟩, h.1.timestamp, h.1.field⟩
  refine (lock_opt (f := fun m => m.xaddr.toNat) (lock_consume.bind fun _ => lock_req (Agree.store Msg.set_ckdata1 _
    (fun _ _ h => h) (fun _ _ => rfl) (fun _ _ _ => rfl) (by simp [Msg.set_ckdata1, Msg.set_xaddr, Msg.ckdata0])))).bind fun _ => ?_
  refine lock_finished hwcfg (withField_all (fun _ _ => rfl) (by simp [Msg.set_timestamp, Msg.ckdata0])) (fun _ _ h => h)
    (fun _ _ h h' => h.1.trans h'.1.symm) fun a b h => ?_
  have hdata : s.msg.ckdf > 0 → a.xaddr.toNat = b.xaddr.toNat := fun hp => h.field _ (withField_self (by simpa using hp))
  have hf := fun g hg => h.field g (mem_withField hg)
  simp only [List.mem_cons, List.not_mem_nil, or_false, forall_eq_or_imp, forall_eq] at hf
  simp only [Msg.carried, Msg.cleared, h.left.1, h.right.1, h.left.2, h.right.2, Msg.cksrc, Msg.ckdata1, hf, and_true]
  split
  · rw [hdata ‹_›]
  · rfl

theorem lock_resource (hwcfg : HwCfg) :
    Lock q (Agree (OfTcode .ResourceFull) [fun m => m.src.toNat]) (decode_rest hwcfg .ResourceFull)
      (decode_rest hwcfg .ResourceFull) Msg.Same := by
  refine (lock_fixed (Agree.store_bits 0 4 (by decide) (fun _ _ h => h) (by simp [Msg.set_bits]))).bind fun _ => ?_
  refine lock_get_at fun s t hst => ?_
  have hcode : t.msg.res_code = s.msg.res_code := (hst.msg.field (fun m => bitField 0 4 m.bits) (by simp)).symm
  rw [hcode]
  -- from here on the RCODE is known
  refine Lock.pre (D := Agree (fun m => m.tcode = .ResourceFull ∧ m.res_code = s.msg.res_code) _) ?_ fun a b h =>
    ⟨⟨h.1.left, by rw [h.2.1]⟩, ⟨h.1.right, by rw [h.2.2, hcode]⟩, h.1.timestamp, h.1.field⟩
  generalize s.msg.res_code = code
  by_cases hgt : code > 2
  · obtain ⟨n, rfl⟩ : ∃ n, code = n + 3 := ⟨code - 3, by omega⟩
    rw [if_pos hgt]
    refine ((lock_var (Agree.store Msg.set_res_data (fun m => m.icnt.toNat) (fun _ _ h => h) (fun _ _ => rfl)
      (fun _ _ _ => rfl) (by simp [Msg.set_res_data, Msg.set_icnt]))).bind fun _ => lock_pure _).bind fun _ => ?_
    refine lock_finished hwcfg (by simp [Msg.set_timestamp]) (fun _ _ h => h) (fun _ _ h h' => h.1.trans h'.1.symm) fun a b h => ?_
    have hf := h.field
    simp only [List.mem_cons, List.not_mem_nil, or_false, forall_eq_or_imp, forall_eq] at hf
    simp only [Msg.carried, Msg.cleared, h.left.1, h.right.1, h.left.2, h.right.2, hf, Msg.res_data, if_pos hgt, and_self]
  · rw [if_neg hgt]
    refine @Lock.bind _ _ (Agree (fun m => m.tcode = .ResourceFull ∧ m.res_code = code)
      (countFields ++ [fun m => bitField 0 4 m.bits, fun m => m.src.toNat])) _ _ _ _ _ _ _ ?_ fun _ =>
      lock_finished hwcfg (by simp [Msg.set_timestamp]) (fun _ _ h => h) (fun _ _ h h' => h.1.trans h'.1.symm) fun a b h => ?_
    · refine (lock_reset (fun _ h => h) (by simp [Msg.set_icnt, Msg.set_hist, Msg.set_hrepeat])).bind fun _ => ?_
      have hicnt := fun K hK => @Agree.restore K (countFields ++ [fun m => bitField 0 4 m.bits, fun m => m.src.toNat]) Msg.set_icnt (fun m => m.icnt.toNat)
        [fun m => m.hrepeat.toNat, fun m => m.hist.toNat, fun m => bitField 0 4 m.bits, fun m => m.src.toNat]
        hK (fun _ _ => rfl) (fun _ _ _ => rfl) (by simp [Msg.set_icnt]) (by simp) (by simp)
      have hhist := fun K hK => @Agree.restore K (countFields ++ [fun m => bitField 0 4 m.bits, fun m => m.src.toNat]) Msg.set_hist (fun m => m.hist.toNat)
        [fun m => m.hrepeat.toNat, fun m => m.icnt.toNat, fun m => bitField 0 4 m.bits, fun m => m.src.toNat]
        hK (fun _ _ => rfl) (fun _ _ _ => rfl) (by simp [Msg.set_hist]) (by simp) (by simp)
      have hrep := fun K hK => @Agree.restore K (countFields ++ [fun m => bitField 0 4 m.bits, fun m => m.src.toNat]) Msg.set_hrepeat (fun m => m.hrepeat.toNat)
        [fun m => m.hist.toNat, fun m => m.icnt.toNat, fun m => bitField 0 4 m.bits, fun m => m.src.toNat]
        hK (fun _ _ => rfl) (fun _ _ _ => rfl) (by simp [Msg.set_hrepeat]) (by simp) (by simp)
      rcases code with _ | _ | _ | _
      · exact lock_req (hicnt _ fun _ _ h => h)
      · exact lock_req (hhist _ fun _ _ h => h)
      · exact (lock_var_req (hhist _ fun _ _ h => h)).bind fun _ => lock_consume.bind fun _ => lock_req (hrep _ fun _ _ h => h)
      · omega
    · have hf := h.field
      simp only [List.cons_append, List.nil_append, List.mem_cons, List.not_mem_nil, or_false, forall_eq_or_imp, forall_eq] at hf
      simp only [Msg.carried, Msg.cleared, h.left.1, h.right.1, h.left.2, h.right.2, hf, Msg.res_data, and_self]

/-- A TCODE the decoder has no case for. -/
theorem lock_other (hwcfg : HwCfg) (c : Nat) (hlt : c < 256) (hc : c ∉ namedCodes) :
    Lock q (Agree (OfTcode (.other c hlt hc)) [fun m => m.src.toNat]) (decode_rest hwcfg (.other c hlt hc))
      (decode_rest hwcfg (.other c hlt hc)) Msg.Same := by
  refine lock_consume_rest.mono fun a b h => ⟨h.left.trans h.right.symm, h.timestamp, ?_, ?_⟩
  · simp only [Msg.carried, h.left, h.right, h.field _ (List.mem_singleton.2 rfl)]
  · simp only [Msg.cleared, h.left, h.right]

theorem lock_body (hwcfg : HwCfg) {t : Tcode} (hidle : t ≠ .Idle) :
    Lock q (Agree (OfTcode t) []) (decode_body hwcfg) (decode_body hwcfg) Msg.Same := by
  refine (lock_store (f := Msg.set_src 0) (Agree.store Msg.set_src (fun m => m.src.toNat) (fun _ _ h => h)
    (fun _ _ => rfl) (fun _ _ _ => rfl) (by simp) 0)).bind fun _ => ?_
  refine (lock_when (fun _ => lock_fixed (Agree.restore Msg.set_src (fun m => m.src.toNat)
      []
    (fun _ _ h => h) (fun _ _ => rfl) (fun _ _ _ => rfl) (by simp) (by simp) (by simp))) fun _ _ _ h => h).bind fun _ => ?_
  refine lock_get fun s u hsu => ?_
  have hs : s.msg.tcode = t := hsu.msg.left
  have hu : u.msg.tcode = t := hsu.msg.right
  rw [show common_tcode u.msg = common_tcode s.msg by simp only [common_tcode, hs, hu], hu, hs]
  by_cases hc : common_tcode s.msg
  · rw [if_pos hc]
    have := lock_common_finished (q := q) hwcfg s.msg hc
    rwa [hs] at this
  · rw [if_neg hc]
    cases t with
    | Ownership => exact lock_ownership hwcfg
    | Error => exact lock_error hwcfg
    | DataAcquisition => exact lock_data_acq hwcfg
    | ResourceFull => exact lock_resource hwcfg
    | RepeatBranch => exact lock_repeat hwcfg
    | ProgTraceCorrelation => exact lock_correlation hwcfg
    | ICT => exact lock_ict hwcfg
    | other c hlt hc => exact lock_other hwcfg c hlt hc
    | Idle => exact absurd rfl hidle
    | DirectBranch | DirectBranchSync | IndirectBranch | IndirectBranchSync | IndirectBranchHist
    | IndirectBranchHistSync | ProgTraceSync => simp [common_tcode, hs] at hc

theorem lock_decode (hwcfg : HwCfg) : Lock q (fun _ _ => True) (decode_msg hwcfg) (decode_msg hwcfg) Msg.Same := by
  refine (lock_store (E := fun a b => a.timestamp = b.timestamp) fun _ _ _ => rfl).bind fun _ => lock_consume.bind fun _ => ?_
  refine (lock_fixed (F := Msg.set_tcode) (E := fun a b => a.tcode = b.tcode ∧ a.timestamp = b.timestamp)
    fun _ _ _ h => ⟨rfl, h⟩).bind fun _ => ?_
  refine lock_get_at fun s t hst => ?_
  rw [← hst.msg.1, hst.eom]
  refine lock_ite (fun hidle => lock_ite (fun _ => lock_fail _) fun _ => (lock_pure ()).mono ?_) fun hidle => ?_
  · rintro a b ⟨⟨htc, hts⟩, rfl, rfl⟩
    refine ⟨htc, hts, ?_, ?_⟩
    · simp only [Msg.carried, ← htc, hidle]
    · simp only [Msg.cleared, ← htc, hidle]
  · refine (lock_body hwcfg hidle).pre ?_
    rintro a b ⟨⟨htc, hts⟩, rfl, rfl⟩
    exact ⟨rfl, htc.symm, hts, by simp⟩

end Lock

/-! ## Frames -/

/-- No byte ends a message. -/
def Unended (bs : List UInt8) : Prop := ∀ b ∈ bs, mseo b ≠ 3

/-- The bytes of one message: the last byte ends it, and no other. -/
def IsFrame (bs : List UInt8) : Prop := ∃ as b, bs = as ++ [b] ∧ Unended as ∧ mseo b = 3

theorem consume_bytes_ok {bs : List UInt8} {n : Nat} {eom : Bool} (h : consume_bytes bs = .ok (n, eom)) :
    ∃ as b, bs.take n = as ++ [b] ∧ Unended as ∧ (eom = true ↔ mseo b = 3) := by
  induction bs generalizing n eom with
  | nil => simp [consume_bytes] at h
  | cons b bs ih =>
    simp only [consume_bytes] at h
    by_cases h2 : mseo b = 2
    · simp [h2] at h
    · rw [if_neg h2] at h
      by_cases h0 : mseo b = 0
      · rw [if_pos h0] at h
        cases hc : consume_bytes bs with
        | error e => simp [hc, Except.map] at h
        | ok r =>
          obtain ⟨as, c, htake, has, hc'⟩ := ih hc
          simp only [hc, Except.map, Except.ok.injEq, Prod.mk.injEq] at h
          obtain ⟨rfl, rfl⟩ := h
          refine ⟨b :: as, c, by rw [List.take_succ_cons, htake]; rfl, ?_, hc'⟩
          exact List.forall_mem_cons.2 ⟨by omega, has⟩
      · rw [if_neg h0] at h
        simp only [Except.ok.injEq, Prod.mk.injEq] at h
        obtain ⟨rfl, rfl⟩ := h
        exact ⟨[], b, by simp, by simp [Unended], by simp⟩

theorem consume_bytes_truncate {bs : List UInt8} (h : consume_bytes bs = .error .stream_truncate) : Unended bs := by
  induction bs with
  | nil => simp [Unended]
  | cons b bs ih =>
    simp only [consume_bytes] at h
    by_cases h2 : mseo b = 2
    · simp [h2] at h
    · rw [if_neg h2] at h
      by_cases h0 : mseo b = 0
      · rw [if_pos h0] at h
        cases hc : consume_bytes bs with
        | error e =>
          simp only [hc, Except.map, Except.error.injEq] at h
          exact List.forall_mem_cons.2 ⟨by omega, ih (by rw [hc, h])⟩
        | ok r => simp [hc, Except.map] at h
      · simp [h0] at h

section Safe
variable {orig : List UInt8} {P : List UInt8 → Bool → Prop} {F : Nat → Msg → Msg}

/-- What is left of `orig`, and whether the end of the message has been read. -/
def Left (orig : List UInt8) (buffer : List UInt8) (eom : Bool) : Prop :=
  ∃ pre, orig = pre ++ buffer ∧ if eom then IsFrame pre else Unended pre

/-- `stream_truncate` is only reported for a message that does not end. -/
def CutOff (orig : List UInt8) (e : NexusError) (_ : DecState) : Prop := e = .stream_truncate → Unended orig

theorem safe_fixed (n : Nat) :
    Proc.Safe (fun s => P s.buffer s.eom) (UNPACK_FIXED n F) (fun _ s => P s.buffer s.eom) (CutOff orig) :=
  Proc.Safe.get_bind fun _ hs => Proc.Safe.ite (fun _ => Proc.safe_fail fun _ _ h => nomatch h)
    fun _ => Proc.safe_modify fun _ ht => ht ▸ hs

theorem safe_var : Proc.Safe (fun s => P s.buffer s.eom) (UNPACK_VAR F) (fun _ s => P s.buffer s.eom) (CutOff orig) :=
  Proc.Safe.get_bind fun _ hs => (Proc.safe_modify (S := fun _ s => P s.buffer s.eom) fun _ ht => ht ▸ hs).bind
    fun _ => Proc.safe_pure fun _ h => h

theorem safe_var_req : Proc.Safe (fun s => P s.buffer s.eom) (UNPACK_VAR_REQ F) (fun _ s => P s.buffer s.eom) (CutOff orig) :=
  safe_var.bind fun _ => Proc.Safe.ite (fun _ => Proc.safe_fail fun _ _ h => nomatch h) fun _ => Proc.safe_pure fun _ h => h

theorem safe_store (f : Msg → Msg) : Proc.Safe (fun s => P s.buffer s.eom) (Proc.modify fun s => { s with msg := f s.msg })
    (fun _ s => P s.buffer s.eom) (CutOff orig) :=
  Proc.safe_modify fun _ h => h

theorem safe_reset : Proc.Safe (fun s => P s.buffer s.eom) reset_counts (fun _ s => P s.buffer s.eom) (CutOff orig) :=
  Proc.safe_modify fun _ h => h

theorem safe_req : Proc.Safe (fun s => P s.buffer s.eom) (do let _ ← UNPACK_VAR_REQ F)
    (fun _ s => P s.buffer s.eom) (CutOff orig) :=
  safe_var_req.bind fun _ => Proc.safe_pure fun _ h => h

theorem safe_consume : Proc.Safe (fun s => Left orig s.buffer s.eom) CONSUME_BYTES (fun _ s => Left orig s.buffer s.eom)
    (CutOff orig) := by
  refine Proc.Safe.get_bind fun s hs => Proc.Safe.ite (fun _ => Proc.safe_fail fun _ _ h => nomatch h) fun heom => ?_
  obtain ⟨pre, horig, hpre⟩ := hs
  rw [if_neg heom] at hpre
  cases hc : consume_bytes s.buffer with
  | error e =>
    refine Proc.safe_fail fun _ _ he => ?_
    rw [he] at hc
    rw [horig]
    exact List.forall_mem_append.2 ⟨hpre, consume_bytes_truncate hc⟩
  | ok r =>
    obtain ⟨as, b, htake, has, hb⟩ := consume_bytes_ok hc
    refine Proc.safe_modify fun t ht => ?_
    subst ht
    refine ⟨pre ++ t.buffer.take r.1, by rw [List.append_assoc, List.take_append_drop, horig], ?_⟩
    have hun : Unended (pre ++ as) := List.forall_mem_append.2 ⟨hpre, has⟩
    dsimp only
    rw [htake]
    split
    · exact ⟨pre ++ as, b, by simp, hun, hb.1 ‹_›⟩
    · refine List.forall_mem_append.2 ⟨hpre, List.forall_mem_append.2 ⟨has, List.forall_mem_singleton.2 fun h => ?_⟩⟩
      exact absurd (hb.2 h) ‹_›

/-- Behind the last field of a message. -/
abbrev Whole (orig : List UInt8) (s : DecState) : Prop := Left orig s.buffer s.eom ∧ s.eom = true

/-- Consuming a group keeps `P`. -/
def Keeps (orig : List UInt8) (P : List UInt8 → Bool → Prop) : Prop :=
  Proc.Safe (fun s => P s.buffer s.eom) CONSUME_BYTES (fun _ s => P s.buffer s.eom) (CutOff orig)

theorem safe_consume_rest (hP : Keeps orig P) : Proc.Safe (fun s => P s.buffer s.eom) CONSUME_REST
    (fun _ s => P s.buffer s.eom ∧ s.eom = true) (CutOff orig) := by
  have hloop : ∀ fuel, Proc.Safe (fun s => P s.buffer s.eom ∧ (s.eom = true ∨ s.buffer.length < fuel))
      (consume_rest fuel) (fun _ s => P s.buffer s.eom ∧ s.eom = true) (CutOff orig) := by
    intro fuel
    induction fuel with
    | zero => exact Proc.safe_pure fun s hs => ⟨hs.1, hs.2.resolve_right (Nat.not_lt_zero _)⟩
    | succ fuel ih =>
      refine Proc.Safe.get_bind fun s hs => Proc.Safe.when (fun hne => ?_) fun he t ht => ?_
      · have heom : s.eom = false := by simpa using hne
        have hlt := hs.2.resolve_left (by simp [heom])
        refine Proc.Safe.bind (Q := fun _ t => P t.buffer t.eom ∧ (t.eom = true ∨ t.buffer.length < fuel)) ?_ fun _ => ih
        rintro t rfl
        rcases hP t hs.1 with ⟨⟨⟩, t', ht', hq⟩ | h
        · have := consume_shrinks ht'
          exact .inl ⟨(), t', ht', hq, .inr (by omega)⟩
        · exact .inr h
      · subst ht
        exact ⟨hs.1, by simpa using he⟩
  exact Proc.Safe.get_bind fun s hs => (hloop _).mono (fun t ht => by
    rw [ht]
    exact ⟨hs, .inr (Nat.lt_succ_self _)⟩) fun _ _ h => h

theorem safe_finished (hP : Keeps orig P) (hwcfg : HwCfg) : Proc.Safe (fun s => P s.buffer s.eom) (finished_common hwcfg)
    (fun _ s => P s.buffer s.eom ∧ s.eom = true) (CutOff orig) := by
  refine Proc.Safe.get_bind fun s hs => Proc.Safe.ite (fun hc => ?_) fun _ => ?_
  · have heom : s.eom = true := by simp at hc; exact hc.2
    exact Proc.Safe.ite (fun _ => Proc.safe_fail fun _ _ h => nomatch h) fun _ => Proc.safe_pure fun t ht => by
      rw [ht]
      exact ⟨hs, heom⟩
  · refine Proc.Safe.mono (R := (· = s)) ?_ (fun t ht => (ht ▸ hs : P t.buffer t.eom)) fun _ _ h => h
    refine (safe_consume_rest hP).bind fun _ => Proc.Safe.when (fun _ => ?_) fun _ _ h => h
    exact safe_req (P := fun buffer eom => P buffer eom ∧ eom = true)

theorem safe_rest (hP : Keeps orig P) (hwcfg : HwCfg) (t : Tcode) : Proc.Safe (fun s => P s.buffer s.eom) (decode_rest hwcfg t)
    (fun _ s => P s.buffer s.eom ∧ s.eom = true) (CutOff orig) := by
  have hfin := safe_finished hP hwcfg
  unfold decode_rest
  split
  · exact (safe_fixed _).bind fun _ => (safe_fixed _).bind fun _ => (safe_fixed _).bind fun _ => safe_var.bind fun _ => hfin
  · exact (safe_fixed _).bind fun _ => safe_var.bind fun _ => hfin
  · exact safe_var_req.bind fun _ => hP.bind fun _ => safe_var_req.bind fun _ => hfin
  · refine (safe_fixed _).bind fun _ => Proc.Safe.get_bind fun s hs => ?_
    refine Proc.Safe.bind (Q := fun _ t => P t.buffer t.eom) (Proc.Safe.mono ?_ (fun t ht => ht ▸ hs) fun _ _ h => h)
      fun _ => hfin
    refine Proc.Safe.ite (fun _ => safe_var.bind fun _ => Proc.safe_pure fun _ h => h) fun _ => safe_reset.bind fun _ => ?_
    split
    · exact safe_req
    · exact safe_req
    · exact safe_var_req.bind fun _ => hP.bind fun _ => safe_req
  · exact safe_var_req.bind fun _ => hfin
  · refine safe_reset.bind fun _ => (safe_fixed _).bind fun _ => (safe_fixed _).bind fun _ => safe_var_req.bind fun _ => ?_
    refine Proc.Safe.get_bind fun s hs => Proc.Safe.mono ?_ (fun t ht => ht ▸ hs) fun _ _ h => h
    exact (Proc.Safe.when (fun _ => hP.bind fun _ => safe_req) fun _ _ h => h).bind fun _ => hfin
  · refine (safe_fixed _).bind fun _ => (safe_fixed _).bind fun _ => safe_var_req.bind fun _ => ?_
    refine Proc.Safe.get_bind fun s hs => Proc.Safe.mono ?_ (fun t ht => ht ▸ hs) fun _ _ h => h
    exact (Proc.Safe.when (fun _ => hP.bind fun _ => safe_req) fun _ _ h => h).bind fun _ => hfin
  · exact safe_consume_rest hP

theorem safe_common (hP : Keeps orig P) (hwcfg : HwCfg) {m : Msg} (hc : common_tcode m) :
    Proc.Safe (fun s => s.msg = m ∧ P s.buffer s.eom) (decode_common hwcfg) (fun _ s => P s.buffer s.eom)
      (CutOff orig) := by
  refine Proc.Safe.get_bind fun s hs => Proc.Safe.mono ?_ (fun t ht => ht ▸ hs.2) fun _ _ h => h
  rw [hs.1, (common_preds rfl hc).1]
  refine (Proc.Safe.when (fun _ => safe_fixed _) fun _ _ h => h).bind fun _ => ?_
  refine (Proc.Safe.when (fun _ => safe_fixed _) fun _ _ h => h).bind fun _ => ?_
  refine (Proc.safe_assert (S := fun _ (t : DecState) => P t.buffer t.eom) (fun _ _ => rfl) fun _ h => h).bind fun _ => ?_
  refine (safe_store (P := P) (Msg.set_hrepeat 0)).bind fun _ => safe_var_req.bind fun _ => ?_
  refine (Proc.Safe.when (fun _ => hP.bind fun _ => Proc.Safe.ite (fun _ => ?_) fun _ => safe_req) fun _ _ h => h).bind fun _ => ?_
  · exact safe_var_req.bind fun _ => Proc.Safe.when (fun _ => Proc.safe_modify fun _ h => h) fun _ _ h => h
  · exact Proc.Safe.when (fun _ => hP.bind fun _ => safe_req) fun _ _ h => h

/-- No assertion fails, what consuming a group keeps holds behind the last byte of
a decoded message, and `stream_truncate` means that the buffer has no frame. -/
theorem safe_decode (hP : Keeps orig P) (h0 : P orig false) (hwcfg : HwCfg) : Proc.Safe (fun s => s.buffer = orig ∧ s.eom = false) (decode_msg hwcfg)
    (fun _ s => P s.buffer s.eom ∧ s.eom = true) (CutOff orig) := by
  have hstart : ∀ s : DecState, s.buffer = orig ∧ s.eom = false → P s.buffer s.eom := fun s h => by
    rw [h.1, h.2]
    exact h0
  refine ((safe_store (P := P) (Msg.set_timestamp 0)).bind fun _ => hP.bind fun _ => (safe_fixed _).bind fun _ =>
    Proc.Safe.get_bind fun s hs => ?_).mono hstart fun _ _ h => h
  refine Proc.Safe.ite (fun _ => Proc.Safe.ite (fun _ => Proc.safe_fail fun _ _ h => nomatch h) fun he => ?_) fun _ => ?_
  · exact Proc.safe_pure fun t ht => by
      rw [ht]
      exact ⟨hs, by simpa using he⟩
  · refine Proc.Safe.mono ?_ (fun t ht => ht ▸ hs) fun _ _ h => h
    refine (safe_store (P := P) (Msg.set_src 0)).bind fun _ => ?_
    refine (Proc.Safe.when (fun _ => safe_fixed _) fun _ _ h => h).bind fun _ => Proc.Safe.get_bind fun s hs => ?_
    refine Proc.Safe.ite (fun hc => ?_) fun _ => (safe_rest hP hwcfg _).mono (fun t ht => ht ▸ hs) fun _ _ h => h
    exact ((safe_common hP hwcfg hc).bind fun _ => safe_finished hP hwcfg).mono (fun t ht => ⟨by rw [ht], ht ▸ hs⟩) fun _ _ h => h

end Safe

/-! ## `nexusrv_msg_decode` -/

/-- The bytes of the first message, if the buffer has one. -/
theorem msg_decode_total (hwcfg : HwCfg) (buffer : List UInt8) (m : Msg) :
    (∃ n m', msg_decode hwcfg buffer m = some (.ok n, m') ∧ n ≤ buffer.length ∧ IsFrame (buffer.take n)) ∨
    ∃ e m', msg_decode hwcfg buffer m = some (.error e, m') ∧ (e = .stream_truncate → Unended buffer) := by
  rcases safe_decode (@safe_consume buffer) ⟨[], rfl, by simp [Unended]⟩ hwcfg ⟨[], buffer, 0, false, m⟩ ⟨rfl, rfl⟩ with
    ⟨⟨⟩, s, hrun, ⟨pre, horig, hpre⟩, heom⟩ | ⟨e, s, hrun, he⟩
  · left
    rw [heom, if_pos rfl] at hpre
    have hlen : buffer.length - s.buffer.length = pre.length := by rw [horig]; simp
    refine ⟨pre.length, s.msg, by simp [msg_decode, hrun, Except.map, hlen], by rw [horig]; simp, ?_⟩
    rwa [horig, List.take_left]
  · right
    exact ⟨e, s.msg, by simp [msg_decode, hrun, Except.map], he⟩

/-- A longer buffer and another message to write into give the same, unless the
buffer was cut off. -/
theorem msg_decode_append (hwcfg : HwCfg) (buffer q : List UInt8) (m₁ m₂ : Msg) :
    (q ≠ [] ∧ ∃ m', msg_decode hwcfg buffer m₁ = some (.error .stream_truncate, m')) ∨
    ∃ r m₁' m₂', msg_decode hwcfg buffer m₁ = some (r, m₁') ∧ msg_decode hwcfg (buffer ++ q) m₂ = some (r, m₂') ∧
      ∀ n, r = .ok n → m₁'.Same m₂' := by
  have hstart : Ahead q (fun _ _ => True) ⟨[], buffer, 0, false, m₁⟩ ⟨[], buffer ++ q, 0, false, m₂⟩ :=
    ⟨rfl, rfl, rfl, rfl, trivial⟩
  rcases lock_decode hwcfg _ _ hstart with ⟨h₁, h₂⟩ | ⟨e, s, h₁, hq, rfl⟩ | ⟨r, s, t, h₁, h₂, hq⟩
  · rcases safe_decode (@safe_consume buffer) ⟨[], rfl, by simp [Unended]⟩ hwcfg ⟨[], buffer, 0, false, m₁⟩ ⟨rfl, rfl⟩ with ⟨a, s, h, -⟩ | ⟨e, s, h, -⟩ <;>
      rw [h₁] at h <;> cases h
  · exact .inl ⟨hq, s.msg, by simp [msg_decode, h₁, Except.map]⟩
  · right
    cases r with
    | error e => exact ⟨.error e, s.msg, t.msg, by simp [msg_decode, h₁, Except.map], by simp [msg_decode, h₂, Except.map],
        fun n h => by cases h⟩
    | ok a =>
      obtain ⟨-, hbuf, -, -, hsame⟩ := hq a rfl
      refine ⟨.ok (buffer.length - s.buffer.length), s.msg, t.msg, by simp [msg_decode, h₁, Except.map], ?_, fun _ _ => hsame⟩
      have hlen : (buffer ++ q).length - t.buffer.length = buffer.length - s.buffer.length := by
        rw [hbuf, List.length_append, List.length_append]; omega
      simp only [msg_decode, h₂, Option.map_some, Except.map, hlen]

/-- Any message to write into gives the same. -/
theorem msg_decode_any (hwcfg : HwCfg) (bs : List UInt8) (m m₂ : Msg) : ∃ r a b, msg_decode hwcfg bs m = some (r, a) ∧
    msg_decode hwcfg bs m₂ = some (r, b) ∧ ∀ n, r = .ok n → a.Same b := by
  rcases msg_decode_append hwcfg bs [] m m₂ with ⟨hne, -⟩ | h
  · exact absurd rfl hne
  · rwa [List.append_nil] at h

/-! ## Which errors a decoder returns -/

/-- `x` never fails because a message is unsupported: only the trace decoder does. -/
def Supports {α : Type} (x : Dec α) : Prop := Proc.Post (fun _ => True) x (fun _ _ => True) fun e _ => e ≠ .msg_unsupported

section Supports

theorem supports_fail {α : Type} {e : NexusError} (h : e ≠ .msg_unsupported) : Supports (Proc.fail e : Dec α) := Proc.post_fail fun _ _ => h

theorem supports_pure {α : Type} (a : α) : Supports (pure a : Dec α) := Proc.post_pure fun _ _ => trivial

theorem supports_modify (g : DecState → DecState) : Supports (Proc.modify g) := Proc.post_modify fun _ _ => trivial

theorem Supports.bind {α β : Type} {x : Dec α} {f : α → Dec β} (hx : Supports x) (hf : ∀ a, Supports (f a)) : Supports (x >>= f) :=
  Proc.Post.bind hx hf

theorem Supports.ite {α : Type} {p : Prop} [Decidable p] {x y : Dec α} (hx : Supports x) (hy : Supports y) : Supports (if p then x else y) :=
  Proc.Post.ite (fun _ => hx) fun _ => hy

theorem Supports.when {p : Bool} {x : Dec Unit} (hx : Supports x) : Supports (Proc.when p x) :=
  Proc.Post.when (fun _ => hx) fun _ _ h => h

theorem supports_get {α : Type} {f : DecState → Dec α} (hf : ∀ s, Supports (f s)) : Supports (Proc.get >>= f) :=
  fun s hs => hf s s hs

theorem supports_missing {α : Type} : Supports (Proc.fail .msg_missing_field : Dec α) := supports_fail (by decide)

theorem supports_fixed (n : Nat) (F : Nat → Msg → Msg) : Supports (UNPACK_FIXED n F) :=
  supports_get fun _ => supports_missing.ite (supports_modify _)

theorem supports_var (F : Nat → Msg → Msg) : Supports (UNPACK_VAR F) :=
  supports_get fun _ => (supports_modify _).bind fun _ => supports_pure _

theorem supports_var_req (F : Nat → Msg → Msg) : Supports (UNPACK_VAR_REQ F) :=
  (supports_var F).bind fun _ => supports_missing.ite (supports_pure _)

theorem supports_req (F : Nat → Msg → Msg) : Supports (do let _ ← UNPACK_VAR_REQ F) :=
  (supports_var_req F).bind fun _ => supports_pure _

theorem consume_bytes_supports (bs : List UInt8) : consume_bytes bs ≠ .error .msg_unsupported := by
  induction bs with
  | nil => exact fun h => by cases h
  | cons b bs ih =>
    rw [consume_bytes]
    split
    · exact fun h => by cases h
    · split
      · rcases hr : consume_bytes bs with e | r
        · intro h
          cases h
          exact ih hr
        · exact fun h => by cases h
      · exact fun h => by cases h

theorem supports_consume : Supports CONSUME_BYTES := by
  refine supports_get fun s => supports_missing.ite ?_
  rcases hr : consume_bytes s.buffer with e | r
  · exact supports_fail fun he => consume_bytes_supports s.buffer (he ▸ hr)
  · exact supports_modify _

theorem supports_consume_rest : Supports CONSUME_REST := by
  have hloop : ∀ fuel, Supports (consume_rest fuel) := by
    intro fuel
    induction fuel with
    | zero => exact supports_pure ()
    | succ fuel ih => exact supports_get fun _ => Supports.when (supports_consume.bind fun _ => ih)
  exact supports_get fun _ => hloop _

theorem supports_finished (hwcfg : HwCfg) : Supports (finished_common hwcfg) :=
  supports_get fun _ => Supports.ite (supports_missing.ite (supports_pure _))
    (supports_consume_rest.bind fun _ => (supports_req _).when)

theorem supports_common (hwcfg : HwCfg) : Supports (decode_common hwcfg) := by
  have hvao : Supports UNPACK_XADDR_VAO := (supports_var_req _).bind fun _ => (supports_modify _).when
  refine supports_get fun _ => (supports_fixed 4 _).when.bind fun _ => (supports_fixed 2 _).when.bind fun _ => ?_
  refine Supports.bind (Proc.post_assert fun _ h _ => h) fun _ => (supports_modify _).bind fun _ => ?_
  refine (supports_var_req _).bind fun _ => Supports.bind ?_ fun _ => (supports_consume.bind fun _ => supports_req _).when
  exact (supports_consume.bind fun _ => hvao.ite (supports_req _)).when

theorem supports_rest (hwcfg : HwCfg) (tcode : Tcode) : Supports (decode_rest hwcfg tcode) := by
  have hfin := supports_finished hwcfg
  have hnext : ∀ F, Supports (do CONSUME_BYTES; let _ ← UNPACK_VAR_REQ F) := fun F => supports_consume.bind fun _ => supports_req F
  unfold decode_rest
  split
  · refine (supports_fixed 2 _).bind fun _ => (supports_fixed 2 _).bind fun _ => ?_
    exact (supports_fixed 1 _).bind fun _ => (supports_var _).bind fun _ => hfin
  · exact (supports_fixed 4 _).bind fun _ => (supports_var _).bind fun _ => hfin
  · refine (supports_var_req _).bind fun _ => supports_consume.bind fun _ => ?_
    exact (supports_var_req _).bind fun _ => hfin
  · refine (supports_fixed 4 _).bind fun _ => supports_get fun _ => Supports.bind (Supports.ite ?_ ?_) fun _ => hfin
    · exact (supports_var _).bind fun _ => supports_pure _
    · refine (supports_modify _).bind fun _ => ?_
      split
      · exact supports_req _
      · exact supports_req _
      · exact (supports_var_req _).bind fun _ => hnext _
  · exact (supports_var_req _).bind fun _ => hfin
  · refine (supports_modify _).bind fun _ => (supports_fixed 4 _).bind fun _ => (supports_fixed 2 _).bind fun _ => ?_
    refine (supports_var_req _).bind fun _ => supports_get fun _ => ?_
    exact (hnext _).when.bind fun _ => hfin
  · refine (supports_fixed 4 _).bind fun _ => (supports_fixed 2 _).bind fun _ => ?_
    refine (supports_var_req _).bind fun _ => supports_get fun _ => ?_
    exact (hnext _).when.bind fun _ => hfin
  · exact supports_consume_rest

theorem supports_decode (hwcfg : HwCfg) : Supports (decode_msg hwcfg) := by
  refine (supports_modify _).bind fun _ => supports_consume.bind fun _ => (supports_fixed 6 _).bind fun _ => supports_get fun _ => ?_
  refine Supports.ite (Supports.ite (supports_fail (by decide)) (supports_pure _)) ?_
  refine (supports_modify _).bind fun _ => (supports_fixed _ _).when.bind fun _ => supports_get fun _ => ?_
  exact ((supports_common hwcfg).bind fun _ => supports_finished hwcfg).ite (supports_rest hwcfg _)

end Supports

theorem msg_decode_supports {hwcfg : HwCfg} {buffer : List UInt8} {m m' : Msg} {e : NexusError}
    (h : msg_decode hwcfg buffer m = some (.error e, m')) : e ≠ .msg_unsupported := by
  obtain ⟨⟨r, s⟩, hr, he⟩ := Option.map_eq_some_iff.1 h
  rcases r with e' | a <;> cases he
  exact (supports_decode hwcfg _ trivial).2 e s hr

end nexusrv
