import NexusRv.MsgDecoder
import NexusRv.Refinement
/-!
# The SRC filter

A decoder with an SRC filter is compared with the same decoder without one. An
Idle message has no SRC: the filter looks at the SRC that the caller's message
held before. `exposed` tells the streams where this shows.
-/

namespace nexusrv

/-! ## Rounds with and without the filter -/

/-- The same decoder with the filter `f`. -/
def MsgDecoder.sifts (f : Int16) (d : MsgDecoder) : MsgDecoder := { d with src_filter := f }

/-- The filter `f` lets the message through. -/
def keeps (f : Int16) (m : Msg) : Bool := !(f ≥ 0 && f.toInt ≠ m.src.toNat)

/-- A round that delivers a message goes on if the filter drops it. -/
def sift (f : Int16) (m : Msg) : Except NexusError (Option Nat) → Except NexusError (Option Nat)
  | .ok (some (n + 1)) => if keeps f m then .ok (some (n + 1)) else .ok none
  | r => r

theorem advance_sifts (f : Int16) (d : MsgDecoder) (n : Nat) : (d.sifts f).advance n = (d.advance n).sifts f := by
  unfold MsgDecoder.advance MsgDecoder.sifts
  dsimp only
  split <;> rfl

theorem read_buffer_sifts (f : Int16) (d : MsgDecoder) (m : Msg) : read_buffer (d.sifts f, m) =
    (read_buffer (d, m)).map fun r => (sift f r.2.2 r.1, r.2.1.sifts f, r.2.2) := by
  have hrefill : (d.sifts f).refill = (d.refill.1, d.refill.2.sifts f) := rfl
  simp only [read_buffer, Proc.get_bind_apply, Proc.modify_bind_apply, Proc.ite_apply, hrefill]
  by_cases hok : (!d.refill.1) = true
  · rw [if_pos hok, if_pos hok]
    rfl
  · rw [if_neg hok, if_neg hok]
    have hfilled : (d.refill.2.sifts f).filled = d.refill.2.filled := rfl
    rw [hfilled]
    split <;> rfl

theorem keeps_unfiltered (m : Msg) : keeps (-1) m = true := rfl

theorem read_buffer_twice (f : Int16) (d : MsgDecoder) (m : Msg) : read_buffer (d.sifts f, m) =
    (read_buffer (d.sifts (-1), m)).map fun r => (sift f r.2.2 r.1, r.2.1.sifts f, r.2.2) := by
  rw [read_buffer_sifts f, read_buffer_sifts (-1), Option.map_map]
  congr 1
  funext r
  rcases r with ⟨_ | _ | _ | n, d', m'⟩ <;> rfl

theorem try_again_sifts (f : Int16) (d : MsgDecoder) (m : Msg) : try_again (d.sifts f, m) =
    (try_again (d.sifts (-1), m)).map fun r => (sift f r.2.2 r.1, r.2.1.sifts f, r.2.2) := by
  rw [try_again_eq, try_again_eq]
  have hlast : ∀ g, ({ d.sifts g with lastmsg_len := 0 } : MsgDecoder) = ({ d with lastmsg_len := 0 } : MsgDecoder).sifts g :=
    fun _ => rfl
  rw [hlast, hlast]
  generalize ({ d with lastmsg_len := 0 } : MsgDecoder) = d
  have hpos : ∀ g, (d.sifts g).pos = d.pos := fun _ => rfl
  have hfilled : ∀ g, (d.sifts g).filled = d.filled := fun _ => rfl
  have hbufsz : ∀ g, (d.sifts g).bufsz = d.bufsz := fun _ => rfl
  have hcfg : ∀ g, (d.sifts g).hw_cfg = d.hw_cfg := fun _ => rfl
  have hwin : ∀ g, (d.sifts g).window = d.window := fun _ => rfl
  simp only [round, hpos, hfilled, hbufsz, hcfg, hwin]
  by_cases heq : d.pos = d.filled
  · rw [if_pos heq, if_pos heq]
    split
    · rfl
    · exact read_buffer_twice f d m
  rw [if_neg heq, if_neg heq]
  rcases hd : msg_decode d.hw_cfg d.window m with _ | ⟨e | n, m'⟩
  · rfl
  · dsimp only
    split
    · rfl
    · split
      · rfl
      · exact read_buffer_twice f d m'
  · obtain ⟨n, rfl⟩ : ∃ k, n = k + 1 := ⟨n - 1, by have := (msg_decode_ok_pos hd).1; omega⟩
    have hp : ∀ g, (d.sifts g).passes m' = keeps g m' := fun _ => rfl
    simp only [hp, keeps_unfiltered, if_true, advance_sifts, Option.map_some, sift]
    rfl

/-! ## Idle messages -/

/-- `x` keeps what holds of the TCODE and the SRC. -/
def KeepsHead (K : Tcode → UInt16 → Prop) {α : Type} (x : Dec α) : Prop :=
  Proc.Post (fun s => K s.msg.tcode s.msg.src) x (fun _ s => K s.msg.tcode s.msg.src) fun _ _ => True

section KeepsHead
variable {K : Tcode → UInt16 → Prop}

theorem keeps_fail {α : Type} (e : NexusError) : KeepsHead K (Proc.fail e : Dec α) := Proc.post_fail fun _ _ => trivial

theorem keeps_pure {α : Type} (a : α) : KeepsHead K (pure a : Dec α) := Proc.post_pure fun _ h => h

theorem keeps_modify {g : DecState → DecState} (h : ∀ s, (g s).msg.tcode = s.msg.tcode ∧ (g s).msg.src = s.msg.src := by intro; exact ⟨rfl, rfl⟩) :
    KeepsHead K (Proc.modify g) :=
  Proc.post_modify fun s hs => by rw [(h s).1, (h s).2]; exact hs

theorem KeepsHead.bind {α β : Type} {x : Dec α} {f : α → Dec β} (hx : KeepsHead K x) (hf : ∀ a, KeepsHead K (f a)) :
    KeepsHead K (x >>= f) :=
  Proc.Post.bind hx hf

theorem KeepsHead.ite {α : Type} {p : Prop} [Decidable p] {x y : Dec α} (hx : KeepsHead K x) (hy : KeepsHead K y) :
    KeepsHead K (if p then x else y) :=
  Proc.Post.ite (fun _ => hx) fun _ => hy

theorem KeepsHead.when {p : Bool} {x : Dec Unit} (hx : KeepsHead K x) : KeepsHead K (Proc.when p x) :=
  Proc.Post.when (fun _ => hx) fun _ _ h => h

/-- A procedure that looks at the state first. -/
theorem keeps_get {α : Type} {f : DecState → Dec α} (hf : ∀ s, KeepsHead K (f s)) : KeepsHead K (Proc.get >>= f) :=
  fun s hs => hf s s hs

section Fields
variable {F : Nat → Msg → Msg}

-- the setters of the other fields keep both by computation
theorem keeps_fixed (n : Nat) (h : ∀ v m, (F v m).tcode = m.tcode ∧ (F v m).src = m.src := by intros; exact ⟨rfl, rfl⟩) : KeepsHead K (UNPACK_FIXED n F) :=
  keeps_get fun _ => (keeps_fail _).ite (keeps_modify fun s => h _ s.msg)

theorem keeps_var (h : ∀ v m, (F v m).tcode = m.tcode ∧ (F v m).src = m.src := by intros; exact ⟨rfl, rfl⟩) : KeepsHead K (UNPACK_VAR F) :=
  keeps_get fun _ => (keeps_modify fun s => h _ s.msg).bind fun _ => keeps_pure _

theorem keeps_var_req (h : ∀ v m, (F v m).tcode = m.tcode ∧ (F v m).src = m.src := by intros; exact ⟨rfl, rfl⟩) : KeepsHead K (UNPACK_VAR_REQ F) :=
  (keeps_var h).bind fun _ => (keeps_fail _).ite (keeps_pure _)

theorem keeps_req (h : ∀ v m, (F v m).tcode = m.tcode ∧ (F v m).src = m.src := by intros; exact ⟨rfl, rfl⟩) : KeepsHead K (do let _ ← UNPACK_VAR_REQ F) :=
  (keeps_var_req h).bind fun _ => keeps_pure _

end Fields

theorem keeps_consume : KeepsHead K CONSUME_BYTES := by
  refine keeps_get fun s => (keeps_fail _).ite ?_
  cases consume_bytes s.buffer with
  | error e => exact keeps_fail e
  | ok r => exact keeps_modify

theorem keeps_consume_rest : KeepsHead K CONSUME_REST := by
  have hloop : ∀ fuel, KeepsHead K (consume_rest fuel) := by
    intro fuel
    induction fuel with
    | zero => exact keeps_pure ()
    | succ fuel ih => exact keeps_get fun _ => KeepsHead.when (keeps_consume.bind fun _ => ih)
  exact keeps_get fun _ => hloop _

theorem keeps_finished (hwcfg : HwCfg) : KeepsHead K (finished_common hwcfg) :=
  keeps_get fun _ => KeepsHead.ite ((keeps_fail _).ite (keeps_pure _))
    (keeps_consume_rest.bind fun _ => (keeps_req).when)

theorem keeps_common (hwcfg : HwCfg) : KeepsHead K (decode_common hwcfg) := by
  have hicnt : KeepsHead K (UNPACK_VAR_REQ Msg.set_icnt) := keeps_var_req
  have hxaddr : KeepsHead K (UNPACK_VAR_REQ Msg.set_xaddr) := keeps_var_req
  have hvao : KeepsHead K UNPACK_XADDR_VAO := hxaddr.bind fun _ => (keeps_modify).when
  have hhist : KeepsHead K (do let _ ← UNPACK_VAR_REQ Msg.set_hist) := keeps_req
  refine keeps_get fun _ => (keeps_fixed 4).when.bind fun _ => ?_
  refine (keeps_fixed 2).when.bind fun _ => ?_
  refine KeepsHead.bind (Proc.post_assert fun _ h _ => h) fun _ => (keeps_modify).bind fun _ => ?_
  refine hicnt.bind fun _ => KeepsHead.bind ?_ fun _ => (keeps_consume.bind fun _ => hhist).when
  exact (keeps_consume.bind fun _ => hvao.ite (hxaddr.bind fun _ => keeps_pure _)).when

theorem keeps_rest (hwcfg : HwCfg) (tcode : Tcode) : KeepsHead K (decode_rest hwcfg tcode) := by
  have hfin := keeps_finished (K := K) hwcfg
  have hreset : KeepsHead K reset_counts := keeps_modify
  unfold decode_rest
  split
  · refine (keeps_fixed 2).bind fun _ => (keeps_fixed 2).bind fun _ => ?_
    exact (keeps_fixed 1).bind fun _ => (keeps_var).bind fun _ => hfin
  · exact (keeps_fixed 4).bind fun _ => (keeps_var).bind fun _ => hfin
  · refine (keeps_var_req).bind fun _ => keeps_consume.bind fun _ => ?_
    exact (keeps_var_req).bind fun _ => hfin
  · refine (keeps_fixed 4).bind fun _ => keeps_get fun _ => KeepsHead.bind (KeepsHead.ite ?_ ?_) fun _ => hfin
    · exact (keeps_var).bind fun _ => keeps_pure _
    · refine hreset.bind fun _ => ?_
      split
      · exact keeps_req
      · exact keeps_req
      · exact (keeps_var_req).bind fun _ => keeps_consume.bind fun _ => keeps_req
  · exact (keeps_var_req).bind fun _ => hfin
  · refine hreset.bind fun _ => (keeps_fixed 4).bind fun _ => (keeps_fixed 2).bind fun _ => ?_
    refine (keeps_var_req).bind fun _ => keeps_get fun _ => ?_
    exact (keeps_consume.bind fun _ => keeps_req).when.bind fun _ => hfin
  · refine (keeps_fixed 4).bind fun _ => (keeps_fixed 2).bind fun _ => ?_
    refine (keeps_var_req).bind fun _ => keeps_get fun _ => ?_
    exact (keeps_consume.bind fun _ => keeps_req).when.bind fun _ => hfin
  · exact keeps_consume_rest

end KeepsHead

/-- `x` keeps the TCODE. -/
def KeepsTcode (t : Tcode) {α : Type} (x : Dec α) : Prop := KeepsHead (fun t' _ => t' = t) x

theorem keeps_body (t : Tcode) (hwcfg : HwCfg) : KeepsTcode t (decode_body hwcfg) := by
  have hsrc : KeepsTcode t (UNPACK_FIXED hwcfg.src_bits Msg.set_src) := keeps_get fun _ => (keeps_fail _).ite (Proc.post_modify fun _ h => h)
  refine KeepsHead.bind (Proc.post_modify fun _ h => h) fun _ => (KeepsHead.when hsrc).bind fun _ => keeps_get fun _ => ?_
  exact ((keeps_common hwcfg).bind fun _ => keeps_finished hwcfg).ite (keeps_rest hwcfg _)

/-- The TCODE that the first group of the buffer spells. -/
def first_tcode (bs : List UInt8) (n : Nat) : Tcode := .ofNat (unpack_bits (bs.take n) 0 6)

/-- The decoder behind the TCODE. -/
theorem decode_msg_eq (hwcfg : HwCfg) {bs : List UInt8} {n : Nat} {eom : Bool} (h : consume_bytes bs = .ok (n, eom)) (m : Msg) :
    decode_msg hwcfg ⟨[], bs, 0, false, m⟩ =
      (if first_tcode bs n = .Idle then (if !eom then Proc.fail .msg_invalid else pure ()) else decode_body hwcfg)
        ⟨bs.take n, bs.drop n, 6, eom, { m with timestamp := 0, tcode := first_tcode bs n }⟩ := by
  have hn := consume_bytes_le h
  have hlen : ¬ (bs.take n).length * MDO_BITS - 0 < 6 := by
    rw [List.length_take, Nat.min_eq_left hn.2]
    simp only [MDO_BITS]
    omega
  simp only [decode_msg, Proc.modify_bind_apply, CONSUME_BYTES, Proc.bind_assoc_apply, Proc.get_bind_apply, h, Bool.false_eq_true,
    if_false, UNPACK_FIXED, hlen]
  rfl

/-- A decoded Idle message is one group, and only its TCODE and timestamp are written. -/
theorem msg_decode_idle {hwcfg : HwCfg} {bs : List UInt8} {m m' : Msg} {n : Nat} (h : msg_decode hwcfg bs m = some (.ok n, m'))
    (hidle : m'.tcode = .Idle) : ∃ k, consume_bytes bs = .ok (k, true) ∧ first_tcode bs k = .Idle ∧ m'.src = m.src := by
  obtain ⟨⟨r, s⟩, hrun, hres⟩ := Option.map_eq_some_iff.1 h
  simp only [Prod.mk.injEq] at hres
  obtain ⟨hr, rfl⟩ := hres
  rcases r with e | u
  · cases hr
  rcases hc : consume_bytes bs with e | ⟨k, eom⟩
  · simp [decode_msg, CONSUME_BYTES, hc] at hrun
  · rw [decode_msg_eq hwcfg hc] at hrun
    by_cases htc : first_tcode bs k = .Idle
    · rw [if_pos htc] at hrun
      cases eom with
      | false => simp at hrun
      | true =>
        cases hrun
        exact ⟨k, rfl, htc, rfl⟩
    · rw [if_neg htc] at hrun
      have hkept : s.msg.tcode = first_tcode bs k := (keeps_body _ hwcfg _ rfl).1 _ _ hrun
      exact absurd (hkept.symm.trans hidle) htc

/-- A first try at an Idle message whose bytes were missing does not touch the SRC. -/
theorem msg_decode_idle_cut {hwcfg : HwCfg} {bs q : List UInt8} {m m' : Msg} {k : Nat}
    (h : msg_decode hwcfg bs m = some (.error .stream_truncate, m')) (hc : consume_bytes (bs ++ q) = .ok (k, true))
    (htc : first_tcode (bs ++ q) k = .Idle) : m'.src = m.src := by
  rcases consume_bytes_append bs q with htr | happ
  · simp only [msg_decode, decode_msg, CONSUME_BYTES, Proc.modify_bind_apply, Proc.bind_assoc_apply, Proc.get_bind_apply, htr,
      Bool.false_eq_true, if_false, Proc.fail_bind_apply, Option.map_some, Option.some.injEq, Prod.mk.injEq] at h
    rw [← h.2]
    rfl
  · rw [hc] at happ
    have hk := (consume_bytes_le happ.symm).2
    have htc' : first_tcode bs k = .Idle := by rwa [first_tcode, List.take_append_of_le_length hk] at htc
    simp [msg_decode, decode_msg_eq hwcfg happ.symm, htc', Except.map] at h

/-! ## A whole call -/

theorem sifts_inv {d : MsgDecoder} (h : DecoderInv d) (f : Int16) : DecoderInv (d.sifts f) :=
  ⟨h.pos_le, h.filled_le, h.buffer_len, h.last_le⟩

theorem sifts_self {d d' : MsgDecoder} {f : Int16} (h : SameSetup (d.sifts f) d') : d'.sifts f = d' := by
  have hf : d'.src_filter = f := h.2.1
  rw [← hf]
  rfl

/-- A call without the filter becomes one with it: a message that is dropped is read over. -/
def sieve (f : Int16) : Option (Except NexusError Nat × MsgDecoder × Msg) → Option (Except NexusError Nat × MsgDecoder × Msg)
  | some (.ok (n + 1), d, m) => if keeps f m then some (.ok (n + 1), d.sifts f, m) else msg_decoder_next (d.sifts f, m)
  | r => r.map fun r => (r.1, r.2.1.sifts f, r.2.2)

theorem next_sifts (f : Int16) {d : MsgDecoder} (hinv : DecoderInv d) (m : Msg) :
    msg_decoder_next (d.sifts f, m) = sieve f (msg_decoder_next (d.sifts (-1), m)) := by
  induction hk : roundsLeft d using Nat.strong_induction_on generalizing d m with
  | _ k ih =>
    rw [msg_decoder_next_eq (sifts_inv hinv f), msg_decoder_next_eq (sifts_inv hinv (-1)), try_again_sifts]
    rcases hr : try_again (d.sifts (-1), m) with _ | ⟨_ | _ | _ | n, d', m'⟩
    · rfl
    · rfl
    · obtain ⟨hinv', hs, -, hlt⟩ := (hr ▸ try_again_round (sifts_inv hinv (-1)) m).again (sifts_inv hinv (-1))
      have hnext := ih (roundsLeft d') (hk ▸ hlt) hinv' m' rfl
      rw [sifts_self hs] at hnext
      exact hnext
    · rfl
    · by_cases hkeep : keeps f m' = true
      · simp [sift, sieve, hkeep]
      · simp [sift, sieve, hkeep]

/-- What a round that fills the buffer leaves, without a filter: the window goes
on, and what was in it is a message that is cut off. -/
structure Filled (d : MsgDecoder) (m : Msg) (d' : MsgDecoder) (m' : Msg) : Prop where
  pos : d'.pos = 0
  filled : 0 < d'.filled
  window : ∃ q, d'.window = d.window ++ q
  msg : d.pos = 0 ∧ d.filled = 0 ∧ m' = m ∨ d.pos ≠ 0 ∧ msg_decode d.hw_cfg d.window m = some (.error .stream_truncate, m')

theorem read_buffer_fills {d d' : MsgDecoder} (hinv : DecoderInv d) (hd : d.filled = d.bufsz ∨ d.pos = d.filled) {m m' : Msg}
    (h : read_buffer (d, m) = some (.ok none, d', m')) : d'.pos = 0 ∧ 0 < d'.filled ∧ (∃ q, d'.window = d.window ++ q) ∧ m' = m := by
  simp only [read_buffer, Proc.get_bind_apply, Proc.modify_bind_apply, Proc.ite_apply] at h
  split at h
  · cases h
  · split at h
    · cases h
      exact ⟨rfl, ‹_›, ⟨_, refill_window hinv hd (by simpa using ‹¬ (!d.refill.1) = true›)⟩, rfl⟩
    · cases h

theorem read_buffer_delivers {d d' : MsgDecoder} {m m' : Msg} {n : Nat} :
    read_buffer (d, m) ≠ some (.ok (some (n + 1)), d', m') := by
  simp only [read_buffer, Proc.get_bind_apply, Proc.modify_bind_apply, Proc.ite_apply]
  split
  · exact fun h => by cases h
  · split <;> exact fun h => by cases h

theorem passes_unfiltered {d : MsgDecoder} (hf : d.src_filter < 0) (m : Msg) : d.passes m = true := by
  have hneg : ¬ d.src_filter ≥ 0 := Int16.not_le.2 hf
  simp [MsgDecoder.passes, hneg]

theorem try_again_fills {d d' : MsgDecoder} (hinv : DecoderInv d) (hf : d.src_filter < 0) {m m' : Msg}
    (h : try_again (d, m) = some (.ok none, d', m')) : Filled d m d' m' := by
  have hinv₀ : DecoderInv { d with lastmsg_len := 0 } := ⟨hinv.pos_le, hinv.filled_le, hinv.buffer_len, .inl (Nat.zero_le _)⟩
  rw [try_again_eq] at h
  unfold round at h
  split at h
  · rename_i heq
    split at h
    · cases h
    · rename_i hp
      obtain ⟨hpos, hfilled, hwin, rfl⟩ := read_buffer_fills hinv₀ (.inr heq) h
      dsimp only at heq hp
      exact ⟨hpos, hfilled, hwin, .inl ⟨by omega, by omega, rfl⟩⟩
  · split at h
    · cases h
    · simp [passes_unfiltered (d := { d with lastmsg_len := 0 }) hf] at h
    · rename_i e m₁ hdec
      split at h
      · cases h
      · rename_i hlast
        obtain ⟨hfull, rfl⟩ : d.filled = d.bufsz ∧ e = .stream_truncate := by simpa using hlast
        split at h
        · cases h
        · obtain ⟨hpos, hfilled, hwin, rfl⟩ := read_buffer_fills hinv₀ (.inl hfull) h
          exact ⟨hpos, hfilled, hwin, .inr ⟨‹_›, hdec⟩⟩

/-- A round that delivers a message decodes it. -/
theorem try_again_delivers {d d' : MsgDecoder} {m m' : Msg} {n : Nat} (h : try_again (d, m) = some (.ok (some (n + 1)), d', m')) :
    msg_decode d.hw_cfg d.window m = some (.ok (n + 1), m') := by
  rw [try_again_eq] at h
  unfold round at h
  split at h
  · split at h
    · cases h
    · exact absurd h read_buffer_delivers
  · split at h
    · cases h
    · rename_i hdec
      split at h <;> cases h
      exact hdec
    · split at h
      · cases h
      · split at h
        · cases h
        · exact absurd h read_buffer_delivers

/-- What a call that delivers a message decoded: the window, or the window after the buffer was filled once. -/
theorem next_delivers {d d' : MsgDecoder} (hinv : DecoderInv d) (hf : d.src_filter < 0) {m m' : Msg} {n : Nat}
    (h : msg_decoder_next (d, m) = some (.ok (n + 1), d', m')) : msg_decode d.hw_cfg d.window m = some (.ok (n + 1), m') ∨
      ∃ d₁ m₁, d₁.hw_cfg = d.hw_cfg ∧ Filled d m d₁ m₁ ∧ msg_decode d₁.hw_cfg d₁.window m₁ = some (.ok (n + 1), m') := by
  have hround := try_again_round hinv m
  rw [msg_decoder_next_eq hinv] at h
  rcases hr : try_again (d, m) with _ | ⟨_ | _ | k, d₁, m₁⟩
  · simp [hr] at h
  · simp [hr] at h
  · rw [hr] at h hround
    obtain ⟨hinv₁, hs₁, -, -⟩ := hround.again hinv
    have hfilled := try_again_fills hinv hf hr
    have hf₁ : d₁.src_filter < 0 := by rw [hs₁.2.1]; exact hf
    dsimp only at h
    rw [msg_decoder_next_eq hinv₁] at h
    rcases hr₁ : try_again (d₁, m₁) with _ | ⟨_ | _ | k, d₂, m₂⟩
    · simp [hr₁] at h
    · simp [hr₁] at h
    · -- the buffer is not filled twice
      have hpos := hfilled.pos
      have hlt := hfilled.filled
      rcases (try_again_fills hinv₁ hf₁ hr₁).msg with ⟨-, h0, -⟩ | ⟨h0, -⟩ <;> omega
    · rw [hr₁] at h
      cases h
      exact .inr ⟨d₁, m₁, hs₁.1, hfilled, try_again_delivers hr₁⟩
  · rw [hr] at h
    cases h
    exact .inl (try_again_delivers hr)

/-- A delivered Idle message holds the SRC that was there before. -/
theorem next_idle {d d' : MsgDecoder} (hinv : DecoderInv d) (hf : d.src_filter < 0) {m m' : Msg} {n : Nat}
    (h : msg_decoder_next (d, m) = some (.ok (n + 1), d', m')) (hidle : m'.tcode = .Idle) : m'.src = m.src := by
  rcases next_delivers hinv hf h with hdec | ⟨d₁, m₁, -, hfilled, hdec⟩
  · obtain ⟨_, _, _, hsrc⟩ := msg_decode_idle hdec hidle
    exact hsrc
  · obtain ⟨k, hc, htc, hsrc⟩ := msg_decode_idle hdec hidle
    rcases hfilled.msg with ⟨-, -, rfl⟩ | ⟨-, hcut⟩
    · exact hsrc
    · obtain ⟨q, hq⟩ := hfilled.window
      rw [hq] at hc htc
      exact hsrc.trans (msg_decode_idle_cut hcut hc htc)

theorem read_buffer_any (d : MsgDecoder) (m m₂ : Msg) : ∃ r d', read_buffer (d, m) = some (r, d', m) ∧
    read_buffer (d, m₂) = some (r, d', m₂) ∧ ∀ n, r ≠ .ok (some (n + 1)) := by
  simp only [read_buffer, Proc.get_bind_apply, Proc.modify_bind_apply, Proc.ite_apply]
  split
  · exact ⟨_, _, rfl, rfl, fun n h => by cases h⟩
  · split
    · exact ⟨_, _, rfl, rfl, fun n h => by cases h⟩
    · exact ⟨_, _, rfl, rfl, fun n h => by cases h⟩

/-- Without a filter, the caller's message does not matter. -/
theorem try_again_any {d : MsgDecoder} (hf : d.src_filter < 0) (m m₂ : Msg) : ∃ r d' a b, try_again (d, m) = some (r, d', a) ∧
    try_again (d, m₂) = some (r, d', b) ∧ ∀ n, r = .ok (some (n + 1)) → a.Same b := by
  have hread : ∀ (d : MsgDecoder) (m m₂ : Msg), ∃ r d' a b, read_buffer (d, m) = some (r, d', a) ∧
      read_buffer (d, m₂) = some (r, d', b) ∧ ∀ n, r = .ok (some (n + 1)) → a.Same b := by
    intro d m m₂
    obtain ⟨r, d', ha, hb, hr⟩ := read_buffer_any d m m₂
    exact ⟨r, d', m, m₂, ha, hb, fun n h => absurd h (hr n)⟩
  have hpass := passes_unfiltered (d := { d with lastmsg_len := 0 }) hf
  rw [try_again_eq, try_again_eq]
  generalize ({ d with lastmsg_len := 0 } : MsgDecoder) = d at hpass ⊢
  simp only [round]
  split
  · split
    · exact ⟨_, _, m, m₂, rfl, rfl, fun n h => by cases h⟩
    · exact hread d m m₂
  · obtain ⟨r, a, b, ha, hb, hsame⟩ := msg_decode_any d.hw_cfg d.window m m₂
    rw [ha, hb]
    rcases r with e | n
    · dsimp only
      split
      · exact ⟨_, _, a, b, rfl, rfl, fun n h => by cases h⟩
      · split
        · exact ⟨_, _, a, b, rfl, rfl, fun n h => by cases h⟩
        · exact hread d a b
    · simp only [hpass, if_true]
      exact ⟨_, _, a, b, rfl, rfl, fun k h => hsame n rfl⟩

theorem next_any {d : MsgDecoder} (hinv : DecoderInv d) (hf : d.src_filter < 0) (m m₂ : Msg) : ∃ r d' a b,
    msg_decoder_next (d, m) = some (r, d', a) ∧ msg_decoder_next (d, m₂) = some (r, d', b) ∧ SameResult (r, a) (r, b) := by
  induction hk : roundsLeft d using Nat.strong_induction_on generalizing d m m₂ with
  | _ k ih =>
    obtain ⟨r, d', a, b, ha, hb, hsame⟩ := try_again_any hf m m₂
    rw [msg_decoder_next_eq hinv, msg_decoder_next_eq hinv, ha, hb]
    rcases r with e | _ | n
    · exact ⟨_, _, a, b, rfl, rfl, rfl, fun n h => nomatch h⟩
    · obtain ⟨hinv', hs, -, hlt⟩ := (ha ▸ try_again_round hinv m).again hinv
      exact ih (roundsLeft d') (hk ▸ hlt) hinv' (by rw [hs.2.1]; exact hf) a b rfl
    · refine ⟨_, _, a, b, rfl, rfl, rfl, fun k h => ?_⟩
      cases h
      exact hsame k rfl

/-! ## Which messages are delivered -/

/-- The results that a decoder with the filter `f` owes: the messages with SRC `f`,
the end and errors; and the Idle messages, or none of them. -/
def wanted (f : Int16) (idle : Bool) (r : Except NexusError Nat × Msg) : Bool :=
  match r.1 with
  | .ok (_ + 1) => if r.2.tcode = .Idle then idle else r.2.src.toNat = f.toInt
  | _ => true

/-- Whatever the caller's messages hold, the decoder with the filter `f` delivers
what is wanted of the results of the decoder without one. -/
def Filters (d : MsgDecoder) (f : Int16) : Prop :=
  ∃ idle, ∀ (n : Nat) (us : List (Except NexusError Nat × Msg)) (ms : List Msg),
    calls msg_decoder_next (d.sifts (-1)) (List.replicate n Msg.zero) = some us → ms.length = (us.filter (wanted f idle)).length →
      ∃ rs, calls msg_decoder_next (d.sifts f) ms = some rs ∧ List.Forall₂ SameResult rs (us.filter (wanted f idle))

/-- An Idle message that a call may find first: none was dropped in front of it. -/
def exposed (f : Int16) : Bool → List (Except NexusError Nat × Msg) → Bool
  | _, [] => false
  | fresh, r :: rs => match r.1 with
    | .ok (_ + 1) => if r.2.tcode = .Idle then fresh || exposed f false rs else exposed f (r.2.src.toNat = f.toInt) rs
    | _ => exposed f true rs

section Delivered
variable {f : Int16} {d d' : MsgDecoder} {m m' : Msg} {r : Except NexusError Nat}

theorem keeps_iff (hf : 0 ≤ f) : keeps f m = true ↔ m.src.toNat = f.toInt := by
  simp only [keeps, Bool.not_eq_true', Bool.and_eq_false_iff, decide_eq_false_iff_not, ge_iff_le, hf, not_true, false_or, not_not]
  exact eq_comm

/-- A filter is the SRC of some message. -/
theorem src_of_filter (hf : 0 ≤ f) : (UInt16.ofNat f.toInt.toNat).toNat = f.toInt := by
  have h0 : 0 ≤ f.toInt := Int16.le_iff_toInt_le.1 hf
  have hlt := f.toInt_lt
  rw [UInt16.toNat_ofNat', Nat.mod_eq_of_lt (by omega), Int.toNat_of_nonneg h0]

/-- Some message has another SRC. -/
theorem other_src (f : Int16) : ∃ m : Msg, m.src.toNat ≠ f.toInt := by
  by_cases h0 : f.toInt = 0
  · exact ⟨{ Msg.zero with src := 1 }, by rw [h0]; decide⟩
  · exact ⟨Msg.zero, fun h => h0 h.symm⟩

/-- A result that the filter lets through. -/
theorem sifts_keeps (hf : 0 ≤ f) (hinv : DecoderInv d) (h : msg_decoder_next (d.sifts (-1), m) = some (r, d', m'))
    (hk : ∀ n, r = .ok (n + 1) → m'.src.toNat = f.toInt) : msg_decoder_next (d.sifts f, m) = some (r, d'.sifts f, m') := by
  rw [next_sifts f hinv, h]
  rcases r with e | _ | n
  · rfl
  · rfl
  · simp only [sieve, (keeps_iff hf).2 (hk n rfl), if_true]

/-- A message that the filter drops. -/
theorem sifts_drops (hf : 0 ≤ f) (hinv : DecoderInv d) {n : Nat} (h : msg_decoder_next (d.sifts (-1), m) = some (.ok (n + 1), d', m'))
    (hk : m'.src.toNat ≠ f.toInt) : msg_decoder_next (d.sifts f, m) = msg_decoder_next (d'.sifts f, m') := by
  rw [next_sifts f hinv, h]
  simp only [sieve, keeps_iff hf, hk, if_false]

/-- A call without the filter. -/
theorem next_plainly (hinv : DecoderInv d) (m : Msg) : ∃ r d' m', msg_decoder_next (d.sifts (-1), m) = some (r, d', m') ∧
    DecoderInv d' ∧ d'.sifts (-1) = d' ∧ ∀ n, r = .ok (n + 1) → d'.bytesLeft < d.bytesLeft := by
  obtain ⟨r, d', a, b, ha, -, -⟩ := next_any (sifts_inv hinv (-1)) (by decide : (-1 : Int16) < 0) m m
  obtain ⟨hinv', hs, -, hlt⟩ := next_left (sifts_inv hinv (-1)) ha
  exact ⟨r, d', a, ha, hinv', sifts_self hs, hlt⟩

/-- The SRC of a message without a filter, by the SRC of the same message elsewhere. -/
theorem SameResult.src {n : Nat} {a b : Msg} (h : SameResult (.ok (n + 1), a) (.ok (n + 1), b)) (hb : b.tcode ≠ .Idle) :
    a.src.toNat = b.src.toNat := by
  have hsame := h.2 n rfl
  exact hsame.src (hsame.1 ▸ hb)

/-- One call without the filter, from another message: the same result, and what the filter sees. -/
theorem next_seen (hinv : DecoderInv d) {z mz : Msg} (h : msg_decoder_next (d.sifts (-1), z) = some (r, d', mz)) (m : Msg) :
    ∃ a, msg_decoder_next (d.sifts (-1), m) = some (r, d', a) ∧ SameResult (r, a) (r, mz) ∧
      ∀ n, r = .ok (n + 1) → a.src.toNat = if mz.tcode = .Idle then m.src.toNat else mz.src.toNat := by
  obtain ⟨r', d'', a, b, ha, hb, hsame⟩ := next_any (sifts_inv hinv (-1)) (by decide : (-1 : Int16) < 0) m z
  rw [h] at hb
  cases hb
  refine ⟨a, ha, hsame, ?_⟩
  rintro n rfl
  split
  · rename_i hidle
    rw [next_idle (sifts_inv hinv (-1)) (by decide : (-1 : Int16) < 0) ha ((hsame.2 n rfl).1.trans hidle)]
  · exact hsame.src ‹_›

/-- While no Idle message is exposed, what is wanted is delivered. -/
theorem delivers_wanted (hf : 0 ≤ f) : ∀ (zs : List Msg) {d : MsgDecoder} (us : List (Except NexusError Nat × Msg)) (ms : List Msg)
    (fresh : Bool), DecoderInv d → calls msg_decoder_next (d.sifts (-1)) zs = some us → exposed f fresh us = false →
    (∀ m ∈ ms.head?, fresh = false → m.src.toNat ≠ f.toInt) → ms.length = (us.filter (wanted f false)).length →
    ∃ rs, calls msg_decoder_next (d.sifts f) ms = some rs ∧ List.Forall₂ SameResult rs (us.filter (wanted f false)) := by
  intro zs
  induction zs with
  | nil =>
    intro d us ms fresh _ hus _ _ hlen
    cases hus
    obtain rfl := List.eq_nil_of_length_eq_zero hlen
    exact ⟨[], rfl, .nil⟩
  | cons z zs ih =>
    intro d us ms fresh hinv hus hexp hsrc hlen
    obtain ⟨r, d', mz, hz, hinv', hself, -⟩ := next_plainly hinv z
    rw [calls_cons hz] at hus
    obtain ⟨us', hus', rfl⟩ := Option.map_eq_some_iff.1 hus
    rw [← hself] at hus'
    rcases ms with _ | ⟨m, ms⟩
    · rw [List.eq_nil_of_length_eq_zero hlen.symm]
      exact ⟨[], rfl, .nil⟩
    obtain ⟨a, ha, hsame, hseen⟩ := next_seen hinv hz m
    have hm := hsrc m rfl
    by_cases hw : wanted f false (r, mz) = true
    · -- delivered: the next call is fresh
      rw [List.filter_cons_of_pos hw] at hlen ⊢
      have hkeep : ∀ n, r = .ok (n + 1) → a.src.toNat = f.toInt ∧ mz.tcode ≠ .Idle ∧ mz.src.toNat = f.toInt := by
        rintro n rfl
        by_cases hidle : mz.tcode = .Idle
        · simp [wanted, hidle] at hw
        · simp only [wanted, hidle, if_false, decide_eq_true_eq] at hw
          exact ⟨by rw [hseen n rfl, if_neg hidle, hw], hidle, hw⟩
      have hexp' : exposed f true us' = false := by
        rcases r with e | _ | n
        · exact hexp
        · exact hexp
        · obtain ⟨-, hidle, hsrc⟩ := hkeep n rfl
          simpa [exposed, hidle, hsrc] using hexp
      obtain ⟨rs, hrs, hall⟩ := ih us' ms true hinv' hus' hexp' (fun _ _ h => nomatch h) (by simpa using hlen)
      have hnext := sifts_keeps hf hinv ha fun n hn => (hkeep n hn).1
      exact ⟨(r, a) :: rs, by rw [calls_cons hnext, hrs]; rfl, .cons hsame hall⟩
    · -- dropped: the call goes on with the message in hand
      rw [List.filter_cons_of_neg hw] at hlen ⊢
      obtain ⟨n, rfl⟩ : ∃ n, r = .ok (n + 1) := by
        rcases r with e | _ | n
        · exact absurd rfl hw
        · exact absurd rfl hw
        · exact ⟨n, rfl⟩
      have hdrop : a.src.toNat ≠ f.toInt ∧ exposed f false us' = false := by
        rw [hseen n rfl]
        by_cases hidle : mz.tcode = .Idle
        · simp only [exposed, hidle, if_true, Bool.or_eq_false_iff] at hexp ⊢
          exact ⟨hm hexp.1, hexp.2⟩
        · simp only [wanted, hidle, if_false, decide_eq_true_eq] at hw
          simp only [exposed, hidle, if_false, hw, decide_false] at hexp ⊢
          exact ⟨hw, hexp⟩
      obtain ⟨rs, hrs, hall⟩ := ih us' (a :: ms) false hinv' hus' hdrop.2 (by simpa using hdrop.1) (by simpa using hlen)
      refine ⟨rs, ?_, hall⟩
      simp only [calls, sifts_drops hf hinv ha hdrop.1] at hrs ⊢
      exact hrs

/-! ## Where an Idle message shows -/

/-- An Idle message was delivered. -/
def isIdle (r : Except NexusError Nat × Msg) : Bool :=
  match r.1 with
  | .ok (_ + 1) => r.2.tcode = .Idle
  | _ => false

theorem SameResult.isIdle {a b : Except NexusError Nat × Msg} (h : SameResult a b) : isIdle a = isIdle b := by
  obtain ⟨r, ma⟩ := a
  obtain ⟨r', mb⟩ := b
  obtain rfl : r = r' := h.1
  rcases r with e | _ | n
  · rfl
  · rfl
  · have htc : ma.tcode = mb.tcode := (h.2 n rfl).1
    simp only [nexusrv.isIdle, htc]

theorem map_isIdle {rs us : List (Except NexusError Nat × Msg)} (h : List.Forall₂ SameResult rs us) :
    rs.map isIdle = us.map isIdle := by
  induction h with
  | nil => rfl
  | cons hr _ ih => rw [List.map_cons, List.map_cons, hr.isIdle, ih]

/-- A call into a message with another SRC delivers no Idle message. -/
theorem next_not_idle (hf : 0 ≤ f) (hinv : DecoderInv d) (hm : m.src.toNat ≠ f.toInt) : ∃ r d' m',
    msg_decoder_next (d.sifts f, m) = some (r, d', m') ∧ isIdle (r, m') = false := by
  induction hk : d.bytesLeft using Nat.strong_induction_on generalizing d m with
  | _ k ih =>
    obtain ⟨r, d', a, ha, hinv', -, hlt⟩ := next_plainly hinv m
    obtain ⟨b, hb, -, hseen⟩ := next_seen hinv ha m
    rw [ha] at hb
    cases hb
    by_cases hkeep : ∀ n, r = .ok (n + 1) → a.src.toNat = f.toInt
    · refine ⟨r, _, a, sifts_keeps hf hinv ha hkeep, ?_⟩
      rcases r with e | _ | n
      · rfl
      · rfl
      · refine decide_eq_false fun hidle => hm ?_
        rw [← hkeep n rfl, hseen n rfl, if_pos hidle]
    · obtain ⟨n, rfl, hsrc⟩ : ∃ n, r = .ok (n + 1) ∧ a.src.toNat ≠ f.toInt := by
        rcases r with e | _ | n
        · exact absurd (fun _ h => nomatch h) hkeep
        · exact absurd (fun _ h => nomatch h) hkeep
        · exact ⟨n, rfl, fun h => hkeep fun _ _ => h⟩
      rw [sifts_drops hf hinv ha hsrc]
      exact ih d'.bytesLeft (hk ▸ hlt n rfl) hinv' hsrc rfl

/-- An exposed Idle message is delivered into one message and not into another. -/
theorem exposed_shows (hf : 0 ≤ f) : ∀ (zs : List Msg) {d : MsgDecoder} (us : List (Except NexusError Nat × Msg)) (fresh : Bool)
    (m₀ : Msg), DecoderInv d → calls msg_decoder_next (d.sifts (-1)) zs = some us → exposed f fresh us = true → m₀.src.toNat ≠ f.toInt →
    ∃ m₁ m₂ ms₁ ms₂ rs₁ rs₂, (fresh = false → m₁ = m₀ ∧ m₂ = m₀) ∧ ms₁.length = ms₂.length ∧
      calls msg_decoder_next (d.sifts f) (m₁ :: ms₁) = some rs₁ ∧ calls msg_decoder_next (d.sifts f) (m₂ :: ms₂) = some rs₂ ∧
      rs₁.map isIdle ≠ rs₂.map isIdle := by
  intro zs
  induction zs with
  | nil =>
    intro d us fresh m₀ _ hus hexp
    cases hus
    cases hexp
  | cons z zs ih =>
    intro d us fresh m₀ hinv hus hexp hm₀
    obtain ⟨r, d', mz, hz, hinv', hself, -⟩ := next_plainly hinv z
    rw [calls_cons hz] at hus
    obtain ⟨us', hus', rfl⟩ := Option.map_eq_some_iff.1 hus
    rw [← hself] at hus'
    obtain ⟨a, ha, hsame, hseen⟩ := next_seen hinv hz m₀
    -- after a delivered message the caller has both messages to choose
    have hkept : (∀ n, r = .ok (n + 1) → a.src.toNat = f.toInt) → exposed f true us' = true →
        ∃ m₁ m₂ ms₁ ms₂ rs₁ rs₂, (fresh = false → m₁ = m₀ ∧ m₂ = m₀) ∧ ms₁.length = ms₂.length ∧
          calls msg_decoder_next (d.sifts f) (m₁ :: ms₁) = some rs₁ ∧ calls msg_decoder_next (d.sifts f) (m₂ :: ms₂) = some rs₂ ∧
          rs₁.map isIdle ≠ rs₂.map isIdle := by
      intro hkeep hexp
      obtain ⟨m₁, m₂, ms₁, ms₂, rs₁, rs₂, -, hlen, h₁, h₂, hne⟩ := ih us' true m₀ hinv' hus' hexp hm₀
      refine ⟨m₀, m₀, m₁ :: ms₁, m₂ :: ms₂, (r, a) :: rs₁, (r, a) :: rs₂, fun _ => ⟨rfl, rfl⟩, by simp [hlen], ?_, ?_, by simpa using hne⟩
      · rw [calls_cons (sifts_keeps hf hinv ha hkeep), h₁]; rfl
      · rw [calls_cons (sifts_keeps hf hinv ha hkeep), h₂]; rfl
    -- after a dropped message the call goes on
    have hdropped : ∀ n, r = .ok (n + 1) → a.src.toNat ≠ f.toInt → exposed f false us' = true →
        ∃ m₁ m₂ ms₁ ms₂ rs₁ rs₂, (fresh = false → m₁ = m₀ ∧ m₂ = m₀) ∧ ms₁.length = ms₂.length ∧
          calls msg_decoder_next (d.sifts f) (m₁ :: ms₁) = some rs₁ ∧ calls msg_decoder_next (d.sifts f) (m₂ :: ms₂) = some rs₂ ∧
          rs₁.map isIdle ≠ rs₂.map isIdle := by
      rintro n rfl hsrc hexp
      obtain ⟨m₁, m₂, ms₁, ms₂, rs₁, rs₂, hm, hlen, h₁, h₂, hne⟩ := ih us' false a hinv' hus' hexp hsrc
      obtain ⟨rfl, rfl⟩ := hm rfl
      refine ⟨m₀, m₀, ms₁, ms₂, rs₁, rs₂, fun _ => ⟨rfl, rfl⟩, hlen, ?_, ?_, hne⟩
      · simp only [calls, sifts_drops hf hinv ha hsrc] at h₁ ⊢; exact h₁
      · simp only [calls, sifts_drops hf hinv ha hsrc] at h₂ ⊢; exact h₂
    rcases r with e | _ | n
    · exact hkept (fun _ h => by cases h) hexp
    · exact hkept (fun _ h => by cases h) hexp
    · have hseen := hseen n rfl
      by_cases hidle : mz.tcode = .Idle
      · rw [if_pos hidle] at hseen
        simp only [exposed, hidle, if_true, Bool.or_eq_true] at hexp
        rcases hexp with rfl | hexp
        · -- a message with SRC `f` to write into delivers it
          let m₁ : Msg := { m₀ with src := .ofNat f.toInt.toNat }
          have hm₁ : m₁.src.toNat = f.toInt := src_of_filter hf
          obtain ⟨b, hb, hsameb, hseenb⟩ := next_seen hinv hz m₁
          have hkeep : b.src.toNat = f.toInt := by rw [hseenb n rfl, if_pos hidle, hm₁]
          obtain ⟨r₂, d₂, m₂, h₂, hnot⟩ := next_not_idle hf hinv hm₀
          have hb' := sifts_keeps hf hinv hb fun _ _ => hkeep
          have hbidle : isIdle (.ok (n + 1), b) = true := decide_eq_true ((hsameb.2 n rfl).1.trans hidle)
          refine ⟨m₁, m₀, [], [], [(.ok (n + 1), b)], [(r₂, m₂)], (fun h => by cases h), rfl, by rw [calls_cons hb']; rfl, by rw [calls_cons h₂]; rfl, ?_⟩
          rw [List.map_singleton, List.map_singleton, hnot, hbidle]
          decide
        · exact hdropped n rfl (by rw [hseen]; exact hm₀) hexp
      · rw [if_neg hidle] at hseen
        simp only [exposed, hidle, if_false] at hexp
        by_cases hsrc : mz.src.toNat = f.toInt
        · exact hkept (fun _ _ => (congrArg Nat.cast hseen).trans hsrc) (by simpa [hsrc] using hexp)
        · exact hdropped n rfl (by rw [hseen]; exact hsrc) (by simpa [hsrc] using hexp)

/-- There is always one more result that is wanted. -/
theorem wanted_exists (f : Int16) (idle : Bool) : ∀ (k : Nat) {d : MsgDecoder}, DecoderInv d → ∃ n us,
    calls msg_decoder_next (d.sifts (-1)) (List.replicate n Msg.zero) = some us ∧ (us.filter (wanted f idle)).length = k := by
  intro k
  induction k with
  | zero => exact fun _ => ⟨0, [], rfl, rfl⟩
  | succ k ihk =>
    intro d hinv
    induction hb : d.bytesLeft using Nat.strong_induction_on generalizing d with
    | _ b ih =>
      obtain ⟨r, d', a, ha, hinv', hself, hlt⟩ := next_plainly hinv Msg.zero
      by_cases hw : wanted f idle (r, a) = true
      · obtain ⟨n, us, hus, hlen⟩ := ihk hinv'
        rw [hself] at hus
        exact ⟨n + 1, (r, a) :: us, by rw [List.replicate_succ, calls_cons ha, hus]; rfl, by rw [List.filter_cons_of_pos hw, List.length_cons, hlen]⟩
      · obtain ⟨n, rfl⟩ : ∃ n, r = .ok (n + 1) := by
          rcases r with e | _ | n
          · exact absurd rfl hw
          · exact absurd rfl hw
          · exact ⟨n, rfl⟩
        obtain ⟨n', us, hus, hlen⟩ := ih d'.bytesLeft (hb ▸ hlt n rfl) hinv' rfl
        rw [hself] at hus
        exact ⟨n' + 1, (.ok (n + 1), a) :: us, by rw [List.replicate_succ, calls_cons ha, hus]; rfl, by rw [List.filter_cons_of_neg hw, hlen]⟩

end Delivered

/-- The messages delivered with the filter `f` are those wanted, whatever the caller's
messages hold, if and only if every Idle message directly follows a message with
another SRC, or another Idle message that does. -/
theorem msg_decoder_next_filters (hwcfg : HwCfg) (fd : Fd) {f : Int16} (hf : 0 ≤ f) (buffer : List UInt8) :
    Filters (msg_decoder_init hwcfg fd f buffer buffer.length) f ↔ ∀ n us,
      calls msg_decoder_next (msg_decoder_init hwcfg fd (-1) buffer buffer.length) (List.replicate n Msg.zero) = some us →
        exposed f true us = false := by
  have hinv := init_inv hwcfg fd f (rfl : buffer.length = buffer.length)
  have hplain : msg_decoder_init hwcfg fd (-1) buffer buffer.length =
      (msg_decoder_init hwcfg fd f buffer buffer.length).sifts (-1) := rfl
  rw [hplain]
  generalize msg_decoder_init hwcfg fd f buffer buffer.length = d at hinv ⊢
  constructor
  · rintro ⟨idle, hfilters⟩ n us hus
    refine Bool.eq_false_iff.2 fun hexp => ?_
    obtain ⟨m₀, hm₀⟩ := other_src f
    obtain ⟨m₁, m₂, ms₁, ms₂, rs₁, rs₂, -, hlen, h₁, h₂, hne⟩ := exposed_shows hf _ us true _ hinv hus hexp hm₀
    obtain ⟨n', us', hus', hlen'⟩ := wanted_exists f idle (ms₁.length + 1) hinv
    obtain ⟨_, hrs₁, hall₁⟩ := hfilters n' us' (m₁ :: ms₁) hus' hlen'.symm
    obtain ⟨_, hrs₂, hall₂⟩ := hfilters n' us' (m₂ :: ms₂) hus' (by rw [hlen', List.length_cons, hlen])
    cases h₁.symm.trans hrs₁
    cases h₂.symm.trans hrs₂
    exact hne ((map_isIdle hall₁).trans (map_isIdle hall₂).symm)
  · intro h
    refine ⟨false, fun n us ms hus hlen => ?_⟩
    exact delivers_wanted hf _ us ms true hinv hus (h n us hus) (fun _ _ h => nomatch h) hlen

theorem msg_decoder_next_filters_one : let d := msg_decoder_init ⟨0, 0, 0, 0, 0, false, false, false⟩ ⟨[0xff], []⟩
    Filters (d 1 [0] 1) 1 ↔ ∀ n us, calls msg_decoder_next (d (-1) [0] 1) (List.replicate n Msg.zero) = some us → exposed 1 true us = false :=
  msg_decoder_next_filters ⟨0, 0, 0, 0, 0, false, false, false⟩ ⟨[0xff], []⟩ (by decide) [0]

/-- An Idle message at the start of the stream: delivered into a message with SRC 1,
dropped where the SRC is 0. -/
theorem idle_filter_depends : ¬ Filters (msg_decoder_init ⟨0, 0, 0, 0, 0, false, false, false⟩ ⟨[0xff], []⟩ 1 [0] 1) 1 := by
  let idle : Msg := { Msg.zero with tcode := .Idle }
  rintro ⟨_ | _, h⟩
  · obtain ⟨rs, hrs, hall⟩ := h 2 [(.ok 1, idle), (.ok 0, Msg.zero)] [{ Msg.zero with src := 1 }] rfl rfl
    cases hrs
    cases hall with | cons hr _ => cases hr.1
  · obtain ⟨rs, hrs, hall⟩ := h 1 [(.ok 1, idle)] [Msg.zero] rfl rfl
    cases hrs
    cases hall with | cons hr _ => cases hr.1

end nexusrv
