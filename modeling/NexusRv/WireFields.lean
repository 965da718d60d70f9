import NexusRv.Checked
import NexusRv.Recode
/-!
# What the fields spell

A variable field has any number of bits on the wire, and the decoder keeps 3, 32 or 64 of them, or
fewer if their number does not fit an `unsigned`. `wire_fields` finds the fields of a message in its
groups, as numbers without a bound, and `decode_wire_fields` follows the decoder along them: it
stores each number modulo the size of its destination, and modulo what was read.
-/

namespace nexusrv

/-! ## The wire -/

/-- The groups of the first message. A byte whose MSEO is not 0 ends a group, MSEO 3 ends the message. -/
def wire_groups : List UInt8 → List (List UInt8)
  | [] => []
  | b :: bs =>
    if mseo b = 3 then [[b]]
    else if mseo b = 0 then
      match wire_groups bs with
      | [] => [[b]]
      | g :: gs => (b :: g) :: gs
    else [b] :: wire_groups bs

/-- The fields of variable length. -/
inductive VarField where
  | icnt
  | hist
  | hrepeat
  | rdata
  | ecode
  | idtag
  | xaddr
  | context
  | dqdata
  | ckdata0
  | ckdata1
  | timestamp
  deriving DecidableEq, Repr

/-- The storage of `Msg`. -/
inductive Member where
  | timestamp
  | bits
  | icnt
  | hist
  | hrepeat
  | xaddr
  deriving DecidableEq

namespace VarField

/-- The member of the message. -/
def stored : VarField → Msg → Nat
  | icnt, m => m.icnt.toNat
  | hist, m => m.hist.toNat
  | hrepeat, m => m.hrepeat.toNat
  | rdata, m => m.res_data.toNat
  | ecode, m => m.error_code.toNat
  | idtag, m => m.idtag
  | xaddr, m => m.xaddr.toNat
  | context, m => m.context.toNat
  | dqdata, m => m.dqdata.toNat
  | ckdata0, m => m.ckdata0
  | ckdata1, m => m.ckdata1.toNat
  | timestamp, m => m.timestamp.toNat

/-- How many bits the member has. -/
def width : VarField → Nat
  | icnt | hist | hrepeat | rdata | ecode => 32
  | idtag => 3
  | xaddr | context | dqdata | ckdata0 | ckdata1 | timestamp => 64

/-- The assignment to the member. -/
def store : VarField → Nat → Msg → Msg
  | icnt => Msg.set_icnt
  | hist => Msg.set_hist
  | hrepeat => Msg.set_hrepeat
  | rdata => Msg.set_res_data
  | ecode => Msg.set_error_code
  | idtag => Msg.set_idtag
  | xaddr => Msg.set_xaddr
  | context => Msg.set_context
  | dqdata => Msg.set_dqdata
  | ckdata0 => Msg.set_ckdata0
  | ckdata1 => Msg.set_ckdata1
  | timestamp => Msg.set_timestamp

/-- The members of `Msg` that hold the field. -/
def members : VarField → List Member
  | icnt | rdata | ecode => [.icnt]
  | hist => [.hist]
  | hrepeat => [.hrepeat]
  | ckdata0 => [.hist, .hrepeat]
  | xaddr | context | dqdata | ckdata1 => [.xaddr]
  | idtag => [.bits]
  | timestamp => [.timestamp]

/-- Whether two fields share storage, in the unions of the message. -/
def overlaps (d f : VarField) : Bool := d.members.any fun x => f.members.contains x

theorem width_le (f : VarField) : f.width ≤ 64 := by cases f <;> decide

/-- A number of 64 bits is stored up to the width of the member. -/
theorem stored_store (f : VarField) {v : Nat} (h : v < 2 ^ 64) (m : Msg) : f.stored (f.store v m) = v % 2 ^ f.width := by
  have h32 : (UInt32.ofNat v).toNat = v % 2 ^ 32 := UInt32.toNat_ofNat'
  have h64 : (UInt64.ofNat v).toNat = v % 2 ^ 64 := UInt64.toNat_ofNat'
  cases f with
  | icnt | hist | hrepeat | rdata | ecode => exact h32
  | idtag =>
    change bitField 0 3 (setBitField 0 3 v m.bits) = v % 2 ^ 3
    rw [bitField_setBitField _ _ (by decide)]
  | xaddr | context | dqdata | ckdata1 | timestamp => exact h64
  | ckdata0 =>
    change (UInt32.ofNat v).toNat + (UInt32.ofNat (v / 2 ^ 32)).toNat * 2 ^ 32 = v % 2 ^ 64
    rw [h32, UInt32.toNat_ofNat']
    omega

/-- A number of which some bits were read, at most 64, is stored up to these and the width of the member. -/
theorem stored_read (f : VarField) (N k : Nat) (m : Msg) : f.stored (f.store (N % 2 ^ min k 64) m) = N % 2 ^ min f.width k := by
  have h64 : N % 2 ^ min k 64 < 2 ^ 64 :=
    Nat.lt_of_lt_of_le (Nat.mod_lt _ (Nat.two_pow_pos _)) (Nat.pow_le_pow_right (by decide) (Nat.min_le_right k 64))
  have hwidth := f.width_le
  rw [stored_store f h64]
  by_cases hk : f.width ≤ min k 64
  · rw [Nat.mod_mod_of_dvd _ (Nat.pow_dvd_pow 2 hk), Nat.min_eq_left (by omega)]
  · rw [show min k 64 = k by omega, Nat.min_eq_right (by omega)]
    exact Nat.mod_eq_of_lt (Nat.lt_of_lt_of_le (Nat.mod_lt _ (Nat.two_pow_pos _)) (Nat.pow_le_pow_right (by decide) (by omega)))

theorem stored_store_of_not_overlaps {f d : VarField} (h : overlaps d f = false) (v : Nat) (m : Msg) : d.stored (f.store v m) = d.stored m := by
  cases f <;> cases d <;> first | exact absurd h (by decide) | rfl

end VarField

/-- For a TCODE and the bits behind SRC: how many bits stand in front of the first variable field, and
the variable fields, one a group. -/
def wire_shape (tcode : Tcode) (N : Nat) : Nat × List VarField :=
  match tcode with
  | .DirectBranch => (0, [.icnt])
  | .IndirectBranch => (2, [.icnt, .xaddr])
  | .IndirectBranchHist => (2, [.icnt, .xaddr, .hist])
  | .DirectBranchSync | .ProgTraceSync => (4, [.icnt, .xaddr])
  | .IndirectBranchSync => (6, [.icnt, .xaddr])
  | .IndirectBranchHistSync => (6, [.icnt, .xaddr, .hist])
  | .Ownership => (5, [.context])
  | .Error => (4, [.ecode])
  | .DataAcquisition => (0, [.idtag, .dqdata])
  | .ResourceFull =>
    (4, if N % 2 ^ 4 = 0 then [.icnt] else if N % 2 ^ 4 = 1 then [.hist] else if N % 2 ^ 4 = 2 then [.hist, .hrepeat] else [.rdata])
  | .RepeatBranch => (0, [.hrepeat])
  | .ProgTraceCorrelation => (6, if N / 2 ^ 4 % 2 ^ 2 = 1 then [.icnt, .hist] else [.icnt])
  | .ICT => (6, if N / 2 ^ 4 % 2 ^ 2 = 0 then [.ckdata0] else [.ckdata0, .ckdata1])
  | .Idle | .other .. => (0, [])

/-- A variable field of a message: the bits of the group from the offset on. -/
structure WireField where
  field : VarField
  group : List UInt8
  offset : Nat
  deriving DecidableEq

namespace WireField

/-- How many bits the field has. -/
def bits (p : WireField) : Nat := 6 * p.group.length - p.offset

/-- The unsigned integer that all of its bits spell. -/
def value (p : WireField) : Nat := payload p.group / 2 ^ p.offset

/-- Whether reading the field, if there is one, does nothing undefined. -/
def defined (p : WireField) : Bool := p.bits = 0 || (Checked.unpack_bits p.group p.offset (p.bits % 2 ^ 32)).isSome

end WireField

/-- The fields of the groups behind the first one. The last group is the timestamp. -/
def wire_rest (hwcfg : HwCfg) : List VarField → List (List UInt8) → List WireField
  | [], gs => if hwcfg.ts_bits = 0 then [] else (gs.getLast?.map fun g => ⟨.timestamp, g, 0⟩).toList
  | f :: fs, g :: gs => ⟨f, g, 0⟩ :: wire_rest hwcfg fs gs
  | _ :: _, [] => []

def wire_from (hwcfg : HwCfg) (shape : Nat × List VarField) (g : List UInt8) (gs : List (List UInt8)) : List WireField :=
  match shape.2 with
  | [] => []
  | f :: fs => ⟨f, g, 6 + hwcfg.src_bits + shape.1⟩ :: wire_rest hwcfg fs gs

/-- The variable fields of a message. -/
def wire_fields (hwcfg : HwCfg) : List (List UInt8) → List WireField
  | [] => []
  | g :: gs => wire_from hwcfg (wire_shape (.ofNat (payload g % 2 ^ 6)) (payload g / 2 ^ (6 + hwcfg.src_bits))) g gs

/-- X-ADDR is sign-extended with VAO. -/
def unsigned (hwcfg : HwCfg) (f : VarField) : Bool := !(hwcfg.VAO && f = .xaddr)

/-! ## The decoder on the wire -/

/-- The groups that the decoder has not reached. -/
def DecState.left (s : DecState) : List (List UInt8) := if s.eom then [] else wire_groups s.buffer

theorem consume_bytes_groups {bs : List UInt8} {n : Nat} {eom : Bool} (h : consume_bytes bs = .ok (n, eom)) :
    wire_groups bs = bs.take n :: if eom then [] else wire_groups (bs.drop n) := by
  induction bs generalizing n eom with
  | nil => cases h
  | cons b bs ih =>
    unfold consume_bytes at h
    rw [wire_groups]
    by_cases h2 : mseo b = 2
    · rw [if_pos h2] at h
      cases h
    rw [if_neg h2] at h
    by_cases h0 : mseo b = 0
    · rw [if_pos h0] at h
      rw [if_neg (by omega), if_pos h0]
      cases hc : consume_bytes bs with
      | error e =>
        rw [hc] at h
        cases h
      | ok r =>
        rw [hc] at h
        cases h
        rw [ih hc]
        rfl
    · rw [if_neg h0] at h
      cases h
      by_cases h3 : mseo b = 3
      · rw [if_pos h3, decide_eq_true h3]
        rfl
      · rw [if_neg h3, if_neg h0, decide_eq_false h3]
        rfl

/-- The fields are stored as far as they are read and their members hold them. -/
def Holds (hwcfg : HwCfg) (ps : List WireField) (m : Msg) : Prop :=
  ∀ p ∈ ps, unsigned hwcfg p.field = true → p.field.stored m = p.value % 2 ^ min p.field.width (p.bits % 2 ^ 32)

section Wire
variable {hwcfg : HwCfg} {W : List WireField} {o : Nat} {K L : Nat → Msg → Prop} {F : Nat → Msg → Msg} {f : VarField} {ds fs : List VarField}

/-- In the first group, in front of its variable field. `K` is what is known of the bits in front. -/
structure Opens (hwcfg : HwCfg) (W : List WireField) (o : Nat) (K : Nat → Msg → Prop) (s : DecState) : Prop where
  off : s.bit_offset = o
  fields : W = wire_fields hwcfg (s.group :: s.left)
  known : K (payload s.group) s.msg

/-- In front of the variable field `f`. The fields `ds` are stored, `fs` are to come. -/
structure Before (hwcfg : HwCfg) (W : List WireField) (ds : List VarField) (f : VarField) (fs : List VarField) (o : Nat) (s : DecState) : Prop where
  off : s.bit_offset = o
  fields : ∃ ps, (∀ p ∈ ps, p.field ∈ ds) ∧ W = ps ++ ⟨f, s.group, o⟩ :: wire_rest hwcfg fs s.left ∧ Holds hwcfg ps s.msg

/-- Behind a group. -/
def Between (hwcfg : HwCfg) (W : List WireField) (ds fs : List VarField) (s : DecState) : Prop :=
  ∃ ps, (∀ p ∈ ps, p.field ∈ ds) ∧ W = ps ++ wire_rest hwcfg fs s.left ∧ Holds hwcfg ps s.msg

theorem opens_store {G : Msg → Msg} (h : ∀ N m, K N m → L N (G m)) :
    Yields (Opens hwcfg W o K) (Proc.modify fun s => { s with msg := G s.msg }) (Opens hwcfg W o L) :=
  Proc.post_modify fun _ hs => ⟨hs.off, hs.fields, h _ _ hs.known⟩

theorem opens_fixed {b : Nat} (h : ∀ N m, K N m → L N (F (N / 2 ^ o % 2 ^ min b 64) m)) :
    Yields (Opens hwcfg W o K) (UNPACK_FIXED b F) (Opens hwcfg W (o + b) L) := by
  refine Proc.Post.get_bind fun s hs => Proc.Post.ite (fun _ => Proc.post_fail fun _ _ => trivial) fun _ => ?_
  refine Proc.post_modify fun t ht => ?_
  rw [ht]
  refine ⟨congrArg (· + b) hs.off, hs.fields, ?_⟩
  rw [unpack_bits_spec (spells_payload _), hs.off]
  exact h _ _ hs.known

theorem Opens.before {d : Nat} {s : DecState} (hs : Opens hwcfg W (6 + hwcfg.src_bits + d) K s)
    (h : ∀ N m, K N m → wire_shape (.ofNat (N % 2 ^ 6)) (N / 2 ^ (6 + hwcfg.src_bits)) = (d, f :: fs)) :
    Before hwcfg W [] f fs (6 + hwcfg.src_bits + d) s := by
  refine ⟨hs.off, [], nofun, ?_, nofun⟩
  rw [hs.fields, wire_fields, h _ _ hs.known]
  rfl

/-- The last field of a group is the number behind the fixed fields, of which up to 64 bits are read. -/
theorem var_run {s t : DecState} {k : Nat} (hrun : UNPACK_VAR F s = some (.ok k, t)) : t.eom = s.eom ∧ t.buffer = s.buffer ∧
    t.msg = F (payload s.group / 2 ^ s.bit_offset % 2 ^ min ((6 * s.group.length - s.bit_offset) % 2 ^ 32) 64) s.msg := by
  have hbits : s.group.length * MDO_BITS - s.bit_offset = 6 * s.group.length - s.bit_offset := by rw [Nat.mul_comm]
  have hval : (if 6 * s.group.length - s.bit_offset = 0 then 0
      else unpack_bits s.group s.bit_offset ((6 * s.group.length - s.bit_offset) % 2 ^ 32)) =
        payload s.group / 2 ^ s.bit_offset % 2 ^ min ((6 * s.group.length - s.bit_offset) % 2 ^ 32) 64 := by
    split
    · rename_i h0
      rw [h0, Nat.zero_mod, Nat.zero_min, Nat.pow_zero, Nat.mod_one]
    · exact unpack_bits_spec (spells_payload _)
  simp only [UNPACK_VAR, Proc.get_bind_apply, Proc.modify_bind_apply, Proc.pure_apply, hbits, hval] at hrun
  cases hrun
  exact ⟨rfl, rfl, rfl⟩

theorem var_req_run {s t : DecState} {k : Nat} (hrun : UNPACK_VAR_REQ F s = some (.ok k, t)) : t.eom = s.eom ∧ t.buffer = s.buffer ∧
    t.msg = F (payload s.group / 2 ^ s.bit_offset % 2 ^ min ((6 * s.group.length - s.bit_offset) % 2 ^ 32) 64) s.msg := by
  obtain ⟨k', u, hvar, hrun⟩ := Proc.bind_eq_ok.1 hrun
  rw [Proc.ite_apply] at hrun
  split at hrun
  · cases hrun
  · cases hrun
    exact var_run hvar

theorem Holds.store {ps : List WireField} {m : Msg} (h : Holds hwcfg ps m) (hps : ∀ p ∈ ps, p.field ∈ ds) (hds : ∀ d ∈ ds, d.overlaps f = false)
    (v : Nat) : Holds hwcfg ps (f.store v m) := by
  intro p hp hu
  rw [VarField.stored_store_of_not_overlaps (hds _ (hps p hp))]
  exact h p hp hu

/-- The field `f` is stored. -/
theorem Before.stored {s : DecState} (hs : Before hwcfg W ds f fs o s) (hds : ∀ d ∈ ds, d.overlaps f = false) :
    ∃ ps, (∀ p ∈ ps, p.field ∈ f :: ds) ∧ W = ps ++ wire_rest hwcfg fs s.left ∧
      Holds hwcfg ps (f.store (payload s.group / 2 ^ s.bit_offset % 2 ^ min ((6 * s.group.length - s.bit_offset) % 2 ^ 32) 64) s.msg) := by
  obtain ⟨ps, hps, hW, hold⟩ := hs.fields
  refine ⟨ps ++ [⟨f, s.group, o⟩], ?_, by rw [hW, List.append_assoc]; rfl, ?_⟩
  · intro p hp
    rcases List.mem_append.1 hp with hp | hp
    · exact List.mem_cons_of_mem _ (hps p hp)
    · rw [List.mem_singleton.1 hp]
      exact List.mem_cons_self
  · rw [hs.off]
    intro p hp hu
    rcases List.mem_append.1 hp with hp | hp
    · exact hold.store hps hds _ p hp hu
    · rw [List.mem_singleton.1 hp]
      exact f.stored_read _ _ s.msg

theorem before_var (hds : ∀ d ∈ ds, d.overlaps f = false) :
    Yields (Before hwcfg W ds f fs o) (UNPACK_VAR f.store) (Between hwcfg W (f :: ds) fs) := by
  refine fun s hs => ⟨fun k t hrun => ?_, fun _ _ _ => trivial⟩
  obtain ⟨heom, hbuf, hmsg⟩ := var_run hrun
  rw [Between, DecState.left, heom, hbuf, hmsg]
  exact hs.stored hds

theorem before_req (hds : ∀ d ∈ ds, d.overlaps f = false) :
    Yields (Before hwcfg W ds f fs o) (UNPACK_VAR_REQ f.store) (Between hwcfg W (f :: ds) fs) :=
  (before_var hds).bind fun _ => Proc.Post.ite (fun _ => Proc.post_fail fun _ _ => trivial) fun _ => Proc.post_pure fun _ hs => hs

/-- An address that is sign-extended. -/
theorem before_xaddr_vao (hvao : hwcfg.VAO = true) (hds : ∀ d ∈ ds, d.overlaps .xaddr = false) :
    Yields (Before hwcfg W ds .xaddr fs o) UNPACK_XADDR_VAO (Between hwcfg W (.xaddr :: ds) fs) := by
  refine (before_req hds).bind fun k => Proc.Post.when (fun _ => Proc.post_modify fun s hs => ?_) fun _ _ hs => hs
  obtain ⟨ps, hps, hW, hold⟩ := hs
  refine ⟨ps, hps, hW, fun p hp hu => ?_⟩
  have hne : p.field ≠ .xaddr := by
    intro he
    rw [he, unsigned, hvao] at hu
    cases hu
  have hover : p.field.overlaps .xaddr = false := by
    rcases List.mem_cons.1 (hps p hp) with he | hmem
    · exact absurd he hne
    · exact hds _ hmem
  rw [← hold p hp hu]
  exact VarField.stored_store_of_not_overlaps hover _ s.msg

theorem consume_left {s t : DecState} (h : CONSUME_BYTES s = some (.ok (), t)) : s.left = t.group :: t.left ∧ t.bit_offset = 0 ∧ t.msg = s.msg := by
  cases heom : s.eom with
  | true => simp [CONSUME_BYTES, heom] at h
  | false =>
    cases hc : consume_bytes s.buffer with
    | error e => simp [CONSUME_BYTES, heom, hc] at h
    | ok r =>
      simp only [CONSUME_BYTES, Proc.get_bind_apply, heom, hc, Bool.false_eq_true, if_false, Proc.modify_apply,
        Option.some.injEq, Prod.mk.injEq, true_and] at h
      subst h
      refine ⟨?_, rfl, rfl⟩
      rw [DecState.left, heom, if_neg Bool.false_ne_true, consume_bytes_groups hc]
      rfl

theorem between_consume : Yields (Between hwcfg W ds (f :: fs)) CONSUME_BYTES (Before hwcfg W ds f fs 0) := by
  refine fun s ⟨ps, hps, hW, hold⟩ => ⟨fun ⟨⟩ t hrun => ?_, fun _ _ _ => trivial⟩
  obtain ⟨hleft, hoff, hmsg⟩ := consume_left hrun
  refine ⟨hoff, ps, hps, ?_, hmsg ▸ hold⟩
  rw [hW, hleft]
  rfl

/-- A field that is there with `p`. -/
theorem between_opt {x : Dec Unit} {p : Bool} (hx : Yields (Between hwcfg W ds (f :: fs)) x (Between hwcfg W (f :: ds) fs)) :
    Yields (Between hwcfg W ds ((if p then [f] else []) ++ fs)) (Proc.when p x) (Between hwcfg W (f :: ds) fs) := by
  cases p with
  | true => exact hx
  | false => exact Proc.post_pure fun _ ⟨ps, hps, hW, hold⟩ => ⟨ps, fun p h => List.mem_cons_of_mem _ (hps p h), hW, hold⟩

/-- What holds behind every group holds at the end of the message. -/
theorem consume_rest_eom_of {P : DecState → Prop} (h : Yields P CONSUME_BYTES P) : Yields P CONSUME_REST fun s => P s ∧ s.eom = true := by
  have hloop : ∀ fuel, Yields (fun s => P s ∧ s.buffer.length < fuel) (consume_rest fuel) fun s => P s ∧ s.eom = true := by
    intro fuel
    induction fuel with
    | zero => exact Proc.post_pure fun s hs => absurd hs.2 (Nat.not_lt_zero _)
    | succ fuel ih =>
      refine Proc.Post.get_bind fun s hs => Proc.Post.when (fun _ => ?_) fun heom t ht => ?_
      · refine Proc.Post.bind (Q := fun _ t => P t ∧ t.buffer.length < fuel) (fun t ht => ⟨fun ⟨⟩ u hrun => ?_, fun _ _ _ => trivial⟩) fun _ => ih
        rw [ht] at hrun
        have hlt := consume_shrinks hrun
        exact ⟨(h s hs.1).1 () u hrun, by omega⟩
      · rw [ht]
        exact ⟨hs.1, by simpa using heom⟩
  refine Proc.Post.get_bind fun s hs => ?_
  exact Proc.Post.mono (hloop _) (fun t ht => by rw [ht]; exact ⟨hs, Nat.lt_succ_self _⟩) fun _ _ h => h

/-- A group is skipped, and the last group is still `g`. -/
def Skips (m : Msg) (g : Option (List UInt8)) (s : DecState) : Prop :=
  s.msg = m ∧ (s.eom = false ∧ s.left.getLast? = g ∨ s.bit_offset = 0 ∧ (s.group :: s.left).getLast? = g)

theorem skips_consume {m : Msg} {g : Option (List UInt8)} : Yields (Skips m g) CONSUME_BYTES (Skips m g) := by
  refine fun s ⟨hm, hlast⟩ => ⟨fun ⟨⟩ t hrun => ?_, fun _ _ _ => trivial⟩
  obtain ⟨hleft, hoff, hmsg⟩ := consume_left hrun
  rw [hleft, List.getLast?_cons_cons] at hlast
  exact ⟨hmsg.trans hm, .inr ⟨hoff, hlast.elim And.right And.right⟩⟩

theorem between_finished (hds : ∀ d ∈ ds, d.overlaps .timestamp = false) :
    Yields (Between hwcfg W ds []) (finished_common hwcfg) fun s => Holds hwcfg W s.msg := by
  refine Proc.Post.get_bind fun s ⟨ps, hps, hW, hold⟩ => Proc.Post.ite (fun hcond => ?_) fun hcond => ?_
  · obtain ⟨-, heom⟩ := Bool.and_eq_true_iff.1 hcond
    refine Proc.Post.ite (fun _ => Proc.post_fail fun _ _ => trivial) fun _ => Proc.post_pure fun t ht => ?_
    have hnil : wire_rest hwcfg [] s.left = [] := by
      rw [DecState.left, if_pos heom, wire_rest]
      split <;> rfl
    rw [hW, hnil, List.append_nil, ht]
    exact hold
  · by_cases hbits : hwcfg.ts_bits = 0
    · have hwhen : decide (hwcfg.ts_bits ≠ 0) = false := by simp [hbits]
      have hnil : wire_rest hwcfg [] s.left = [] := by rw [wire_rest, if_pos hbits]
      rw [hwhen, hW, hnil, List.append_nil]
      refine Proc.Post.bind (Q := fun _ t => t.msg = s.msg ∧ t.eom = true) (Proc.Post.mono (consume_rest_eom_of (P := fun t => t.msg = s.msg) ?_)
        (fun t ht => congrArg DecState.msg ht) fun _ _ h => h) fun _ => Proc.post_pure fun t ht => ht.1 ▸ hold
      exact fun t ht => ⟨fun ⟨⟩ u hrun => (consume_left hrun).2.2.trans ht, fun _ _ _ => trivial⟩
    · have hwhen : decide (hwcfg.ts_bits ≠ 0) = true := by simpa using hbits
      have heom : s.eom = false := by simpa [hbits] using hcond
      rw [hwhen]
      refine Proc.Post.bind (Q := fun _ t => Skips s.msg s.left.getLast? t ∧ t.eom = true) (Proc.Post.mono (consume_rest_eom_of skips_consume)
        (fun t ht => by rw [ht]; exact ⟨rfl, .inl ⟨heom, rfl⟩⟩) fun _ _ h => h) fun _ => ?_
      refine fun t ⟨⟨hmsg, hlast⟩, hend⟩ => ⟨fun _ u hrun => ?_, fun _ _ _ => trivial⟩
      have hnil : t.left = [] := by rw [DecState.left, if_pos hend]
      obtain ⟨hoff, hlast⟩ := hlast.resolve_left fun h => by rw [h.1] at hend; cases hend
      rw [hnil, List.getLast?_singleton] at hlast
      have hfields : wire_rest hwcfg [] s.left = [⟨.timestamp, t.group, 0⟩] := by
        rw [wire_rest, if_neg hbits, ← hlast]
        rfl
      have hbefore : Before hwcfg W ds .timestamp [] 0 t := by
        refine ⟨hoff, ps, hps, ?_, hmsg ▸ hold⟩
        rw [hW, hfields, hnil, wire_rest, if_neg hbits]
        rfl
      obtain ⟨ps', -, hW', hold'⟩ := hbefore.stored hds
      rw [hnil, wire_rest, if_neg hbits] at hW'
      obtain ⟨k, v, hreq, hrun⟩ := Proc.bind_eq_ok.1 hrun
      cases hrun
      change Holds hwcfg W u.msg
      rw [(var_req_run hreq).2.2, hW']
      exact (List.append_nil ps').symm ▸ hold'

end Wire

/-! ## The messages -/

section Messages
variable {hwcfg : HwCfg} {W : List WireField}

/-- The TCODE that was stored is the one on the wire. -/
def Coded (t : Tcode) (N : Nat) (m : Msg) : Prop := m.tcode = t ∧ .ofNat (N % 2 ^ 6) = t

/-- The bits behind SRC. -/
abbrev Opened (hwcfg : HwCfg) (W : List WireField) (o : Nat) : (Nat → Msg → Prop) → DecState → Prop := Opens hwcfg W (6 + hwcfg.src_bits + o)

theorem opened_fixed {K L : Nat → Msg → Prop} {F : Nat → Msg → Msg} {o b : Nat}
    (h : ∀ N m, K N m → L N (F (N / 2 ^ (6 + hwcfg.src_bits + o) % 2 ^ min b 64) m)) :
    Yields (Opened hwcfg W o K) (UNPACK_FIXED b F) (Opened hwcfg W (o + b) L) := by
  rw [Opened, Opened, ← Nat.add_assoc]
  exact opens_fixed h

/-- A bit field that no later step reads. -/
theorem opened_skip {t : Tcode} {o b lo n : Nat} :
    Yields (Opened hwcfg W o (Coded t)) (UNPACK_FIXED b (Msg.set_bits lo n)) (Opened hwcfg W (o + b) (Coded t)) :=
  opened_fixed fun _ _ h => h

section First
variable {K : Nat → Msg → Prop} {o : Nat} {f : VarField} {fs : List VarField}

/-- The first variable field, right behind the fixed fields. -/
theorem opened_var (h : ∀ N m, K N m → wire_shape (.ofNat (N % 2 ^ 6)) (N / 2 ^ (6 + hwcfg.src_bits)) = (o, f :: fs)) :
    Yields (Opened hwcfg W o K) (UNPACK_VAR f.store) (Between hwcfg W [f] fs) :=
  Proc.Post.mono (before_var (List.forall_mem_nil _)) (fun _ hs => hs.before h) fun _ _ h => h

theorem opened_req (h : ∀ N m, K N m → wire_shape (.ofNat (N % 2 ^ 6)) (N / 2 ^ (6 + hwcfg.src_bits)) = (o, f :: fs)) :
    Yields (Opened hwcfg W o K) (UNPACK_VAR_REQ f.store) (Between hwcfg W [f] fs) :=
  Proc.Post.mono (before_req (List.forall_mem_nil _)) (fun _ hs => hs.before h) fun _ _ h => h

end First

/-- The TCODE alone gives the shape. -/
theorem Coded.shape {t : Tcode} {N : Nat} {m : Msg} {p : Nat × List VarField} (h : Coded t N m) (ht : ∀ n, wire_shape t n = p) :
    wire_shape (.ofNat (N % 2 ^ 6)) (N / 2 ^ (6 + hwcfg.src_bits)) = p := by
  rw [h.2]
  exact ht _

theorem wire_ownership : Yields (Opened hwcfg W 0 (Coded .Ownership)) (decode_rest hwcfg .Ownership) fun s => Holds hwcfg W s.msg := by
  refine Proc.Post.bind opened_skip fun _ => Proc.Post.bind opened_skip fun _ =>
    Proc.Post.bind opened_skip fun _ => ?_
  exact (opened_var (f := .context) fun _ _ h => h.shape fun _ => rfl).bind fun _ => between_finished (by decide)

theorem wire_error : Yields (Opened hwcfg W 0 (Coded .Error)) (decode_rest hwcfg .Error) fun s => Holds hwcfg W s.msg := by
  refine Proc.Post.bind opened_skip fun _ => ?_
  exact (opened_var (f := .ecode) fun _ _ h => h.shape fun _ => rfl).bind fun _ => between_finished (by decide)

theorem wire_repeat : Yields (Opened hwcfg W 0 (Coded .RepeatBranch)) (decode_rest hwcfg .RepeatBranch) fun s => Holds hwcfg W s.msg :=
  (opened_req (f := .hrepeat) fun _ _ h => h.shape fun _ => rfl).bind fun _ => between_finished (by decide)

theorem wire_data_acq : Yields (Opened hwcfg W 0 (Coded .DataAcquisition)) (decode_rest hwcfg .DataAcquisition) fun s => Holds hwcfg W s.msg := by
  refine (opened_req (f := .idtag) fun _ _ h => h.shape fun _ => rfl).bind fun _ => between_consume.bind fun _ => ?_
  exact (before_req (f := .dqdata) (by decide)).bind fun _ => between_finished (by decide)

/-- A bit field whose value decides what follows. -/
theorem opened_code {K : Nat → Msg → Prop} {o b : Nat} {lo : Nat} (h8 : lo + b ≤ 8) (hK : ∀ N m v, K N m → K N (m.set_bits lo b v)) :
    Yields (Opened hwcfg W o K) (UNPACK_FIXED b (Msg.set_bits lo b))
      (Opened hwcfg W (o + b) fun N m => K N m ∧ bitField lo b m.bits = N / 2 ^ (6 + hwcfg.src_bits) / 2 ^ o % 2 ^ b) := by
  refine opened_fixed fun N m h => ⟨hK N m _ h, ?_⟩
  unfold Msg.set_bits
  rw [bitField_setBitField _ _ h8, Nat.min_eq_left (by omega), Nat.mod_mod, Nat.pow_add _ _ o, ← Nat.div_div_eq_div_mul]

theorem Opens.known_of {K L : Nat → Msg → Prop} {o : Nat} {s : DecState} (hs : Opens hwcfg W o K s) (h : ∀ N, K N s.msg → L N s.msg) : Opens hwcfg W o L s :=
  ⟨hs.off, hs.fields, h _ hs.known⟩

theorem opened_reset {K : Nat → Msg → Prop} {o : Nat} (hK : ∀ N m, K N m → K N (((m.set_icnt 0).set_hist 0).set_hrepeat 0)) :
    Yields (Opened hwcfg W o K) reset_counts (Opened hwcfg W o K) :=
  Proc.post_modify fun _ hs => ⟨hs.off, hs.fields, hK _ _ hs.known⟩

theorem wire_resource : Yields (Opened hwcfg W 0 (Coded .ResourceFull)) (decode_rest hwcfg .ResourceFull) fun s => Holds hwcfg W s.msg := by
  refine Proc.Post.bind (opened_code (by decide) fun _ _ _ h => h) fun _ => Proc.Post.get_bind fun s hs => ?_
  -- `c` is RCODE, in the message and on the wire
  generalize hc : s.msg.res_code = c
  have hstart := hs.known_of (L := fun N m => Coded .ResourceFull N m ∧ N / 2 ^ (6 + hwcfg.src_bits) % 2 ^ 4 = c)
    fun N h => ⟨h.1, by rw [← hc, Msg.res_code, h.2, Nat.pow_zero, Nat.div_one]⟩
  refine Proc.Post.mono (P := Opened hwcfg W 4 fun N m => Coded .ResourceFull N m ∧ N / 2 ^ (6 + hwcfg.src_bits) % 2 ^ 4 = c)
    ?_ (fun t ht => ht ▸ hstart) fun _ _ h => h
  have hshape : ∀ {f : VarField} {fs : List VarField}, (if c = 0 then [.icnt] else if c = 1 then [.hist]
      else if c = 2 then [.hist, .hrepeat] else [.rdata]) = f :: fs → ∀ N (m : Msg), Coded .ResourceFull N m ∧ N / 2 ^ (6 + hwcfg.src_bits) % 2 ^ 4 = c →
        wire_shape (.ofNat (N % 2 ^ 6)) (N / 2 ^ (6 + hwcfg.src_bits)) = (4, f :: fs) := by
    intro f fs hf N m h
    rw [h.1.2, wire_shape, h.2, hf]
  by_cases hgt : c > 2
  · rw [if_pos hgt]
    refine Proc.Post.bind ((opened_var (f := .rdata) (hshape ?_)).bind fun _ => Proc.post_pure fun _ h => h) fun _ => between_finished (by decide)
    rw [if_neg (by omega), if_neg (by omega), if_neg (by omega)]
  · rw [if_neg hgt]
    rcases c with _ | _ | _ | c
    · refine Proc.Post.bind (Q := fun _ => Between hwcfg W [.icnt] []) ((opened_reset fun _ _ h => h).bind fun _ => ?_)
        fun _ => between_finished (by decide)
      exact (opened_req (f := .icnt) (hshape rfl)).bind fun _ => Proc.post_pure fun _ h => h
    · refine Proc.Post.bind (Q := fun _ => Between hwcfg W [.hist] []) ((opened_reset fun _ _ h => h).bind fun _ => ?_)
        fun _ => between_finished (by decide)
      exact (opened_req (f := .hist) (hshape rfl)).bind fun _ => Proc.post_pure fun _ h => h
    · refine Proc.Post.bind (Q := fun _ => Between hwcfg W [.hrepeat, .hist] []) ((opened_reset fun _ _ h => h).bind fun _ => ?_)
        fun _ => between_finished (by decide)
      refine (opened_req (f := .hist) (hshape rfl)).bind fun _ => between_consume.bind fun _ => ?_
      exact (before_req (f := .hrepeat) (by decide)).bind fun _ => Proc.post_pure fun _ h => h
    · omega

/-- The byte of the bit fields keeps what it holds. -/
theorem opened_req_bits {K : Nat → Msg → Prop} {o b : Nat} {f : VarField} {fs : List VarField} (hf : f.members.contains .bits = false)
    (h : ∀ N m, K N m → wire_shape (.ofNat (N % 2 ^ 6)) (N / 2 ^ (6 + hwcfg.src_bits)) = (o, f :: fs)) (hb : ∀ N m, K N m → bitField 4 2 m.bits = b) :
    Yields (Opened hwcfg W o K) (UNPACK_VAR_REQ f.store) fun s => Between hwcfg W [f] fs s ∧ bitField 4 2 s.msg.bits = b := by
  refine fun s hs => ⟨fun k t hrun => ⟨(opened_req h s hs).1 k t hrun, ?_⟩, fun _ _ _ => trivial⟩
  have hbits : ∀ v m, (f.store v m).bits = m.bits := by
    intro v m
    cases f <;> first | exact absurd hf (by decide) | rfl
  rw [(var_req_run hrun).2.2, hbits]
  exact hb _ _ hs.known

/-- A variable field, and a second one if a bit field in front of them says so. -/
theorem wire_pair {t : Tcode} {f g : VarField} {p : Nat → Bool} (hf : f.members.contains .bits = false) (hg : ∀ d ∈ [f], d.overlaps g = false)
    (hts : ∀ d ∈ [g, f], d.overlaps .timestamp = false) (hshape : ∀ N, wire_shape t N = (6, f :: if p (N / 2 ^ 4 % 2 ^ 2) then [g] else [])) :
    Yields (Opened hwcfg W 4 (Coded t)) (do
      UNPACK_FIXED 2 (Msg.set_bits 4 2)
      let _ ← UNPACK_VAR_REQ f.store
      let s ← Proc.get
      Proc.when (p (bitField 4 2 s.msg.bits)) (do
        CONSUME_BYTES
        let _ ← UNPACK_VAR_REQ g.store)
      finished_common hwcfg) fun s => Holds hwcfg W s.msg := by
  refine Proc.Post.bind (opened_code (by decide) fun _ _ _ h => h) fun _ => fun s hs => ?_
  -- `c` is the bit field, in the message and on the wire
  generalize hc : bitField 4 2 s.msg.bits = c
  have hstart := hs.known_of (L := fun N m => (Coded t N m ∧ N / 2 ^ (6 + hwcfg.src_bits) / 2 ^ 4 % 2 ^ 2 = c) ∧ bitField 4 2 m.bits = c)
    fun N h => ⟨⟨h.1, h.2.symm.trans hc⟩, hc⟩
  refine Proc.Post.bind (Q := fun _ u => Between hwcfg W [f] (if p c then [g] else []) u ∧ bitField 4 2 u.msg.bits = c)
    (opened_req_bits hf (fun N m h => ?_) fun N m h => h.2) (fun _ => Proc.Post.get_bind fun u hu => ?_) s hstart
  · rw [h.1.1.2, hshape, h.1.2]
  · rw [hu.2]
    refine Proc.Post.mono (Proc.Post.bind (between_opt (f := g) ?_) fun _ => between_finished hts) (fun v hv => ?_) fun _ _ h => h
    · exact between_consume.bind fun _ => (before_req hg).bind fun _ => Proc.post_pure fun _ h => h
    · rw [hv, List.append_nil]
      exact hu.1

theorem wire_correlation :
    Yields (Opened hwcfg W 0 (Coded .ProgTraceCorrelation)) (decode_rest hwcfg .ProgTraceCorrelation) fun s => Holds hwcfg W s.msg := by
  refine Proc.Post.bind (opened_reset fun _ _ h => h) fun _ => Proc.Post.bind opened_skip fun _ => ?_
  refine wire_pair (f := .icnt) (g := .hist) (p := fun c => c = 1) rfl (by decide) (by decide) fun N => ?_
  simp only [wire_shape, decide_eq_true_eq]
  split <;> rfl

theorem wire_ict : Yields (Opened hwcfg W 0 (Coded .ICT)) (decode_rest hwcfg .ICT) fun s => Holds hwcfg W s.msg := by
  refine Proc.Post.bind opened_skip fun _ => ?_
  refine wire_pair (f := .ckdata0) (g := .ckdata1) (p := fun c => c > 0) rfl (by decide) (by decide) fun N => ?_
  simp only [wire_shape, decide_eq_true_eq]
  cases N / 2 ^ 4 % 2 ^ 2 <;> rfl

/-- The branch and sync messages have one shape. -/
theorem common_shape {m : Msg} (hc : common_tcode m) (N : Nat) :
    wire_shape m.tcode N = ((if msg_is_sync m then 4 else 0) + if msg_is_indir_branch m then 2 else 0,
      .icnt :: ((if msg_has_xaddr m then [.xaddr] else []) ++ ((if msg_has_hist m then [.hist] else []) ++ []))) := by
  unfold common_tcode at hc
  unfold msg_is_sync msg_is_indir_branch msg_has_xaddr msg_has_hist
  cases ht : m.tcode <;> simp_all [wire_shape]

theorem opened_opt {t : Tcode} {o b lo : Nat} (p : Bool) :
    Yields (Opened hwcfg W o (Coded t)) (Proc.when p (UNPACK_FIXED b (Msg.set_bits lo b))) (Opened hwcfg W (o + if p then b else 0) (Coded t)) := by
  cases p with
  | true => exact opened_skip
  | false => exact Proc.post_pure fun _ hs => hs

theorem wire_common {m : Msg} (hc : common_tcode m) :
    Yields (Opened hwcfg W 0 (Coded m.tcode)) (do decode_common hwcfg; finished_common hwcfg) fun s => Holds hwcfg W s.msg := by
  refine Proc.Post.bind (Q := fun _ => Between hwcfg W [.hist, .xaddr, .icnt] []) (Proc.Post.get_bind fun s hs => ?_) fun _ => between_finished (by decide)
  have hs' : s.msg.tcode = m.tcode := hs.known.1
  rw [show msg_is_sync s.msg = msg_is_sync m by simp only [msg_is_sync, hs'],
    show msg_is_indir_branch s.msg = msg_is_indir_branch m by simp only [msg_is_indir_branch, hs'],
    show msg_has_xaddr s.msg = msg_has_xaddr m by simp only [msg_has_xaddr, hs'], (common_preds hs' hc).1, (common_preds hs' hc).2]
  refine Proc.Post.mono (P := Opened hwcfg W 0 (Coded m.tcode)) ?_ (fun t ht => ht ▸ hs) fun _ _ h => h
  refine Proc.Post.bind (opened_opt _) fun _ => Proc.Post.bind (opened_opt _) fun _ => ?_
  rw [Nat.zero_add]
  refine Proc.Post.bind (Q := fun _ => Opened hwcfg W ((if msg_is_sync m then 4 else 0) + if msg_is_indir_branch m then 2 else 0) (Coded m.tcode))
    (Proc.post_assert fun _ hs _ => hs) fun _ => ?_
  refine Proc.Post.bind (Q := fun _ => Opened hwcfg W ((if msg_is_sync m then 4 else 0) + if msg_is_indir_branch m then 2 else 0) (Coded m.tcode))
    (opens_store fun _ _ h => h) fun _ => ?_
  refine (opened_req (f := .icnt) fun N m' h => h.shape (common_shape hc)).bind fun _ => ?_
  refine Proc.Post.bind (between_opt (f := .xaddr) (between_consume.bind fun _ => ?_)) fun _ =>
    between_opt (f := .hist) (between_consume.bind fun _ => (before_req (by decide)).bind fun _ => Proc.post_pure fun _ h => h)
  refine Proc.Post.ite (fun hvao => before_xaddr_vao hvao (by decide)) fun _ => ?_
  exact (before_req (f := .xaddr) (by decide)).bind fun _ => Proc.post_pure fun _ h => h

/-- A message without a name has no fields. -/
theorem wire_other {t : Tcode} (h : ∀ N, (wire_shape t N).2 = []) :
    Yields (Opened hwcfg W 0 (Coded t)) CONSUME_REST fun s => Holds hwcfg W s.msg := by
  refine fun s hs => ⟨fun _ u _ => ?_, fun _ _ _ => trivial⟩
  have hnil : W = [] := by
    rw [hs.fields, wire_fields, hs.known.2, wire_from, h]
  rw [hnil]
  exact nofun

theorem wire_body : Yields (Opens hwcfg W 6 fun N m => m.tcode = .ofNat (N % 2 ^ 6)) (decode_body hwcfg) fun s => Holds hwcfg W s.msg := by
  refine Proc.Post.bind (Q := fun _ => Opens hwcfg W 6 fun N m => m.tcode = .ofNat (N % 2 ^ 6))
    (opens_store (K := fun N m => m.tcode = .ofNat (N % 2 ^ 6)) (L := fun N m => m.tcode = .ofNat (N % 2 ^ 6)) (G := Msg.set_src 0)
      fun _ _ h => h) fun _ => ?_
  refine Proc.Post.bind (Q := fun _ => Opened hwcfg W 0 fun N m => m.tcode = .ofNat (N % 2 ^ 6)) ?_ fun _ => Proc.Post.get_bind fun s hs => ?_
  · by_cases h0 : hwcfg.src_bits = 0
    · rw [show decide (hwcfg.src_bits ≠ 0) = false by simp [h0], Opened, h0]
      exact Proc.post_pure fun _ h => h
    · rw [show decide (hwcfg.src_bits ≠ 0) = true by simpa using h0]
      exact opens_fixed fun _ _ h => h
  · have hstart := hs.known_of (L := Coded s.msg.tcode) fun N h => ⟨rfl, h.symm⟩
    refine Proc.Post.mono (P := Opened hwcfg W 0 (Coded s.msg.tcode)) ?_ (fun t ht => ht ▸ hstart) fun _ _ h => h
    refine Proc.Post.ite wire_common fun hcommon => ?_
    cases ht : s.msg.tcode with
    | Ownership => exact wire_ownership
    | Error => exact wire_error
    | DataAcquisition => exact wire_data_acq
    | ResourceFull => exact wire_resource
    | RepeatBranch => exact wire_repeat
    | ProgTraceCorrelation => exact wire_correlation
    | ICT => exact wire_ict
    | Idle | other => exact wire_other fun _ => rfl
    | _ => exact absurd (show common_tcode s.msg = true by simp only [common_tcode, ht]) hcommon

theorem wire_msg {bs : List UInt8} :
    Yields (fun s => s.eom = false ∧ s.buffer = bs) (decode_msg hwcfg) fun s => Holds hwcfg (wire_fields hwcfg (wire_groups bs)) s.msg := by
  refine Proc.Post.bind (Q := fun _ s => s.eom = false ∧ s.buffer = bs) (Proc.post_modify fun _ h => h) fun _ => ?_
  refine Proc.Post.bind (Q := fun _ => Opens hwcfg (wire_fields hwcfg (wire_groups bs)) 0 fun _ _ => True) ?_ fun _ => ?_
  · refine fun s ⟨heom, hbuf⟩ => ⟨fun ⟨⟩ t hrun => ?_, fun _ _ _ => trivial⟩
    obtain ⟨hleft, hoff, -⟩ := consume_left hrun
    rw [DecState.left, heom, if_neg Bool.false_ne_true, hbuf] at hleft
    exact ⟨hoff, congrArg (wire_fields hwcfg) hleft, trivial⟩
  refine Proc.Post.bind (Q := fun _ => Opens hwcfg (wire_fields hwcfg (wire_groups bs)) 6 fun N m => m.tcode = .ofNat (N % 2 ^ 6)) ?_ fun _ => ?_
  · refine opens_fixed (o := 0) (K := fun _ _ => True) (L := fun N m => m.tcode = .ofNat (N % 2 ^ 6)) (F := Msg.set_tcode) fun N m _ => ?_
    rw [Nat.pow_zero, Nat.div_one]
    rfl
  refine Proc.Post.get_bind fun s hs => Proc.Post.ite (fun hidle => ?_) fun _ => ?_
  · refine Proc.Post.ite (fun _ => Proc.post_fail fun _ _ => trivial) fun _ => Proc.post_pure fun t _ => ?_
    have hnil : wire_fields hwcfg (wire_groups bs) = [] := by
      rw [hs.fields, wire_fields, ← hs.known, hidle]
      rfl
    rw [hnil]
    exact nofun
  · exact Proc.Post.mono wire_body (fun t ht => ht ▸ hs) fun _ _ h => h

end Messages

/-! ## Truncation -/

/-- Every field is stored modulo the size of its destination, and modulo what is read of it. -/
theorem decode_wire_fields {hwcfg : HwCfg} {bs : List UInt8} {m₀ m : Msg} {n : Nat} (h : msg_decode hwcfg bs m₀ = some (.ok n, m)) :
    Holds hwcfg (wire_fields hwcfg (wire_groups bs)) m := by
  obtain ⟨⟨r, s⟩, hrun, heq⟩ := Option.map_eq_some_iff.1 h
  rcases r with e | ⟨⟨⟩⟩
  · cases heq
  obtain ⟨-, rfl⟩ : bs.length - s.buffer.length = n ∧ s.msg = m := by simpa [Except.map] using heq
  exact (wire_msg _ ⟨rfl, rfl⟩).1 () s hrun

/-- Reading is undefined for a length that is 0 modulo 2 ^ 32. -/
theorem WireField.defined_iff (p : WireField) : p.defined = true ↔ (p.bits % 2 ^ 32 = 0 → p.bits = 0) := by
  unfold WireField.defined
  by_cases hzero : p.bits % 2 ^ 32 = 0
  · rw [hzero, Checked.unpack_bits_zero]
    simp
  · rw [Checked.unpack_bits_eq (Nat.pos_of_ne_zero hzero), Option.isSome_some, Bool.or_true]
    exact iff_of_true rfl fun h => absurd h hzero

/-- The variable fields of an accepted frame are the numbers on the wire, and nothing undefined is done for them, just where
all of these fit their destinations, and what is read of a field whose length does not fit an `unsigned`. -/
theorem decode_exact_iff_fits {hwcfg : HwCfg} {bs : List UInt8} {m₀ m : Msg} {n : Nat} (h : msg_decode hwcfg bs m₀ = some (.ok n, m)) :
    (∀ p ∈ wire_fields hwcfg (wire_groups bs), p.defined = true ∧ (unsigned hwcfg p.field = true → p.field.stored m = p.value)) ↔
      ∀ p ∈ wire_fields hwcfg (wire_groups bs), (p.bits % 2 ^ 32 = 0 → p.bits = 0) ∧
        (unsigned hwcfg p.field = true → p.value < 2 ^ min p.field.width (p.bits % 2 ^ 32)) := by
  have hhold := decode_wire_fields h
  constructor
  · intro hall p hp
    obtain ⟨hdef, hstored⟩ := hall p hp
    refine ⟨p.defined_iff.1 hdef, fun hu => ?_⟩
    rw [← hstored hu, hhold p hp hu]
    exact Nat.mod_lt _ (Nat.two_pow_pos _)
  · intro hall p hp
    obtain ⟨hzero, hfits⟩ := hall p hp
    refine ⟨p.defined_iff.2 hzero, fun hu => ?_⟩
    rw [hhold p hp hu]
    exact Nat.mod_eq_of_lt (hfits hu)

/-- The I-CNT 2 ^ 32 + 5 of a DirectBranch message. -/
def long_icnt : List UInt8 := [0x0c, 0x14, 0, 0, 0, 0, 0x13]

theorem decode_exact_iff_fits_long : let cfg : HwCfg := ⟨0, 0, 0, 0, 0, false, false, false⟩
    (∀ p ∈ wire_fields cfg (wire_groups long_icnt), p.defined = true ∧
        (unsigned cfg p.field = true → p.field.stored { Msg.zero with tcode := .DirectBranch, icnt := 5 } = p.value)) ↔
      ∀ p ∈ wire_fields cfg (wire_groups long_icnt), (p.bits % 2 ^ 32 = 0 → p.bits = 0) ∧
        (unsigned cfg p.field = true → p.value < 2 ^ min p.field.width (p.bits % 2 ^ 32)) :=
  have hdec : msg_decode ⟨0, 0, 0, 0, 0, false, false, false⟩ long_icnt Msg.zero =
      some (.ok 7, { Msg.zero with tcode := .DirectBranch, icnt := 5 }) := by decide +kernel
  decode_exact_iff_fits hdec

/-- An I-CNT with a bit above the 32 that are kept. -/
theorem decode_drops_bits : ¬ ∀ (hwcfg : HwCfg) (bs : List UInt8) (m₀ m : Msg) (n : Nat), hwcfg.src_bits ≤ 16 →
    msg_decode hwcfg bs m₀ = some (.ok n, m) →
      ∀ p ∈ wire_fields hwcfg (wire_groups bs), p.defined = true ∧ (unsigned hwcfg p.field = true → p.field.stored m = p.value) := by
  intro hall
  have hdec : msg_decode ⟨0, 0, 0, 0, 0, false, false, false⟩ long_icnt Msg.zero =
      some (.ok 7, { Msg.zero with tcode := .DirectBranch, icnt := 5 }) := by decide +kernel
  have hfields : wire_fields ⟨0, 0, 0, 0, 0, false, false, false⟩ (wire_groups long_icnt) = [⟨.icnt, long_icnt, 6⟩] := by decide +kernel
  have hmem : (⟨.icnt, long_icnt, 6⟩ : WireField) ∈ wire_fields ⟨0, 0, 0, 0, 0, false, false, false⟩ (wire_groups long_icnt) := by
    rw [hfields]
    exact List.mem_singleton_self _
  have hstored := (hall _ _ _ _ _ (by decide) hdec _ hmem).2 rfl
  revert hstored
  decide +kernel

end nexusrv
