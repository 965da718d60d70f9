import NexusRv.Replay
import NexusRv.Vm
/-!
# Fetching instruction blocks

`inst.cpp` disassembles from an address on, up to the first instruction that may not be followed by the next one, and `inst-helper.h` says
what kind of jump that is. What bytes stand for which instruction is left to the Capstone library.
-/

namespace nexusrv

/-! ## Kinds of jumps -/

/-- `enum nexusrv_itypes`. -/
inductive Itype where
  | None
  | Exception
  | Cond_Branch
  | Direct_Jump
  | Direct_Call
  | Indirect_Jump
  | Indirect_Call
  | Coroutine_Swap
  | Function_Return
  deriving DecidableEq

/-- The kinds that end a block. -/
def Itype.jumps : Itype → Bool
  | .None | .Exception | .Cond_Branch => false
  | _ => true

def inst_link_reg (reg : Nat) : Bool := reg == 1 || reg == 5

def inst_jal_types (rd : Nat) : Itype := if inst_link_reg rd then .Direct_Call else .Direct_Jump

def inst_jalr_types (rd rs : Nat) : Itype :=
  if inst_link_reg rd then
    if !inst_link_reg rs then .Indirect_Call
    else if rd = rs then .Indirect_Call else .Coroutine_Swap
  else if inst_link_reg rs then .Function_Return else .Indirect_Jump

def inst_cjalr_types (rs : Nat) : Itype := if rs = 5 then .Coroutine_Swap else .Indirect_Call

def inst_cjr_types (rs : Nat) : Itype := if inst_link_reg rs then .Function_Return else .Indirect_Jump

/-! ## The disassembler -/

/-- The instructions that `fetch` asks for. -/
inductive InsnId where
  | MRET
  | SRET
  | URET
  | ECALL
  | EBREAK
  | C_EBREAK
  | JAL
  | JALR
  | C_J
  | C_JR
  | C_JAL
  | C_JALR
  | other
  deriving DecidableEq

/-- An operand; a register by its distance from `RISCV_REG_ZERO`. -/
inductive Operand where
  | REG (reg : Nat)
  | IMM (imm : UInt64)
  | other

inductive InsnGroup where
  | BRANCH_RELATIVE
  | other
  deriving DecidableEq

/-- What is read of a `cs_insn`. -/
structure CsInsn where
  id : InsnId
  size : UInt16
  mnemonic : Name
  groups : List InsnGroup
  operands : List Operand

/-- The functions of the Capstone library. `cs_disasm_iter` fills in an instruction, and the code goes on behind its `size` bytes. Where
it fails, anything is in the storage that `cs_malloc` has left uninitialised: `left va k`, where a fetch at `va` is `k` bytes further. -/
structure Capstone where
  cs_disasm_iter : List UInt8 → UInt64 → Option CsInsn
  left : UInt64 → Nat → CsInsn
  cs_disasm : List UInt8 → UInt64 → Option CsInsn

/-! ## The code -/

def check (p : Bool) : Except Exit Unit := if p then .ok () else .error .assert

namespace CsInsn

def reg (insn : CsInsn) (i : Nat) : Except Exit Nat :=
  match insn.operands[i]? with
  | some (.REG reg) => .ok reg
  | _ => .error .assert

def imm (insn : CsInsn) (i : Nat) : Except Exit UInt64 :=
  match insn.operands[i]? with
  | some (.IMM imm) => .ok imm
  | _ => .error .assert

/-- The last operand, which is asserted to be there. -/
def last_imm (insn : CsInsn) : Except Exit UInt64 := insn.imm (insn.operands.length - 1)

/-- A `jal`, whose first operand may be omitted. -/
def jal_itype (insn : CsInsn) : Except Exit Itype :=
  match insn.operands.length with
  | 1 =>
    if insn.mnemonic = "j".toList then .ok (inst_jal_types 0)
    else if insn.mnemonic = "jal".toList then .ok (inst_jal_types 1)
    else .error .assert
  | 2 => do
    check (insn.mnemonic = "jal".toList)
    let rd ← insn.reg 0
    pure (inst_jal_types rd)
  | _ => .error .assert

/-- The switch over the jumps. -/
def itype (insn : CsInsn) : Except Exit Itype :=
  match insn.id with
  | .JAL => do
    let itype ← insn.jal_itype
    let _ ← insn.last_imm
    pure itype
  | .JALR =>
    match insn.operands.length with
    | 1 => do
      let rs ← insn.reg 0
      if insn.mnemonic = "jr".toList then .ok (inst_jalr_types 0 rs)
      else if insn.mnemonic = "jalr".toList then .ok (inst_jalr_types 1 rs)
      else .error .assert
    | 2 => do
      check (insn.mnemonic = "jalr".toList)
      let rs ← insn.reg 0
      let _ ← insn.imm 1
      pure (inst_jalr_types 1 rs)
    | 3 => do
      check (insn.mnemonic = "jalr".toList)
      let rd ← insn.reg 0
      let rs ← insn.reg 1
      let _ ← insn.imm 2
      pure (inst_jalr_types rd rs)
    | _ => .error .assert
  | .C_J => do
    check (insn.mnemonic = "c.j".toList)
    check (insn.operands.length = 1)
    let _ ← insn.imm 0
    pure .Direct_Jump
  | .C_JR => do
    check (insn.mnemonic = "c.jr".toList)
    check (insn.operands.length = 1)
    let rs ← insn.reg 0
    pure (inst_cjr_types rs)
  | .C_JAL => do
    check (insn.mnemonic = "c.jal".toList)
    check (insn.operands.length = 1)
    let _ ← insn.imm 0
    pure .Direct_Call
  | .C_JALR => do
    check (insn.mnemonic = "c.jalr".toList)
    check (insn.operands.length = 1)
    let rs ← insn.reg 0
    pure (inst_cjalr_types rs)
  | _ => .ok .None

/-- The class of the block that ends in a jump. -/
def jump_class (insn : CsInsn) : Itype → Except Exit (Option BlockClass)
  | .Direct_Jump => do
    let off ← insn.last_imm
    pure (some (.dir_jmp off))
  | .Direct_Call => do
    let off ← insn.last_imm
    pure (some (.dir_call off))
  | .Indirect_Jump => pure (some .indir_jmp)
  | .Indirect_Call => pure (some .indir_call)
  | .Coroutine_Swap => pure (some .co_swap)
  | .Function_Return => pure (some .ret)
  | _ => pure none

/-- The class of the block that ends in the instruction; `none` where the block goes on. -/
def block_class (insn : CsInsn) : Except Exit (Option BlockClass) :=
  if insn.groups.contains .BRANCH_RELATIVE then do
    let off ← insn.last_imm
    pure (some (.cond_branch off))
  else match insn.id with
  | .MRET | .SRET | .URET => .ok (some .iret)
  | .ECALL | .EBREAK | .C_EBREAK => .ok (some .int)
  | _ => insn.itype >>= insn.jump_class

end CsInsn

/-- The bytes of an instruction that Capstone does not know. -/
def unknown_len (mapped : List UInt8) : Nat := if mapped.headD 0 &&& 3 = 3 then 4 else 2

/-- The loop of `fetch`, with `mapped` in front of it, `done` bytes behind `orig_va`. -/
def fetch_loop (cs : Capstone) (orig_va : UInt64) : Nat → List UInt8 → Nat → Except Exit (Option InstBlock)
  | 0, _, _ => .error .assert
  | fuel + 1, mapped, done =>
    if mapped.length < 2 then .ok none
    else do
      let (len, insn) ← match cs.cs_disasm_iter mapped (orig_va + .ofNat done) with
        | some insn => pure (insn.size.toNat, insn)
        -- instructions that Capstone can't handle are passed over, and what is in the storage is looked at
        | none =>
          if mapped.length < unknown_len mapped then .error (.error "partial instruction".toList)
          else pure (unknown_len mapped, cs.left orig_va done)
      check ((done + len) % 2 = 0)
      match ← insn.block_class with
      | some cls => pure (some ⟨cls, orig_va, (done + len) / 2 % 2 ^ 32, insn.size.toNat⟩)
      | none => fetch_loop cs orig_va fuel (mapped.drop len) (done + len)

/-- The bytes of a mapping. -/
def mapped_bytes (mem : UInt64 → UInt8) (addr len : UInt64) : List UInt8 := (List.range len.toNat).map fun i => mem (addr + .ofNat i)

/-- `rv_inst_block::fetch`. -/
def inst_block_fetch (v : MemoryView) (mem : UInt64 → UInt8) (cs : Capstone) (va : UInt64) : Except Exit (Option InstBlock) :=
  match v.try_map va with
  | .error e => .error e
  | .ok (none, _) => .ok none
  | .ok (some addr, len) => fetch_loop cs va (len.toNat + 1) (mapped_bytes mem addr len) 0

/-- `rv_inst_block::disasm1`. -/
def inst_block_disasm1 (v : MemoryView) (mem : UInt64 → UInt8) (cs : Capstone) (va : UInt64) : Except Exit (Option CsInsn) :=
  match v.try_map va with
  | .error e => .error e
  | .ok (none, _) => .ok none
  | .ok (some addr, len) =>
    match cs.cs_disasm (mapped_bytes mem addr len) va with
    | none => .error (.error "failed to decode insn".toList)
    | some insn => .ok (some insn)

/-! ## What Capstone is taken to do -/

/-- An instruction that leaves the code as it is laid out. -/
def CsInsn.Jumps (insn : CsInsn) : Prop := insn.id ≠ .other ∨ InsnGroup.BRANCH_RELATIVE ∈ insn.groups

/-- Instructions have two or four bytes, which are there. -/
structure Capstone.Lawful (cs : Capstone) : Prop where
  size : ∀ {bs va x}, cs.cs_disasm_iter bs va = some x → (x.size = 2 ∨ x.size = 4) ∧ x.size.toNat ≤ bs.length

/-- A fetch at `va` that is `k` bytes further looks at an instruction and passes over `len` bytes: those of the instruction, or those of one
that is not known, where it looks at what is in the storage. -/
inductive Looks (cs : Capstone) (va : UInt64) (bs : List UInt8) (k : Nat) : CsInsn → Nat → Prop where
  | known {x : CsInsn} : cs.cs_disasm_iter (bs.drop k) (va + .ofNat k) = some x → Looks cs va bs k x x.size.toNat
  | unknown : cs.cs_disasm_iter (bs.drop k) (va + .ofNat k) = none → unknown_len (bs.drop k) ≤ (bs.drop k).length →
      Looks cs va bs k (cs.left va k) (unknown_len (bs.drop k))

/-- The code at `va` runs straight on to what is `k` bytes behind it. -/
inductive Straight (cs : Capstone) (va : UInt64) (bs : List UInt8) : Nat → Prop where
  | start : Straight cs va bs 0
  | next {k len : Nat} {x : CsInsn} : Straight cs va bs k → 2 ≤ (bs.drop k).length → Looks cs va bs k x len → ¬ x.Jumps →
      Straight cs va bs (k + len)

/-- The code at `va` runs straight on to an instruction that ends a block: the block covers it up to there, with that instruction. -/
def Capstone.Spans (cs : Capstone) (va : UInt64) (bs : List UInt8) (b : InstBlock) : Prop :=
  ∃ k y len cls, Straight cs va bs k ∧ 2 ≤ (bs.drop k).length ∧ Looks cs va bs k y len ∧ y.block_class = .ok (some cls) ∧
    b = ⟨cls, va, (k + len) / 2 % 2 ^ 32, y.size.toNat⟩

section Fetch
variable {cs : Capstone} {va : UInt64} {bs : List UInt8} {insn x : CsInsn}

theorem except_bind_ok {ε α β : Type} {x : Except ε α} {f : α → Except ε β} {b : β} : (x >>= f) = .ok b ↔ ∃ a, x = .ok a ∧ f a = .ok b := by
  cases x <;> simp [bind, Except.bind]

theorem jal_types_jumps (rd : Nat) : (inst_jal_types rd).jumps = true := by
  unfold inst_jal_types
  split <;> rfl

theorem jalr_types_jumps (rd rs : Nat) : (inst_jalr_types rd rs).jumps = true := by
  unfold inst_jalr_types
  split
  · split
    · rfl
    · split <;> rfl
  · split <;> rfl

theorem cjr_types_jumps (rs : Nat) : (inst_cjr_types rs).jumps = true := by
  unfold inst_cjr_types
  split <;> rfl

theorem cjalr_types_jumps (rs : Nat) : (inst_cjalr_types rs).jumps = true := by
  unfold inst_cjalr_types
  split <;> rfl

theorem jal_itype_jumps {t : Itype} (h : insn.jal_itype = .ok t) : t.jumps = true := by
  unfold CsInsn.jal_itype at h
  split at h
  · split at h
    · cases h
      exact jal_types_jumps _
    · split at h <;> cases h
      exact jal_types_jumps _
  · simp only [except_bind_ok] at h
    obtain ⟨-, -, rd, -, h⟩ := h
    cases h
    exact jal_types_jumps _
  · cases h

/-- A jump is of some kind. -/
theorem itype_jumps {t : Itype} (h : insn.itype = .ok t)
    (hid : insn.id = .JAL ∨ insn.id = .JALR ∨ insn.id = .C_J ∨ insn.id = .C_JR ∨ insn.id = .C_JAL ∨ insn.id = .C_JALR) : t.jumps = true := by
  unfold CsInsn.itype at h
  rcases hid with hid | hid | hid | hid | hid | hid <;> simp only [hid, except_bind_ok] at h
  · obtain ⟨t', ht, -, -, h⟩ := h
    cases h
    exact jal_itype_jumps ht
  · split at h
    · simp only [except_bind_ok] at h
      obtain ⟨rs, -, h⟩ := h
      split at h
      · cases h
        exact jalr_types_jumps _ _
      · split at h <;> cases h
        exact jalr_types_jumps _ _
    · simp only [except_bind_ok] at h
      obtain ⟨-, -, rs, -, -, -, h⟩ := h
      cases h
      exact jalr_types_jumps _ _
    · simp only [except_bind_ok] at h
      obtain ⟨-, -, rd, -, rs, -, -, -, h⟩ := h
      cases h
      exact jalr_types_jumps _ _
    · cases h
  · obtain ⟨-, -, -, -, -, -, h⟩ := h
    cases h
    rfl
  · obtain ⟨-, -, -, -, rs, -, h⟩ := h
    cases h
    exact cjr_types_jumps _
  · obtain ⟨-, -, -, -, -, -, h⟩ := h
    cases h
    rfl
  · obtain ⟨-, -, -, -, rs, -, h⟩ := h
    cases h
    exact cjalr_types_jumps _

theorem jump_class_some {t : Itype} (ht : t.jumps = true) : insn.jump_class t ≠ .ok none := by
  unfold CsInsn.jump_class
  cases t <;> simp [except_bind_ok, Itype.jumps, pure, Except.pure] at ht ⊢

/-- The block goes on behind what is no jump, and behind nothing else. -/
theorem block_class_none : insn.block_class = .ok none ↔ ¬ insn.Jumps := by
  unfold CsInsn.Jumps CsInsn.block_class
  rw [not_or, not_not]
  by_cases hg : InsnGroup.BRANCH_RELATIVE ∈ insn.groups
  · rw [if_pos (by simpa using hg)]
    simp [except_bind_ok, hg, pure, Except.pure]
  rw [if_neg (by simpa using hg)]
  have hjump : (insn.id = .JAL ∨ insn.id = .JALR ∨ insn.id = .C_J ∨ insn.id = .C_JR ∨ insn.id = .C_JAL ∨ insn.id = .C_JALR) →
      (insn.itype >>= insn.jump_class) ≠ .ok none := by
    intro hid h
    obtain ⟨t, ht, h⟩ := except_bind_ok.1 h
    exact jump_class_some (itype_jumps ht hid) h
  cases hid : insn.id <;> simp only [hg, not_false_eq_true, and_true, reduceCtorEq, iff_false]
  case other => simp [CsInsn.itype, hid, bind, Except.bind, CsInsn.jump_class, pure, Except.pure]
  all_goals first
    | exact hjump (by simp [hid])
    | simp

/-! ## The loop -/

variable {y : CsInsn} {k len fuel : Nat} {b : InstBlock}

theorem unknown_len_two (bs : List UInt8) : unknown_len bs = 2 ∨ unknown_len bs = 4 := by
  unfold unknown_len
  split <;> simp

theorem Looks.size (h : cs.Lawful) (hl : Looks cs va bs k x len) : (len = 2 ∨ len = 4) ∧ len ≤ bs.length - k := by
  rw [← List.length_drop]
  cases hl with
  | known hx =>
    obtain ⟨hsize, hle⟩ := h.size hx
    refine ⟨?_, hle⟩
    rcases hsize with hsize | hsize <;> rw [hsize]
    · exact .inl rfl
    · exact .inr rfl
  | unknown _ hle => exact ⟨unknown_len_two _, hle⟩

theorem Straight.even (h : cs.Lawful) (hs : Straight cs va bs k) : k % 2 = 0 ∧ k ≤ bs.length := by
  induction hs with
  | start => exact ⟨rfl, Nat.zero_le _⟩
  | next _ h2 hl _ ih =>
    have hsize := hl.size h
    omega

/-- A round looks at an instruction. -/
theorem fetch_looks (h : cs.Lawful) (h2 : 2 ≤ (bs.drop k).length) (heven : k % 2 = 0) (hl : Looks cs va bs k x len) (fuel : Nat) :
    fetch_loop cs va (fuel + 1) (bs.drop k) k = x.block_class.bind fun c =>
      c.elim (fetch_loop cs va fuel (bs.drop (k + len)) (k + len)) fun cls => .ok (some ⟨cls, va, (k + len) / 2 % 2 ^ 32, x.size.toNat⟩) := by
  have hsize := hl.size h
  have hcheck : check (decide ((k + len) % 2 = 0)) = .ok () := by
    rw [check, if_pos]
    simp only [decide_eq_true_eq]
    omega
  have hdrop : ∀ n, (bs.drop k).drop n = bs.drop (k + n) := fun n => List.drop_drop
  rw [fetch_loop, if_neg (by omega)]
  cases hl with
  | known hx =>
    simp only [hx, hdrop, pure, Except.pure, bind, Except.bind, hcheck]
    rcases x.block_class with e | _ | cls <;> rfl
  | unknown hx hle =>
    simp only [hx, hdrop, if_neg (Nat.not_lt.2 hle), pure, Except.pure, bind, Except.bind, hcheck]
    rcases (cs.left va k).block_class with e | _ | cls <;> rfl

/-- The rounds up to a place that the code runs straight on to. -/
theorem Straight.fetches (h : cs.Lawful) (hs : Straight cs va bs k) : ∃ fuel, bs.length < fuel + k ∧
    fetch_loop cs va (bs.length + 1) bs 0 = fetch_loop cs va fuel (bs.drop k) k := by
  induction hs with
  | start => exact ⟨bs.length + 1, Nat.lt_succ_self _, rfl⟩
  | @next k len x hs h2 hl hj ih =>
    obtain ⟨fuel, hfuel, hx⟩ := ih
    have hlen : 2 ≤ bs.length - k := List.length_drop ▸ h2
    obtain ⟨f, rfl⟩ : ∃ f, fuel = f + 1 := ⟨fuel - 1, by omega⟩
    refine ⟨f, ?_, ?_⟩
    · have := (hl.size h).1
      omega
    · rw [hx, fetch_looks h h2 (hs.even h).1 hl, block_class_none.2 hj]
      rfl

/-- Something is looked at, or the code is at its end. -/
theorem looks_or (cs : Capstone) (va : UInt64) (bs : List UInt8) (k : Nat) : (∃ x len, Looks cs va bs k x len) ∨
    cs.cs_disasm_iter (bs.drop k) (va + .ofNat k) = none ∧ (bs.drop k).length < unknown_len (bs.drop k) := by
  cases hx : cs.cs_disasm_iter (bs.drop k) (va + .ofNat k) with
  | some x => exact .inl ⟨x, _, .known hx⟩
  | none =>
    by_cases hle : unknown_len (bs.drop k) ≤ (bs.drop k).length
    · exact .inl ⟨_, _, .unknown hx hle⟩
    · exact .inr ⟨rfl, Nat.lt_of_not_le hle⟩

/-- A block is found behind code that runs straight on. -/
theorem fetch_found (h : cs.Lawful) : ∀ {fuel k : Nat}, Straight cs va bs k → fetch_loop cs va fuel (bs.drop k) k = .ok (some b) →
    cs.Spans va bs b := by
  intro fuel
  induction fuel with
  | zero =>
    intro k _ hb
    cases hb
  | succ fuel ih =>
    intro k hs hb
    by_cases h2 : 2 ≤ (bs.drop k).length
    · rcases looks_or cs va bs k with ⟨x, len, hl⟩ | ⟨hx, hlt⟩
      · rw [fetch_looks h h2 (hs.even h).1 hl] at hb
        rcases hc : x.block_class with e | c | cls <;> rw [hc] at hb
        · cases hb
        · exact ih (.next hs h2 hl (block_class_none.1 hc)) hb
        · cases hb
          exact ⟨k, x, len, cls, hs, h2, hl, hc, rfl⟩
      · rw [fetch_loop, if_neg (by omega), hx] at hb
        simp only [if_pos hlt, bind, Except.bind] at hb
        cases hb
    · rw [fetch_loop, if_pos (by omega)] at hb
      cases hb

theorem fetch_spans (h : cs.Lawful) {v : MemoryView} {mem : UInt64 → UInt8} (hb : inst_block_fetch v mem cs va = .ok (some b)) :
    ∃ addr size, v.try_map va = .ok (some addr, size) ∧ cs.Spans va (mapped_bytes mem addr size) b := by
  rw [inst_block_fetch] at hb
  rcases hmap : v.try_map va with e | ⟨_ | addr, size⟩ <;> rw [hmap] at hb
  · cases hb
  · cases hb
  · exact ⟨addr, size, rfl, fetch_found (k := 0) h .start hb⟩

/-- A block is fetched exactly where the code runs straight on to an instruction that ends one: it covers the code up to there and that
instruction, and is of its class. -/
theorem inst_block_fetch_iff (h : cs.Lawful) {v : MemoryView} {mem : UInt64 → UInt8} {addr size : UInt64}
    (hmap : v.try_map va = .ok (some addr, size)) :
    inst_block_fetch v mem cs va = .ok (some b) ↔ cs.Spans va (mapped_bytes mem addr size) b := by
  have hlen : (mapped_bytes mem addr size).length = size.toNat := by simp [mapped_bytes]
  constructor
  · intro hb
    obtain ⟨addr', size', hmap', hspans⟩ := fetch_spans h hb
    cases hmap.symm.trans hmap'
    exact hspans
  · rintro ⟨k, y, len, cls, hs, h2, hl, hc, rfl⟩
    obtain ⟨fuel, hfuel, hx⟩ := hs.fetches h
    have hle := h2
    rw [List.length_drop] at hle
    obtain ⟨f, rfl⟩ : ∃ f, fuel = f + 1 := ⟨fuel - 1, by omega⟩
    rw [inst_block_fetch, hmap]
    dsimp only
    rw [← hlen, hx, fetch_looks h h2 (hs.even h).1 hl, hc]
    rfl

end Fetch

/-! ## A block of two instructions -/

/-- It knows `c.nop` and `c.jr ra`. -/
def ret_capstone : Capstone where
  cs_disasm_iter bs _ :=
    if [0x01, 0x00].isPrefixOf bs then some ⟨.other, 2, "c.nop".toList, [], []⟩
    else if [0x82, 0x80].isPrefixOf bs then some ⟨.C_JR, 2, "c.jr".toList, [.other], [.REG 1]⟩
    else none
  left _ _ := ⟨.other, 0, [], [], []⟩
  cs_disasm _ _ := none

theorem ret_capstone_lawful : ret_capstone.Lawful where
  size := by
    intro bs va x h
    simp only [ret_capstone] at h
    split at h
    · rename_i hp
      cases h
      exact ⟨.inl rfl, (List.isPrefixOf_iff_prefix.1 hp).length_le⟩
    split at h
    · rename_i hp
      cases h
      exact ⟨.inl rfl, (List.isPrefixOf_iff_prefix.1 hp).length_le⟩
    · cases h

def ret_core : CoreFile := sample_core 3 [sample_section "load1" 0x1000 4 0x200] rfl

/-- `c.nop` and `c.jr ra`, where `ret_core` is mapped. -/
def ret_mem (addr : UInt64) : UInt8 :=
  if addr = 0x7f0000000200 then 0x01 else if addr = 0x7f0000000202 then 0x82 else if addr = 0x7f0000000203 then 0x80 else 0

theorem inst_block_fetch_two : inst_block_fetch (sample_view [ret_core]) ret_mem ret_capstone 0x1000 = .ok (some ⟨.ret, 0x1000, 2, 2⟩) := by
  have hmap : (sample_view [ret_core]).try_map 0x1000 = .ok (some 0x7f0000000200, 4) := rfl
  have hbytes : mapped_bytes ret_mem 0x7f0000000200 4 = [0x01, 0x00, 0x82, 0x80] := by decide +kernel
  refine (inst_block_fetch_iff ret_capstone_lawful hmap).2 ⟨2, ⟨.C_JR, 2, "c.jr".toList, [.other], [.REG 1]⟩, 2, .ret, ?_⟩
  rw [hbytes]
  have hnop : Looks ret_capstone 0x1000 [0x01, 0x00, 0x82, 0x80] 0 ⟨.other, 2, "c.nop".toList, [], []⟩ 2 := .known rfl
  refine ⟨.next .start (by decide) hnop ?_, by decide, .known rfl, rfl, rfl⟩
  simp [CsInsn.Jumps]

end nexusrv
