import NexusRv.Lib.Proc
import NexusRv.Msg
import Mathlib.Data.List.GetD
import Mathlib.Data.List.Induction
import Mathlib.Tactic.Common
/-!
# The return stack

`return-stack.h`: a circular buffer of call sites that starts with 32 slots and
doubles up to `max`. What it is for is `Recent`, the last `max` unmatched call
sites. The two agree exactly as long as no call site is pushed on a full
stack, because `retstack_push` drops it there instead of the oldest one.
-/

namespace nexusrv

/-! ## The code -/

/-- The allocator: the contents of a new block of `n` slots, or a null pointer. -/
abbrev Heap := Nat → Option (Nat → UInt64)

/-- A block of `n` slots that starts with the slots of `old` (`malloc`, `realloc`). -/
def Heap.alloc (mem : Heap) (old : List UInt64) (n : Nat) : Option (List UInt64) :=
  (mem n).map fun junk => (List.range n).map fun i => old.getD i (junk i)

/-- `nexusrv_return_stack`. -/
structure RetStack where
  entries : List UInt64
  size : Nat
  max : Nat
  used : Nat
  end_ : Nat
  deriving DecidableEq, Repr

def RETSTACK_DEFAULT : Nat := 32

def retstack_init (mem : Heap) (max : Nat) : Except NexusError RetStack :=
  let size := if max > RETSTACK_DEFAULT then RETSTACK_DEFAULT else max
  if size = 0 then .ok ⟨[], size, max, 0, 0⟩
  else match mem.alloc [] size with
    | none => .error .no_mem
    | some entries => .ok ⟨entries, size, max, 0, 0⟩

def retstack_clear (s : RetStack) : RetStack := { s with used := 0, end_ := 0 }

def retstack_may_enlarge (mem : Heap) : Proc RetStack NexusError Unit := do
  let s ← Proc.get
  if s.size = s.max then pure ()
  else do
    Proc.assert (s.used = s.end_)
    if s.used ≠ s.size then pure ()
    else
      let newsize := s.size * 2 % 2 ^ 32
      let newsize := if newsize > s.max then s.max else newsize
      match mem.alloc s.entries newsize with
      | none => Proc.fail .no_mem
      | some entries => Proc.modify fun s => { s with size := newsize, entries := entries }

def retstack_push (mem : Heap) (addr : UInt64) : Proc RetStack NexusError Unit := do
  let s ← Proc.get
  if s.used = s.max then pure ()
  else do
    retstack_may_enlarge mem
    Proc.modify fun s => if s.end_ = s.size then { s with end_ := 0 } else s
    Proc.modify fun s => { s with entries := s.entries.set s.end_ addr, end_ := s.end_ + 1 }
    Proc.modify fun s => if s.used < s.size then { s with used := s.used + 1 } else s

def retstack_pop : Proc RetStack NexusError UInt64 := do
  let s ← Proc.get
  if s.used = 0 then Proc.fail .trace_retstack_empty
  else do
    Proc.assert (s.end_ ≠ 0)
    Proc.modify fun s => { s with end_ := s.end_ - 1, used := s.used - 1 }
    Proc.modify fun s => if s.end_ = 0 ∧ s.used ≠ 0 then { s with end_ := s.size } else s
    pure (s.entries.getD (s.end_ - 1) 0)

/-! ## What it is for -/

/-- The newest `max` unmatched call sites, newest first. -/
abbrev Recent := List UInt64

def Recent.push (max : Nat) (l : Recent) (addr : UInt64) : Recent := (addr :: l).take max

inductive StackOp where
  | push (addr : UInt64)
  | pop
  | clear
  deriving DecidableEq, Repr

/-- What an operation returns: the popped call site, if any, or an error code. -/
abbrev StackOut := Except NexusError (Option UInt64)

def Recent.step (max : Nat) (l : Recent) : StackOp → StackOut × Recent
  | .push a => (.ok none, l.push max a)
  | .pop => match l with
    | [] => (.error .trace_retstack_empty, [])
    | a :: l => (.ok (some a), l)
  | .clear => (.ok none, [])

/-- The outcomes of a sequence of operations, and the call sites kept after it. -/
def Recent.run (max : Nat) (ops : List StackOp) : List StackOut × Recent :=
  ops.foldl (fun r op => (r.1 ++ [(Recent.step max r.2 op).1], (Recent.step max r.2 op).2)) ([], [])

/-- The call sites on the stack, newest first: the `used` slots before `end`,
going round the buffer. -/
def RetStack.contents (s : RetStack) : Recent :=
  (List.range s.used).map fun i => s.entries.getD ((s.end_ + s.size - 1 - i) % s.size) 0

/-- One operation of the code. -/
def RetStack.step (mem : Heap) (s : RetStack) : StackOp → Option (StackOut × RetStack)
  | .push a => (retstack_push mem a s).map fun r => (r.1.map fun _ => none, r.2)
  | .pop => (retstack_pop s).map fun r => (r.1.map some, r.2)
  | .clear => some (.ok none, retstack_clear s)

/-- A sequence of operations of the code; `none` when an assertion fails. -/
def RetStack.run (mem : Heap) (s : RetStack) (ops : List StackOp) : Option (List StackOut × RetStack) :=
  ops.foldlM (fun r op => (RetStack.step mem r.2 op).map fun q => (r.1 ++ [q.1], q.2)) ([], s)

namespace RetStack

/-! ## The invariant -/

/-- The buffer never wraps: full pushes are dropped, so `end` stays at `used`. -/
structure Inv (s : RetStack) : Prop where
  end_eq : s.end_ = s.used
  used_le : s.used ≤ s.size
  size_le : s.size ≤ s.max
  len : s.entries.length = s.size
  room : s.size = 0 → s.max = 0

theorem init_inv {mem : Heap} {max : Nat} {s : RetStack} (h : retstack_init mem max = .ok s) :
    Inv s ∧ s.max = max ∧ s.used = 0 := by
  unfold retstack_init at h
  dsimp only at h
  generalize hz : (if max > RETSTACK_DEFAULT then RETSTACK_DEFAULT else max) = size at h
  have hle : size ≤ max := by rw [← hz]; split <;> omega
  have hroom : size = 0 → max = 0 := by
    rw [← hz]; split
    · simp [RETSTACK_DEFAULT]
    · exact id
  split at h
  · rename_i h0
    cases h
    exact ⟨⟨rfl, Nat.zero_le _, hle, by simp [h0], hroom⟩, rfl, rfl⟩
  · split at h
    · cases h
    · rename_i entries he
      cases h
      obtain ⟨junk, -, rfl⟩ := Option.map_eq_some_iff.1 he
      exact ⟨⟨rfl, Nat.zero_le _, hle, by simp, hroom⟩, rfl, rfl⟩

/-- With the invariant, the kept call sites are the first `used` slots, reversed. -/
theorem contents_eq {s : RetStack} (hi : Inv s) : s.contents = (s.entries.take s.used).reverse := by
  apply List.ext_getElem
  · simp [contents, hi.len, hi.used_le]
  · intro i h1 h2
    have hlt : i < s.used := by simpa [contents] using h1
    have hle := hi.used_le
    have hmod : (s.end_ + s.size - 1 - i) % s.size = s.used - 1 - i := by
      rw [hi.end_eq, show s.used + s.size - 1 - i = s.used - 1 - i + s.size by omega, Nat.add_mod_right]
      exact Nat.mod_eq_of_lt (by omega)
    have hlen : s.used - 1 - i < s.entries.length := by rw [hi.len]; omega
    simp only [contents, List.getElem_map, List.getElem_range, hmod, List.getElem_reverse, List.getElem_take,
      List.length_take, hi.len, Nat.min_eq_left hle]
    rw [List.getD_eq_getElem _ _ hlen]

theorem contents_length (s : RetStack) : s.contents.length = s.used := by simp [contents]

/-! ## One operation -/

theorem alloc_take {mem : Heap} {old new : List UInt64} {n k : Nat} (h : mem.alloc old n = some new)
    (hk : k ≤ old.length) (hn : k ≤ n) : new.length = n ∧ new.take k = old.take k := by
  obtain ⟨junk, -, rfl⟩ := Option.map_eq_some_iff.1 h
  refine ⟨by simp, List.ext_getElem (by simp; omega) fun i h1 h2 => ?_⟩
  have hi : i < old.length := by simp at h2; omega
  simp only [List.getElem_take, List.getElem_map, List.getElem_range]
  exact List.getD_eq_getElem _ _ hi

/-- Enlarging makes room for one more call site and keeps the ones there are. -/
theorem may_enlarge_spec {mem : Heap} (hmem : ∀ n, (mem n).isSome) {s : RetStack} (hi : Inv s)
    (hmax : s.max < 2 ^ 31) (hroom : s.used < s.max) :
    ∃ s', retstack_may_enlarge mem s = some (.ok (), s') ∧ Inv s' ∧ s'.max = s.max ∧ s'.used = s.used ∧
      s.used < s'.size ∧ s'.entries.take s.used = s.entries.take s.used := by
  have hu := hi.used_le
  have hs := hi.size_le
  by_cases hm : s.size = s.max
  · exact ⟨s, by simp [retstack_may_enlarge, hm], hi, rfl, rfl, by omega, rfl⟩
  by_cases hf : s.used = s.size
  · have h0 : s.size ≠ 0 := fun e => by have := hi.room e; omega
    have hw : s.size * 2 % 2 ^ 32 = s.size * 2 := Nat.mod_eq_of_lt (by omega)
    obtain ⟨n, hn⟩ : ∃ n, (if s.size * 2 > s.max then s.max else s.size * 2) = n := ⟨_, rfl⟩
    have hlt : s.used < n := by rw [← hn]; split <;> omega
    have hle : n ≤ s.max := by rw [← hn]; split <;> omega
    obtain ⟨junk, hj⟩ := Option.isSome_iff_exists.1 (hmem n)
    obtain ⟨new, hnew⟩ : ∃ new, mem.alloc s.entries n = some new := ⟨_, by rw [Heap.alloc, hj]; rfl⟩
    obtain ⟨hl, ht⟩ := alloc_take hnew (k := s.used) (by rw [hi.len]; omega) (by omega)
    refine ⟨{ s with size := n, entries := new }, ?_, ⟨hi.end_eq, Nat.le_of_lt hlt, hle, hl, fun h => ?_⟩, rfl, rfl, hlt, ht⟩
    · simp only [retstack_may_enlarge, Proc.get_bind_apply, Proc.ite_apply, if_neg hm, Proc.assert_bind_apply,
        hi.end_eq, decide_true, if_true, hf, ne_eq, not_true_eq_false, if_false, hw, hn, hnew, Proc.modify_apply]
    · exact absurd h (by dsimp only; omega)
  · refine ⟨s, ?_, hi, rfl, rfl, by omega, rfl⟩
    simp [retstack_may_enlarge, hm, hi.end_eq, hf]

theorem push_full {mem : Heap} {s : RetStack} (a : UInt64) (h : s.used = s.max) :
    retstack_push mem a s = some (.ok (), s) := by
  simp [retstack_push, h]

theorem push_room {mem : Heap} (hmem : ∀ n, (mem n).isSome) {s : RetStack} (hi : Inv s)
    (hmax : s.max < 2 ^ 31) (hroom : s.used < s.max) (a : UInt64) :
    ∃ s', retstack_push mem a s = some (.ok (), s') ∧ Inv s' ∧ s'.max = s.max ∧ s'.used = s.used + 1 ∧
      s'.contents = a :: s.contents := by
  obtain ⟨s₁, h₁, hi₁, hm₁, hu₁, hlt, ht⟩ := may_enlarge_spec hmem hi hmax hroom
  have he : s₁.end_ = s.used := hi₁.end_eq.trans hu₁
  have hne : s.used ≠ s₁.size := by omega
  have hi' : Inv { s₁ with entries := s₁.entries.set s.used a, end_ := s.used + 1, used := s.used + 1 } :=
    ⟨rfl, hlt, hi₁.size_le, by simp [hi₁.len], hi₁.room⟩
  refine ⟨_, ?_, hi', hm₁, rfl, ?_⟩
  · rw [retstack_push, Proc.get_bind_apply, Proc.ite_apply, if_neg (by omega), Proc.bind_ok h₁]
    simp only [Proc.modify_bind_apply, Proc.modify_apply, he, if_neg hne, hu₁, if_pos hlt]
  · have hl : s.used < s₁.entries.length := by rw [hi₁.len]; exact hlt
    rw [contents_eq hi', contents_eq hi, ← ht]
    simp only
    rw [List.take_add_one, List.take_set_of_le (Nat.le_refl _)]
    simp [hl]

theorem pop_empty {s : RetStack} (h : s.used = 0) : retstack_pop s = some (.error .trace_retstack_empty, s) := by
  simp [retstack_pop, h]

theorem pop_some {s : RetStack} (hi : Inv s) (h : s.used ≠ 0) :
    ∃ a s', retstack_pop s = some (.ok a, s') ∧ Inv s' ∧ s'.max = s.max ∧ s'.used = s.used - 1 ∧
      s.contents = a :: s'.contents := by
  have he := hi.end_eq
  have hu := hi.used_le
  have hi' : Inv { s with end_ := s.used - 1, used := s.used - 1 } :=
    ⟨rfl, by dsimp only; omega, hi.size_le, hi.len, hi.room⟩
  have hl : s.used - 1 < s.entries.length := by rw [hi.len]; omega
  refine ⟨s.entries.getD (s.used - 1) 0, _, ?_, hi', rfl, rfl, ?_⟩
  · simp [retstack_pop, h, he]
  · rw [contents_eq hi, contents_eq hi', List.getD_eq_getElem _ _ hl]
    simp only
    conv_lhs => rw [show s.used = s.used - 1 + 1 by omega, List.take_succ_eq_append_getElem hl]
    simp

/-! ## Runs -/

/-- A push does to the stack what it does to `Recent`: there is room, or every
call site kept is the one pushed. -/
def Room (s : RetStack) (a : UInt64) : Prop := s.used < s.max ∨ s.contents = List.replicate s.max a

theorem eq_replicate_of_take {a : UInt64} : ∀ {n : Nat} {l : List UInt64}, l.length = n →
    (a :: l).take n = l → l = List.replicate n a
  | 0, l, hl, _ => List.length_eq_zero_iff.1 hl
  | n + 1, b :: l, hl, h => by
    simp only [List.take_succ_cons, List.cons.injEq] at h
    obtain ⟨rfl, h⟩ := h
    rw [List.replicate_succ, ← eq_replicate_of_take (by simpa using hl) h]

/-- A push keeps to `Recent` exactly when there is `Room` for it. -/
theorem push_tracks_iff {mem : Heap} (hmem : ∀ n, (mem n).isSome) {s : RetStack} (hi : Inv s)
    (hmax : s.max < 2 ^ 31) (a : UInt64) :
    ∃ s', retstack_push mem a s = some (.ok (), s') ∧ Inv s' ∧ s'.max = s.max ∧
      (s'.contents = Recent.push s.max s.contents a ↔ Room s a) ∧ s'.used ≤ s.used + 1 := by
  have hle := Nat.le_trans hi.used_le hi.size_le
  by_cases hroom : s.used < s.max
  · obtain ⟨s', h, hi', hm, hu, hc⟩ := push_room hmem hi hmax hroom a
    have hlen : (a :: s.contents).length ≤ s.max := by simp [contents_length]; omega
    refine ⟨s', h, hi', hm, ⟨fun _ => .inl hroom, fun _ => ?_⟩, Nat.le_of_eq hu⟩
    rw [hc, Recent.push, List.take_of_length_le hlen]
  · have hfull : s.used = s.max := by omega
    refine ⟨s, push_full a hfull, hi, rfl, ⟨fun h => .inr ?_, fun h => ?_⟩, by omega⟩
    · exact eq_replicate_of_take (by rw [contents_length, hfull]) h.symm
    · rcases h with h | h
      · exact absurd h hroom
      · rw [Recent.push, h, ← List.replicate_succ, List.take_replicate, Nat.min_eq_left (Nat.le_succ _)]

def isPush : StackOp → Bool
  | .push _ => true
  | _ => false

def pushes (ops : List StackOp) : Nat := ops.countP isPush

/-- One operation keeps to `Recent`; a push only with room. -/
theorem step_tracks {mem : Heap} (hmem : ∀ n, (mem n).isSome) {s : RetStack} (hi : Inv s)
    (hmax : s.max < 2 ^ 31) (op : StackOp) :
    ∃ out s', step mem s op = some (out, s') ∧ Inv s' ∧ s'.max = s.max ∧
      (Recent.step s.max s.contents op = (out, s'.contents) ↔ ∀ a, op = .push a → Room s a) ∧
      s'.used ≤ s.used + if isPush op then 1 else 0 := by
  cases op with
  | push a =>
    obtain ⟨s', h, hi', hm, hiff, hu⟩ := push_tracks_iff hmem hi hmax a
    refine ⟨.ok none, s', by simp [step, h, Except.map], hi', hm, ?_, hu⟩
    simp only [Recent.step, Prod.mk.injEq, true_and, StackOp.push.injEq, forall_eq']
    rw [← hiff]
    exact eq_comm
  | pop =>
    by_cases h0 : s.used = 0
    · refine ⟨.error .trace_retstack_empty, s, by simp [step, pop_empty h0, Except.map], hi, rfl, ?_, by omega⟩
      have hc : s.contents = [] := List.length_eq_zero_iff.1 (by rw [contents_length, h0])
      simp [hc, Recent.step]
    · obtain ⟨a, s', h, hi', hm, hu, hc⟩ := pop_some hi h0
      refine ⟨.ok (some a), s', by simp [step, h, Except.map], hi', hm, ?_, by omega⟩
      simp [hc, Recent.step]
  | clear =>
    have hi' : Inv (retstack_clear s) := ⟨rfl, Nat.zero_le _, hi.size_le, hi.len, hi.room⟩
    exact ⟨.ok none, retstack_clear s, rfl, hi', rfl, by simp [Recent.step, contents, retstack_clear], Nat.zero_le _⟩

/-- The code's outcomes and call sites after `ops` are those of `Recent`. -/
def Tracks (mem : Heap) (s : RetStack) (ops : List StackOp) : Prop :=
  ∃ outs t, run mem s ops = some (outs, t) ∧ Recent.run s.max ops = (outs, t.contents) ∧
    t.used ≤ min (pushes ops) s.max

theorem run_concat (mem : Heap) (s : RetStack) (ops : List StackOp) (op : StackOp) :
    run mem s (ops ++ [op]) =
      (run mem s ops).bind fun r => (step mem r.2 op).map fun q => (r.1 ++ [q.1], q.2) := by
  simp only [run, List.foldlM_append, List.foldlM_cons, List.foldlM_nil, bind_pure]
  rfl

theorem recent_run_concat (max : Nat) (ops : List StackOp) (op : StackOp) :
    Recent.run max (ops ++ [op]) = ((Recent.run max ops).1 ++ [(Recent.step max (Recent.run max ops).2 op).1],
      (Recent.step max (Recent.run max ops).2 op).2) := by
  simp [Recent.run]

/-- No run from a fresh stack fails an assertion, and every run keeps the invariant. -/
theorem run_inv {mem : Heap} (hmem : ∀ n, (mem n).isSome) {s : RetStack} (hi : Inv s) (hmax : s.max < 2 ^ 31)
    (h0 : s.used = 0) (ops : List StackOp) :
    ∃ outs t, run mem s ops = some (outs, t) ∧ Inv t ∧ t.max = s.max ∧ t.used ≤ min (pushes ops) s.max := by
  induction ops using List.reverseRecOn with
  | nil => exact ⟨[], s, rfl, hi, rfl, by omega⟩
  | append_singleton ops op ih =>
    obtain ⟨outs, t, h, hi', hm, hu⟩ := ih
    obtain ⟨out, t', h', hi'', hm', -, hu'⟩ := step_tracks hmem hi' (hm ▸ hmax) op
    refine ⟨outs ++ [out], t', by rw [run_concat, h]; simp [h'], hi'', hm'.trans hm, ?_⟩
    have hp : pushes (ops ++ [op]) = pushes ops + if isPush op then 1 else 0 := by
      simp [pushes, List.countP_append, List.countP_singleton]
    have := Nat.le_trans hi''.used_le hi''.size_le
    rw [hp]
    omega

theorem tracks_concat {mem : Heap} (hmem : ∀ n, (mem n).isSome) {s : RetStack} (hi : Inv s)
    (hmax : s.max < 2 ^ 31) (h0 : s.used = 0) {ops : List StackOp} (op : StackOp) (h : Tracks mem s ops) :
    Tracks mem s (ops ++ [op]) ↔ ∀ a, op = .push a → ∀ outs t, run mem s ops = some (outs, t) → Room t a := by
  obtain ⟨outs, t, hr, he, hu⟩ := h
  obtain ⟨outs₁, t₁, hr₁, hi₁, hm₁, -⟩ := run_inv hmem hi hmax h0 ops
  obtain ⟨outs₂, t₂, hr₂, -, -, hu₂⟩ := run_inv hmem hi hmax h0 (ops ++ [op])
  rw [hr] at hr₁
  cases hr₁
  obtain ⟨out, t', h', -, -, hiff, -⟩ := step_tracks hmem hi₁ (hm₁ ▸ hmax) op
  have hr' : run mem s (ops ++ [op]) = some (outs ++ [out], t') := by rw [run_concat, hr]; simp [h']
  rw [hr'] at hr₂
  cases hr₂
  rw [hm₁] at hiff
  have hroom : (∀ a, op = .push a → ∀ outs t, run mem s ops = some (outs, t) → Room t a) ↔
      ∀ a, op = .push a → Room t a := by
    constructor
    · intro h a ha; exact h a ha outs t hr
    · rintro h a ha _ _ hr'; rw [hr] at hr'; cases hr'; exact h a ha
  rw [hroom, ← hiff]
  constructor
  · rintro ⟨_, _, hr'', he'', -⟩
    rw [hr'] at hr''
    cases hr''
    rw [recent_run_concat, he] at he''
    simp only [Prod.mk.injEq, List.append_cancel_left_eq, List.cons.injEq, and_true] at he''
    exact Prod.ext he''.1 he''.2
  · intro hs
    exact ⟨_, _, hr', by rw [recent_run_concat, he]; simp [hs], hu₂⟩

/-- After every prefix of `ops` the stack holds the newest `max` unmatched call
sites, exactly when every push in it finds `Room`. -/
theorem retstack_recent_iff (mem : Heap) (hmem : ∀ n, (mem n).isSome) (max : Nat) (hmax : max < 2 ^ 31)
    (s : RetStack) (hs : retstack_init mem max = .ok s) (ops : List StackOp) :
    (∀ p, p <+: ops → Tracks mem s p) ↔
      ∀ p a, p ++ [.push a] <+: ops → ∀ outs t, run mem s p = some (outs, t) → Room t a := by
  obtain ⟨hi, hm, h0⟩ := init_inv hs
  have hmax' : s.max < 2 ^ 31 := hm ▸ hmax
  constructor
  · intro h p a hp outs t ht
    have hpre : Tracks mem s p := h p ((List.prefix_append p _).trans hp)
    exact (tracks_concat hmem hi hmax' h0 _ hpre).1 (h _ hp) a rfl outs t ht
  · intro h p hp
    induction p using List.reverseRecOn with
    | nil => exact ⟨[], s, rfl, by simp [Recent.run, contents, h0], by omega⟩
    | append_singleton p op ih =>
      refine (tracks_concat hmem hi hmax' h0 op (ih ((List.prefix_append p _).trans hp))).2 ?_
      rintro a rfl
      exact h p a hp

/-- An allocator that never fails. -/
def zeroHeap : Heap := fun _ => some fun _ => 0

/-- Within capacity: two slots, a call, a call, a return. -/
theorem retstack_recent_two :
    (∀ p, p <+: [.push 8, .push 16, .pop] → Tracks zeroHeap ⟨[0, 0], 2, 2, 0, 0⟩ p) ↔
      ∀ p a, p ++ [.push a] <+: [.push 8, .push 16, .pop] → ∀ outs t,
        run zeroHeap ⟨[0, 0], 2, 2, 0, 0⟩ p = some (outs, t) → Room t a :=
  retstack_recent_iff zeroHeap (fun _ => rfl) 2 (by decide) ⟨[0, 0], 2, 2, 0, 0⟩ rfl [.push 8, .push 16, .pop]

/-- With one slot, a return after two nested calls pops the outer call site 8,
where `Recent` has the inner one, 16. -/
theorem retstack_drops_newest :
    retstack_init zeroHeap 1 = .ok ⟨[0], 1, 1, 0, 0⟩ ∧
      ¬ Tracks zeroHeap ⟨[0], 1, 1, 0, 0⟩ [.push 8, .push 16, .pop] := by
  refine ⟨rfl, ?_⟩
  rintro ⟨outs, t, hr, he, -⟩
  have hcode : (run zeroHeap ⟨[0], 1, 1, 0, 0⟩ [.push 8, .push 16, .pop]).map (·.1) =
      some [.ok none, .ok none, .ok (some 8)] := rfl
  have hspec : (Recent.run 1 [.push 8, .push 16, .pop]).1 = [.ok none, .ok none, .ok (some 16)] := rfl
  rw [hr, Option.map_some, Option.some.injEq] at hcode
  rw [show (RetStack.mk [0] 1 1 0 0).max = 1 from rfl] at he
  rw [he] at hspec
  rw [hcode] at hspec
  simp at hspec

end RetStack

end nexusrv
