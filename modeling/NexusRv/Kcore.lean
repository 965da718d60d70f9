import Mathlib.Data.List.TakeWhile
import NexusRv.Logger
import NexusRv.Vm
import NexusRv.Lib.OrderedMultimap
import NexusRv.Lib.Scan
/-!
# The symbols of the kernel

`linux_kcore` of `linux.cpp` and `sym_iterate_kallsyms` of `sym.cpp`: the symbols that the kernel lists, and where its modules are loaded. The
files are what `procfs` and `sysfs` hold; a directory gives its entries in some order.
-/

namespace nexusrv

open OrderedMap Scan

/-! ## The code -/

/-- `strchr`: the text in front of the character, and behind it. -/
def strchr (c : Char) : List Char → Option (List Char × List Char)
  | [] => none
  | x :: s => if x = c then some ([], s) else (strchr c s).map fun r => (x :: r.1, r.2)

/-- `strtoull`: zero without a number. -/
def strtoull (base : Nat) (s : List Char) : UInt64 := .ofNat ((unsigned base (s.dropWhile isSpace)).elim 0 Prod.fst)

/-- What `getline` gives up to the end of a file. -/
def getlines : List Char → List (List Char)
  | [] => []
  | c :: s =>
    if c = '\n' then [c] :: getlines s
    else match getlines s with
      | [] => [[c]]
      | line :: lines => (c :: line) :: lines

/-- What the function gets that iterates over the symbols. -/
structure Kallsym where
  addr : UInt64
  type : Char
  sym : Name
  mod : Option Name
deriving DecidableEq

/-- A round of `sym_iterate_kallsyms`, up to the call. -/
def kallsyms_line (line : List Char) : Except Exit Kallsym :=
  -- the line break is overwritten with a null byte
  let line := c_str (line.takeWhile (· ≠ '\n'))
  match strchr ' ' line with
  | none => .error (.error ("cannot find symbol type, kallsyms str=".toList ++ line))
  | some (addr, type) =>
    match strchr ' ' type with
    | none => .error (.error ("cannot find symbol name, kallsyms str=".toList ++ type))
    | some (_, name) =>
      let module := strchr '\t' name
      .ok ⟨strtoull 16 addr, type.headD NUL, module.elim name Prod.fst, module.map Prod.snd⟩

def sym_iterate_kallsyms {σ : Type} (f : Kallsym → σ → Bool × σ) : List (List Char) → σ → Except Exit σ
  | [], s => .ok s
  | line :: lines, s =>
    match kallsyms_line line with
    | .error e => .error e
    | .ok sym => if (f sym s).1 then sym_iterate_kallsyms f lines (f sym s).2 else .ok (f sym s).2

/-- An entry of `kallsyms`: the symbol, its type and its module. -/
abbrev LabelEntry := UInt64 × Name × Char × Option Name

structure Kcore where
  vmlinux_start : UInt64
  vmlinux_end : UInt64
  bpf_start : UInt64
  kaslr_offset : UInt64
  kernel_release : Name
  kallsyms : OrderedMultimap UInt64 (Name × Char × Option Name)
  /-- by address, the module and the section -/
  sections_map : OrderedMap UInt64 (Name × Name)

/-- An entry of `{sysfs}/module`: its name, and the files of its section directory if there is one. -/
structure ModuleDir where
  name : Name
  sections : Option (List (Name × List Char))

def parse_kernel_ver (ver : Name) : Except Exit (Name × Name) :=
  if "Linux version ".toList.isPrefixOf ver then
    match strchr ' ' (ver.drop "Linux version ".length) with
    | none => .ok (ver.drop "Linux version ".length, [])
    | some r => .ok r
  else .error (.error ("Unexpected kernel ver ".toList ++ c_str ver))

def ignored_section (sec_name : Name) : Bool :=
  ".init.".toList.isPrefixOf sec_name || ".note.".toList.isPrefixOf sec_name || sec_name = ".strtab".toList || sec_name = ".symtab".toList

/-- The sections of a module that are entered, by address. -/
def ModuleDir.entered (m : ModuleDir) : List (UInt64 × Name × Name) :=
  ((m.sections.getD []).filter fun s => !ignored_section s.1).map fun s => (strtoull 16 s.2, m.name, s.1)

namespace Kcore

def empty : Kcore := ⟨0, 0, 0, 0, [], .empty, .empty⟩

/-- What the constructor does with a symbol. -/
def add_sym (s : Kallsym) (k : Kcore) : Kcore :=
  { k with
    vmlinux_start := if k.vmlinux_start = 0 ∧ s.type = 'T' ∧ s.sym = "_start".toList then s.addr else k.vmlinux_start
    vmlinux_end := if k.vmlinux_end = 0 ∧ s.type = 'B' ∧ s.sym = "_end".toList then s.addr else k.vmlinux_end
    bpf_start := if s.mod = some "[bpf]".toList ∧ (k.bpf_start = 0 ∨ k.bpf_start > s.addr) then s.addr else k.bpf_start
    kallsyms := k.kallsyms.emplace (s.addr, s.sym, s.type, s.mod) }

/-- KASLR moved the kernel by so much. -/
def find_kaslr_offset (k : Kcore) (vmlinux : Option ObjFile) : UInt64 :=
  match vmlinux.bind fun obj => obj.sections.find? fun sect => sect.name = ".head.text".toList with
  | none => 0
  | some sect => k.vmlinux_start - sect.vma

def add_modules (k : Kcore) (modules : List ModuleDir) : Except Exit Kcore :=
  match k.sections_map.emplaceAll (modules.flatMap ModuleDir.entered) with
  | .error (old, new) => .error (.error ("overlapping section @".toList ++ Nat.toDigits 16 new.1.toNat ++ " ".toList ++ new.2.1 ++ ":".toList
      ++ new.2.2 ++ " vs. ".toList ++ old.2.1 ++ ":".toList ++ old.2.2))
  | .ok sections_map => .ok { k with sections_map }

end Kcore

/-- The constructor of `linux_kcore`: the files `kallsyms`, if it can be opened, and `version`, the store of the kernel's object files by kernel
version, and the directory of the modules. -/
def linux_kcore (kallsyms : Option (List Char)) (version : List Char) (kmods : Name → Except Exit ObjStore) (modules : List ModuleDir) :
    Except Exit Kcore :=
  match kallsyms with
  | none => .error (.error "unable to open kallsyms, linux_kcore cannot continue".toList)
  | some text => do
    let k : Kcore ← sym_iterate_kallsyms (fun s k => (true, Kcore.add_sym s k)) (getlines text) .empty
    if k.vmlinux_start = 0 ∨ k.vmlinux_end = 0 then .error (.error "failed to identify vmlinux_start/end".toList)
    else do
      let ver ← parse_kernel_ver version
      let store ← kmods ver.1
      let vmlinux ← store.get "kernel".toList
      Kcore.add_modules { k with kernel_release := ver.2, kaslr_offset := k.find_kaslr_offset vmlinux } modules

def compare_sym_type (l r : Char) : Int := (if l.isUpper then 1 else 0) - (if r.isUpper then 1 else 0)

/-- The loop of `get_label` over the entries in front of `upper_bound(vma)`, the last one first. -/
def label_loop : List LabelEntry → Option LabelEntry → Option LabelEntry
  | [], last => last
  | it :: rest, none => label_loop rest (some it)
  | it :: rest, some last =>
    if it.1 < last.1 then some last
    else if compare_sym_type it.2.2.1 last.2.2.1 > 0 then label_loop rest (some it)
    else label_loop rest (some last)

namespace Kcore

def get_label (k : Kcore) (vma : UInt64) : Option Name × Option Name × UInt64 :=
  match label_loop (k.kallsyms.upTo vma).reverse none with
  | none => no_map_or_sym
  | some last => (some last.2.1, last.2.2.2, last.1)

def get_file_vma (k : Kcore) (vma : UInt64) : Option Name × Option Name × UInt64 :=
  if vma ≥ k.vmlinux_start ∧ vma < k.vmlinux_end then (some "kernel".toList, none, vma - k.kaslr_offset)
  else
    -- modules and BPF are 2 GiB below vmlinux
    let mod_start := k.vmlinux_start - 0x80000000
    if vma < mod_start ∨ vma ≥ k.vmlinux_end then no_map_or_sym
    else if k.bpf_start ≠ 0 ∧ vma ≥ k.bpf_start then no_map_or_sym
    else match k.sections_map.below vma with
      | none => no_map_or_sym
      | some it => (some it.2.1, some it.2.2, vma - it.1)

/-- The core file `{procfs}/kcore` with the functions of `linux_kcore`. -/
def core_file (k : Kcore) (obj : ObjFile) (id : Nat) (store : ObjStore) : CoreFile :=
  { obj with id, get_file_backing := fun _ => (none, 0), get_file_vma := k.get_file_vma, get_label := k.get_label, obj_store := store }

end Kcore

/-! ## The symbols that are read -/

def Kallsym.entry (s : Kallsym) : LabelEntry := (s.addr, s.sym, s.type, s.mod)

/-- The lines of a text, each with its symbol. -/
abbrev Lists (lines : List (List Char)) (syms : List Kallsym) : Prop := List.Forall₂ (fun line s => kallsyms_line line = .ok s) lines syms

theorem sym_iterate_lists {σ : Type} {f : Kallsym → σ → σ} {lines : List (List Char)} {syms : List Kallsym} (h : Lists lines syms) :
    ∀ s : σ, sym_iterate_kallsyms (fun x s => (true, f x s)) lines s = .ok (syms.foldl (fun s x => f x s) s) := by
  induction h with
  | nil => exact fun _ => rfl
  | cons hx _ ih =>
    intro s
    unfold sym_iterate_kallsyms
    rw [hx]
    exact ih _

/-- A function that goes on at every symbol gets them all. -/
theorem sym_iterate_ok {σ : Type} {f : Kallsym → σ → σ} {lines : List (List Char)} : ∀ {s t : σ},
    sym_iterate_kallsyms (fun x s => (true, f x s)) lines s = .ok t → ∃ syms, Lists lines syms ∧ t = syms.foldl (fun s x => f x s) s := by
  induction lines with
  | nil =>
    intro s t h
    cases h
    exact ⟨[], .nil, rfl⟩
  | cons line lines ih =>
    intro s t h
    unfold sym_iterate_kallsyms at h
    split at h
    · cases h
    · rename_i x hx
      obtain ⟨syms, hsyms, rfl⟩ := ih h
      exact ⟨x :: syms, .cons hx hsyms, rfl⟩

namespace Kcore

def add_syms (k : Kcore) (syms : List Kallsym) : Kcore := syms.foldl (fun k s => k.add_sym s) k

theorem add_syms_kallsyms (syms : List Kallsym) : ∀ k : Kcore, (k.add_syms syms).kallsyms = k.kallsyms.emplaceAll (syms.map Kallsym.entry) := by
  induction syms with
  | nil => exact fun _ => rfl
  | cons s syms ih => exact fun k => ih (k.add_sym s)

theorem add_syms_sections (syms : List Kallsym) : ∀ k : Kcore, (k.add_syms syms).sections_map = k.sections_map := by
  induction syms with
  | nil => exact fun _ => rfl
  | cons s syms ih => exact fun k => ih (k.add_sym s)

end Kcore

/-- What the constructor has found. -/
structure Kcore.Opened (text : List Char) (vmlinux : Option ObjFile) (modules : List ModuleDir) (k : Kcore) (syms : List Kallsym) : Prop where
  lists : Lists (getlines text) syms
  kallsyms : k.kallsyms = OrderedMultimap.empty.emplaceAll (syms.map Kallsym.entry)
  vmlinux_start : k.vmlinux_start = (Kcore.empty.add_syms syms).vmlinux_start
  vmlinux_end : k.vmlinux_end = (Kcore.empty.add_syms syms).vmlinux_end
  bpf_start : k.bpf_start = (Kcore.empty.add_syms syms).bpf_start
  found : k.vmlinux_start ≠ 0 ∧ k.vmlinux_end ≠ 0
  kaslr_offset : k.kaslr_offset = k.find_kaslr_offset vmlinux
  sections_map : OrderedMap.empty.emplaceAll (modules.flatMap ModuleDir.entered) = .ok k.sections_map

theorem of_bind_ok {ε α β : Type} {x : Except ε α} {f : α → Except ε β} {b : β} (h : (x >>= f) = .ok b) : ∃ a, x = .ok a ∧ f a = .ok b := by
  cases x with
  | error e => cases h
  | ok a => exact ⟨a, rfl, h⟩

theorem bind_of_ok {ε α β : Type} {x : Except ε α} {f : α → Except ε β} {a : α} (h : x = .ok a) : (x >>= f) = f a := by
  rw [h]
  rfl

theorem linux_kcore_opened {text version : List Char} {kmods : Name → Except Exit ObjStore} {modules : List ModuleDir} {k : Kcore}
    (h : linux_kcore (some text) version kmods modules = .ok k) : ∃ ver store vmlinux syms, parse_kernel_ver version = .ok ver ∧
      kmods ver.1 = .ok store ∧ store.get "kernel".toList = .ok vmlinux ∧ Kcore.Opened text vmlinux modules k syms := by
  obtain ⟨k₀, hiter, h⟩ := of_bind_ok h
  obtain ⟨syms, hlists, hk₀⟩ := sym_iterate_ok hiter
  have hk₀ : k₀ = Kcore.empty.add_syms syms := hk₀
  have hstart := congrArg Kcore.vmlinux_start hk₀
  have hend := congrArg Kcore.vmlinux_end hk₀
  have hbpf := congrArg Kcore.bpf_start hk₀
  split at h
  · cases h
  rename_i hfound
  obtain ⟨ver, hver, h⟩ := of_bind_ok h
  obtain ⟨store, hstore, h⟩ := of_bind_ok h
  obtain ⟨vmlinux, hvmlinux, h⟩ := of_bind_ok h
  unfold Kcore.add_modules at h
  split at h
  · cases h
  · rename_i sections_map hmap
    cases h
    refine ⟨ver, store, vmlinux, syms, hver, hstore, hvmlinux, hlists, ?_, hstart, hend, hbpf, not_or.1 hfound, rfl, ?_⟩
    · exact (congrArg Kcore.kallsyms hk₀).trans (Kcore.add_syms_kallsyms syms .empty)
    · have hempty : k₀.sections_map = .empty := (congrArg Kcore.sections_map hk₀).trans (Kcore.add_syms_sections syms .empty)
      rw [← hempty]
      exact hmap

/-! ## Labels -/

/-- Of the symbols at an address the last global one, or else the last one. -/
def preferred (syms : List Kallsym) (a : UInt64) : Option Kallsym :=
  let here := syms.filter fun s => s.addr = a
  (here.findRev? fun s => s.type.isUpper).or here.getLast?

/-- What `get_label` is to say of an address. -/
inductive LabelOf (syms : List Kallsym) (vma : UInt64) : Option Name × Option Name × UInt64 → Prop where
  | below : (∀ s ∈ syms, vma < s.addr) → LabelOf syms vma no_map_or_sym
  | symbol (s : Kallsym) : s.addr ≤ vma → (∀ t ∈ syms, t.addr ≤ vma → t.addr ≤ s.addr) → preferred syms s.addr = some s →
      LabelOf syms vma (some s.sym, s.mod, s.addr)

section Labels

theorem preferred_mem {syms : List Kallsym} {a : UInt64} {s : Kallsym} (h : preferred syms a = some s) : s ∈ syms ∧ s.addr = a := by
  have hhere : s ∈ syms.filter fun s => s.addr = a := by
    rcases Option.or_eq_some_iff.1 h with h | ⟨-, h⟩
    · rw [List.findRev?_eq_find?_reverse] at h
      exact List.mem_reverse.1 (List.mem_of_find?_eq_some h)
    · exact List.mem_of_getLast? h
  simpa using hhere

theorem preferred_eq_none {syms : List Kallsym} {a : UInt64} (h : preferred syms a = none) : ∀ s ∈ syms, s.addr ≠ a := by
  intro s hs ha
  have hnil := List.getLast?_eq_none_iff.1 (Option.or_eq_none_iff.1 h).2
  have hhere : s ∈ syms.filter fun s => s.addr = a := by simp [hs, ha]
  rw [hnil] at hhere
  cases hhere

theorem compare_sym_type_pos {l r : Char} : compare_sym_type l r > 0 ↔ l.isUpper = true ∧ r.isUpper = false := by
  unfold compare_sym_type
  cases l.isUpper <;> cases r.isUpper <;> simp

/-- Among entries with the same key the loop ends at the first global one. -/
theorem label_loop_some {xs pre : List LabelEntry} : ∀ {last : LabelEntry}, (∀ e ∈ xs, e.1 = last.1) → (∀ e ∈ pre, e.1 < last.1) →
    label_loop (xs ++ pre) (some last) = if last.2.2.1.isUpper then some last else (xs.find? fun e => e.2.2.1.isUpper).or (some last) := by
  induction xs with
  | nil =>
    intro last _ hpre
    rw [List.nil_append]
    cases pre with
    | nil => simp [label_loop]
    | cons e pre => simp [label_loop, hpre e List.mem_cons_self]
  | cons e xs ih =>
    intro last hkey hpre
    have he := hkey e List.mem_cons_self
    have hxs : ∀ f ∈ xs, f.1 = last.1 := fun f hf => hkey f (List.mem_cons_of_mem e hf)
    rw [List.cons_append, label_loop, if_neg (by rw [he]; exact UInt64.lt_irrefl _)]
    cases hlast : last.2.2.1.isUpper with
    | true =>
      have hcmp : ¬ compare_sym_type e.2.2.1 last.2.2.1 > 0 := by simp [compare_sym_type_pos, hlast]
      rw [if_neg hcmp, ih hxs hpre, if_pos hlast]
      rfl
    | false =>
      cases hglobal : e.2.2.1.isUpper with
      | true =>
        have hcmp : compare_sym_type e.2.2.1 last.2.2.1 > 0 := compare_sym_type_pos.2 ⟨hglobal, hlast⟩
        rw [if_pos hcmp, ih (fun f hf => (hxs f hf).trans he.symm) (fun f hf => by rw [he]; exact hpre f hf), if_pos hglobal]
        simp [hglobal]
      | false =>
        have hcmp : ¬ compare_sym_type e.2.2.1 last.2.2.1 > 0 := by simp [compare_sym_type_pos, hglobal]
        rw [if_neg hcmp, ih hxs hpre]
        simp [hlast, hglobal]

theorem label_loop_range {pre range : List LabelEntry} {a : UInt64} (hne : range ≠ []) (hkey : ∀ e ∈ range, e.1 = a) (hpre : ∀ e ∈ pre, e.1 < a) :
    label_loop (pre ++ range).reverse none = (range.findRev? fun e => e.2.2.1.isUpper).or range.getLast? := by
  obtain ⟨init, last, rfl⟩ : ∃ init last, range = init ++ [last] := ⟨_, _, (List.dropLast_concat_getLast hne).symm⟩
  have hlast : last.1 = a := hkey last (by simp)
  have hloop : label_loop (pre ++ (init ++ [last])).reverse none = label_loop (init.reverse ++ pre.reverse) (some last) := by
    simp [label_loop]
  rw [hloop, label_loop_some]
  · simp only [List.findRev?_eq_find?_reverse, List.reverse_append, List.reverse_singleton, List.singleton_append, List.find?_cons]
    cases last.2.2.1.isUpper <;> simp
  · intro e he
    rw [hlast]
    exact hkey e (by simp at he; simp [he])
  · intro e he
    rw [hlast]
    exact hpre e (by simpa using he)

/-- The label of an address is the symbol with the nearest address, whatever the order of the list. -/
theorem Kcore.Opened.label {text : List Char} {vmlinux : Option ObjFile} {modules : List ModuleDir} {k : Kcore} {syms : List Kallsym}
    (h : Kcore.Opened text vmlinux modules k syms) (vma : UInt64) : LabelOf syms vma (k.get_label vma) := by
  have hequal : ∀ a, k.kallsyms.equal_range a = (syms.map Kallsym.entry).filter fun f => f.1 = a := by
    intro a
    rw [h.kallsyms, OrderedMultimap.equal_range_emplaceAll]
    exact List.filter_congr fun e _ => decide_eq_decide.2 Iff.rfl
  have hmem : ∀ e, e ∈ k.kallsyms.entries ↔ e ∈ syms.map Kallsym.entry := by
    intro e
    have he : e ∈ k.kallsyms.equal_range e.1 ↔ e ∈ k.kallsyms.entries ∧ e.1 = e.1 := OrderedMultimap.mem_equal_range
    rw [hequal, List.mem_filter] at he
    simpa using he.symm
  rcases k.kallsyms.above_or_nearest vma with hnone | ⟨e, he, hle, hmax⟩
  · have hup : k.kallsyms.upTo vma = [] := by
      apply List.eq_nil_iff_forall_not_mem.2
      intro e he
      obtain ⟨he, hle⟩ := OrderedMultimap.mem_upTo.1 he
      exact absurd hle (not_le.2 (hnone e he))
    rw [Kcore.get_label, hup]
    exact .below fun s hs => hnone s.entry ((hmem _).2 (List.mem_map_of_mem hs))
  · have hrange : k.kallsyms.equal_range e.1 = (syms.filter fun s => s.addr = e.1).map Kallsym.entry := by
      rw [hequal, List.filter_map]
      rfl
    have hne : k.kallsyms.equal_range e.1 ≠ [] := List.ne_nil_of_mem (OrderedMultimap.mem_equal_range.2 ⟨he, rfl⟩)
    have hloop : label_loop (k.kallsyms.upTo vma).reverse none = (preferred syms e.1).map Kallsym.entry := by
      rw [OrderedMultimap.upTo_eq hle hmax, label_loop_range hne (fun f hf => (OrderedMultimap.mem_equal_range.1 hf).2)
        (fun f hf => by simpa using (List.mem_filter.1 hf).2), hrange]
      simp only [preferred, List.findRev?_eq_find?_reverse, ← List.map_reverse, List.find?_map, List.getLast?_map, Option.map_or]
      rfl
    obtain ⟨s, hs⟩ : ∃ s, preferred syms e.1 = some s := by
      apply Option.ne_none_iff_exists'.1
      intro hnone
      obtain ⟨s, hs, rfl⟩ := List.mem_map.1 ((hmem e).1 he)
      exact preferred_eq_none hnone s hs rfl
    obtain ⟨-, ha⟩ := preferred_mem hs
    rw [Kcore.get_label, hloop, hs]
    refine .symbol s (ha ▸ hle) ?_ (ha ▸ hs)
    intro t ht htv
    rw [ha]
    exact hmax t.entry ((hmem _).2 (List.mem_map_of_mem ht)) htv

end Labels

/-! ## The text of the kernel -/

/-- How the kernel lists a symbol. -/
def Kallsym.text (s : Kallsym) : List Char :=
  (Nat.toDigits 16 s.addr.toNat).leftpad 16 '0' ++ ' ' :: s.type :: ' ' :: (s.sym ++ s.mod.elim [] fun m => '\t' :: m)

def kallsyms_text (syms : List Kallsym) : List Char := (syms.map fun s => s.text ++ ['\n']).flatten

/-- A symbol that a line can hold. -/
structure Kallsym.Plain (s : Kallsym) : Prop where
  type : s.type ≠ ' ' ∧ s.type ≠ '\n' ∧ s.type ≠ NUL
  sym : ∀ c ∈ s.sym, c ≠ '\t' ∧ c ≠ '\n' ∧ c ≠ NUL
  mod : ∀ m ∈ s.mod, ∀ c ∈ m, c ≠ '\n' ∧ c ≠ NUL

section Texts
variable {c : Char} {l r : List Char} {s : Kallsym}

theorem strchr_append (h : ∀ x ∈ l, x ≠ c) : strchr c (l ++ c :: r) = some (l, r) := by
  induction l with
  | nil => simp [strchr]
  | cons x l ih =>
    rw [List.cons_append, strchr, if_neg (h x List.mem_cons_self), ih fun y hy => h y (List.mem_cons_of_mem x hy)]
    rfl

theorem strchr_none (h : ∀ x ∈ l, x ≠ c) : strchr c l = none := by
  induction l with
  | nil => rfl
  | cons x l ih =>
    rw [strchr, if_neg (h x List.mem_cons_self), ih fun y hy => h y (List.mem_cons_of_mem x hy)]
    rfl

theorem getlines_append (h : ∀ x ∈ l, x ≠ '\n') : getlines (l ++ '\n' :: r) = (l ++ ['\n']) :: getlines r := by
  induction l with
  | nil => rfl
  | cons x l ih =>
    rw [List.cons_append, getlines, if_neg (h x List.mem_cons_self), ih fun y hy => h y (List.mem_cons_of_mem x hy)]
    rfl

theorem leftpad_digit (n : Nat) {x : Char} (hx : x ∈ (Nat.toDigits 16 n).leftpad 16 '0') : ∃ d < 16, digitValue x = some d := by
  rcases List.mem_append.1 hx with hx | hx
  · rw [(List.mem_replicate.1 hx).2]
    exact ⟨0, by decide, rfl⟩
  · exact toDigits_value (by decide) (by decide) hx

theorem strtoull_leftpad (a : UInt64) : strtoull 16 ((Nat.toDigits 16 a.toNat).leftpad 16 '0') = a := by
  have hread : unsigned 16 ((Nat.toDigits 16 a.toNat).leftpad 16 '0' ++ []) = some (a.toNat, []) :=
    unsigned_leftpad (by decide) (by decide) a.toNat_lt 16 fun c hc => by cases hc
  rw [List.append_nil] at hread
  have hdrop : ((Nat.toDigits 16 a.toNat).leftpad 16 '0').dropWhile isSpace = (Nat.toDigits 16 a.toNat).leftpad 16 '0' := by
    apply dropWhile_none
    intro x hx
    obtain ⟨d, -, hd⟩ := leftpad_digit _ (List.mem_of_mem_head? hx)
    apply Bool.eq_false_iff.2
    intro hsp
    rw [digitValue_space hsp] at hd
    cases hd
  rw [strtoull, hdrop, hread]
  exact UInt64.ofNat_toNat

theorem Kallsym.Plain.text (h : s.Plain) : ∀ x ∈ s.text, x ≠ '\n' ∧ x ≠ NUL := by
  intro x hx
  simp only [Kallsym.text, List.mem_append, List.mem_cons] at hx
  rcases hx with hx | rfl | rfl | rfl | hx | hx
  · obtain ⟨d, -, hd⟩ := leftpad_digit _ hx
    constructor
    · rintro rfl
      cases hd
    · rintro rfl
      cases hd
  · decide
  · exact h.type.2
  · decide
  · exact (h.sym x hx).2
  · rcases hm : s.mod with _ | m <;> rw [hm] at hx
    · cases hx
    · rcases List.mem_cons.1 hx with rfl | hx
      · decide
      · exact h.mod m hm x hx

/-- The line of a symbol is read back. -/
theorem kallsyms_line_text (h : s.Plain) : kallsyms_line (s.text ++ ['\n']) = .ok s := by
  have hline : c_str ((s.text ++ ['\n']).takeWhile (· ≠ '\n')) = s.text := by
    rw [List.takeWhile_append_of_pos fun x hx => decide_eq_true (h.text x hx).1]
    simp only [c_str, List.takeWhile_cons, ne_eq, not_true, decide_false, Bool.false_eq_true, if_false, List.append_nil]
    apply List.takeWhile_eq_self_iff.2
    exact fun x hx => decide_eq_true (h.text x hx).2
  have haddr : ∀ r, strchr ' ' ((Nat.toDigits 16 s.addr.toNat).leftpad 16 '0' ++ ' ' :: r) =
      some ((Nat.toDigits 16 s.addr.toNat).leftpad 16 '0', r) := by
    intro r
    apply strchr_append
    rintro x hx rfl
    obtain ⟨d, -, hd⟩ := leftpad_digit _ hx
    cases hd
  have htype : ∀ r, strchr ' ' (s.type :: ' ' :: r) = some ([s.type], r) := by
    intro r
    apply strchr_append (l := [s.type])
    simpa using h.type.1
  have hsym : ∀ x ∈ s.sym, x ≠ '\t' := fun x hx => (h.sym x hx).1
  simp only [kallsyms_line, hline]
  rw [Kallsym.text, haddr]
  dsimp only
  rw [htype]
  dsimp only
  rw [strtoull_leftpad]
  obtain ⟨addr, type, sym, mod⟩ := s
  cases mod with
  | none => simp [strchr_none hsym]
  | some m => simp [strchr_append hsym]

theorem getlines_text {syms : List Kallsym} (h : ∀ s ∈ syms, s.Plain) : getlines (kallsyms_text syms) = syms.map fun s => s.text ++ ['\n'] := by
  induction syms with
  | nil => rfl
  | cons s syms ih =>
    have hs := h s List.mem_cons_self
    rw [kallsyms_text, List.map_cons, List.flatten_cons, List.append_assoc, List.singleton_append,
      getlines_append fun x hx => (hs.text x hx).1]
    exact congrArg _ (ih fun t ht => h t (List.mem_cons_of_mem s ht))

/-- The symbols of the text are those that it was written from. -/
theorem lists_text {syms : List Kallsym} (h : ∀ s ∈ syms, s.Plain) : Lists (getlines (kallsyms_text syms)) syms := by
  rw [getlines_text h]
  induction syms with
  | nil => exact .nil
  | cons s syms ih => exact .cons (kallsyms_line_text (h s List.mem_cons_self)) (ih fun t ht => h t (List.mem_cons_of_mem s ht))

theorem Lists.unique {lines : List (List Char)} {syms syms' : List Kallsym} (h : Lists lines syms) (h' : Lists lines syms') : syms = syms' := by
  induction h generalizing syms' with
  | nil =>
    cases h'
    rfl
  | cons hs _ ih =>
    rcases h' with _ | ⟨hs', h'⟩
    rw [hs] at hs'
    cases hs'
    rw [ih h']

end Texts

/-! ## Where the kernel is -/

def Kallsym.is_bpf (s : Kallsym) : Bool := s.mod = some "[bpf]".toList

/-- The first symbol of this type and name that has an address. -/
def first_addr (syms : List Kallsym) (type : Char) (sym : String) : UInt64 :=
  ((syms.find? fun s => s.type = type ∧ s.sym = sym.toList ∧ s.addr ≠ 0).map Kallsym.addr).getD 0

/-- The BPF symbols behind the last one at the address zero. -/
def bpf_syms (syms : List Kallsym) : List Kallsym := (syms.filter Kallsym.is_bpf).reverse.takeWhile fun s => s.addr ≠ 0

section Addresses
variable {syms : List Kallsym} {s : Kallsym} {k : Kcore} {vma : UInt64}

theorem first_addr_cons (type : Char) (sym : String) : first_addr (s :: syms) type sym =
    if s.type = type ∧ s.sym = sym.toList ∧ s.addr ≠ 0 then s.addr else first_addr syms type sym := by
  unfold first_addr
  rw [List.find?_cons]
  split <;> simp_all

/-- Entering an address where there is none yet. -/
theorem foldl_first (type : Char) (sym : String) (syms : List Kallsym) : ∀ a : UInt64,
    syms.foldl (fun a s => if a = 0 ∧ s.type = type ∧ s.sym = sym.toList then s.addr else a) a = if a = 0 then first_addr syms type sym else a := by
  induction syms with
  | nil =>
    intro a
    split
    · assumption
    · rfl
  | cons s syms ih =>
    intro a
    rw [List.foldl_cons, ih, first_addr_cons]
    by_cases ha : a = 0
    · by_cases hs : s.type = type ∧ s.sym = sym.toList
      · by_cases h0 : s.addr = 0 <;> simp [ha, hs, h0]
      · simp only [ha, hs, and_false, if_false, if_true]
        rw [if_neg fun h => hs ⟨h.1, h.2.1⟩]
    · simp [ha]

theorem add_syms_vmlinux_start (syms : List Kallsym) : (Kcore.empty.add_syms syms).vmlinux_start = first_addr syms 'T' "_start" := by
  have hfold : ∀ (syms : List Kallsym) (k : Kcore), (k.add_syms syms).vmlinux_start =
      syms.foldl (fun a s => if a = 0 ∧ s.type = 'T' ∧ s.sym = "_start".toList then s.addr else a) k.vmlinux_start := by
    intro syms
    induction syms with
    | nil => exact fun _ => rfl
    | cons s syms ih => exact fun k => ih (k.add_sym s)
  rw [hfold, foldl_first]
  rfl

theorem add_syms_vmlinux_end (syms : List Kallsym) : (Kcore.empty.add_syms syms).vmlinux_end = first_addr syms 'B' "_end" := by
  have hfold : ∀ (syms : List Kallsym) (k : Kcore), (k.add_syms syms).vmlinux_end =
      syms.foldl (fun a s => if a = 0 ∧ s.type = 'B' ∧ s.sym = "_end".toList then s.addr else a) k.vmlinux_end := by
    intro syms
    induction syms with
    | nil => exact fun _ => rfl
    | cons s syms ih => exact fun k => ih (k.add_sym s)
  rw [hfold, foldl_first]
  rfl

theorem bpf_syms_concat : bpf_syms (syms ++ [s]) = if s.is_bpf then (if s.addr = 0 then [] else s :: bpf_syms syms) else bpf_syms syms := by
  unfold bpf_syms
  rw [List.filter_append, List.reverse_append]
  by_cases hb : s.is_bpf = true
  · by_cases h0 : s.addr = 0 <;> simp [hb, h0]
  · simp [hb]

/-- The start of the BPF area is known and not above an address when a BPF symbol is not above it. -/
theorem add_syms_bpf_start (syms : List Kallsym) (vma : UInt64) :
    (Kcore.empty.add_syms syms).bpf_start ≠ 0 ∧ vma ≥ (Kcore.empty.add_syms syms).bpf_start ↔ ∃ s ∈ bpf_syms syms, s.addr ≤ vma := by
  induction syms using List.reverseRecOn with
  | nil => simp [bpf_syms, Kcore.add_syms, Kcore.empty]
  | append_singleton syms s ih =>
    have hsnoc : Kcore.empty.add_syms (syms ++ [s]) = (Kcore.empty.add_syms syms).add_sym s := by
      simp [Kcore.add_syms]
    rw [hsnoc, bpf_syms_concat]
    generalize Kcore.empty.add_syms syms = k at ih
    by_cases hb : s.is_bpf = true
    · have hmod : s.mod = some "[bpf]".toList := of_decide_eq_true hb
      simp only [Kcore.add_sym, hmod, hb, if_true, true_and]
      by_cases h0 : s.addr = 0
      · -- one at the address zero starts again
        simp [h0]
      · rw [if_neg h0]
        simp only [List.mem_cons, exists_eq_or_imp, ← ih]
        by_cases hk : k.bpf_start = 0
        · simp [hk, h0]
        · by_cases hlt : s.addr < k.bpf_start
          · simp only [hk, hlt, or_true, if_true, ne_eq, h0, not_false_eq_true, true_and, ge_iff_le]
            exact ⟨.inl, fun h => h.elim id hlt.le.trans⟩
          · simp only [hk, hlt, or_false, if_false, ne_eq, not_false_eq_true, true_and, ge_iff_le]
            exact ⟨.inr, fun h => h.elim (not_lt.1 hlt).trans id⟩
    · have hmod : ¬ s.mod = some "[bpf]".toList := fun h => hb (decide_eq_true h)
      simp only [Kcore.add_sym, hmod, hb, false_and, if_false]
      exact ih

end Addresses

/-- The files of the kernel can be used exactly when the start and the end of the kernel are listed, the version is one of Linux, the store
gives an answer, and no two sections of modules are at one address. -/
theorem kernel_opens_iff {syms : List Kallsym} (hplain : ∀ s ∈ syms, s.Plain) (version : List Char) (kmods : Name → Except Exit ObjStore)
    (modules : List ModuleDir) : (∃ k, linux_kcore (some (kallsyms_text syms)) version kmods modules = .ok k) ↔
      first_addr syms 'T' "_start" ≠ 0 ∧ first_addr syms 'B' "_end" ≠ 0 ∧
      (∃ ver store vmlinux, parse_kernel_ver version = .ok ver ∧ kmods ver.1 = .ok store ∧ store.get "kernel".toList = .ok vmlinux) ∧
      ((modules.flatMap ModuleDir.entered).map Prod.fst).Nodup := by
  constructor
  · rintro ⟨k, h⟩
    obtain ⟨ver, store, vmlinux, syms', hver, hstore, hget, hopen⟩ := linux_kcore_opened h
    cases (lists_text hplain).unique hopen.lists
    refine ⟨?_, ?_, ⟨ver, store, vmlinux, hver, hstore, hget⟩, (OrderedMap.emplaceAll_iff.1 ⟨_, hopen.sections_map⟩).1⟩
    · rw [← add_syms_vmlinux_start, ← hopen.vmlinux_start]
      exact hopen.found.1
    · rw [← add_syms_vmlinux_end, ← hopen.vmlinux_end]
      exact hopen.found.2
  · rintro ⟨hstart, hend, ⟨ver, store, vmlinux, hver, hstore, hget⟩, hnodup⟩
    rw [← add_syms_vmlinux_start] at hstart
    rw [← add_syms_vmlinux_end] at hend
    obtain ⟨m, hm⟩ : ∃ m, (OrderedMap.empty : OrderedMap UInt64 (Name × Name)).emplaceAll (modules.flatMap ModuleDir.entered) = .ok m :=
      OrderedMap.emplaceAll_iff.2 ⟨hnodup, fun e _ f hf => by cases hf⟩
    refine ⟨{ Kcore.empty.add_syms syms with
      kernel_release := ver.2, kaslr_offset := (Kcore.empty.add_syms syms).find_kaslr_offset vmlinux, sections_map := m }, ?_⟩
    have hiter : sym_iterate_kallsyms (fun s k => (true, Kcore.add_sym s k)) (getlines (kallsyms_text syms)) Kcore.empty =
      .ok (Kcore.empty.add_syms syms) := sym_iterate_lists (lists_text hplain) Kcore.empty
    have hempty : (Kcore.empty.add_syms syms).sections_map = .empty := Kcore.add_syms_sections syms .empty
    unfold linux_kcore
    dsimp only
    rw [bind_of_ok hiter, if_neg (not_or.2 ⟨hstart, hend⟩), bind_of_ok hver, bind_of_ok hstore, bind_of_ok hget, Kcore.add_modules, hempty, hm]

/-- Where an address of the running kernel is in its object file. -/
def static_addr (syms : List Kallsym) (vmlinux : Option ObjFile) (vma : UInt64) : UInt64 :=
  match vmlinux.bind fun obj => obj.sections.find? fun sect => sect.name = ".head.text".toList with
  | none => vma
  | some sect => vma - first_addr syms 'T' "_start" + sect.vma

def InKernel (syms : List Kallsym) (vma : UInt64) : Prop := first_addr syms 'T' "_start" ≤ vma ∧ vma < first_addr syms 'B' "_end"

/-- In the 2 GiB in front of the kernel, or in it, and not in a BPF program or behind one. -/
def NearKernel (syms : List Kallsym) (vma : UInt64) : Prop :=
  first_addr syms 'T' "_start" - 0x80000000 ≤ vma ∧ vma < first_addr syms 'B' "_end" ∧ ∀ s ∈ bpf_syms syms, vma < s.addr

/-- What `get_file_vma` is to say of an address: a place in the kernel's object file, or one in the section of a module with the nearest
address. -/
inductive FileOf (syms : List Kallsym) (vmlinux : Option ObjFile) (modules : List ModuleDir) (vma : UInt64) :
    Option Name × Option Name × UInt64 → Prop where
  | kernel : InKernel syms vma → FileOf syms vmlinux modules vma (some "kernel".toList, none, static_addr syms vmlinux vma)
  | module (e : UInt64 × Name × Name) : ¬ InKernel syms vma → NearKernel syms vma → e ∈ modules.flatMap ModuleDir.entered → e.1 ≤ vma →
      (∀ f ∈ modules.flatMap ModuleDir.entered, f.1 ≤ vma → f.1 ≤ e.1) →
      FileOf syms vmlinux modules vma (some e.2.1, some e.2.2, vma - e.1)
  | nothing : ¬ InKernel syms vma → (NearKernel syms vma → ∀ e ∈ modules.flatMap ModuleDir.entered, vma < e.1) →
      FileOf syms vmlinux modules vma no_map_or_sym

theorem sub_sub_addr (a b c : UInt64) : a - (b - c) = a - b + c := by grind

/-- `get_file_vma` answers as it should for every address. -/
theorem Kcore.Opened.file {text : List Char} {vmlinux : Option ObjFile} {modules : List ModuleDir} {k : Kcore} {syms : List Kallsym}
    (hopen : Kcore.Opened text vmlinux modules k syms) (vma : UInt64) : FileOf syms vmlinux modules vma (k.get_file_vma vma) := by
  have hstart := hopen.vmlinux_start.trans (add_syms_vmlinux_start syms)
  have hend := hopen.vmlinux_end.trans (add_syms_vmlinux_end syms)
  have hbpf := add_syms_bpf_start syms vma
  rw [← hopen.bpf_start] at hbpf
  have hmem : ∀ e, e ∈ k.sections_map.entries ↔ e ∈ modules.flatMap ModuleDir.entered := by
    intro e
    have he := OrderedMap.mem_emplaceAll hopen.sections_map e
    simpa [OrderedMap.empty] using he
  have hnear : NearKernel syms vma ↔ ¬ (vma < k.vmlinux_start - 0x80000000 ∨ vma ≥ k.vmlinux_end) ∧ ¬ (k.bpf_start ≠ 0 ∧ vma ≥ k.bpf_start) := by
    rw [hbpf, hstart, hend, NearKernel]
    simp only [not_or, not_exists, not_and, UInt64.not_lt, UInt64.not_le, ge_iff_le, and_assoc]
  have hkernel : InKernel syms vma ↔ vma ≥ k.vmlinux_start ∧ vma < k.vmlinux_end := by
    rw [hstart, hend, InKernel]
  unfold Kcore.get_file_vma
  by_cases hin : InKernel syms vma
  · have haddr : vma - k.kaslr_offset = static_addr syms vmlinux vma := by
      rw [hopen.kaslr_offset, Kcore.find_kaslr_offset, static_addr, hstart]
      split
      · exact UInt64.sub_zero vma
      · exact sub_sub_addr _ _ _
    rw [if_pos (hkernel.1 hin), haddr]
    exact .kernel hin
  · rw [if_neg fun h => hin (hkernel.2 h)]
    dsimp only
    by_cases harea : vma < k.vmlinux_start - 0x80000000 ∨ vma ≥ k.vmlinux_end
    · rw [if_pos harea]
      exact .nothing hin fun h => absurd harea (hnear.1 h).1
    · rw [if_neg harea]
      by_cases hbehind : k.bpf_start ≠ 0 ∧ vma ≥ k.bpf_start
      · rw [if_pos hbehind]
        exact .nothing hin fun h => absurd hbehind (hnear.1 h).2
      · rw [if_neg hbehind]
        have hn := hnear.2 ⟨harea, hbehind⟩
        rcases hbelow : k.sections_map.below vma with _ | e
        · refine .nothing hin fun _ e he => ?_
          exact (OrderedMap.below_eq_none _).1 hbelow e ((hmem e).2 he)
        · obtain ⟨he, hle, hmax⟩ := (OrderedMap.below_eq_some _).1 hbelow
          exact .module e hin hn ((hmem e).1 he) hle fun f hf => hmax f ((hmem f).2 hf)

/-! ## In the memory view -/

/-- An address in a section of a core file is looked up there. -/
theorem finds_section {cores : List CoreFile} {v : MemoryView} (hv : MemoryView.new.load_cores cores = .ok v) (hapart : MemoryView.Apart cores)
    {core : CoreFile} (hcore : core ∈ cores) {sect : Section} (hsect : sect ∈ core.sections) (hload : sect.loadable = true) {vma : UInt64}
    (hvma : sect.Contains vma) : v.Finds vma ⟨core, sect⟩ := by
  have hanswers := (MemoryView.listed_load_cores hv).answers ((MemoryView.apart_iff hv).2 hapart) vma
  apply hanswers.2.2 _ _ hvma
  have he := (MemoryView.mem_load_cores hv (sect.vma, ⟨core, sect⟩)).2 (.inr ⟨core, hcore, sect, hsect, hload, rfl⟩)
  exact List.mem_map_of_mem he

section Views
variable {syms : List Kallsym} {version : List Char} {kmods : Name → Except Exit ObjStore} {modules : List ModuleDir} {k : Kcore} {obj : ObjFile}
  {id : Nat} {store : ObjStore} {cores : List CoreFile} {v : MemoryView} {sect : Section} {vma : UInt64}

/-- Once the kernel's symbols are read, the label of an address in its core file is the symbol with the nearest address, and of those there the
last global one, or else the last one. -/
theorem kernel_labels (hplain : ∀ s ∈ syms, s.Plain) (hk : linux_kcore (some (kallsyms_text syms)) version kmods modules = .ok k)
    (hv : MemoryView.new.load_cores cores = .ok v) (hapart : MemoryView.Apart cores) (hcore : k.core_file obj id store ∈ cores)
    (hsect : sect ∈ obj.sections) (hload : sect.loadable = true) (hvma : sect.Contains vma) : LabelOf syms vma (v.query_label vma) := by
  obtain ⟨_, _, _, syms', _, _, _, hopen⟩ := linux_kcore_opened hk
  cases (lists_text hplain).unique hopen.lists
  rw [(finds_section hv hapart hcore hsect hload hvma).2.2]
  exact hopen.label vma

/-- Two symbols at one address, between the start and the end of a kernel. -/
def kernel_syms : List Kallsym :=
  [⟨0xffffffff80000000, 'T', "_start".toList, none⟩, ⟨0xffffffff80100000, 'B', "_end".toList, none⟩,
    ⟨0xffffffff80001000, 'T', "do_idle".toList, none⟩, ⟨0xffffffff80001000, 't', "idle_loop".toList, none⟩]

def kernel_store : ObjStore := ⟨fun _ => .ok none, fun _ => .ok none, fun _ => .ok none⟩

def kernel_core : CoreFile := sample_core 0 [sample_section "load1" 0xffffffff00000000 0x90000000 0x1000] rfl

def kernel_modules : List ModuleDir := [⟨"ext4".toList, some [(".text".toList, "0xffffffff02000000".toList), (".init.text".toList, "0x0".toList)]⟩]

theorem kernel_syms_plain : ∀ s ∈ kernel_syms, s.Plain := by
  intro s hs
  have hall : ∀ s ∈ kernel_syms, (s.type ≠ ' ' ∧ s.type ≠ '\n' ∧ s.type ≠ NUL) ∧ (∀ c ∈ s.sym, c ≠ '\t' ∧ c ≠ '\n' ∧ c ≠ NUL) ∧
      s.mod = none := by simp [kernel_syms, NUL]
  obtain ⟨htype, hsym, hmod⟩ := hall s hs
  exact ⟨htype, hsym, fun m hm => by rw [hmod] at hm; cases hm⟩

theorem kernel_view (k : Kcore) : ∃ v, MemoryView.new.load_cores [k.core_file kernel_core.toObjFile 0 kernel_store] = .ok v ∧
    MemoryView.Apart [k.core_file kernel_core.toObjFile 0 kernel_store] := by
  refine ⟨_, rfl, ?_⟩
  intro c hc s hs _ c' hc' s' hs' _ hlt
  rw [List.mem_singleton.1 hc] at hs
  rw [List.mem_singleton.1 hc'] at hs'
  rw [List.mem_singleton.1 hs, List.mem_singleton.1 hs'] at hlt
  exact absurd hlt (UInt64.lt_irrefl _)

theorem kernel_opens : ∃ k, linux_kcore (some (kallsyms_text kernel_syms)) "Linux version 6.6 gcc".toList (fun _ => .ok kernel_store) kernel_modules =
    .ok k :=
  (kernel_opens_iff kernel_syms_plain _ _ _).2 ⟨by decide, by decide, ⟨_, kernel_store, none, rfl, rfl, rfl⟩, by decide⟩

theorem kernel_labels_two : ∃ v : MemoryView, LabelOf kernel_syms 0xffffffff80001010 (v.query_label 0xffffffff80001010) := by
  obtain ⟨k, hk⟩ := kernel_opens
  obtain ⟨v, hv, hapart⟩ := kernel_view k
  refine ⟨v, kernel_labels kernel_syms_plain hk hv hapart List.mem_cons_self List.mem_cons_self rfl ?_⟩
  unfold Section.Contains
  decide

/-- What `query_sym` makes of a file, a section in it and an address there: the debug file of that name, or else the file itself. -/
def Resolves (v : MemoryView) (core : CoreFile) (file : Option Name × Option Name × UInt64)
    (r : Except Exit ((Option ObjFile × Option Name × UInt64) × MemoryView)) : Prop :=
  (file.1 = none → r = .ok (no_map_or_sym, v)) ∧
  ∀ filename, file.1 = some filename →
    (∀ e, v.backed_file core filename = .error e → r = .error e) ∧
    ∀ bin dbg v', v.backed_file core filename = .ok ((bin, dbg), v') →
      r = .ok (if dbg.or bin = none then no_map_or_sym else (dbg.or bin, file.2), v')

theorem kernel_files (hplain : ∀ s ∈ syms, s.Plain) (hk : linux_kcore (some (kallsyms_text syms)) version kmods modules = .ok k)
    (hv : MemoryView.new.load_cores cores = .ok v) (hapart : MemoryView.Apart cores) (hcore : k.core_file obj id store ∈ cores)
    (hsect : sect ∈ obj.sections) (hload : sect.loadable = true) (hvma : sect.Contains vma) :
    ∃ ver kmods_store vmlinux file, parse_kernel_ver version = .ok ver ∧ kmods ver.1 = .ok kmods_store ∧
      kmods_store.get "kernel".toList = .ok vmlinux ∧ FileOf syms vmlinux modules vma file ∧
      Resolves v (k.core_file obj id store) file (v.query_sym vma) := by
  obtain ⟨ver, kmods_store, vmlinux, syms', hver, hstore, hget, hopen⟩ := linux_kcore_opened hk
  cases (lists_text hplain).unique hopen.lists
  refine ⟨ver, kmods_store, vmlinux, k.get_file_vma vma, hver, hstore, hget, hopen.file vma, ?_⟩
  rw [(finds_section hv hapart hcore hsect hload hvma).2.1]
  unfold MemoryView.symbol_in
  dsimp only [Kcore.core_file]
  rw [Option.none_or]
  constructor
  · intro hnone
    rw [hnone]
  · intro filename hname
    rw [hname]
    dsimp only
    constructor
    · intro e he
      rw [he]
    · intro bin dbg v' hbacked
      rw [hbacked]
      cases bin <;> cases dbg <;> rfl

theorem kernel_files_two : ∃ (k : Kcore) (v : MemoryView) (file : Option Name × Option Name × UInt64),
    FileOf kernel_syms none kernel_modules 0xffffffff02000010 file ∧
    Resolves v (k.core_file kernel_core.toObjFile 0 kernel_store) file (v.query_sym 0xffffffff02000010) := by
  obtain ⟨k, hk⟩ := kernel_opens
  obtain ⟨v, hv, hapart⟩ := kernel_view k
  have hvma : (sample_section "load1" 0xffffffff00000000 0x90000000 0x1000).Contains 0xffffffff02000010 := by
    unfold Section.Contains
    decide
  obtain ⟨ver, store, vmlinux, file, hver, hstore, hget, hfile, hres⟩ :=
    kernel_files kernel_syms_plain hk hv hapart List.mem_cons_self List.mem_cons_self rfl hvma
  cases hstore
  cases hget
  exact ⟨k, v, file, hfile, hres⟩

end Views

end nexusrv
