import Mathlib.Data.List.Nodup
import NexusRv.Vm
/-!
# The mappings of a Linux core file

`linux.cpp`: the note with the mapped files of a process, a table of entries with the file
names behind it. The table is read in place; a read outside of the note is `none` here.
-/

namespace nexusrv

open OrderedMap

/-! ## The code -/

/-- The types that `linux_ucore_mapping` is instantiated with. -/
inductive INTTYPE where
  | uint32_t
  | uint64_t
deriving DecidableEq

namespace INTTYPE

def size : INTTYPE → Nat
  | uint32_t => 4
  | uint64_t => 8

/-- `sizeof(*mapping)`: `count` and `page_size`. -/
def sizeof_mapping (T : INTTYPE) : Nat := 2 * T.size

/-- `sizeof(mapping->files[0])`: `start`, `end` and `file_ofs`. -/
def sizeof_file (T : INTTYPE) : Nat := 3 * T.size

def wrap (T : INTTYPE) (n : Nat) : Nat := n % 2 ^ (8 * T.size)

end INTTYPE

/-- What the bytes of a vector spell on a little-endian machine. -/
def little_endian : List UInt8 → Nat
  | [] => 0
  | b :: bs => b.toNat + 256 * little_endian bs

/-- The content of a section in a `vector<uint8_t>`. -/
structure SecData where
  bytes : List UInt8
  size_lt : bytes.length < 2 ^ 64

namespace SecData

def size (sec_data : SecData) : Nat := sec_data.bytes.length

/-- The value at an offset; the read has to be inside. -/
def read (sec_data : SecData) (T : INTTYPE) (off : Nat) : Option Nat :=
  if off + T.size ≤ sec_data.size then some (little_endian ((sec_data.bytes.drop off).take T.size)) else none

/-- `files[i]`. -/
def file (sec_data : SecData) (T : INTTYPE) (i : Nat) : Option (Nat × Nat × Nat) := do
  let off := T.sizeof_mapping + T.sizeof_file * i
  let start ← sec_data.read T off
  let end_ ← sec_data.read T (off + T.size)
  let file_ofs ← sec_data.read T (off + 2 * T.size)
  pure (start, end_, file_ofs)

/-- `find` with a null byte up to the end; the search has to start inside or at the end. -/
def find_nul (sec_data : SecData) (filenames : Nat) : Option Nat :=
  if filenames ≤ sec_data.size then some (filenames + (sec_data.bytes.drop filenames).findIdx (· = 0)) else none

end SecData

structure FileBacking where
  start : UInt64
  size : UInt64
  file_offset : UInt64
  filename : Option (List UInt8)

structure Ucore where
  file_names : List (List UInt8)
  mmap_backing : OrderedMap UInt64 FileBacking

def Ucore.empty : Ucore := ⟨[], .empty⟩

/-- A C string as text. -/
def text_of (bytes : List UInt8) : Name := bytes.map fun b => Char.ofNat b.toNat

/-- The loop of `parse_ucore_metadata`, with `n` entries to go. -/
def parse_files (T : INTTYPE) (sec_data : SecData) (page_size : Nat) :
    Nat → Nat → Nat → Ucore → Option (Except Exit Ucore)
  | 0, _, _, core => some (.ok core)
  | n + 1, i, filenames, core =>
    match sec_data.file T i with
    | none => none
    | some (start, end_, file_ofs) =>
      let backing : FileBacking := ⟨.ofNat start, .ofNat (T.wrap (2 ^ (8 * T.size) + end_ - start)),
        .ofNat (T.wrap (file_ofs * page_size)), none⟩
      match core.mmap_backing.emplace (.ofNat start, backing) with
      | .error it =>
        -- the message prints the file name of the entry that is there
        match it.2.filename with
        | none => none
        | some filename => some (.error (.error ("duplicate file backed mmap at ".toList
            ++ Nat.toDigits 16 it.1.toNat ++ " filename ".toList ++ text_of filename)))
      | .ok mmap_backing =>
        match sec_data.find_nul filenames with
        | none => none
        | some nullbyte =>
          if nullbyte = sec_data.size then some (.error (.error "Can not find next file name".toList))
          else
            let filename := (sec_data.bytes.drop filenames).take (nullbyte - filenames)
            parse_files T sec_data page_size n (i + 1) (nullbyte + 1)
              ⟨core.file_names.insert filename,
                mmap_backing.modify (.ofNat start) fun b => { b with filename := some filename }⟩

/-- `parse_ucore_metadata` on a new core; `size_t` has 64 bits. -/
def parse_ucore_metadata (T : INTTYPE) (sec_data : SecData) : Option (Except Exit Ucore) :=
  if sec_data.size < T.sizeof_mapping then some (.error (.error ".note.linuxcore.file too short".toList))
  else
    match sec_data.read T 0, sec_data.read T T.size with
    | some count, some page_size =>
      let files_end := (T.sizeof_mapping + T.sizeof_file * count) % 2 ^ 64
      if sec_data.size < files_end then some (.error (.error ".note.linuxcore.file too short".toList))
      else parse_files T sec_data page_size count 0 files_end .empty
    | _, _ => none

/-- `bfd_get_mach`. -/
inductive March where
  | riscv32
  | riscv64
  | other (march : Nat)

/-- The constructor of `linux_ucore`, with what BFD says of the section: that there is none, or
that it cannot be read, or its content. -/
def linux_ucore (section_data : Option (Option SecData)) (march : March) : Option (Except Exit Ucore) :=
  match section_data with
  | none => some (.error (.error "section .note.linuxcore.file not found".toList))
  | some none => some (.error (.error "failed to get section data".toList))
  | some (some sec_data) =>
    match march with
    | .riscv32 => parse_ucore_metadata .uint32_t sec_data
    | .riscv64 => parse_ucore_metadata .uint64_t sec_data
    | .other march => some (.error (.error ("unknown march ".toList ++ Nat.toDigits 10 march)))

def Ucore.get_file_backing (core : Ucore) (vma : UInt64) : Option (List UInt8) × UInt64 :=
  match nearest FileBacking.size core.mmap_backing vma with
  | none => (none, 0)
  | some it => (it.2.filename, vma - it.1 + it.2.file_offset)

/-! ## Reads -/

namespace SecData

variable {sec_data : SecData} {T : INTTYPE}

/-- How many entries of the table fit into the section. -/
def fitting (sec_data : SecData) (T : INTTYPE) : Nat := (sec_data.size - T.sizeof_mapping) / T.sizeof_file

/-- The start address of an entry that fits. -/
def start (sec_data : SecData) (T : INTTYPE) (i : Nat) : UInt64 :=
  .ofNat (little_endian ((sec_data.bytes.drop (T.sizeof_mapping + T.sizeof_file * i)).take T.size))

/-- The start addresses of `n` entries from `files[i]` on. -/
def starts (sec_data : SecData) (T : INTTYPE) (i n : Nat) : List UInt64 := (List.range' i n).map (sec_data.start T)

theorem read_of_le {off : Nat} (h : off + T.size ≤ sec_data.size) :
    sec_data.read T off = some (little_endian ((sec_data.bytes.drop off).take T.size)) := if_pos h

theorem lt_fitting {i : Nat} (h : T.sizeof_mapping ≤ sec_data.size) :
    i < sec_data.fitting T ↔ T.sizeof_mapping + T.sizeof_file * (i + 1) ≤ sec_data.size := by
  have h3 : 0 < T.sizeof_file := by cases T <;> decide
  unfold fitting
  rw [← Nat.succ_le_iff, Nat.succ_eq_add_one, Nat.le_div_iff_mul_le h3, Nat.mul_comm]
  omega

theorem file_of_fits {i : Nat} (h : T.sizeof_mapping + T.sizeof_file * (i + 1) ≤ sec_data.size) :
    ∃ n e o, sec_data.file T i = some (n, e, o) ∧ UInt64.ofNat n = sec_data.start T i := by
  have hsize : T.sizeof_file = 3 * T.size := rfl
  rw [Nat.mul_add, Nat.mul_one] at h
  unfold file
  simp only [read_of_le (show T.sizeof_mapping + T.sizeof_file * i + T.size ≤ sec_data.size by omega),
    read_of_le (show T.sizeof_mapping + T.sizeof_file * i + T.size + T.size ≤ sec_data.size by omega),
    read_of_le (show T.sizeof_mapping + T.sizeof_file * i + 2 * T.size + T.size ≤ sec_data.size by omega)]
  exact ⟨_, _, _, rfl, rfl⟩

theorem file_outside {i : Nat} (h : ¬ T.sizeof_mapping + T.sizeof_file * (i + 1) ≤ sec_data.size) :
    sec_data.file T i = none := by
  have hsize : T.sizeof_file = 3 * T.size := rfl
  rw [Nat.mul_add, Nat.mul_one] at h
  have hlast : sec_data.read T (T.sizeof_mapping + T.sizeof_file * i + 2 * T.size) = none := if_neg (by omega)
  unfold file
  cases h₁ : sec_data.read T (T.sizeof_mapping + T.sizeof_file * i) with
  | none => simp [h₁]
  | some start =>
    cases h₂ : sec_data.read T (T.sizeof_mapping + T.sizeof_file * i + T.size) with
    | none => simp [h₁, h₂]
    | some end_ => simp [h₁, h₂, hlast]

theorem starts_succ (i n : Nat) : sec_data.starts T i (n + 1) = sec_data.start T i :: sec_data.starts T (i + 1) n := rfl

/-- The null bytes from an offset on. -/
def nuls (sec_data : SecData) (off : Nat) : Nat := (sec_data.bytes.drop off).count 0

end SecData

theorem count_of_findIdx {l : List UInt8} (h : l.findIdx (fun b => decide (b = 0)) = l.length) : l.count 0 = 0 := by
  rw [List.count_eq_zero]
  intro h0
  have hlt := List.findIdx_lt_length_of_exists (p := fun b : UInt8 => decide (b = 0)) ⟨0, h0, by decide⟩
  omega

theorem count_drop_findIdx {l : List UInt8} (h : l.findIdx (· = 0) < l.length) :
    l.count 0 = (l.drop (l.findIdx (· = 0) + 1)).count 0 + 1 := by
  induction l with
  | nil => simp at h
  | cons b l ih =>
    by_cases hb : b = 0
    · subst hb
      simp [List.findIdx_cons]
    · have hidx : (b :: l).findIdx (· = 0) = l.findIdx (· = 0) + 1 := by simp [List.findIdx_cons, hb]
      rw [hidx] at h ⊢
      rw [List.drop_succ_cons, List.count_cons_of_ne hb]
      exact ih (by simpa using h)

/-- Every mapping has its file name: the next entry finds the map so. -/
def Ucore.Named (core : Ucore) : Prop := ∀ e ∈ core.mmap_backing.entries, e.2.filename ≠ none

/-- The start addresses are new, one by one. -/
def Ucore.New (core : Ucore) (starts : List UInt64) : Prop :=
  starts.Nodup ∧ ∀ x ∈ starts, x ∉ core.mmap_backing.keys

/-- The core after an entry with its name. -/
def Ucore.with_file (core : Ucore) (mmap_backing : OrderedMap UInt64 FileBacking) (start : UInt64) (filename : List UInt8) : Ucore :=
  ⟨core.file_names.insert filename, mmap_backing.modify start fun b => { b with filename := some filename }⟩

section WithFile
variable {core : Ucore} {m : OrderedMap UInt64 FileBacking} {x : UInt64} {b : FileBacking} {filename : List UInt8}

theorem named_with_file (hcore : core.Named) (h : core.mmap_backing.emplace (x, b) = .ok m) : (core.with_file m x filename).Named := by
  intro g hg
  obtain ⟨e, he, rfl⟩ := mem_modify.1 hg
  split
  · simp
  · rename_i hx
    rcases ((emplace_eq_ok h).2 e).1 he with rfl | he
    · exact absurd rfl hx
    · exact hcore e he

theorem new_cons_iff {starts : List UInt64} (h : core.mmap_backing.emplace (x, b) = .ok m) :
    core.New (x :: starts) ↔ (core.with_file m x filename).New starts := by
  obtain ⟨hx, hkeys⟩ := keys_emplace h
  unfold Ucore.New Ucore.with_file
  simp only [keys_modify, hkeys, not_or, List.nodup_cons, List.forall_mem_cons]
  constructor
  · rintro ⟨⟨hnot, hnodup⟩, -, hnew⟩
    exact ⟨hnodup, fun y hy => ⟨fun hyx => hnot (hyx ▸ hy), hnew y hy⟩⟩
  · rintro ⟨hnodup, hnew⟩
    exact ⟨⟨fun hmem => (hnew x hmem).1 rfl, hnodup⟩, hx, fun y hy => (hnew y hy).2⟩

end WithFile

/-- The loop reads outside of the section exactly when it comes to the first entry that does not
fit: the `r` entries before it have new start addresses, and there are names for them. -/
theorem parse_files_outside {T : INTTYPE} {sec_data : SecData} {page_size : Nat} (hhead : T.sizeof_mapping ≤ sec_data.size) (n : Nat) :
    ∀ {i r filenames : Nat} {core : Ucore}, i + r = sec_data.fitting T → filenames ≤ sec_data.size → core.Named →
      (parse_files T sec_data page_size n i filenames core = none ↔
        r < n ∧ core.New (sec_data.starts T i r) ∧ r ≤ sec_data.nuls filenames) := by
  induction n with
  | zero =>
    intro i r filenames core _ _ _
    simp [parse_files]
  | succ n ih =>
    intro i r filenames core hi hf hcore
    cases r with
    | zero =>
      -- the entry is behind the last that fits
      have hout : sec_data.file T i = none := SecData.file_outside fun hfit => by
        have := (SecData.lt_fitting hhead).2 hfit
        omega
      simp [parse_files, hout, Ucore.New, SecData.starts]
    | succ r =>
      obtain ⟨start, end_, file_ofs, hfile, hstart⟩ := SecData.file_of_fits ((SecData.lt_fitting hhead).1 (show i < sec_data.fitting T by omega))
      unfold parse_files
      rw [hfile]
      simp only [hstart, SecData.starts_succ]
      cases hemp : core.mmap_backing.emplace (sec_data.start T i,
          ⟨sec_data.start T i, .ofNat (T.wrap (2 ^ (8 * T.size) + end_ - start)), .ofNat (T.wrap (file_ofs * page_size)), none⟩) with
      | error it =>
        obtain ⟨hit, hkey⟩ := emplace_eq_error.1 hemp
        have hold : ¬ core.New (sec_data.start T i :: sec_data.starts T (i + 1) r) := fun h =>
          h.2 _ List.mem_cons_self (List.mem_map.2 ⟨it, hit, hkey⟩)
        cases hname : it.2.filename with
        | none => exact absurd hname (hcore it hit)
        | some filename => simp [hname, hold]
      | ok m =>
        have hfind : sec_data.find_nul filenames = some (filenames + (sec_data.bytes.drop filenames).findIdx (· = 0)) := if_pos hf
        have hlen : (sec_data.bytes.drop filenames).length = sec_data.size - filenames := List.length_drop
        simp only [hfind]
        by_cases hend : filenames + (sec_data.bytes.drop filenames).findIdx (· = 0) = sec_data.size
        · have h0 : sec_data.nuls filenames = 0 := count_of_findIdx (by omega)
          simp [hend, h0]
        · have hle : (sec_data.bytes.drop filenames).findIdx (fun b => decide (b = 0)) ≤ (sec_data.bytes.drop filenames).length :=
            List.findIdx_le_length
          have hnuls : sec_data.nuls filenames = sec_data.nuls (filenames + (sec_data.bytes.drop filenames).findIdx (· = 0) + 1) + 1 := by
            unfold SecData.nuls
            rw [count_drop_findIdx (by omega), List.drop_drop, Nat.add_assoc]
          rw [if_neg hend, hnuls, new_cons_iff hemp, Nat.add_lt_add_iff_right, Nat.add_le_add_iff_right]
          exact ih (by omega) (by omega) (named_with_file hcore hemp)

/-- A run of the loop that comes back has read the entries `files[i]` to `files[i + n - 1]`, and
has a file name for each. -/
theorem parse_files_ok {T : INTTYPE} {sec_data : SecData} {page_size : Nat} (n : Nat) :
    ∀ {i filenames : Nat} {core core' : Ucore}, parse_files T sec_data page_size n i filenames core = some (.ok core') →
      core.Named → core'.Named ∧ ∀ k, k ∈ core'.mmap_backing.keys ↔ k ∈ core.mmap_backing.keys ∨ k ∈ sec_data.starts T i n := by
  induction n with
  | zero =>
    intro i filenames core core' h hcore
    cases h
    simp [hcore, SecData.starts]
  | succ n ih =>
    intro i filenames core core' h hcore
    have hfits : T.sizeof_mapping + T.sizeof_file * (i + 1) ≤ sec_data.size := by
      by_contra hout
      unfold parse_files at h
      rw [SecData.file_outside hout] at h
      cases h
    obtain ⟨start, end_, file_ofs, hfile, hstart⟩ := SecData.file_of_fits hfits
    unfold parse_files at h
    rw [hfile] at h
    simp only [hstart] at h
    split at h
    · split at h <;> cases h
    · rename_i m hemp
      split at h
      · cases h
      · rename_i nullbyte _
        split at h
        · cases h
        · obtain ⟨hnamed, hkeys⟩ := ih h (named_with_file hcore hemp)
          refine ⟨hnamed, ?_⟩
          intro k
          rw [hkeys k, keys_modify, (keys_emplace hemp).2 k, SecData.starts_succ, List.mem_cons]
          tauto

/-! ## The size check -/

namespace SecData

variable {sec_data : SecData} {T : INTTYPE}

/-- `mapping->count`. -/
def count (sec_data : SecData) (T : INTTYPE) : Nat := little_endian (sec_data.bytes.take T.size)

/-- The end of the table. -/
def files_end (sec_data : SecData) (T : INTTYPE) : Nat := T.sizeof_mapping + T.sizeof_file * sec_data.count T

/-- When the check passes, the table is outside of the section exactly when its size has wrapped around. -/
theorem table_outside_iff (hhead : T.sizeof_mapping ≤ sec_data.size) (hcheck : sec_data.files_end T % 2 ^ 64 ≤ sec_data.size) :
    sec_data.fitting T < sec_data.count T ↔ 2 ^ 64 ≤ sec_data.files_end T := by
  have hsize : sec_data.size < 2 ^ 64 := sec_data.size_lt
  have hfits : sec_data.count T ≤ sec_data.fitting T ↔ sec_data.files_end T ≤ sec_data.size := by
    unfold files_end
    cases hcount : sec_data.count T with
    | zero => simpa using hhead
    | succ n => exact lt_fitting hhead
  rw [← not_le, hfits, not_le]
  constructor
  · intro h
    by_contra hlt
    rw [Nat.mod_eq_of_lt (by omega)] at hcheck
    omega
  · intro h
    omega

end SecData

theorem parse_outside_iff (T : INTTYPE) (sec_data : SecData) :
    parse_ucore_metadata T sec_data = none ↔ T.sizeof_mapping ≤ sec_data.size ∧ sec_data.files_end T % 2 ^ 64 ≤ sec_data.size ∧
      2 ^ 64 ≤ sec_data.files_end T ∧ (sec_data.starts T 0 (sec_data.fitting T)).Nodup ∧
      sec_data.fitting T ≤ sec_data.nuls (sec_data.files_end T % 2 ^ 64) := by
  unfold parse_ucore_metadata
  by_cases hhead : sec_data.size < T.sizeof_mapping
  · rw [if_pos hhead]
    constructor
    · intro h
      cases h
    · rintro ⟨h, -⟩
      omega
  · have hsize : T.sizeof_mapping = 2 * T.size := rfl
    have hcount : sec_data.read T 0 = some (sec_data.count T) := SecData.read_of_le (by omega)
    rw [if_neg hhead, hcount, SecData.read_of_le (show T.size + T.size ≤ sec_data.size by omega)]
    change (if sec_data.size < sec_data.files_end T % 2 ^ 64 then _ else
      parse_files T sec_data _ (sec_data.count T) 0 (sec_data.files_end T % 2 ^ 64) .empty) = none ↔ _
    by_cases hcheck : sec_data.size < sec_data.files_end T % 2 ^ 64
    · rw [if_pos hcheck]
      constructor
      · intro h
        cases h
      · rintro ⟨-, h, -⟩
        omega
    · have hnew : Ucore.empty.New (sec_data.starts T 0 (sec_data.fitting T)) ↔ (sec_data.starts T 0 (sec_data.fitting T)).Nodup := by
        simp [Ucore.New, Ucore.empty, OrderedMap.empty, keys]
      rw [if_neg hcheck, parse_files_outside (by omega) (sec_data.count T) (Nat.zero_add _) (by omega) (by intro e he; cases he),
        SecData.table_outside_iff (by omega) (by omega), hnew]
      constructor
      · rintro ⟨hwrap, hnodup, hnuls⟩
        exact ⟨by omega, by omega, hwrap, hnodup, hnuls⟩
      · rintro ⟨-, -, hwrap, hnodup, hnuls⟩
        exact ⟨hwrap, hnodup, hnuls⟩

/-- A core that comes back has exactly the mappings of `files[0]` to `files[count - 1]`, with their names. -/
theorem parse_ok {T : INTTYPE} {sec_data : SecData} {core : Ucore} (h : parse_ucore_metadata T sec_data = some (.ok core)) :
    core.Named ∧ ∀ k, k ∈ core.mmap_backing.keys ↔ k ∈ sec_data.starts T 0 (sec_data.count T) := by
  unfold parse_ucore_metadata at h
  split at h
  · cases h
  split at h
  · rename_i hhead _ _ count page_size hcount _
    have hsize : T.sizeof_mapping = 2 * T.size := rfl
    rw [SecData.read_of_le (show 0 + T.size ≤ sec_data.size by omega)] at hcount
    cases hcount
    dsimp only at h
    split at h
    · cases h
    · obtain ⟨hnamed, hkeys⟩ := parse_files_ok _ h (by intro e he; cases he)
      refine ⟨hnamed, ?_⟩
      intro k
      rw [hkeys k]
      simp [Ucore.empty, OrderedMap.empty, keys, SecData.count]
  · cases h

/-- `get_file_backing` gives no file name only where no mapping is. -/
theorem get_file_backing_none {section_data : Option (Option SecData)} {march : March} {core : Ucore}
    (h : linux_ucore section_data march = some (.ok core)) (vma : UInt64) :
    (core.get_file_backing vma).1 = none ↔ nearest FileBacking.size core.mmap_backing vma = none := by
  have hnamed : core.Named := by
    unfold linux_ucore at h
    split at h
    · cases h
    · cases h
    · split at h
      · exact (parse_ok h).1
      · exact (parse_ok h).1
      · cases h
  unfold Ucore.get_file_backing
  cases hn : nearest FileBacking.size core.mmap_backing vma with
  | none => simp
  | some it =>
    rw [nearest_eq_locate, locate_eq_some] at hn
    have hit := (core.mmap_backing.below_eq_some.1 hn.1).1
    simp [hnamed it hit]

theorem little_endian_lt (bs : List UInt8) : little_endian bs < 256 ^ bs.length := by
  induction bs with
  | nil => simp [little_endian]
  | cons b bs ih =>
    have hb : b.toNat < 256 := b.toNat_lt
    rw [little_endian, List.length_cons, Nat.pow_succ]
    omega

/-- The size of a table with 32-bit entries does not wrap around. -/
theorem files_end_uint32 (sec_data : SecData) : sec_data.files_end .uint32_t < 2 ^ 64 := by
  have hlt := little_endian_lt (sec_data.bytes.take 4)
  have hle : (256 : Nat) ^ (sec_data.bytes.take 4).length ≤ 256 ^ 4 := Nat.pow_le_pow_right (by decide) (List.length_take_le _ _)
  have hend : sec_data.files_end .uint32_t = 8 + 12 * little_endian (sec_data.bytes.take 4) := rfl
  omega

theorem uint32_in_bounds (sec_data : SecData) : parse_ucore_metadata .uint32_t sec_data ≠ none := by
  intro h
  have hwrap := ((parse_outside_iff _ _).1 h).2.2.1
  have := files_end_uint32 sec_data
  omega

/-- `parse_ucore_metadata` reads inside of the section only, unless the size of the table wraps
around, the wrapped size passes the check, and no error comes up in the entries that fit. -/
theorem parse_in_bounds_iff (T : INTTYPE) (sec_data : SecData) :
    parse_ucore_metadata T sec_data ≠ none ↔ sec_data.files_end T < 2 ^ 64 ∨ sec_data.size < T.sizeof_mapping ∨
      sec_data.size < sec_data.files_end T % 2 ^ 64 ∨ ¬ (sec_data.starts T 0 (sec_data.fitting T)).Nodup ∨
      sec_data.nuls (sec_data.files_end T % 2 ^ 64) < sec_data.fitting T := by
  rw [Ne, parse_outside_iff]
  simp only [not_and_or, not_le]
  tauto

/-- A section of 16 bytes that says it has 2 ^ 61 entries. -/
def wrapping_section : SecData := ⟨[0, 0, 0, 0, 0, 0, 0, 0x20, 0, 16, 0, 0, 0, 0, 0, 0], by decide⟩

/-- Twenty-four times 2 ^ 61 is 0 in a machine word. -/
theorem wrapped_check_passes : ¬ ∀ (T : INTTYPE) (sec_data : SecData), parse_ucore_metadata T sec_data ≠ none := by
  intro hall
  apply hall .uint64_t wrapping_section
  rw [parse_outside_iff]
  decide +kernel

end nexusrv
