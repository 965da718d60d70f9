import Mathlib.Data.UInt
import NexusRv.Lib.OrderedMap
/-!
# The memory view

`objfile.cpp` lists the sections of a file that are loaded, `vm.cpp` collects those of all
core files and looks an address up in the section with the nearest start. What the two
leave to the BFD library is a field of `ObjFile`; the virtual functions of a core file are
fields of `CoreFile`.
-/

namespace nexusrv

open OrderedMap

/-! ## The code -/

abbrev Name := List Char

/-- How the program ends itself: `error` with its text, or a failed assertion. -/
inductive Exit where
  | error (text : Name)
  | assert
deriving DecidableEq

/-- What is read of a `bfd_section`. -/
structure Section where
  name : Name
  SEC_LOAD : Bool
  SEC_ALLOC : Bool
  vma : UInt64
  size : UInt64
  rawsize : UInt64
  filepos : UInt64
deriving DecidableEq

structure SectionMaps where
  sect_by_vma : OrderedMap UInt64 Section
  sect_by_fileoff : OrderedMap UInt64 Section

/-- One call of the function that the constructor of `obj_file` maps over the sections. -/
def add_section (maps : SectionMaps) (sect : Section) : Except Exit SectionMaps :=
  if sect.size = 0 then .ok maps
  else if !(sect.SEC_LOAD && sect.SEC_ALLOC) then .ok maps
  else if ".note.".toList.isPrefixOf sect.name then .ok maps
  else match maps.sect_by_vma.emplace (sect.vma, sect) with
    | .error old => .error (.error ("vma overlapping section ".toList ++ old.2.name ++ " vs. ".toList ++ sect.name))
    | .ok by_vma =>
      match maps.sect_by_fileoff.emplace (sect.filepos, sect) with
      | .error old => .error (.error ("filepos overlapping section ".toList ++ old.2.name ++ " vs. ".toList ++ sect.name))
      | .ok by_fileoff => .ok ⟨by_vma, by_fileoff⟩

def map_over_sections (maps : SectionMaps) : List Section → Except Exit SectionMaps
  | [] => .ok maps
  | sect :: sections =>
    match add_section maps sect with
    | .error e => .error e
    | .ok maps => map_over_sections maps sections

/-- A file that the constructor has opened. `bfd_mmap` says where the section at an offset is
mapped, if it can be, and `get_build_id` what reading the note of that name gives. -/
structure ObjFile where
  filename : Name
  sections : List Section
  maps : SectionMaps
  opened : map_over_sections ⟨.empty, .empty⟩ sections = .ok maps
  bfd_mmap : UInt64 → Option UInt64
  get_build_id : Except Exit (Option (List UInt8))

/-- The entry before `upper_bound(k)`, unless `k` is behind its end. -/
def nearest {α : Type} (size : α → UInt64) (m : OrderedMap UInt64 α) (k : UInt64) : Option (UInt64 × α) :=
  match m.below k with
  | none => none
  | some e => if k - e.1 ≥ size e.2 then none else some e

namespace ObjFile

def mmap (obj : ObjFile) (fileoff : UInt64) : Except Exit (Option UInt64 × UInt64) :=
  match obj.maps.sect_by_fileoff.find fileoff with
  | none => .error (.error ("fileoff ".toList ++ Nat.toDigits 16 fileoff.toNat ++ "not found".toList))
  | some (_, asection) =>
    let sz := if asection.rawsize = 0 then asection.size else asection.rawsize
    if sz = 0 then .error .assert
    else match obj.bfd_mmap fileoff with
      | none => .ok (none, 0)
      | some addr => .ok (some addr, sz)

def fileoff_to_va (obj : ObjFile) (offset : UInt64) : UInt64 :=
  match nearest Section.size obj.maps.sect_by_fileoff offset with
  | none => 0
  | some e => offset - e.1 + e.2.vma

end ObjFile

structure ObjStore where
  get : Name → Except Exit (Option ObjFile)
  get_dbg : Name → Except Exit (Option ObjFile)
  get_dbg_buildid : List UInt8 → Except Exit (Option ObjFile)

/-- A core file behind its `shared_ptr`, which `id` stands for. -/
structure CoreFile extends ObjFile where
  id : Nat
  get_file_backing : UInt64 → Option Name × UInt64
  get_file_vma : UInt64 → Option Name × Option Name × UInt64
  get_label : UInt64 → Option Name × Option Name × UInt64
  obj_store : ObjStore

structure LoadedSection where
  core : CoreFile
  asection : Section

/-- `backed_file_cache` is one list, by core file and file name. -/
structure MemoryView where
  loaded_sections : OrderedMap UInt64 LoadedSection
  backed_file_cache : List ((Nat × Name) × (Option ObjFile × Option ObjFile))

def no_map_or_sym {α β : Type} : Option α × Option β × UInt64 := (none, none, 0)

namespace MemoryView

def new : MemoryView := ⟨.empty, []⟩

def load_core (v : MemoryView) (coredump : CoreFile) : Except Exit MemoryView :=
  match v.loaded_sections.emplaceAll (coredump.maps.sect_by_vma.entries.map fun e => (e.1, ⟨coredump, e.2⟩)) with
  | .error (old, new) => .error (.error ("overlapping section at ".toList ++ Nat.toDigits 16 new.1.toNat ++ " ".toList
      ++ old.2.asection.name ++ " vs ".toList ++ new.2.asection.name))
  | .ok loaded => .ok { v with loaded_sections := loaded }

/-- A sequence of calls of `load_core`. -/
def load_cores (v : MemoryView) : List CoreFile → Except Exit MemoryView
  | [] => .ok v
  | core :: cores =>
    match v.load_core core with
    | .error e => .error e
    | .ok v => v.load_cores cores

/-- The lookup that the three queries start with. -/
def loaded_section (v : MemoryView) (vma : UInt64) : Option (UInt64 × LoadedSection) :=
  nearest (fun s => s.asection.size) v.loaded_sections vma

def try_map (v : MemoryView) (vma : UInt64) : Except Exit (Option UInt64 × UInt64) :=
  match v.loaded_section vma with
  | none => .ok (none, 0)
  | some it =>
    match it.2.core.mmap it.2.asection.filepos with
    | .error e => .error e
    | .ok (none, _) => .error (.error ("failed to map section ".toList ++ it.2.asection.name))
    | .ok (some addr, sz) =>
      if vma - it.1 ≥ sz then .error (.error "trying to map beyond section limit".toList)
      else .ok (some (vma - it.1 + addr), sz - (vma - it.1))

/-- The binary and the debug file of `filename`, from the cache or the store. -/
def backed_file (v : MemoryView) (core : CoreFile) (filename : Name) :
    Except Exit ((Option ObjFile × Option ObjFile) × MemoryView) :=
  match v.backed_file_cache.find? fun e => e.1 = (core.id, filename) with
  | some e => .ok (e.2, v)
  | none => do
    let bin ← core.obj_store.get filename
    let dbg ← match bin with
      | none => pure none
      | some bin => do
        match ← bin.get_build_id with
        | none => pure none
        | some buildid => core.obj_store.get_dbg_buildid buildid
    let dbg ← match dbg with
      | none => core.obj_store.get_dbg filename
      | some dbg => pure (some dbg)
    pure ((bin, dbg), { v with backed_file_cache := ((core.id, filename), (bin, dbg)) :: v.backed_file_cache })

/-- What `query_sym` answers for an address in a section of `core`. -/
def symbol_in (v : MemoryView) (core : CoreFile) (vma : UInt64) :
    Except Exit ((Option ObjFile × Option Name × UInt64) × MemoryView) :=
  let backing := core.get_file_backing vma
  let file := core.get_file_vma vma
  -- the file offset, if there is one
  match backing.1.or file.1 with
  | none => .ok (no_map_or_sym, v)
  | some filename =>
    match v.backed_file core filename with
    | .error e => .error e
    | .ok ((bin, dbg), v) =>
      if backing.1.isSome then
        match bin with
        | none => .ok (no_map_or_sym, v)
        | some b => .ok ((dbg.or bin, none, b.fileoff_to_va backing.2), v)
      else if bin.isNone && dbg.isNone then .ok (no_map_or_sym, v)
      else .ok ((dbg.or bin, file.2.1, file.2.2), v)

def query_sym (v : MemoryView) (vma : UInt64) :
    Except Exit ((Option ObjFile × Option Name × UInt64) × MemoryView) :=
  match v.loaded_section vma with
  | none => .ok (no_map_or_sym, v)
  | some it => v.symbol_in it.2.core vma

def query_label (v : MemoryView) (vma : UInt64) : Option Name × Option Name × UInt64 :=
  match v.loaded_section vma with
  | none => no_map_or_sym
  | some it => it.2.core.get_label vma

end MemoryView

/-! ## The sections of a file -/

/-- The sections that the constructor keeps. -/
def Section.loadable (s : Section) : Bool :=
  decide (s.size ≠ 0) && (s.SEC_LOAD && s.SEC_ALLOC) && !".note.".toList.isPrefixOf s.name

/-- How many bytes of a section the file holds. -/
def Section.stored (s : Section) : UInt64 := if s.rawsize = 0 then s.size else s.rawsize

theorem Section.size_ne {s : Section} (h : s.loadable = true) : s.size ≠ 0 := by
  unfold Section.loadable at h
  simp only [Bool.and_eq_true, decide_eq_true_eq] at h
  exact h.1.1

theorem add_section_spec {maps maps' : SectionMaps} {s : Section} (h : add_section maps s = .ok maps') :
    (∀ e, e ∈ maps'.sect_by_vma.entries ↔ e ∈ maps.sect_by_vma.entries ∨ s.loadable = true ∧ e = (s.vma, s)) ∧
    ∀ e, e ∈ maps'.sect_by_fileoff.entries ↔ e ∈ maps.sect_by_fileoff.entries ∨ s.loadable = true ∧ e = (s.filepos, s) := by
  have hskip : s.loadable = false → maps = maps' →
      (∀ e, e ∈ maps'.sect_by_vma.entries ↔ e ∈ maps.sect_by_vma.entries ∨ s.loadable = true ∧ e = (s.vma, s)) ∧
      ∀ e, e ∈ maps'.sect_by_fileoff.entries ↔ e ∈ maps.sect_by_fileoff.entries ∨ s.loadable = true ∧ e = (s.filepos, s) := by
    rintro hl rfl
    simp [hl]
  unfold add_section at h
  split at h
  · rename_i h0
    exact hskip (by simp [Section.loadable, h0]) (Except.ok.inj h)
  split at h
  · rename_i hf
    exact hskip (by simp only [Bool.not_eq_true'] at hf; simp [Section.loadable, hf]) (Except.ok.inj h)
  split at h
  · rename_i hn
    exact hskip (by simp only [Section.loadable, hn]; simp) (Except.ok.inj h)
  rename_i h0 hf hn
  have hl : s.loadable = true := by
    unfold Section.loadable
    simp only [Bool.not_eq_true', Bool.not_eq_false] at hf
    simp only [hf, Bool.eq_false_of_not_eq_true hn, decide_eq_true h0, Bool.not_false, Bool.and_self, ne_eq]
  split at h
  · cases h
  · rename_i by_vma hvma
    split at h
    · cases h
    · rename_i by_fileoff hfile
      cases h
      constructor
      · intro e
        rw [(emplace_eq_ok hvma).2 e, or_comm]
        simp [hl]
      · intro e
        rw [(emplace_eq_ok hfile).2 e, or_comm]
        simp [hl]

theorem map_over_sections_spec {l : List Section} : ∀ {maps maps' : SectionMaps}, map_over_sections maps l = .ok maps' →
    (∀ e, e ∈ maps'.sect_by_vma.entries ↔ e ∈ maps.sect_by_vma.entries ∨ ∃ s ∈ l, s.loadable = true ∧ e = (s.vma, s)) ∧
    ∀ e, e ∈ maps'.sect_by_fileoff.entries ↔ e ∈ maps.sect_by_fileoff.entries ∨ ∃ s ∈ l, s.loadable = true ∧ e = (s.filepos, s) := by
  induction l with
  | nil =>
    intro maps maps' h
    cases h
    simp
  | cons s l ih =>
    intro maps maps' h
    unfold map_over_sections at h
    split at h
    · cases h
    · rename_i maps₁ h₁
      obtain ⟨hvma, hfile⟩ := ih h
      obtain ⟨hvma₁, hfile₁⟩ := add_section_spec h₁
      constructor
      · intro e
        rw [hvma, hvma₁, List.exists_mem_cons_iff, or_assoc]
      · intro e
        rw [hfile, hfile₁, List.exists_mem_cons_iff, or_assoc]

namespace ObjFile

variable (obj : ObjFile)

theorem mem_sect_by_vma (e : UInt64 × Section) :
    e ∈ obj.maps.sect_by_vma.entries ↔ ∃ s ∈ obj.sections, s.loadable = true ∧ e = (s.vma, s) := by
  rw [(map_over_sections_spec obj.opened).1 e]
  simp [OrderedMap.empty]

theorem mem_sect_by_fileoff (e : UInt64 × Section) :
    e ∈ obj.maps.sect_by_fileoff.entries ↔ ∃ s ∈ obj.sections, s.loadable = true ∧ e = (s.filepos, s) := by
  rw [(map_over_sections_spec obj.opened).2 e]
  simp [OrderedMap.empty]

variable {obj} {s : Section}

/-- `mmap` finds the section it is called for. -/
theorem mmap_filepos (hs : s ∈ obj.sections) (hl : s.loadable = true) :
    obj.mmap s.filepos = match obj.bfd_mmap s.filepos with
      | none => .ok (none, 0)
      | some addr => .ok (some addr, s.stored) := by
  have hfind : obj.maps.sect_by_fileoff.find s.filepos = some (s.filepos, s) :=
    (OrderedMap.find_eq_some _).2 ⟨(obj.mem_sect_by_fileoff _).2 ⟨s, hs, hl, rfl⟩, rfl⟩
  have hstored : s.stored ≠ 0 := by
    unfold Section.stored
    split
    · exact Section.size_ne hl
    · assumption
  unfold mmap
  rw [hfind]
  exact if_neg hstored

end ObjFile

/-! ## The nearest section -/

/-- The range of a section, from its start to where the address space ends at the latest. -/
def Section.Contains (s : Section) (vma : UInt64) : Prop :=
  s.vma.toNat ≤ vma.toNat ∧ vma.toNat < s.vma.toNat + s.size.toNat

section Nearest
variable {α : Type} {size : α → UInt64}

def in_range (size : α → UInt64) (e : UInt64 × α) (k : UInt64) : Bool := decide (e.1 ≤ k) && decide (k - e.1 < size e.2)

theorem in_range_iff {e : UInt64 × α} {k : UInt64} :
    in_range size e k = true ↔ e.1.toNat ≤ k.toNat ∧ k.toNat < e.1.toNat + (size e.2).toNat := by
  unfold in_range
  rw [Bool.and_eq_true, decide_eq_true_eq, decide_eq_true_eq, UInt64.le_iff_toNat_le]
  apply and_congr_right
  intro hle
  rw [UInt64.lt_iff_toNat_lt, UInt64.toNat_sub_of_le _ _ (UInt64.le_iff_toNat_le.2 hle)]
  omega

theorem nearest_eq_locate (m : OrderedMap UInt64 α) (k : UInt64) : nearest size m k = locate (in_range size) m k := by
  unfold nearest locate
  cases h : m.below k with
  | none => rfl
  | some e =>
    have hle : e.1 ≤ k := (m.below_eq_some.1 h).2.1
    simp only [Option.filter_some, in_range, hle, decide_true, Bool.true_and, decide_eq_true_eq, ge_iff_le]
    by_cases hk : k - e.1 < size e.2
    · rw [if_neg (UInt64.not_le.2 hk), if_pos hk]
    · rw [if_pos (UInt64.not_lt.1 hk), if_neg hk]

theorem spans_in_range {m : OrderedMap UInt64 α} (h : ∀ e ∈ m.entries, size e.2 ≠ 0) : Spans (in_range size) m where
  start e he := by
    have hne : (size e.2).toNat ≠ 0 := fun h0 => h e he (UInt64.toNat_inj.1 h0)
    rw [in_range_iff]
    omega
  above e _ k hk := UInt64.le_iff_toNat_le.2 (in_range_iff.1 hk).1
  between e _ j k hj hjk hk := by
    rw [in_range_iff] at hk ⊢
    have hj := UInt64.le_iff_toNat_le.1 hj
    have hjk := UInt64.le_iff_toNat_le.1 hjk
    omega

end Nearest

/-! ## What is loaded -/

namespace MemoryView

def loaded (v : MemoryView) : List LoadedSection := v.loaded_sections.entries.map (·.2)

theorem mem_load_core {v v' : MemoryView} {c : CoreFile} (h : v.load_core c = .ok v') (e : UInt64 × LoadedSection) :
    e ∈ v'.loaded_sections.entries ↔
      e ∈ v.loaded_sections.entries ∨ ∃ s ∈ c.sections, s.loadable = true ∧ e = (s.vma, ⟨c, s⟩) := by
  unfold load_core at h
  split at h
  · cases h
  · rename_i loaded hall
    cases h
    rw [mem_emplaceAll hall e, List.mem_map]
    apply or_congr_right
    constructor
    · rintro ⟨f, hf, rfl⟩
      obtain ⟨s, hs, hl, rfl⟩ := (c.mem_sect_by_vma f).1 hf
      exact ⟨s, hs, hl, rfl⟩
    · rintro ⟨s, hs, hl, rfl⟩
      exact ⟨(s.vma, s), (c.mem_sect_by_vma _).2 ⟨s, hs, hl, rfl⟩, rfl⟩

theorem mem_load_cores {cores : List CoreFile} : ∀ {v v' : MemoryView}, v.load_cores cores = .ok v' → ∀ e,
    e ∈ v'.loaded_sections.entries ↔
      e ∈ v.loaded_sections.entries ∨ ∃ c ∈ cores, ∃ s ∈ c.sections, s.loadable = true ∧ e = (s.vma, ⟨c, s⟩) := by
  induction cores with
  | nil =>
    intro v v' h e
    cases h
    simp
  | cons c cores ih =>
    intro v v' h e
    unfold load_cores at h
    split at h
    · cases h
    · rename_i v₁ h₁
      rw [ih h e, mem_load_core h₁ e, List.exists_mem_cons_iff, or_assoc]

/-- Every entry is a section that its core file lists, under its start address. -/
def Listed (v : MemoryView) : Prop :=
  ∀ e ∈ v.loaded_sections.entries, e.2.asection ∈ e.2.core.sections ∧ e.2.asection.loadable = true ∧ e.1 = e.2.asection.vma

theorem listed_load_cores {cores : List CoreFile} {v : MemoryView} (h : new.load_cores cores = .ok v) : v.Listed := by
  intro e he
  rcases (mem_load_cores h e).1 he with he | ⟨c, -, s, hs, hl, rfl⟩
  · cases he
  · exact ⟨hs, hl, rfl⟩

variable {v : MemoryView}

theorem Listed.spans (h : v.Listed) : Spans (in_range fun s : LoadedSection => s.asection.size) v.loaded_sections :=
  spans_in_range fun e he => Section.size_ne (h e he).2.1

theorem Listed.range_iff (h : v.Listed) {e : UInt64 × LoadedSection} (he : e ∈ v.loaded_sections.entries) (vma : UInt64) :
    in_range (fun s : LoadedSection => s.asection.size) e vma = true ↔ e.2.asection.Contains vma := by
  rw [in_range_iff, (h e he).2.2]
  exact Iff.rfl

/-- The loaded sections are pairwise disjoint. -/
def Disjoint (v : MemoryView) : Prop :=
  v.loaded.Pairwise fun s t => ∀ vma, ¬ (s.asection.Contains vma ∧ t.asection.Contains vma)

theorem Listed.disjoint_iff (h : v.Listed) :
    v.Disjoint ↔ OrderedMap.Disjoint (in_range fun s : LoadedSection => s.asection.size) v.loaded_sections := by
  unfold Disjoint loaded
  rw [List.pairwise_map]
  constructor
  · intro hd e he f hf vma hev hfv
    by_contra hne
    have : Std.Symm fun e f : UInt64 × LoadedSection =>
        ∀ vma, ¬ (e.2.asection.Contains vma ∧ f.2.asection.Contains vma) := ⟨fun _ _ h vma hv => h vma hv.symm⟩
    exact hd.forall he hf hne vma ⟨(h.range_iff he vma).1 hev, (h.range_iff hf vma).1 hfv⟩
  · intro hd
    refine v.loaded_sections.ascending.imp_of_mem ?_
    rintro e f he hf hlt vma ⟨hev, hfv⟩
    have hef := hd e he f hf vma ((h.range_iff he vma).2 hev) ((h.range_iff hf vma).2 hfv)
    exact absurd hlt (by rw [hef]; exact lt_irrefl _)

/-! ## What the queries answer -/

end MemoryView

/-- What `try_map` answers at an offset in a section. -/
def LoadedSection.map_at (s : LoadedSection) (offset : UInt64) : Except Exit (Option UInt64 × UInt64) :=
  match s.core.bfd_mmap s.asection.filepos with
  | none => .error (.error ("failed to map section ".toList ++ s.asection.name))
  | some addr =>
    if offset ≥ s.asection.stored then .error (.error "trying to map beyond section limit".toList)
    else .ok (some (offset + addr), s.asection.stored - offset)

namespace MemoryView

variable {v : MemoryView}

/-- The three queries find no section at `vma`. -/
def Misses (v : MemoryView) (vma : UInt64) : Prop :=
  v.try_map vma = .ok (none, 0) ∧ v.query_sym vma = .ok (no_map_or_sym, v) ∧ v.query_label vma = no_map_or_sym

/-- The three queries find the section `s` at `vma`. -/
def Finds (v : MemoryView) (vma : UInt64) (s : LoadedSection) : Prop :=
  v.try_map vma = s.map_at (vma - s.asection.vma) ∧ v.query_sym vma = v.symbol_in s.core vma ∧
    v.query_label vma = s.core.get_label vma

/-- The queries find a section exactly where a loaded section contains the address, and that one. -/
def Answers (v : MemoryView) (vma : UInt64) : Prop :=
  (∀ s, (v.loaded_section vma).map (·.2) = some s ↔ s ∈ v.loaded ∧ s.asection.Contains vma) ∧
    ((∀ s ∈ v.loaded, ¬ s.asection.Contains vma) → v.Misses vma) ∧
    ∀ s ∈ v.loaded, s.asection.Contains vma → v.Finds vma s

theorem misses_of_none {vma : UInt64} (h : v.loaded_section vma = none) : v.Misses vma := by
  unfold Misses try_map query_sym query_label
  rw [h]
  exact ⟨rfl, rfl, rfl⟩

theorem Listed.finds (hv : v.Listed) {vma : UInt64} {e : UInt64 × LoadedSection} (he : e ∈ v.loaded_sections.entries)
    (h : v.loaded_section vma = some e) : v.Finds vma e.2 := by
  obtain ⟨hs, hl, hvma⟩ := hv e he
  unfold Finds try_map query_sym query_label
  rw [h]
  refine ⟨?_, rfl, rfl⟩
  simp only [ObjFile.mmap_filepos hs hl, LoadedSection.map_at, ← hvma]
  cases e.2.core.bfd_mmap e.2.asection.filepos <;> rfl

theorem Listed.answers (hv : v.Listed) (hd : v.Disjoint) (vma : UInt64) : v.Answers vma := by
  have hlocate : ∀ e, v.loaded_section vma = some e ↔ e ∈ v.loaded_sections.entries ∧ e.2.asection.Contains vma := by
    intro e
    unfold loaded_section
    rw [nearest_eq_locate, locate_iff hv.spans (hv.disjoint_iff.1 hd)]
    exact and_congr_right fun he => hv.range_iff he vma
  refine ⟨?_, ?_, ?_⟩
  · intro s
    rw [Option.map_eq_some_iff]
    constructor
    · rintro ⟨e, he, rfl⟩
      obtain ⟨hmem, hc⟩ := (hlocate e).1 he
      exact ⟨List.mem_map_of_mem hmem, hc⟩
    · rintro ⟨hs, hc⟩
      obtain ⟨e, hmem, rfl⟩ := List.mem_map.1 hs
      exact ⟨e, (hlocate e).2 ⟨hmem, hc⟩, rfl⟩
  · intro hnone
    apply misses_of_none
    cases h : v.loaded_section vma with
    | none => rfl
    | some e =>
      obtain ⟨hmem, hc⟩ := (hlocate e).1 h
      exact absurd hc (hnone e.2 (List.mem_map_of_mem hmem))
  · intro s hs hc
    obtain ⟨e, hmem, rfl⟩ := List.mem_map.1 hs
    exact hv.finds hmem ((hlocate e).2 ⟨hmem, hc⟩)

/-- Among the sections that the files list, none ends behind the start of a later one. -/
def Apart (cores : List CoreFile) : Prop :=
  ∀ c ∈ cores, ∀ s ∈ c.sections, s.loadable = true → ∀ c' ∈ cores, ∀ s' ∈ c'.sections, s'.loadable = true →
    s.vma < s'.vma → s.vma.toNat + s.size.toNat ≤ s'.vma.toNat

theorem apart_iff {cores : List CoreFile} {v : MemoryView} (h : new.load_cores cores = .ok v) : v.Disjoint ↔ Apart cores := by
  have hv := listed_load_cores h
  have hmem : ∀ e, e ∈ v.loaded_sections.entries ↔ ∃ c ∈ cores, ∃ s ∈ c.sections, s.loadable = true ∧ e = (s.vma, ⟨c, s⟩) := by
    intro e
    rw [mem_load_cores h e]
    simp [new, OrderedMap.empty]
  have hends : ∀ e ∈ v.loaded_sections.entries, ∀ f : UInt64 × LoadedSection, e.1 < f.1 →
      (in_range (fun s : LoadedSection => s.asection.size) e f.1 = false ↔ e.1.toNat + e.2.asection.size.toNat ≤ f.1.toNat) := by
    intro e he f hlt
    have hlt := UInt64.lt_iff_toNat_lt.1 hlt
    rw [← Bool.not_eq_true, in_range_iff]
    omega
  rw [hv.disjoint_iff, disjoint_iff_starts hv.spans]
  constructor
  · intro hd c hc s hs hl c' hc' s' hs' hl' hlt
    have he := (hmem _).2 ⟨c, hc, s, hs, hl, rfl⟩
    exact (hends _ he _ hlt).1 (hd _ he _ ((hmem _).2 ⟨c', hc', s', hs', hl', rfl⟩) hlt)
  · intro ha e he f hf hlt
    obtain ⟨c, hc, s, hs, hl, rfl⟩ := (hmem e).1 he
    obtain ⟨c', hc', s', hs', hl', rfl⟩ := (hmem f).1 hf
    exact (hends _ he _ hlt).2 (ha c hc s hs hl c' hc' s' hs' hl' hlt)

end MemoryView

/-- After any calls of `load_core` that come back, the loaded sections are disjoint and every
query finds the section that contains the address, exactly when the files keep their sections
apart: `load_core` itself refuses only equal start addresses. -/
theorem lookups_right_iff {cores : List CoreFile} {v : MemoryView} (h : MemoryView.new.load_cores cores = .ok v) :
    (v.Disjoint ∧ ∀ vma, v.Answers vma) ↔ MemoryView.Apart cores := by
  rw [← MemoryView.apart_iff h]
  constructor
  · intro hd
    exact hd.1
  · intro hd
    exact ⟨hd, (MemoryView.listed_load_cores h).answers hd⟩

/-! ## A section inside another -/

def sample_section (name : String) (vma size filepos : UInt64) : Section :=
  ⟨name.toList, true, true, vma, size, 0, filepos⟩

def sample_maps (sections : List Section) : SectionMaps :=
  match map_over_sections ⟨.empty, .empty⟩ sections with
  | .ok maps => maps
  | .error _ => ⟨.empty, .empty⟩

/-- A core file without symbols. -/
def sample_core (id : Nat) (sections : List Section)
    (opened : map_over_sections ⟨.empty, .empty⟩ sections = .ok (sample_maps sections)) : CoreFile where
  filename := "core".toList
  sections := sections
  maps := sample_maps sections
  opened := opened
  bfd_mmap filepos := some (0x7f0000000000 + filepos)
  get_build_id := .ok none
  id := id
  get_file_backing _ := (none, 0)
  get_file_vma _ := no_map_or_sym
  get_label _ := no_map_or_sym
  obj_store := ⟨fun _ => .ok none, fun _ => .ok none, fun _ => .ok none⟩

def sample_view (cores : List CoreFile) : MemoryView :=
  match MemoryView.new.load_cores cores with
  | .ok v => v
  | .error _ => MemoryView.new

def text_core : CoreFile := sample_core 0 [sample_section "load1" 0x1000 0x4000 0x200] rfl
def data_core : CoreFile := sample_core 1 [sample_section "load1" 0x8000 0x100 0x200, sample_section "load2" 0x5000 0x100 0x300] rfl
def inner_core : CoreFile := sample_core 2 [sample_section "load1" 0x2000 0x100 0x200] rfl

theorem lookups_right_two : (sample_view [text_core, data_core]).Disjoint ∧ ∀ vma, (sample_view [text_core, data_core]).Answers vma := by
  have h : MemoryView.new.load_cores [text_core, data_core] = .ok (sample_view [text_core, data_core]) := rfl
  refine (lookups_right_iff h).2 ?_
  unfold MemoryView.Apart
  decide +kernel

/-- The sections of `inner_core` hide the end of the one of `text_core`. -/
theorem inner_section_hides : ¬ ∀ (cores : List CoreFile) (v : MemoryView), MemoryView.new.load_cores cores = .ok v →
    v.Disjoint ∧ ∀ vma, v.Answers vma := by
  intro hall
  have h := (hall [text_core, inner_core] (sample_view [text_core, inner_core]) rfl).2 0x2800
  have hin : (⟨text_core, sample_section "load1" 0x1000 0x4000 0x200⟩ : LoadedSection) ∈ (sample_view [text_core, inner_core]).loaded :=
    List.mem_cons_self
  have hfound := (h.1 _).2 ⟨hin, by unfold Section.Contains; decide +kernel⟩
  have hnone : (sample_view [text_core, inner_core]).loaded_section 0x2800 = none := rfl
  rw [hnone] at hfound
  cases hfound

end nexusrv
