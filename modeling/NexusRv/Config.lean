import Mathlib.Tactic.Common
import NexusRv.Address
import NexusRv.Checked
import NexusRv.Lib.Scan
/-!
# The hardware configuration

`nexusrv_hwcfg_parse`: a list of options, separated by commas, and the configuration that
they set.
-/

namespace nexusrv

open Scan

/-! ## The code -/

/-- `atoi` where it is stored as an `unsigned`: `strtol`, which stops at the limits of a `long`, as an `int`. -/
def atoi (s : List Char) : Nat :=
  let r := sign (s.dropWhile isSpace)
  let n := (numeral 10 0 r.2).1
  if r.1 then (2 ^ 64 - min n (2 ^ 63)) % 2 ^ 32 else min n (2 ^ 63 - 1) % 2 ^ 32

/-- `strtoul` with base 10: the number, and where it ends. Without a number it ends where `s` starts. -/
def strtoul (s : List Char) : Nat × List Char := (unsigned 10 (s.dropWhile isSpace)).getD (0, s)

def MODEL_HWCFG_GENERIC32 : String := "addr=32,maxstack=32"
def MODEL_HWCFG_GENERIC64 : String := "addr=64,maxstack=32"
def MODEL_HWCFG_P550x4 : String := "src=2,ts=40,addr=48,maxstack=1024,quirk-sifive"
def MODEL_HWCFG_P550x8 : String := "src=2,ts=40,addr=48,maxstack=1024,quirk-sifive"

/-- What a model stands for. -/
def model_cfg (s : List Char) : Option String :=
  if s = "generic32".toList then some MODEL_HWCFG_GENERIC32
  else if s = "generic64".toList then some MODEL_HWCFG_GENERIC64
  else if s = "p550x4".toList then some MODEL_HWCFG_P550x4
  else if s = "p550x8".toList then some MODEL_HWCFG_P550x8
  else none

/-- The configuration that is written to. -/
abbrev HwParse := Proc HwCfg NexusError Unit

def hwcfg_parse_timerfreq (s : List Char) : HwParse := do
  let r := strtoul s
  Proc.modify fun c => { c with timer_freq := .ofNat r.1 }
  if r.1 = 0 then Proc.fail .hwcfg_invalid
  else if r.2 = "GHz".toList then Proc.modify fun c => { c with timer_freq := c.timer_freq * 1000000000 }
  else if r.2 = "Mhz".toList then Proc.modify fun c => { c with timer_freq := c.timer_freq * 1000000 }
  else if r.2 = "Khz".toList then Proc.modify fun c => { c with timer_freq := c.timer_freq * 1000 }
  else if r.2 ≠ "Hz".toList then Proc.fail .hwcfg_invalid
  else pure ()

/-- An option that is not empty; `parse` is the recursive call. -/
def hwcfg_parse_opt (parse : List Char → HwParse) (opt : List Char) : HwParse :=
  let negate := (after "no-".toList opt).isSome
  let opt := (after "no-".toList opt).getD opt
  match after "ts=".toList opt with
  | some s => Proc.modify fun c => { c with ts_bits := atoi s }
  | none => match after "src=".toList opt with
  | some s => Proc.modify fun c => { c with src_bits := atoi s }
  | none => match after "addr=".toList opt with
  | some s => Proc.modify fun c => { c with addr_bits := atoi s }
  | none => match after "maxstack=".toList opt with
  | some s => Proc.modify fun c => { c with max_stack := atoi s }
  | none =>
    if opt = "quirk-sifive".toList then Proc.modify fun c => { c with quirk_sifive := !negate }
    else match after "timerfreq=".toList opt with
    | some s => hwcfg_parse_timerfreq s
    | none => match after "model=".toList opt with
    | some s => match model_cfg s with
      | some cfg => parse cfg.toList
      | none => Proc.fail .hwcfg_invalid
    | none => Proc.fail .hwcfg_invalid

/-- The loop of `__nexusrv_hwcfg_parse`. -/
def hwcfg_parse_opts (parse : List Char → HwParse) : List (List Char) → HwParse
  | [] => pure ()
  | opt :: opts =>
    if opt = [] then hwcfg_parse_opts parse opts
    else do
      hwcfg_parse_opt parse opt
      hwcfg_parse_opts parse opts

/-- `__nexusrv_hwcfg_parse`; a model stands for options that name no model. -/
def hwcfg_parse_str : Nat → List Char → HwParse
  | 0, _ => Proc.assert false
  | fuel + 1, str => hwcfg_parse_opts (hwcfg_parse_str fuel) (str.splitOn ',')

def HwCfg.zero : HwCfg := ⟨0, 0, 0, 0, 0, false, false, false⟩

/-- `nexusrv_hwcfg_parse`: how it ends, and the configuration. -/
def hwcfg_parse (str : List Char) : Option (Except NexusError Unit × HwCfg) := hwcfg_parse_str 2 str .zero

/-! ## What an option sets -/

/-- A member of the configuration, and its new value. -/
inductive Setting where
  | src (n : Nat)
  | ts (n : Nat)
  | addr (n : Nat)
  | maxstack (n : Nat)
  | timerfreq (n : Nat)
  | quirk_sifive (b : Bool)
  deriving DecidableEq

/-- The values of a configuration, as numbers without a limit. -/
structure HwValues where
  src_bits : Nat
  ts_bits : Nat
  addr_bits : Nat
  max_stack : Nat
  timer_freq : Nat
  HTM : Bool
  VAO : Bool
  quirk_sifive : Bool
  deriving DecidableEq

def HwCfg.values (c : HwCfg) : HwValues :=
  ⟨c.src_bits, c.ts_bits, c.addr_bits, c.max_stack, c.timer_freq.toNat, c.HTM, c.VAO, c.quirk_sifive⟩

def HwValues.set (c : HwValues) : Setting → HwValues
  | .src n => { c with src_bits := n }
  | .ts n => { c with ts_bits := n }
  | .addr n => { c with addr_bits := n }
  | .maxstack n => { c with max_stack := n }
  | .timerfreq n => { c with timer_freq := n }
  | .quirk_sifive b => { c with quirk_sifive := b }

/-- The settings in order, a later one over an earlier one. -/
def HwValues.apply (c : HwValues) (l : List Setting) : HwValues := l.foldl HwValues.set c

def model_settings (s : List Char) : Option (List Setting) :=
  if s = "generic32".toList then some [.addr 32, .maxstack 32]
  else if s = "generic64".toList then some [.addr 64, .maxstack 32]
  else if s = "p550x4".toList ∨ s = "p550x8".toList then some [.src 2, .ts 40, .addr 48, .maxstack 1024, .quirk_sifive true]
  else none

/-- The units, as the code spells them. -/
def stored_unit (s : List Char) : Option Nat :=
  if s = "GHz".toList then some 1000000000
  else if s = "Mhz".toList then some 1000000
  else if s = "Khz".toList then some 1000
  else if s = "Hz".toList then some 1
  else none

def stored_freq (s : List Char) : Option (List Setting) :=
  if (strtoul s).1 = 0 then none else (stored_unit (strtoul s).2).map fun u => [.timerfreq ((strtoul s).1 * u % 2 ^ 64)]

/-- What the code makes of an option that is not empty, if it is not refused. -/
def stored_option (opt : List Char) : Option (List Setting) :=
  let negate := (after "no-".toList opt).isSome
  let opt := (after "no-".toList opt).getD opt
  match after "ts=".toList opt with
  | some s => some [.ts (atoi s)]
  | none => match after "src=".toList opt with
  | some s => some [.src (atoi s)]
  | none => match after "addr=".toList opt with
  | some s => some [.addr (atoi s)]
  | none => match after "maxstack=".toList opt with
  | some s => some [.maxstack (atoi s)]
  | none =>
    if opt = "quirk-sifive".toList then some [.quirk_sifive (!negate)]
    else match after "timerfreq=".toList opt with
    | some s => stored_freq s
    | none => (after "model=".toList opt).bind model_settings

/-- The options of a string. -/
def hw_options (str : List Char) : List (List Char) := (str.splitOn ',').filter (· ≠ [])

/-- What all the options set. -/
def settings (f : List Char → Option (List Setting)) (opts : List (List Char)) : List Setting := opts.flatMap fun o => (f o).getD []

section Parse
variable {c : HwCfg} {ss : List Setting}

/-- A parser that ends with `c'`, whose values are those of `c` with `ss` set. -/
def Sets (x : HwParse) (ss : List Setting) : Prop := ∀ c, ∃ c', x c = some (.ok (), c') ∧ c'.values = c.values.apply ss

def Refuses (x : HwParse) : Prop := ∀ c, ∃ c', x c = some (.error .hwcfg_invalid, c')

theorem apply_append (c : HwValues) (l l' : List Setting) : c.apply (l ++ l') = (c.apply l).apply l' := List.foldl_append

theorem timerfreq_sets {s : List Char} (h : stored_freq s = some ss) : Sets (hwcfg_parse_timerfreq s) ss := by
  intro c
  have hval : ∀ u : Nat, u < 2 ^ 64 → (UInt64.ofNat (strtoul s).1 * .ofNat u).toNat = (strtoul s).1 * u % 2 ^ 64 := by
    intro u hu
    rw [UInt64.toNat_mul, UInt64.toNat_ofNat', UInt64.toNat_ofNat', Nat.mod_eq_of_lt hu, Nat.mod_mul_mod]
  unfold stored_freq stored_unit at h
  unfold hwcfg_parse_timerfreq
  simp only [Proc.modify_bind_apply, Proc.ite_apply]
  split at h
  · cases h
  rename_i h0
  rw [if_neg h0]
  split at h
  · rename_i hG
    cases h
    rw [if_pos hG]
    exact ⟨_, rfl, by simp only [HwCfg.values, HwValues.apply, List.foldl_cons, List.foldl_nil, HwValues.set, ← hval 1000000000 (by decide)]; rfl⟩
  rename_i hG
  rw [if_neg hG]
  split at h
  · rename_i hM
    cases h
    rw [if_pos hM]
    exact ⟨_, rfl, by simp only [HwCfg.values, HwValues.apply, List.foldl_cons, List.foldl_nil, HwValues.set, ← hval 1000000 (by decide)]; rfl⟩
  rename_i hM
  rw [if_neg hM]
  split at h
  · rename_i hK
    cases h
    rw [if_pos hK]
    exact ⟨_, rfl, by simp only [HwCfg.values, HwValues.apply, List.foldl_cons, List.foldl_nil, HwValues.set, ← hval 1000 (by decide)]; rfl⟩
  rename_i hK
  rw [if_neg hK]
  split at h
  · rename_i hHz
    cases h
    rw [if_neg (not_not_intro hHz)]
    exact ⟨_, rfl, by simp only [HwCfg.values, HwValues.apply, List.foldl_cons, List.foldl_nil, HwValues.set, Nat.mul_one, UInt64.toNat_ofNat']⟩
  · cases h

theorem timerfreq_refuses {s : List Char} (h : stored_freq s = none) : Refuses (hwcfg_parse_timerfreq s) := by
  intro c
  unfold stored_freq stored_unit at h
  unfold hwcfg_parse_timerfreq
  simp only [Proc.modify_bind_apply, Proc.ite_apply]
  split
  · exact ⟨_, rfl⟩
  rename_i h0
  rw [if_neg h0] at h
  repeat' split at h
  any_goals cases h
  rename_i hG hM hK hHz
  rw [if_neg hG, if_neg hM, if_neg hK, if_pos hHz]
  exact ⟨_, rfl⟩

theorem sets_cons {parse : List Char → HwParse} {opt : List Char} {opts : List (List Char)} {ss' : List Setting} (hne : opt ≠ [])
    (hone : Sets (hwcfg_parse_opt parse opt) ss) (hrest : Sets (hwcfg_parse_opts parse opts) ss') :
    Sets (hwcfg_parse_opts parse (opt :: opts)) (ss ++ ss') := by
  intro c
  obtain ⟨c', h, hc⟩ := hone c
  obtain ⟨c'', h', hc'⟩ := hrest c'
  rw [hwcfg_parse_opts, if_neg hne, Proc.bind_ok h]
  exact ⟨c'', h', by rw [hc', hc, apply_append]⟩

theorem model_refuses {s : List Char} (h : model_settings s = none) : model_cfg s = none := by
  unfold model_settings at h
  unfold model_cfg
  split at h
  · cases h
  split at h
  · cases h
  split at h
  · cases h
  · simp_all

/-- An option sets what it stores; what a model stands for is parsed by `parse`. -/
theorem opt_sets {parse : List Char → HwParse} {opt : List Char} (h : stored_option opt = some ss)
    (hmodel : ∀ s ss, after "model=".toList ((after "no-".toList opt).getD opt) = some s → model_settings s = some ss →
      ∃ cfg, model_cfg s = some cfg ∧ Sets (parse cfg.toList) ss) : Sets (hwcfg_parse_opt parse opt) ss := by
  intro c
  unfold stored_option at h
  unfold hwcfg_parse_opt
  dsimp only at h ⊢
  generalize (after "no-".toList opt).isSome = negate at h ⊢
  generalize (after "no-".toList opt).getD opt = o at h ⊢ hmodel
  cases hts : after "ts=".toList o with
  | some s => rw [hts] at h; cases h; exact ⟨_, rfl, rfl⟩
  | none =>
    rw [hts] at h
    cases hsrc : after "src=".toList o with
    | some s => rw [hsrc] at h; cases h; exact ⟨_, rfl, rfl⟩
    | none =>
      rw [hsrc] at h
      cases haddr : after "addr=".toList o with
      | some s => rw [haddr] at h; cases h; exact ⟨_, rfl, rfl⟩
      | none =>
        rw [haddr] at h
        cases hmax : after "maxstack=".toList o with
        | some s => rw [hmax] at h; cases h; exact ⟨_, rfl, rfl⟩
        | none =>
          rw [hmax] at h
          dsimp only at h ⊢
          split at h
          · rename_i hquirk
            cases h
            rw [if_pos hquirk]
            exact ⟨_, rfl, rfl⟩
          rename_i hquirk
          rw [if_neg hquirk]
          cases hfreq : after "timerfreq=".toList o with
          | some s => rw [hfreq] at h; exact timerfreq_sets h c
          | none =>
            rw [hfreq] at h
            obtain ⟨s, hs, hss⟩ := Option.bind_eq_some_iff.1 h
            obtain ⟨cfg, hcfg, hsets⟩ := hmodel s ss hs hss
            rw [hs]
            dsimp only
            rw [hcfg]
            exact hsets c

theorem opt_refuses {parse : List Char → HwParse} {opt : List Char} (h : stored_option opt = none) : Refuses (hwcfg_parse_opt parse opt) := by
  intro c
  unfold stored_option at h
  unfold hwcfg_parse_opt
  dsimp only at h ⊢
  generalize (after "no-".toList opt).isSome = negate at h ⊢
  generalize (after "no-".toList opt).getD opt = o at h ⊢
  split at h
  · cases h
  rename_i hts
  split at h
  · cases h
  rename_i hsrc
  split at h
  · cases h
  rename_i haddr
  split at h
  · cases h
  rename_i hmax
  split at h
  · cases h
  rename_i hquirk
  simp only [hts, if_neg hquirk]
  split at h
  · rename_i s hfreq
    rw [hfreq]
    exact timerfreq_refuses h c
  rename_i hfreq
  rw [hfreq]
  dsimp only
  cases hmodel : after "model=".toList o with
  | none => exact ⟨_, rfl⟩
  | some s =>
    rw [hmodel] at h
    dsimp only
    rw [model_refuses h]
    exact ⟨_, rfl⟩

/-- Options that name no model. -/
theorem plain_sets {parse : List Char → HwParse} : ∀ {opts : List (List Char)} {sss : List (List Setting)},
    List.Forall₂ (fun o ss => stored_option o = some ss ∧ o ≠ [] ∧ after "model=".toList ((after "no-".toList o).getD o) = none) opts sss →
    Sets (hwcfg_parse_opts parse opts) sss.flatten
  | _, _, .nil => fun c => ⟨c, rfl, rfl⟩
  | _, _, .cons ⟨h, hne, hplain⟩ hrest =>
    sets_cons hne (opt_sets h fun _ _ hs => nomatch hplain.symm.trans hs) (plain_sets hrest)

/-- The options of a model are parsed into its settings. -/
theorem model_sets {s : List Char} (h : model_settings s = some ss) : ∃ cfg, model_cfg s = some cfg ∧ Sets (hwcfg_parse_str 1 cfg.toList) ss := by
  have h32 : Sets (hwcfg_parse_str 1 MODEL_HWCFG_GENERIC32.toList) [[.addr 32], [.maxstack 32]].flatten := by
    have hsplit : MODEL_HWCFG_GENERIC32.toList.splitOn ',' = ["addr=32".toList, "maxstack=32".toList] := by decide +kernel
    rw [hwcfg_parse_str, hsplit]
    exact plain_sets (by decide +kernel)
  have h64 : Sets (hwcfg_parse_str 1 MODEL_HWCFG_GENERIC64.toList) [[.addr 64], [.maxstack 32]].flatten := by
    have hsplit : MODEL_HWCFG_GENERIC64.toList.splitOn ',' = ["addr=64".toList, "maxstack=32".toList] := by decide +kernel
    rw [hwcfg_parse_str, hsplit]
    exact plain_sets (by decide +kernel)
  have hp550 : Sets (hwcfg_parse_str 1 MODEL_HWCFG_P550x4.toList) [[.src 2], [.ts 40], [.addr 48], [.maxstack 1024], [.quirk_sifive true]].flatten := by
    have hsplit : MODEL_HWCFG_P550x4.toList.splitOn ',' =
        ["src=2".toList, "ts=40".toList, "addr=48".toList, "maxstack=1024".toList, "quirk-sifive".toList] := by decide +kernel
    rw [hwcfg_parse_str, hsplit]
    exact plain_sets (by decide +kernel)
  unfold model_settings at h
  unfold model_cfg
  split at h
  · rename_i h1
    cases h
    exact ⟨_, if_pos h1, h32⟩
  rename_i h1
  rw [if_neg h1]
  split at h
  · rename_i h2
    cases h
    exact ⟨_, if_pos h2, h64⟩
  rename_i h2
  rw [if_neg h2]
  split at h
  · rename_i h3
    cases h
    by_cases h4 : s = "p550x4".toList
    · exact ⟨_, if_pos h4, hp550⟩
    · rw [if_neg h4]
      exact ⟨_, if_pos (h3.resolve_left h4), hp550⟩
  · cases h

/-! ## The whole string -/

theorem opts_set : ∀ {opts : List (List Char)}, (∀ o ∈ opts.filter (· ≠ []), (stored_option o).isSome = true) →
    Sets (hwcfg_parse_opts (hwcfg_parse_str 1) opts) (settings stored_option (opts.filter (· ≠ [])))
  | [], _ => fun c => ⟨c, rfl, rfl⟩
  | o :: opts, h => by
    by_cases hne : o = []
    · have hfilter : (o :: opts).filter (· ≠ []) = opts.filter (· ≠ []) := by simp [hne]
      rw [hfilter] at h ⊢
      intro c
      rw [hwcfg_parse_opts, if_pos hne]
      exact opts_set h c
    · have hfilter : (o :: opts).filter (· ≠ []) = o :: opts.filter (· ≠ []) := by simp [hne]
      rw [hfilter] at h ⊢
      obtain ⟨ss, hss⟩ := Option.isSome_iff_exists.1 (h o List.mem_cons_self)
      have hone : Sets (hwcfg_parse_opt (hwcfg_parse_str 1) o) ss := opt_sets hss fun _ _ _ => model_sets
      rw [settings, List.flatMap_cons, hss]
      exact sets_cons hne hone (opts_set fun o' ho' => h o' (List.mem_cons_of_mem _ ho'))

theorem opts_refuse : ∀ {opts : List (List Char)}, (∃ o ∈ opts.filter (· ≠ []), stored_option o = none) →
    Refuses (hwcfg_parse_opts (hwcfg_parse_str 1) opts)
  | [], h => by simp at h
  | o :: opts, h => by
    intro c
    rw [hwcfg_parse_opts]
    by_cases hne : o = []
    · have hfilter : (o :: opts).filter (· ≠ []) = opts.filter (· ≠ []) := by simp [hne]
      rw [hfilter] at h
      rw [if_pos hne]
      exact opts_refuse h c
    · have hfilter : (o :: opts).filter (· ≠ []) = o :: opts.filter (· ≠ []) := by simp [hne]
      rw [hfilter] at h
      rw [if_neg hne]
      cases ho : stored_option o with
      | none =>
        have hrefuses : Refuses (hwcfg_parse_opt (hwcfg_parse_str 1) o) := opt_refuses ho
        obtain ⟨c', hc⟩ := hrefuses c
        exact ⟨c', Proc.bind_error hc⟩
      | some ss =>
        obtain ⟨c', hc, -⟩ := opt_sets ho (fun _ _ _ => model_sets) c
        rw [Proc.bind_ok hc]
        refine opts_refuse ?_ c'
        obtain ⟨o', ho', hnone⟩ := h
        rcases List.mem_cons.1 ho' with rfl | ho'
        · rw [ho] at hnone
          cases hnone
        · exact ⟨o', ho', hnone⟩

def HwValues.zero : HwValues := ⟨0, 0, 0, 0, 0, false, false, false⟩

theorem parse_sets {str : List Char} (h : ∀ o ∈ hw_options str, (stored_option o).isSome = true) :
    ∃ c, hwcfg_parse str = some (.ok (), c) ∧ c.values = HwValues.zero.apply (settings stored_option (hw_options str)) :=
  opts_set h .zero

theorem parse_refuses {str : List Char} (h : ∃ o ∈ hw_options str, stored_option o = none) :
    ∃ c, hwcfg_parse str = some (.error .hwcfg_invalid, c) :=
  opts_refuse h .zero

/-- A string is accepted if all its options are. -/
theorem parse_ok_iff {str : List Char} : (∃ c, hwcfg_parse str = some (.ok (), c)) ↔ ∀ o ∈ hw_options str, (stored_option o).isSome = true := by
  constructor
  · rintro ⟨c, h⟩ o ho
    cases hs : stored_option o with
    | some => rfl
    | none =>
      obtain ⟨c', hc⟩ := parse_refuses ⟨o, ho, hs⟩
      rw [hc] at h
      cases h
  · intro h
    obtain ⟨c, hc, -⟩ := parse_sets h
    exact ⟨c, hc⟩

end Parse

/-! ## The shifts -/

/-- Every shift by an amount that comes from the configuration is defined, for every message: the SRC is packed and unpacked, and fits
into its member, the files of `split` are counted, and an address of `xaddr` is extended, without a change below the sign bit. -/
structure ShiftsDefined (c : HwCfg) : Prop where
  src : c.src_bits ≤ 16
  pack_bits (buffer : List UInt8) (bit_offset value : Nat) : (Checked.pack_bits buffer bit_offset value c.src_bits).isSome = true
  unpack_bits (buffer : List UInt8) (bit_offset : Nat) : c.src_bits ≠ 0 → (Checked.unpack_bits buffer bit_offset c.src_bits).isSome = true
  trace_time (timestamp : UInt64) : (Checked.trace_time_mask timestamp c.ts_bits).isSome = true
  split : (Checked.file_count c.src_bits).isSome = true
  extend_addr (xaddr : UInt64) : (Checked.extend_addr_bits (xaddr <<< 1) c.addr_bits).isSome = true
  user (xaddr : UInt64) : (xaddr <<< 1).toNat < 2 ^ (c.addr_bits - 1) → Checked.extend_addr_bits (xaddr <<< 1) c.addr_bits = some (xaddr <<< 1)

/-- The address of `xaddr` is sign-extended from the configured width. -/
def SignExtends (c : HwCfg) (xaddr : UInt64) : Prop :=
  Checked.extend_addr_bits (xaddr <<< 1) c.addr_bits = some (sign_extended c.addr_bits (xaddr <<< 1))

/-- The last of the settings that `f` picks, or 0. -/
def last_set (f : Setting → Option Nat) (l : List Setting) : Nat := (l.filterMap f).getLast?.getD 0

def Setting.src? : Setting → Option Nat
  | .src n => some n
  | _ => none

def Setting.addr? : Setting → Option Nat
  | .addr n => some n
  | _ => none

/-- A member holds the last value that it is set to. -/
theorem apply_last {f : Setting → Option Nat} {g : HwValues → Nat} (hset : ∀ c x, g (c.set x) = (f x).getD (g c)) (c : HwValues)
    (l : List Setting) : g (c.apply l) = (l.filterMap f).getLast?.getD (g c) := by
  induction l using List.reverseRecOn with
  | nil => rfl
  | append_singleton l x ih =>
    rw [apply_append, List.filterMap_append]
    change g ((c.apply l).set x) = _
    rw [hset, ih]
    cases hf : f x with
    | none => simp [hf]
    | some n => simp [hf]

section Shifts
variable {str : List Char} {c : HwCfg}

theorem parsed_values (h : hwcfg_parse str = some (.ok (), c)) : c.values = HwValues.zero.apply (settings stored_option (hw_options str)) := by
  obtain ⟨c', hc, hval⟩ := parse_sets (parse_ok_iff.1 ⟨c, h⟩)
  rw [hc] at h
  cases h
  exact hval

theorem parsed_src (h : hwcfg_parse str = some (.ok (), c)) : c.src_bits = last_set Setting.src? (settings stored_option (hw_options str)) := by
  have hlast := apply_last (f := Setting.src?) (g := HwValues.src_bits) (fun c x => by cases x <;> rfl) HwValues.zero
    (settings stored_option (hw_options str))
  rw [← parsed_values h] at hlast
  exact hlast

theorem parsed_addr (h : hwcfg_parse str = some (.ok (), c)) : c.addr_bits = last_set Setting.addr? (settings stored_option (hw_options str)) := by
  have hlast := apply_last (f := Setting.addr?) (g := HwValues.addr_bits) (fun c x => by cases x <;> rfl) HwValues.zero
    (settings stored_option (hw_options str))
  rw [← parsed_values h] at hlast
  exact hlast

/-- More than 64 bits are no less than 64. -/
theorem extends_any {bits : Nat} (h1 : 1 ≤ bits) (addr : UInt64) : Extends bits addr (extend_addr_bits addr bits) := by
  by_cases h64 : bits ≤ 64
  · exact extend_addr_bits_extends h1 h64 addr
  have hlt := addr.toNat_lt
  have hsame : extend_addr_bits addr bits = addr := if_pos (by omega)
  have hpow : 2 ^ 64 ≤ 2 ^ bits := Nat.pow_le_pow_right (by decide) (by omega)
  have hsign : addr = sign_extended bits addr := by
    rw [← UInt64.toNat_inj, Nat.eq_iff_testBit_eq]
    intro i
    rw [sign_extended_bit h1]
    by_cases hi : i < 64
    · simp [hi, show i < bits by omega]
    · rw [decide_eq_false hi, Bool.false_and]
      exact Nat.testBit_lt_two_pow (Nat.lt_of_lt_of_le hlt (Nat.pow_le_pow_right (by decide) (by omega)))
  rw [hsame]
  exact ⟨iff_of_true hsign (.inl (by omega)), fun _ => rfl⟩

theorem shifts_of (hsrc : c.src_bits ≤ 16) (haddr : 1 ≤ c.addr_bits) : ShiftsDefined c where
  src := hsrc
  pack_bits buffer bit_offset value := by
    rw [Checked.pack_bits_eq (by omega)]
    rfl
  unpack_bits buffer bit_offset h0 := by
    rw [Checked.unpack_bits_eq (Nat.pos_of_ne_zero h0)]
    rfl
  trace_time timestamp := by
    rw [Checked.trace_time_mask_eq]
    rfl
  split := by
    rw [Checked.file_count, if_pos (by omega)]
    rfl
  extend_addr xaddr := by
    rw [Checked.extend_addr_bits_eq haddr]
    rfl
  user xaddr h := by
    rw [Checked.extend_addr_bits_eq haddr, extend_addr_bits]
    split
    · rfl
    · rw [if_neg]
      rw [Nat.testBit_lt_two_pow h]
      exact Bool.false_ne_true

/-- Without a width the sign bit is shifted by `0 - 1`. -/
theorem ShiftsDefined.addr_pos (h : ShiftsDefined c) : 1 ≤ c.addr_bits := by
  refine Nat.pos_of_ne_zero fun h0 => ?_
  have hsome := h.extend_addr 0
  rw [h0, Checked.extend_addr_bits_zero] at hsome
  cases hsome

theorem sign_extends_iff (haddr : 1 ≤ c.addr_bits) (xaddr : UInt64) : SignExtends c xaddr ↔
    (xaddr <<< 1).toNat < 2 ^ c.addr_bits ∨ (xaddr <<< 1).toNat.testBit (c.addr_bits - 1) = true := by
  rw [SignExtends, Checked.extend_addr_bits_eq haddr, Option.some.injEq]
  exact (extends_any haddr _).1

/-- Bits above the sign bit stay where the sign bit is 0, so that only a width of 64 bits extends every address. -/
theorem sign_extends_all_iff (haddr : 1 ≤ c.addr_bits) : (∀ xaddr, SignExtends c xaddr) ↔ 64 ≤ c.addr_bits := by
  simp only [sign_extends_iff haddr]
  constructor
  · intro h
    by_contra hlt
    have hlt : c.addr_bits < 64 := Nat.not_le.1 hlt
    have hpow : 2 ^ (c.addr_bits - 1) < 2 ^ 64 := Nat.pow_lt_pow_right (by decide) (by omega)
    have haddr' : ((UInt64.ofNat (2 ^ (c.addr_bits - 1))) <<< 1).toNat = 2 ^ c.addr_bits := by
      have htwice : 2 * 2 ^ (c.addr_bits - 1) = 2 ^ c.addr_bits := by
        rw [← Nat.pow_succ', Nat.succ_eq_add_one, Nat.sub_add_cancel haddr]
      rw [shl_one, UInt64.toNat_mul, UInt64.toNat_ofNat_of_lt' hpow]
      change 2 * 2 ^ (c.addr_bits - 1) % 2 ^ 64 = _
      rw [htwice, Nat.mod_eq_of_lt (Nat.pow_lt_pow_right (by decide) hlt)]
    have hext := h (.ofNat (2 ^ (c.addr_bits - 1)))
    rw [haddr', Nat.testBit_two_pow_of_ne (by omega)] at hext
    exact hext.elim (Nat.lt_irrefl _) Bool.false_ne_true
  · intro h64 xaddr
    exact .inl (Nat.lt_of_lt_of_le (xaddr <<< 1).toNat_lt (Nat.pow_le_pow_right (by decide) h64))

/-- The shifts are defined if the last `src=` is at most 16, and the last `addr=` is not 0. Then the addresses of that width are
sign-extended; all addresses are, if the last `addr=` is at least 64. -/
theorem shifts_defined_iff (h : hwcfg_parse str = some (.ok (), c)) :
    ((ShiftsDefined c ∧ ∀ xaddr, SignExtends c xaddr) ↔
      last_set Setting.src? (settings stored_option (hw_options str)) ≤ 16 ∧
        64 ≤ last_set Setting.addr? (settings stored_option (hw_options str))) ∧
    ((ShiftsDefined c ∧ ∀ xaddr : UInt64, (xaddr <<< 1).toNat < 2 ^ c.addr_bits → SignExtends c xaddr) ↔
      last_set Setting.src? (settings stored_option (hw_options str)) ≤ 16 ∧
        1 ≤ last_set Setting.addr? (settings stored_option (hw_options str))) := by
  rw [← parsed_src h, ← parsed_addr h]
  constructor
  · constructor
    · rintro ⟨hd, hall⟩
      exact ⟨hd.src, (sign_extends_all_iff hd.addr_pos).1 hall⟩
    · rintro ⟨hsrc, haddr⟩
      have hpos : 1 ≤ c.addr_bits := by omega
      exact ⟨shifts_of hsrc hpos, (sign_extends_all_iff hpos).2 haddr⟩
  · constructor
    · exact fun hd => ⟨hd.1.src, hd.1.addr_pos⟩
    · rintro ⟨hsrc, haddr⟩
      exact ⟨shifts_of hsrc haddr, fun xaddr hlt => (sign_extends_iff haddr xaddr).2 (.inl hlt)⟩

end Shifts

theorem shifts_defined_p550 : ∃ c, hwcfg_parse "model=p550x4".toList = some (.ok (), c) ∧
    ((ShiftsDefined c ∧ ∀ xaddr, SignExtends c xaddr) ↔
      last_set Setting.src? (settings stored_option (hw_options "model=p550x4".toList)) ≤ 16 ∧
        64 ≤ last_set Setting.addr? (settings stored_option (hw_options "model=p550x4".toList))) ∧
    ((ShiftsDefined c ∧ ∀ xaddr : UInt64, (xaddr <<< 1).toNat < 2 ^ c.addr_bits → SignExtends c xaddr) ↔
      last_set Setting.src? (settings stored_option (hw_options "model=p550x4".toList)) ≤ 16 ∧
        1 ≤ last_set Setting.addr? (settings stored_option (hw_options "model=p550x4".toList))) := by
  have hparse : hwcfg_parse "model=p550x4".toList = some (.ok (), ⟨2, 40, 48, 1024, 0, false, false, true⟩) := by decide +kernel
  exact ⟨_, hparse, shifts_defined_iff hparse⟩

/-- `src=17` and no `addr=`. -/
theorem shifts_not_checked : ¬ ∀ (str : List Char) (c : HwCfg), hwcfg_parse str = some (.ok (), c) →
    ShiftsDefined c ∧ ∀ xaddr : UInt64, (xaddr <<< 1).toNat < 2 ^ c.addr_bits → SignExtends c xaddr := by
  intro hall
  have hparse : hwcfg_parse "src=17".toList = some (.ok (), ⟨17, 0, 0, 0, 0, false, false, false⟩) := by decide +kernel
  exact absurd (hall _ _ hparse).1.src (by decide)

end nexusrv
