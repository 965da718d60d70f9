import Mathlib.Data.List.Forall2
import Mathlib.Tactic.Common
import NexusRv.Config
/-!
# The grammar of the configuration

The documented forms of an option, and the strings for which the code follows them.
-/

namespace nexusrv

open Scan

/-! ## The documentation -/

/-- A decimal number and nothing else. -/
def integer (s : List Char) : Option Nat := (leading s).bind fun r => if r.2 = [] then some r.1 else none

def freq_unit (s : List Char) : Option Nat :=
  if s = "Hz".toList then some 1
  else if s = "KHz".toList then some (10 ^ 3)
  else if s = "MHz".toList then some (10 ^ 6)
  else if s = "GHz".toList then some (10 ^ 9)
  else none

def frequency (s : List Char) : Option Nat := (leading s).bind fun r => (freq_unit r.2).map fun u => r.1 * u

/-- The models, with the values that are documented for them. -/
def documented_model (s : List Char) : Option (List Setting) :=
  if s = "generic32".toList then some [.addr 32, .maxstack 32]
  else if s = "generic64".toList then some [.addr 64, .maxstack 32]
  else if s = "p550x4".toList then some [.src 2, .ts 40, .addr 48, .maxstack 1023, .quirk_sifive true]
  else if s = "p550x8".toList then some [.src 3, .ts 40, .addr 48, .maxstack 1023, .quirk_sifive true]
  else none

/-- The text that an option starts with, and what it sets with the rest. -/
def forms : List (List Char × (List Char → Option (List Setting))) :=
  [("model=".toList, documented_model),
   ("ts=".toList, fun s => (integer s).map fun n => [.ts n]),
   ("src=".toList, fun s => (integer s).map fun n => [.src n]),
   ("addr=".toList, fun s => (integer s).map fun n => [.addr n]),
   ("maxstack=".toList, fun s => (integer s).map fun n => [.maxstack n]),
   ("timerfreq=".toList, fun s => (frequency s).map fun n => [.timerfreq n]),
   ("quirk-sifive".toList, fun s => if s = [] then some [.quirk_sifive true] else none),
   ("no-quirk-sifive".toList, fun s => if s = [] then some [.quirk_sifive false] else none)]

/-- What an option sets, if it has one of the documented forms. -/
def document (opt : List Char) : Option (List Setting) := forms.findSome? fun f => (after f.1 opt).bind f.2

/-- A string is accepted if all its options are documented, and then it sets what they say. -/
def MatchesGrammar (str : List Char) : Prop :=
  ((∃ c, hwcfg_parse str = some (.ok (), c)) ↔ ∀ o ∈ hw_options str, (document o).isSome = true) ∧
    ∀ c, hwcfg_parse str = some (.ok (), c) → (∀ o ∈ hw_options str, (document o).isSome = true) →
      c.values = HwValues.zero.apply (settings document (hw_options str))

/-! ## What the code does otherwise -/

/-- A frequency of 0, or in KHz or MHz: the code spells these Khz and Mhz. -/
def odd_freq (opt : List Char) : Bool :=
  match after "timerfreq=".toList opt with
  | none => false
  | some s => match leading s with
    | none => false
    | some r => decide (r.1 = 0 ∨ r.2 = "KHz".toList ∨ r.2 = "MHz".toList)

/-- What the code accepts as a frequency: white space and a sign before the number, and its own units. -/
def loose_freq (s : List Char) : Bool :=
  match unsigned 10 (s.dropWhile isSpace) with
  | none => false
  | some r => decide (r.1 ≠ 0 ∧ r.2 ∈ ["GHz".toList, "Mhz".toList, "Khz".toList, "Hz".toList])

/-- What the code accepts as an option: `no-` before any of them, and any text as a number. -/
def loose (opt : List Char) : Bool :=
  let opt := (after "no-".toList opt).getD opt
  ["ts=", "src=", "addr=", "maxstack="].any (fun p => (after p.toList opt).isSome) ||
    decide (opt = "quirk-sifive".toList) ||
    (after "timerfreq=".toList opt).any loose_freq ||
    (after "model=".toList opt).any fun s => (model_settings s).isSome

def Setting.maxstack? : Setting → Option Nat
  | .maxstack n => some n
  | _ => none

/-- The last option that sets a member. -/
def last_setter (f : Setting → Option Nat) (opts : List (List Char)) : Option (List Char) :=
  (opts.filter fun o => ((document o).getD []).any fun x => (f x).isSome).getLast?

/-- The values fit into the members. -/
structure HwValues.Fits (d : HwValues) : Prop where
  src_bits : d.src_bits < 2 ^ 32
  ts_bits : d.ts_bits < 2 ^ 32
  addr_bits : d.addr_bits < 2 ^ 32
  max_stack : d.max_stack < 2 ^ 32
  timer_freq : d.timer_freq < 2 ^ 64

/-! ## Numbers -/

section Numbers
variable {s : List Char} {r : Nat × List Char}

theorem strtoul_leading (h : leading s = some r) : strtoul s = (min r.1 (2 ^ 64 - 1), r.2) := by
  unfold strtoul
  rw [unsigned_leading h]
  rfl

theorem atoi_leading (h : leading s = some r) : atoi s = min r.1 (2 ^ 63 - 1) % 2 ^ 32 := by
  obtain ⟨hspace, hsign, -, rfl⟩ := leading_start h
  unfold atoi
  rw [hspace, hsign]
  rfl

end Numbers

/-! ## One option -/

/-- A member of `bits` bits that is set to `n`: a number that is too large leaves something else there. -/
def Held (bits v n : Nat) : Prop := v < 2 ^ bits ∧ (n < 2 ^ bits → v = n)

/-- What the code stores for a setting. -/
inductive Stores : Setting → Setting → Prop where
  | src {v n} (h : Held 32 v n) : Stores (.src v) (.src n)
  | ts {v n} (h : Held 32 v n) : Stores (.ts v) (.ts n)
  | addr {v n} (h : Held 32 v n) : Stores (.addr v) (.addr n)
  | maxstack {v n} (h : Held 32 v n) : Stores (.maxstack v) (.maxstack n)
  | timerfreq {v n} (h : Held 64 v n) : Stores (.timerfreq v) (.timerfreq n)
  | quirk_sifive (b) : Stores (.quirk_sifive b) (.quirk_sifive b)

section Options
variable {opt s : List Char} {ds ss : List Setting}

theorem held_self {bits n : Nat} (h : n < 2 ^ bits) : Held bits n n := ⟨h, fun _ => rfl⟩

theorem atoi_held {n : Nat} (h : integer s = some n) : Held 32 (atoi s) n := by
  obtain ⟨r, hr, h⟩ := Option.bind_eq_some_iff.1 h
  split at h
  · cases h
    rw [atoi_leading hr]
    constructor
    · exact Nat.mod_lt _ (by decide)
    · intro hn
      rw [Nat.min_eq_left (by omega), Nat.mod_eq_of_lt hn]
  · cases h

/-- A documented frequency is refused, or it is stored. -/
theorem freq_stored {n : Nat} (h : frequency s = some n) (opt : List Char) (hopt : after "timerfreq=".toList opt = some s) :
    (odd_freq opt = true ∧ stored_freq s = none) ∨ (odd_freq opt = false ∧ ∃ v, stored_freq s = some [.timerfreq v] ∧ Held 64 v n) := by
  obtain ⟨r, hr, h⟩ := Option.bind_eq_some_iff.1 h
  obtain ⟨u, hu, rfl⟩ := Option.map_eq_some_iff.1 h
  unfold odd_freq stored_freq
  rw [hopt, strtoul_leading hr]
  dsimp only
  rw [hr]
  dsimp only
  by_cases h0 : r.1 = 0
  · refine .inl ⟨decide_eq_true (.inl h0), ?_⟩
    rw [h0]
    rfl
  have hmin : ¬ min r.1 (2 ^ 64 - 1) = 0 := by omega
  rw [if_neg hmin]
  have hheld : 0 < u → Held 64 (min r.1 (2 ^ 64 - 1) * u % 2 ^ 64) (r.1 * u) := by
    intro hpos
    constructor
    · exact Nat.mod_lt _ (by decide)
    · intro hlt
      have hle : r.1 ≤ r.1 * u := Nat.le_mul_of_pos_right _ hpos
      rw [Nat.min_eq_left (by omega), Nat.mod_eq_of_lt hlt]
  unfold freq_unit at hu
  split at hu
  · rename_i hHz
    cases hu
    rw [hHz]
    exact .inr ⟨decide_eq_false (by simp [h0]), _, rfl, hheld (by decide)⟩
  split at hu
  · rename_i hK
    rw [hK]
    exact .inl ⟨decide_eq_true (.inr (.inl rfl)), rfl⟩
  split at hu
  · rename_i hM
    rw [hM]
    exact .inl ⟨decide_eq_true (.inr (.inr rfl)), rfl⟩
  split at hu
  · rename_i hG
    cases hu
    rw [hG]
    exact .inr ⟨decide_eq_false (by simp [h0]), _, rfl, hheld (by decide)⟩
  · cases hu

theorem stored_timerfreq (s : List Char) : stored_option ("timerfreq=".toList ++ s) = stored_freq s := rfl

theorem stored_model (s : List Char) : stored_option ("model=".toList ++ s) = model_settings s := by
  have hno : after "no-".toList ("model=".toList ++ s) = none := rfl
  have hts : after "ts=".toList ("model=".toList ++ s) = none := rfl
  have hsrc : after "src=".toList ("model=".toList ++ s) = none := rfl
  have haddr : after "addr=".toList ("model=".toList ++ s) = none := rfl
  have hmax : after "maxstack=".toList ("model=".toList ++ s) = none := rfl
  have hfreq : after "timerfreq=".toList ("model=".toList ++ s) = none := rfl
  have hquirk : "model=".toList ++ s ≠ "quirk-sifive".toList := by
    intro h
    have hhead : some 'm' = some 'q' := congrArg List.head? h
    exact absurd hhead (by decide)
  unfold stored_option
  simp only [hno, Option.isSome_none, Option.getD_none, hts, hsrc, haddr, hmax, hfreq, hquirk, if_false, after_append, Option.bind_some]

/-- What the code stores for a documented option: what is documented, but for the models of which it sets other values. -/
inductive StoresFor : List Char → List Setting → List Setting → Prop where
  | plain {o : List Char} {stored documented : List Setting} (hs : List.Forall₂ Stores stored documented) (h4 : o ≠ "model=p550x4".toList)
      (h8 : o ≠ "model=p550x8".toList) : StoresFor o stored documented
  | p550x4 : StoresFor "model=p550x4".toList [.src 2, .ts 40, .addr 48, .maxstack 1024, .quirk_sifive true]
      [.src 2, .ts 40, .addr 48, .maxstack 1023, .quirk_sifive true]
  | p550x8 : StoresFor "model=p550x8".toList [.src 2, .ts 40, .addr 48, .maxstack 1024, .quirk_sifive true]
      [.src 3, .ts 40, .addr 48, .maxstack 1023, .quirk_sifive true]

/-- Another option is no model. -/
theorem stores_other (hmodel : after "model=".toList opt = none) (hs : List.Forall₂ Stores ss ds) : StoresFor opt ss ds := by
  apply StoresFor.plain hs
  · intro h
    subst h
    cases hmodel
  · intro h
    subst h
    cases hmodel

theorem model_stores (h : documented_model s = some ds) :
    ∃ ss, model_settings s = some ss ∧ StoresFor ("model=".toList ++ s) ss ds := by
  have hgeneric : ∀ n, n < 2 ^ 32 → List.Forall₂ Stores [.addr n, .maxstack 32] [.addr n, .maxstack 32] :=
    fun n hn => .cons (.addr (held_self hn)) (.cons (.maxstack (held_self (by decide))) .nil)
  unfold documented_model at h
  split at h
  · rename_i hs
    subst hs
    cases h
    exact ⟨_, rfl, .plain (hgeneric 32 (by decide)) (by decide) (by decide)⟩
  split at h
  · rename_i hs
    subst hs
    cases h
    exact ⟨_, rfl, .plain (hgeneric 64 (by decide)) (by decide) (by decide)⟩
  split at h
  · rename_i hs
    subst hs
    cases h
    exact ⟨_, rfl, .p550x4⟩
  split at h
  · rename_i hs
    subst hs
    cases h
    exact ⟨_, rfl, .p550x8⟩
  · cases h

/-- An option of a documented form is refused if its frequency is odd, and else it is stored. -/
theorem document_stored (h : document opt = some ds) : (odd_freq opt = true ∧ stored_option opt = none) ∨
    (odd_freq opt = false ∧ ∃ ss, stored_option opt = some ss ∧ StoresFor opt ss ds) := by
  obtain ⟨f, hf, h⟩ := List.exists_of_findSome?_eq_some h
  obtain ⟨s, hs, hset⟩ := Option.bind_eq_some_iff.1 h
  have hopt := after_some hs
  simp only [forms, List.mem_cons, List.not_mem_nil, or_false] at hf
  rcases hf with rfl | rfl | rfl | rfl | rfl | rfl | rfl | rfl
  · subst hopt
    obtain ⟨ss, hss, hstores⟩ := model_stores hset
    exact .inr ⟨rfl, ss, (stored_model s).trans hss, hstores⟩
  · obtain ⟨n, hn, rfl⟩ := Option.map_eq_some_iff.1 hset
    subst hopt
    exact .inr ⟨rfl, _, rfl, stores_other rfl (.cons (.ts (atoi_held hn)) .nil)⟩
  · obtain ⟨n, hn, rfl⟩ := Option.map_eq_some_iff.1 hset
    subst hopt
    exact .inr ⟨rfl, _, rfl, stores_other rfl (.cons (.src (atoi_held hn)) .nil)⟩
  · obtain ⟨n, hn, rfl⟩ := Option.map_eq_some_iff.1 hset
    subst hopt
    exact .inr ⟨rfl, _, rfl, stores_other rfl (.cons (.addr (atoi_held hn)) .nil)⟩
  · obtain ⟨n, hn, rfl⟩ := Option.map_eq_some_iff.1 hset
    subst hopt
    exact .inr ⟨rfl, _, rfl, stores_other rfl (.cons (.maxstack (atoi_held hn)) .nil)⟩
  · obtain ⟨n, hn, rfl⟩ := Option.map_eq_some_iff.1 hset
    rcases freq_stored hn opt hs with ⟨hodd, hnone⟩ | ⟨hodd, v, hv, hheld⟩
    · subst hopt
      exact .inl ⟨hodd, (stored_timerfreq s).trans hnone⟩
    · subst hopt
      exact .inr ⟨hodd, _, (stored_timerfreq s).trans hv, stores_other rfl (.cons (.timerfreq hheld) .nil)⟩
  · dsimp only at hset
    split at hset
    · rename_i hnil
      cases hset
      subst hnil hopt
      exact .inr ⟨rfl, _, rfl, stores_other rfl (.cons (.quirk_sifive true) .nil)⟩
    · cases hset
  · dsimp only at hset
    split at hset
    · rename_i hnil
      cases hset
      subst hnil hopt
      exact .inr ⟨rfl, _, rfl, stores_other rfl (.cons (.quirk_sifive false) .nil)⟩
    · cases hset

theorem loose_freq_stored (s : List Char) : loose_freq s = (stored_freq s).isSome := by
  unfold loose_freq stored_freq stored_unit strtoul
  cases unsigned 10 (s.dropWhile isSpace) with
  | none => rfl
  | some r =>
    dsimp only [Option.getD_some]
    by_cases h0 : r.1 = 0
    · simp [h0]
    · simp only [h0, if_false]
      grind

theorem loose_stored (opt : List Char) : loose opt = (stored_option opt).isSome := by
  unfold loose stored_option
  dsimp only
  generalize (after "no-".toList opt).isSome = negate
  generalize (after "no-".toList opt).getD opt = o
  simp only [List.any_cons, List.any_nil, Bool.or_false]
  cases after "ts=".toList o with
  | some => simp only [Option.isSome_some, Bool.true_or]
  | none =>
    cases after "src=".toList o with
    | some => simp only [Option.isSome_some, Bool.true_or, Bool.or_true]
    | none =>
      cases after "addr=".toList o with
      | some => simp only [Option.isSome_some, Bool.true_or, Bool.or_true]
      | none =>
        cases after "maxstack=".toList o with
        | some => simp only [Option.isSome_some, Bool.true_or, Bool.or_true]
        | none =>
          dsimp only
          by_cases hquirk : o = "quirk-sifive".toList
          · rw [if_pos hquirk, decide_eq_true hquirk, Bool.or_true, Bool.true_or, Bool.true_or]
            rfl
          rw [if_neg hquirk, decide_eq_false hquirk]
          simp only [Option.isSome_none, Bool.false_or]
          cases hfreq : after "timerfreq=".toList o with
          | some s =>
            have hmodel : after "model=".toList o = none := by
              rw [after_some hfreq]
              rfl
            rw [hmodel, Option.any_some, Option.any_none, Bool.or_false]
            exact loose_freq_stored s
          | none =>
            rw [Option.any_none, Bool.false_or]
            cases after "model=".toList o <;> rfl

end Options

/-! ## The whole string -/

/-- The values `d` as the members hold them. With `src`, and with `stack`, the member has what the code sets for a model, and not
what is documented. -/
structure HoldsValues (src stack : Bool) (c d : HwValues) : Prop where
  src_bits : if src then c.src_bits = 2 ∧ d.src_bits = 3 else Held 32 c.src_bits d.src_bits
  ts_bits : Held 32 c.ts_bits d.ts_bits
  addr_bits : Held 32 c.addr_bits d.addr_bits
  max_stack : if stack then c.max_stack = 1024 ∧ d.max_stack = 1023 else Held 32 c.max_stack d.max_stack
  timer_freq : Held 64 c.timer_freq d.timer_freq
  HTM : c.HTM = d.HTM
  VAO : c.VAO = d.VAO
  quirk_sifive : c.quirk_sifive = d.quirk_sifive

section Grammar
variable {c d : HwValues} {x y : Setting} {ss ds : List Setting} {opt : List Char} {opts : List (List Char)} {src stack : Bool}

theorem holds_zero : HoldsValues false false .zero .zero :=
  ⟨held_self (by decide), held_self (by decide), held_self (by decide), held_self (by decide), held_self (by decide), rfl, rfl, rfl⟩

theorem holds_set (h : HoldsValues src stack c d) (hx : Stores x y) :
    HoldsValues (if y.src?.isSome then false else src) (if y.maxstack?.isSome then false else stack) (c.set x) (d.set y) := by
  cases hx with
  | src hv => exact { h with src_bits := hv }
  | ts hv => exact { h with ts_bits := hv }
  | addr hv => exact { h with addr_bits := hv }
  | maxstack hv => exact { h with max_stack := hv }
  | timerfreq hv => exact { h with timer_freq := hv }
  | quirk_sifive b => exact { h with quirk_sifive := rfl }

theorem holds_apply (hs : List.Forall₂ Stores ss ds) (h : HoldsValues src stack c d) :
    HoldsValues (if ds.any fun y => y.src?.isSome then false else src) (if ds.any fun y => y.maxstack?.isSome then false else stack)
      (c.apply ss) (d.apply ds) := by
  induction hs generalizing c d src stack with
  | nil => exact h
  | @cons x y ss ds hx _ ih =>
    have hflag : ∀ (a b : Bool) (flag : Bool), (if a || b then false else flag) = if b then false else if a then false else flag := by decide
    rw [List.any_cons, List.any_cons, hflag, hflag]
    exact ih (holds_set h hx)

/-- An option sets the members to what is documented, but for the two models. -/
theorem holds_option (h : HoldsValues src stack c d) (ho : StoresFor opt ss ds) :
    HoldsValues (if ds.any fun y => y.src?.isSome then decide (opt = "model=p550x8".toList) else src)
      (if ds.any fun y => y.maxstack?.isSome then decide (opt = "model=p550x4".toList ∨ opt = "model=p550x8".toList) else stack)
      (c.apply ss) (d.apply ds) := by
  cases ho with
  | plain hs h4 h8 =>
    rw [decide_eq_false h8, decide_eq_false (not_or.2 ⟨h4, h8⟩)]
    exact holds_apply hs h
  | p550x4 =>
    have hsmall : ∀ n : Nat, n ≤ 48 → Held 32 n n := fun n hn => held_self (by omega)
    exact ⟨hsmall 2 (by decide), hsmall 40 (by decide), hsmall 48 (by decide), ⟨rfl, rfl⟩, h.timer_freq, h.HTM, h.VAO, rfl⟩
  | p550x8 =>
    have hsmall : ∀ n : Nat, n ≤ 48 → Held 32 n n := fun n hn => held_self (by omega)
    exact ⟨⟨rfl, rfl⟩, hsmall 40 (by decide), hsmall 48 (by decide), ⟨rfl, rfl⟩, h.timer_freq, h.HTM, h.VAO, rfl⟩

theorem last_setter_snoc (f : Setting → Option Nat) (opts : List (List Char)) (o : List Char) : last_setter f (opts ++ [o]) =
    if ((document o).getD []).any fun x => (f x).isSome then some o else last_setter f opts := by
  unfold last_setter
  rw [List.filter_append, List.filter_singleton]
  cases ((document o).getD []).any fun x => (f x).isSome with
  | true => exact List.getLast?_concat
  | false =>
    rw [cond_false, List.append_nil]
    rfl

theorem settings_snoc {f : List Char → Option (List Setting)} (h : f opt = some ss) : settings f (opts ++ [opt]) = settings f opts ++ ss := by
  simp [settings, h]

/-- The last option that sets a member decides whether it has what is documented. -/
theorem holds_options (h : ∀ o ∈ opts, (document o).isSome = true ∧ odd_freq o = false) :
    HoldsValues (decide (last_setter Setting.src? opts = some "model=p550x8".toList))
      (decide (last_setter Setting.maxstack? opts = some "model=p550x4".toList ∨ last_setter Setting.maxstack? opts = some "model=p550x8".toList))
      (HwValues.zero.apply (settings stored_option opts)) (HwValues.zero.apply (settings document opts)) := by
  induction opts using List.reverseRecOn with
  | nil => exact holds_zero
  | append_singleton opts o ih =>
    have ih := ih fun o' ho' => h o' (List.mem_append_left _ ho')
    obtain ⟨hdoc, hfreq⟩ := h o (List.mem_append_right _ (List.mem_singleton_self o))
    obtain ⟨ds, hds⟩ := Option.isSome_iff_exists.1 hdoc
    rcases document_stored hds with ⟨hodd, -⟩ | ⟨-, ss, hss, hstores⟩
    · rw [hfreq] at hodd
      cases hodd
    · have hstep := holds_option ih hstores
      rw [settings_snoc hss, settings_snoc hds, apply_append, apply_append, last_setter_snoc, last_setter_snoc, hds, Option.getD_some]
      cases hsrc : ds.any fun y => y.src?.isSome <;> cases hstack : ds.any fun y => y.maxstack?.isSome <;>
        simpa only [hsrc, hstack, if_true, if_false, Bool.false_eq_true, Option.some.injEq] using hstep

/-- The members hold what fits and is documented, and nothing else. -/
theorem holds_eq_iff (h : HoldsValues src stack c d) : c = d ↔ d.Fits ∧ src = false ∧ stack = false := by
  obtain ⟨hsrc, hts, haddr, hmax, hfreq, hHTM, hVAO, hquirk⟩ := h
  constructor
  · intro heq
    subst heq
    cases src with
    | true => exact absurd (hsrc.1.symm.trans hsrc.2) (by decide)
    | false =>
      cases stack with
      | true => exact absurd (hmax.1.symm.trans hmax.2) (by decide)
      | false => exact ⟨⟨hsrc.1, hts.1, haddr.1, hmax.1, hfreq.1⟩, rfl, rfl⟩
  · rintro ⟨hf, rfl, rfl⟩
    cases c
    cases d
    dsimp only at hHTM hVAO hquirk
    rw [HwValues.mk.injEq]
    exact ⟨hsrc.2 hf.src_bits, hts.2 hf.ts_bits, haddr.2 hf.addr_bits, hmax.2 hf.max_stack, hfreq.2 hf.timer_freq, hHTM, hVAO, hquirk⟩

/-- What is documented is accepted unless its frequency is odd. -/
theorem loose_of_document {o : List Char} (h : (document o).isSome = true) : loose o = true ↔ odd_freq o = false := by
  obtain ⟨ds, hds⟩ := Option.isSome_iff_exists.1 h
  rw [loose_stored]
  rcases document_stored hds with ⟨hodd, hnone⟩ | ⟨hodd, ss, hss, -⟩
  · rw [hodd, hnone]
    exact iff_of_false Bool.false_ne_true (Bool.false_ne_true ·.symm)
  · rw [hodd, hss]
    exact iff_of_true rfl rfl

theorem accepted_iff {str : List Char} : (∃ c, hwcfg_parse str = some (.ok (), c)) ↔ ∀ o ∈ hw_options str, loose o = true := by
  rw [parse_ok_iff]
  simp only [loose_stored]

/-- The grammar is followed by a string with an option that is not documented if one of its options is refused, and by a
documented string without odd frequencies if its values fit, unless a model of which the code sets something else decides
the depth of the stack or the bits of the SRC. -/
theorem matches_grammar_iff (str : List Char) : MatchesGrammar str ↔
    ((∃ o ∈ hw_options str, document o = none) ∧ ∃ o ∈ hw_options str, loose o = false) ∨
    ((∀ o ∈ hw_options str, (document o).isSome = true ∧ odd_freq o = false) ∧
      (HwValues.zero.apply (settings document (hw_options str))).Fits ∧
      last_setter Setting.src? (hw_options str) ≠ some "model=p550x8".toList ∧
      last_setter Setting.maxstack? (hw_options str) ≠ some "model=p550x4".toList ∧
      last_setter Setting.maxstack? (hw_options str) ≠ some "model=p550x8".toList) := by
  unfold MatchesGrammar
  rw [accepted_iff]
  by_cases hdoc : ∀ o ∈ hw_options str, (document o).isSome = true
  · have hnone : ¬ ∃ o ∈ hw_options str, document o = none := by
      rintro ⟨o, ho, hnone⟩
      have hsome := hdoc o ho
      rw [hnone] at hsome
      cases hsome
    have hall : (∀ o ∈ hw_options str, loose o = true) ↔ ∀ o ∈ hw_options str, (document o).isSome = true ∧ odd_freq o = false := by
      constructor
      · exact fun h o ho => ⟨hdoc o ho, (loose_of_document (hdoc o ho)).1 (h o ho)⟩
      · exact fun h o ho => (loose_of_document (hdoc o ho)).2 (h o ho).2
    rw [hall]
    constructor
    · rintro ⟨hiff, hvalues⟩
      have hall' := hiff.2 hdoc
      obtain ⟨c, hc⟩ := accepted_iff.2 (hall.2 hall')
      have hheld := holds_options hall'
      rw [← parsed_values hc] at hheld
      obtain ⟨hfits, hsrc, hstack⟩ := (holds_eq_iff hheld).1 (hvalues c hc hdoc)
      exact .inr ⟨hall', hfits, of_decide_eq_false hsrc, not_or.1 (of_decide_eq_false hstack)⟩
    · rintro (⟨hbad, -⟩ | ⟨hall', hfits, hsrc, hstack⟩)
      · exact absurd hbad hnone
      · refine ⟨iff_of_true hall' hdoc, fun c hc _ => ?_⟩
        have hheld := holds_options hall'
        rw [← parsed_values hc] at hheld
        exact (holds_eq_iff hheld).2 ⟨hfits, decide_eq_false hsrc, decide_eq_false (not_or.2 hstack)⟩
  · have hbad : ∃ o ∈ hw_options str, document o = none := by
      by_contra hno
      refine hdoc fun o ho => ?_
      cases hd : document o with
      | some => rfl
      | none => exact absurd ⟨o, ho, hd⟩ hno
    constructor
    · rintro ⟨hiff, -⟩
      refine .inl ⟨hbad, ?_⟩
      by_contra hno
      refine hdoc (hiff.1 fun o ho => ?_)
      cases hl : loose o with
      | true => rfl
      | false => exact absurd ⟨o, ho, hl⟩ hno
    · rintro (⟨-, o, ho, hl⟩ | ⟨hall, -⟩)
      · refine ⟨iff_of_false (fun h => ?_) hdoc, fun c _ h => absurd h hdoc⟩
        have hl' := h o ho
        rw [hl] at hl'
        cases hl'
      · exact absurd (fun o ho => (hall o ho).1) hdoc

end Grammar

/-- `timerfreq=1MHz` is documented, and refused. -/
theorem mhz_refused : ¬ ∀ str, MatchesGrammar str := by
  intro hall
  have hdoc : ∀ o ∈ hw_options "timerfreq=1MHz".toList, (document o).isSome = true := by decide +kernel
  obtain ⟨c, hc⟩ := (hall "timerfreq=1MHz".toList).1.2 hdoc
  have hparse : (hwcfg_parse "timerfreq=1MHz".toList).map Prod.fst = some (.error .hwcfg_invalid) := by decide +kernel
  rw [hc] at hparse
  cases hparse

/-- `timerfreq=700Mhz` is not documented, and accepted. -/
example : document "timerfreq=700Mhz".toList = none ∧ loose "timerfreq=700Mhz".toList = true := by decide +kernel

end nexusrv
