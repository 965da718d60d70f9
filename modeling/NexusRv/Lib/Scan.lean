import Mathlib.Algebra.Group.Nat.Defs
import Mathlib.Tactic.Basic
/-!
# Formatted text

`scanf` on a text: white space, characters that have to be there, unsigned numbers and
words. A number that `printf` wrote is read back.
-/

namespace Scan

/-! ## Numbers -/

/-- C's `isspace`. -/
def isSpace (c : Char) : Bool := c = ' ' || (9 ≤ c.toNat && c.toNat ≤ 13)

/-- The value of a character as a digit. -/
def digitValue (c : Char) : Option Nat :=
  if '0' ≤ c ∧ c ≤ '9' then some (c.toNat - 48)
  else if 'a' ≤ c ∧ c ≤ 'z' then some (c.toNat - 87)
  else if 'A' ≤ c ∧ c ≤ 'Z' then some (c.toNat - 55)
  else none

def digit (base : Nat) (c : Char) : Option Nat := (digitValue c).filter (· < base)

/-- The digits at the front, behind `acc`. -/
def numeral (base : Nat) : Nat → List Char → Nat × List Char
  | acc, [] => (acc, [])
  | acc, c :: s => match digit base c with
    | some d => numeral base (acc * base + d) s
    | none => (acc, c :: s)

def sign : List Char → Bool × List Char
  | '-' :: s => (true, s)
  | '+' :: s => (false, s)
  | s => (false, s)

def hexMark : List Char → List Char
  | '0' :: 'x' :: s => s
  | '0' :: 'X' :: s => s
  | s => s

/-- The value of a number: one that is too large is the largest, whatever its sign, and else a minus sign negates. -/
def value (negative : Bool) (n : Nat) : Nat :=
  if 2 ^ 64 ≤ n then 2 ^ 64 - 1 else if negative then (2 ^ 64 - n) % 2 ^ 64 else n

/-- A number as `scanf` reads it, and what follows it. `0x` is passed even if no digit follows, and is 0 then. -/
def unsigned (base : Nat) (s : List Char) : Option (Nat × List Char) :=
  let r := sign s
  if (r.2.head?.bind (digit base)).isSome then
    let n := numeral base 0 (if base = 16 then hexMark r.2 else r.2)
    some (value r.1 n.1, n.2)
  else none

/-! ## Directives -/

/-- What a format asks for. -/
inductive Directive where
  | space
  | char (c : Char)
  | number (base bits : Nat)
  | word

inductive Value where
  | number (n : Nat)
  | word (s : List Char)
  deriving DecidableEq

/-- What `scanf` stored, whether it came to the end of the text first, and what is left of it. -/
structure Scanned where
  values : List Value
  eof : Bool
  rest : List Char
  deriving DecidableEq

def Scanned.store (v : Value) (r : Scanned) : Scanned := { r with values := v :: r.values }

def scan : List Directive → List Char → Scanned
  | [], s => ⟨[], false, s⟩
  | .space :: ds, s => scan ds (s.dropWhile isSpace)
  | .char _ :: _, [] => ⟨[], true, []⟩
  | .char c :: ds, x :: s => if x = c then scan ds s else ⟨[], false, x :: s⟩
  | .number base bits :: ds, s =>
    let s := s.dropWhile isSpace
    if s = [] then ⟨[], true, []⟩
    else match unsigned base s with
      | none => ⟨[], false, s⟩
      | some (v, s) => (scan ds s).store (.number (v % 2 ^ bits))
  | .word :: ds, s =>
    let s := s.dropWhile isSpace
    if s = [] then ⟨[], true, []⟩ else (scan ds (s.dropWhile fun c => !isSpace c)).store (.word (s.takeWhile fun c => !isSpace c))

/-- The text of a format: a blank stands for any white space. -/
def directives (s : List Char) : List Directive := s.map fun c => if isSpace c then .space else .char c

section Lemmas
variable {base n acc : Nat} {s : List Char} {ds : List Directive}

/-! ## What was printed -/

theorem digitValue_digitChar : ∀ d < 16, digitValue (Nat.digitChar d) = some d := by decide

theorem digit_digitChar {d : Nat} (h : d < base) (hb : base ≤ 16) : digit base (Nat.digitChar d) = some d := by
  rw [digit, digitValue_digitChar d (by omega)]
  simp [h]

/-- Reading goes on behind the digits of a number. -/
theorem numeral_toDigits (h1 : 1 < base) (hb : base ≤ 16) (n : Nat) (s : List Char) :
    numeral base 0 (Nat.toDigits base n ++ s) = numeral base n s := by
  induction n using Nat.strongRecOn generalizing s with
  | _ n ih =>
    by_cases hn : n < base
    · rw [Nat.toDigits_of_lt_base hn, List.singleton_append, numeral, digit_digitChar hn hb]
      simp
    · have hle := Nat.le_of_not_lt hn
      have hdiv : n / base < n := Nat.div_lt_self (by omega) h1
      have hmod : n % base < base := Nat.mod_lt _ (by omega)
      rw [Nat.toDigits_of_base_le h1 hle, List.append_assoc, ih _ hdiv, List.singleton_append, numeral, digit_digitChar hmod hb]
      dsimp only
      rw [Nat.div_add_mod']

/-- The text does not go on with a digit or a letter. -/
def Stops (s : List Char) : Prop := ∀ c ∈ s.head?, digitValue c = none

theorem numeral_stops (h : Stops s) : numeral base acc s = (acc, s) := by
  cases s with
  | nil => rfl
  | cons c s =>
    have hc : digit base c = none := by rw [digit, h c rfl]; rfl
    rw [numeral, hc]

/-- A printed number is made of digits. -/
theorem toDigits_mem (h1 : 1 < base) (n : Nat) : ∀ c ∈ Nat.toDigits base n, ∃ d < base, c = Nat.digitChar d := by
  induction n using Nat.strongRecOn with
  | _ n ih =>
    intro c hc
    by_cases hn : n < base
    · rw [Nat.toDigits_of_lt_base hn] at hc
      exact ⟨n, hn, List.mem_singleton.1 hc⟩
    · have hle := Nat.le_of_not_lt hn
      rw [Nat.toDigits_of_base_le h1 hle] at hc
      rcases List.mem_append.1 hc with hc | hc
      · exact ih _ (Nat.div_lt_self (by omega) h1) c hc
      · exact ⟨n % base, Nat.mod_lt _ (by omega), List.mem_singleton.1 hc⟩

theorem toDigits_value (h1 : 1 < base) (hb : base ≤ 16) {c : Char} (hc : c ∈ Nat.toDigits base n) : ∃ d < base, digitValue c = some d := by
  obtain ⟨d, hd, rfl⟩ := toDigits_mem h1 n c hc
  exact ⟨d, hd, digitValue_digitChar d (by omega)⟩

theorem value_fits (h : n < 2 ^ 64) : value false n = n := by
  unfold value
  rw [if_neg (Nat.not_le.2 h), if_neg Bool.false_ne_true]

theorem sign_other {c : Char} {d : Nat} (h : digitValue c = some d) : sign (c :: s) = (false, c :: s) := by
  unfold sign
  split
  · rename_i heq
    cases heq
    cases h
  · rename_i heq
    cases heq
    cases h
  · rfl

theorem hexMark_other {c : Char} (h : ∀ x ∈ s.head?, ∀ d, digitValue x = some d → d < 16) : hexMark (c :: s) = c :: s := by
  unfold hexMark
  split
  · rename_i heq
    cases heq
    exact absurd (h 'x' rfl 33 rfl) (by decide)
  · rename_i heq
    cases heq
    exact absurd (h 'X' rfl 33 rfl) (by decide)
  · rfl

/-- A text of digits is read. -/
theorem unsigned_numeral {ds : List Char} (hne : ds ≠ []) (hvalue : ∀ c ∈ ds, ∃ d < base, digitValue c = some d) (hb : base ≤ 16)
    (hread : numeral base 0 (ds ++ s) = (n, s)) (hn : n < 2 ^ 64) (h : Stops s) : unsigned base (ds ++ s) = some (n, s) := by
  rcases ds with _ | ⟨c, ds⟩
  · exact absurd rfl hne
  obtain ⟨d, hd, hc⟩ := hvalue c List.mem_cons_self
  have hmark : hexMark (c :: (ds ++ s)) = c :: (ds ++ s) := by
    refine hexMark_other fun x hx e he => ?_
    rcases ds with _ | ⟨y, ds⟩
    · rw [h x hx] at he
      cases he
    · obtain ⟨d', hd', hy⟩ := hvalue y (List.mem_cons_of_mem _ List.mem_cons_self)
      cases hx
      rw [hy] at he
      cases he
      omega
  have hdigit : digit base c = some d := by rw [digit, hc]; simp [hd]
  rw [List.cons_append] at hread ⊢
  unfold unsigned
  rw [sign_other hc]
  simp only [hmark, ite_self, List.head?_cons, Option.bind_some, hdigit, Option.isSome_some, if_true, hread, value_fits hn]

/-- A number that was printed is read back. -/
theorem unsigned_toDigits (h1 : 1 < base) (hb : base ≤ 16) (hn : n < 2 ^ 64) (h : Stops s) :
    unsigned base (Nat.toDigits base n ++ s) = some (n, s) := by
  have hread := numeral_toDigits h1 hb n s
  rw [numeral_stops h] at hread
  exact unsigned_numeral Nat.toDigits_ne_nil (fun _ => toDigits_value h1 hb) hb hread hn h

theorem numeral_zeros (hb : 0 < base) (k : Nat) (s : List Char) : numeral base 0 (List.replicate k '0' ++ s) = numeral base 0 s := by
  induction k with
  | zero => rfl
  | succ k ih =>
    have hzero : digit base '0' = some 0 := by
      rw [digit, show digitValue '0' = some 0 from rfl]
      simp [hb]
    rw [List.replicate_succ, List.cons_append, numeral, hzero]
    simpa using ih

/-- A number that was printed with zeros in front is read back. -/
theorem unsigned_leftpad (h1 : 1 < base) (hb : base ≤ 16) (hn : n < 2 ^ 64) (k : Nat) (h : Stops s) :
    unsigned base ((Nat.toDigits base n).leftpad k '0' ++ s) = some (n, s) := by
  have hread := numeral_toDigits h1 hb n s
  rw [numeral_stops h] at hread
  unfold List.leftpad
  apply unsigned_numeral _ _ hb _ hn h
  · exact fun hnil => Nat.toDigits_ne_nil (List.append_eq_nil_iff.1 hnil).2
  · intro c hc
    rcases List.mem_append.1 hc with hc | hc
    · rw [(List.mem_replicate.1 hc).2]
      exact ⟨0, by omega, rfl⟩
    · exact toDigits_value h1 hb hc
  · rw [List.append_assoc, numeral_zeros (by omega), hread]

/-! ## Formats -/

/-- Text that was printed from the text of a format. -/
theorem scan_directives (p : List Char) (ds : List Directive) (hs : ∀ c ∈ p, isSpace c = false) :
    scan (directives p ++ ds) (p ++ s) = scan ds s := by
  induction p with
  | nil => rfl
  | cons c p ih =>
    have hc : isSpace c = false := hs c List.mem_cons_self
    rw [directives, List.map_cons, hc, List.cons_append, List.cons_append]
    simp only [Bool.false_eq_true, if_false, scan, if_true]
    exact ih fun x hx => hs x (List.mem_cons_of_mem _ hx)

theorem dropWhile_none {p : Char → Bool} (hs : ∀ c ∈ s.head?, p c = false) : s.dropWhile p = s := by
  cases s with
  | nil => rfl
  | cons c s => rw [List.dropWhile_cons, hs c rfl]; rfl

theorem scan_char (c : Char) : scan (.char c :: ds) (c :: s) = scan ds s := if_pos rfl

theorem scan_no_space (hs : ∀ c ∈ s.head?, isSpace c = false) : scan (.space :: ds) s = scan ds s := congrArg (scan ds) (dropWhile_none hs)

theorem scan_space (ds : List Directive) (hs : ∀ c ∈ s.head?, isSpace c = false) : scan (.space :: ds) (' ' :: s) = scan ds s := by
  rw [scan, List.dropWhile_cons]
  exact congrArg (scan ds) (dropWhile_none hs)

theorem digitValue_space {c : Char} (h : isSpace c = true) : digitValue c = none := by
  have hle : c.toNat ≤ 32 := by
    simp [isSpace] at h
    rcases h with rfl | h
    · decide
    · omega
  have hlow : ∀ x : Char, 48 ≤ x.toNat → ¬ x ≤ c := by
    intro x hx hxc
    have hxc : x.toNat ≤ c.toNat := UInt32.le_iff_toNat_le.1 (Char.le_def.1 hxc)
    omega
  unfold digitValue
  rw [if_neg fun h => hlow _ (by decide) h.1, if_neg fun h => hlow _ (by decide) h.1, if_neg fun h => hlow _ (by decide) h.1]

theorem toDigits_no_space (h1 : 1 < base) (hb : base ≤ 16) {c : Char} (hc : c ∈ Nat.toDigits base n) : isSpace c = false := by
  obtain ⟨d, -, hd⟩ := toDigits_value h1 hb hc
  refine Bool.eq_false_iff.2 fun hsp => ?_
  rw [digitValue_space hsp] at hd
  cases hd

theorem scan_number {bits : Nat} (h1 : 1 < base) (hb : base ≤ 16) (hn : n < 2 ^ bits) (h64 : bits ≤ 64) (h : Stops s) :
    scan (.number base bits :: ds) (Nat.toDigits base n ++ s) = (scan ds s).store (.number n) := by
  have hn64 : n < 2 ^ 64 := Nat.lt_of_lt_of_le hn (Nat.pow_le_pow_right (by decide) h64)
  have hne : Nat.toDigits base n ++ s ≠ [] := fun hnil => Nat.toDigits_ne_nil (List.append_eq_nil_iff.1 hnil).1
  have hdrop : (Nat.toDigits base n ++ s).dropWhile isSpace = Nat.toDigits base n ++ s := by
    refine dropWhile_none fun c hc => ?_
    rcases hds : Nat.toDigits base n with _ | ⟨x, xs⟩
    · exact absurd hds Nat.toDigits_ne_nil
    · rw [hds] at hc
      cases hc
      exact toDigits_no_space h1 hb (by rw [hds]; exact List.mem_cons_self)
  rw [scan]
  simp only [hdrop, if_neg hne, unsigned_toDigits h1 hb hn64 h, Nat.mod_eq_of_lt hn]

/-- A word that is followed by white space. -/
theorem scan_word {w : List Char} (hne : w ≠ []) (hw : ∀ c ∈ w, isSpace c = false) (hs : ∀ c ∈ s.head?, isSpace c = true) :
    scan (.word :: ds) (w ++ s) = (scan ds s).store (.word w) := by
  have hne' : w ++ s ≠ [] := fun hnil => hne (List.append_eq_nil_iff.1 hnil).1
  have hdrop : (w ++ s).dropWhile isSpace = w ++ s := by
    refine dropWhile_none fun c hc => ?_
    rcases w with _ | ⟨x, xs⟩
    · exact absurd rfl hne
    · cases hc
      exact hw _ List.mem_cons_self
  have hall : ∀ c ∈ w, (!isSpace c) = true := fun c hc => by rw [hw c hc]; rfl
  have htail : s.dropWhile (fun c => !isSpace c) = s := dropWhile_none fun c hc => by rw [hs c hc]; rfl
  have htake : s.takeWhile (fun c => !isSpace c) = [] := by
    cases s with
    | nil => rfl
    | cons c s => rw [List.takeWhile_cons, hs c rfl]; rfl
  rw [scan]
  simp only [hdrop, if_neg hne']
  rw [List.dropWhile_append_of_pos hall, htail, List.takeWhile_append_of_pos hall, htake, List.append_nil]

end Lemmas

/-! ## The front of a text -/

/-- What is left of `s` behind the text `p`, if it starts with it: `strncmp` with the length of `p`. -/
def after : List Char → List Char → Option (List Char)
  | [], s => some s
  | _ :: _, [] => none
  | c :: p, x :: s => if c = x then after p s else none

/-- A decimal number, and what follows it. -/
def leading (s : List Char) : Option (Nat × List Char) :=
  if (s.head?.bind (digit 10)).isSome then some (numeral 10 0 s) else none

section Front
variable {s : List Char} {r : Nat × List Char}

theorem after_append (p s : List Char) : after p (p ++ s) = some s := by
  induction p with
  | nil => rfl
  | cons c p ih => exact (if_pos rfl).trans ih

theorem after_some {p : List Char} : ∀ {s v : List Char}, after p s = some v → s = p ++ v := by
  induction p with
  | nil =>
    intro s v h
    cases h
    rfl
  | cons c p ih =>
    intro s v h
    cases s with
    | nil => cases h
    | cons x s =>
      unfold after at h
      split at h
      · rename_i hc
        rw [hc, ih h]
        rfl
      · cases h

/-- Nothing stands before a number. -/
theorem leading_start (h : leading s = some r) : s.dropWhile isSpace = s ∧ sign s = (false, s) ∧
    (s.head?.bind (digit 10)).isSome = true ∧ r = numeral 10 0 s := by
  unfold leading at h
  split at h
  · rename_i hd
    cases h
    cases s with
    | nil => cases hd
    | cons c s =>
      have hval : ∃ d, digitValue c = some d := by
        cases hv : digitValue c with
        | none => simp [digit, hv] at hd
        | some d => exact ⟨d, rfl⟩
      obtain ⟨d, hval⟩ := hval
      refine ⟨dropWhile_none fun x hx => ?_, sign_other hval, hd, rfl⟩
      cases hx
      refine Bool.eq_false_iff.2 fun hsp => ?_
      rw [digitValue_space hsp] at hval
      cases hval
  · cases h

theorem unsigned_leading (h : leading s = some r) : unsigned 10 (s.dropWhile isSpace) = some (min r.1 (2 ^ 64 - 1), r.2) := by
  obtain ⟨hspace, hsign, hd, rfl⟩ := leading_start h
  have hvalue : ∀ n, value false n = min n (2 ^ 64 - 1) := by
    intro n
    unfold value
    rw [if_neg Bool.false_ne_true]
    split <;> omega
  unfold unsigned
  rw [hspace, hsign, ← hvalue]
  exact if_pos hd

theorem leading_toDigits (n : Nat) (h : Stops s) : leading (Nat.toDigits 10 n ++ s) = some (n, s) := by
  have hread : numeral 10 0 (Nat.toDigits 10 n ++ s) = numeral 10 n s := numeral_toDigits (by decide) (by decide) n s
  rw [numeral_stops h] at hread
  unfold leading
  rw [hread, if_pos]
  rcases hds : Nat.toDigits 10 n with _ | ⟨c, ds⟩
  · exact absurd hds Nat.toDigits_ne_nil
  · have hmem : c ∈ Nat.toDigits 10 n := by
      rw [hds]
      exact List.mem_cons_self
    obtain ⟨d, hd, hc⟩ := toDigits_value (by decide) (by decide) hmem
    simp [digit, hc, hd]

end Front

/-! ## What is left of a text -/

theorem unsigned_length {base v : Nat} {s t : List Char} (h : unsigned base s = some (v, t)) : t.length ≤ s.length := by
  have hsign : (sign s).2.length ≤ s.length := by
    unfold sign
    split <;> simp
  have hmark : ∀ s : List Char, (hexMark s).length ≤ s.length := by
    intro s
    unfold hexMark
    split
    · simp only [List.length_cons]; omega
    · simp only [List.length_cons]; omega
    · exact Nat.le_refl _
  have hnum : ∀ (s : List Char) acc, (numeral base acc s).2.length ≤ s.length := by
    intro s
    induction s with
    | nil => exact fun _ => Nat.le_refl _
    | cons c s ih =>
      intro acc
      unfold numeral
      split
      · exact Nat.le_succ_of_le (ih _)
      · exact Nat.le_refl _
  have hstart : (if base = 16 then hexMark (sign s).2 else (sign s).2).length ≤ s.length := by
    split
    · exact Nat.le_trans (hmark _) hsign
    · exact hsign
  unfold unsigned at h
  dsimp only at h
  generalize (if base = 16 then hexMark (sign s).2 else (sign s).2) = u at h hstart
  split at h
  · cases h
    exact Nat.le_trans (hnum u 0) hstart
  · cases h

/-- `0x` without a digit is read as 0. -/
example : unsigned 16 "0x Src".toList = some (0, " Src".toList) := by decide

theorem scan_length (ds : List Directive) : ∀ s : List Char, (scan ds s).rest.length ≤ s.length := by
  have hdrop : ∀ (p : Char → Bool) (s : List Char), (s.dropWhile p).length ≤ s.length := fun _ _ => (List.dropWhile_sublist _).length_le
  induction ds with
  | nil => exact fun _ => Nat.le_refl _
  | cons d ds ih =>
    intro s
    cases d with
    | space => exact Nat.le_trans (ih _) (hdrop _ s)
    | char c =>
      cases s with
      | nil => exact Nat.le_refl _
      | cons x s =>
        unfold scan
        split
        · exact Nat.le_succ_of_le (ih s)
        · exact Nat.le_refl _
    | number base bits =>
      unfold scan
      dsimp only
      split
      · exact Nat.zero_le _
      · split
        · exact hdrop _ s
        · rename_i v t hu
          exact Nat.le_trans (ih t) (Nat.le_trans (unsigned_length hu) (hdrop _ s))
    | word =>
      unfold scan
      dsimp only
      split
      · exact Nat.zero_le _
      · exact Nat.le_trans (ih _) (Nat.le_trans (hdrop _ _) (hdrop _ s))

end Scan
