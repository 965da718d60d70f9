import Mathlib.Data.Nat.Log
import Mathlib.Data.Nat.Size
import Mathlib.Tactic.Ring
import Mathlib.Tactic.Common
/-!
# Packed bit fields

A group of bit fields is one number: each field starts where the one before it
ends, the first at bit 0. The number is sent as digits of `w` bits, the lowest
digit first, as many as the group's width needs.
-/

namespace Fields

/-- The width of a field in bits, and its value. -/
abbrev Field := Nat × Nat

def width : List Field → Nat
  | [] => 0
  | f :: fs => f.1 + width fs

/-- The number a group of fields spells. -/
def pack : List Field → Nat
  | [] => 0
  | f :: fs => f.2 % 2 ^ f.1 + 2 ^ f.1 * pack fs

theorem width_append (fs gs : List Field) : width (fs ++ gs) = width fs + width gs := by
  induction fs with
  | nil => simp [width]
  | cons f fs ih => simp [width, ih, Nat.add_assoc]

theorem pack_lt (fs : List Field) : pack fs < 2 ^ width fs := by
  induction fs with
  | nil => simp [pack, width]
  | cons f fs ih =>
    have h1 : f.2 % 2 ^ f.1 < 2 ^ f.1 := Nat.mod_lt _ (Nat.two_pow_pos _)
    have h2 : 2 ^ f.1 * (pack fs + 1) ≤ 2 ^ f.1 * 2 ^ width fs := Nat.mul_le_mul_left _ ih
    simp only [pack, width, Nat.pow_add]
    rw [Nat.mul_add] at h2
    omega

theorem pack_append (fs gs : List Field) : pack (fs ++ gs) = pack fs + 2 ^ width fs * pack gs := by
  induction fs with
  | nil => simp [pack, width]
  | cons f fs ih =>
    simp only [List.cons_append, pack, width, ih, Nat.pow_add]
    ring

/-- The lowest field of a group, and the rest of it. -/
theorem pack_cons_mod (f : Field) (fs : List Field) : pack (f :: fs) % 2 ^ f.1 = f.2 % 2 ^ f.1 := by
  simp [pack, Nat.add_mul_mod_self_left]

theorem pack_cons_div (f : Field) (fs : List Field) : pack (f :: fs) / 2 ^ f.1 = pack fs := by
  have h : f.2 % 2 ^ f.1 < 2 ^ f.1 := Nat.mod_lt _ (Nat.two_pow_pos _)
  rw [pack, Nat.add_mul_div_left _ _ (Nat.two_pow_pos _), Nat.div_eq_of_lt h, Nat.zero_add]

/-! ## Digits -/

/-- The number of `w`-bit digits that hold `n` bits. -/
def digitCount (w n : Nat) : Nat := (n + w - 1) / w

theorem digitCount_mul (w k : Nat) (hw : 0 < w) : digitCount w (w * k) = k := by
  rw [digitCount, show w * k + w - 1 = w - 1 + w * k by omega, Nat.add_mul_div_left _ _ hw,
    Nat.div_eq_of_lt (by omega), Nat.zero_add]

theorem le_digitCount_mul (w n : Nat) (hw : 0 < w) : n ≤ w * digitCount w n := by
  have h := Nat.div_add_mod (n + w - 1) w
  have := Nat.mod_lt (n + w - 1) hw
  simp only [digitCount]
  omega

theorem digitCount_mul_lt (w n : Nat) (hw : 0 < w) : w * digitCount w n < n + w := by
  have h := Nat.div_add_mod (n + w - 1) w
  simp only [digitCount]
  omega

/-- The `n` lowest digits of `N`, the lowest first. -/
def digits (w n N : Nat) : List Nat := (List.range n).map fun i => N / 2 ^ (w * i) % 2 ^ w

@[simp] theorem digits_length (w n N : Nat) : (digits w n N).length = n := by simp [digits]

theorem digits_succ (w n N : Nat) : digits w (n + 1) N = digits w n N ++ [N / 2 ^ (w * n) % 2 ^ w] := by
  simp [digits, List.range_succ]

/-- Digits below bit `w * n` do not see what is added above it. -/
theorem digits_add (w n N v : Nat) : digits w n (N + 2 ^ (w * n) * v) = digits w n N := by
  refine List.map_congr_left fun i hi => ?_
  have hi' : i < n := List.mem_range.1 hi
  obtain ⟨k, rfl⟩ := Nat.exists_eq_add_of_lt hi'
  have e : 2 ^ (w * (i + k + 1)) * v = 2 ^ (w * i) * (2 ^ w * (2 ^ (w * k) * v)) := by
    rw [show w * (i + k + 1) = w * i + (w + w * k) by ring, Nat.pow_add, Nat.pow_add]
    ring
  rw [e, Nat.add_mul_div_left _ _ (Nat.two_pow_pos _), Nat.add_mul_mod_self_left]

end Fields
