import Mathlib.Data.List.Basic
import Mathlib.Tactic.Common
/-!
# Words with a stop at their end

Words that end with a stop and have none before, one behind the other. The stops of the text
are the ends of the words, so a search for a stop finds where a word ends.
-/

namespace Delimit

variable {α : Type*} {stop : α → Bool} {w : List α} {ws : List (List α)} {p c : Nat}

/-- The last letter is a stop, and no other. -/
def Word (stop : α → Bool) (w : List α) : Prop := ∃ as b, w = as ++ [b] ∧ (∀ a ∈ as, stop a = false) ∧ stop b = true

/-- A number of words takes `p` letters. -/
def Boundary (ws : List (List α)) (p : Nat) : Prop := ∃ k ≤ ws.length, p = (ws.take k).flatten.length

theorem Word.length_pos (h : Word stop w) : 0 < w.length := by
  obtain ⟨as, b, rfl, -, -⟩ := h
  simp

/-- Of the letters of a word, the last one is the stop. -/
theorem Word.stop_iff (h : Word stop w) (hp : p < w.length) : stop w[p] = true ↔ p + 1 = w.length := by
  obtain ⟨as, b, rfl, has, hb⟩ := h
  rw [List.length_append, List.length_singleton] at hp ⊢
  by_cases hlt : p < as.length
  · rw [List.getElem_append_left hlt, has _ (List.getElem_mem hlt)]
    simp
    omega
  · have hp' : p = as.length := by omega
    subst hp'
    simp [hb]

theorem boundary_zero (ws : List (List α)) : Boundary ws 0 := ⟨0, Nat.zero_le _, by simp⟩

theorem boundary_length (ws : List (List α)) : Boundary ws ws.flatten.length := ⟨ws.length, Nat.le_refl _, by rw [List.take_length]⟩

theorem boundary_cons : Boundary (w :: ws) p ↔ p = 0 ∨ ∃ q, Boundary ws q ∧ p = w.length + q := by
  constructor
  · rintro ⟨k, hk, rfl⟩
    cases k with
    | zero => exact .inl (by simp)
    | succ k => exact .inr ⟨_, ⟨k, Nat.le_of_succ_le_succ hk, rfl⟩, by simp⟩
  · rintro (rfl | ⟨q, ⟨k, hk, rfl⟩, rfl⟩)
    · exact boundary_zero _
    · exact ⟨k + 1, Nat.succ_le_succ hk, by simp⟩

theorem Boundary.le (h : Boundary ws p) : p ≤ ws.flatten.length := by
  obtain ⟨k, -, rfl⟩ := h
  conv => rhs; rw [← List.take_append_drop k ws, List.flatten_append, List.length_append]
  exact Nat.le_add_right _ _

/-- A word ends behind every stop, and nowhere else. -/
theorem boundary_succ_iff (h : ∀ w ∈ ws, Word stop w) : Boundary ws (p + 1) ↔ ∃ b, ws.flatten[p]? = some b ∧ stop b = true := by
  induction ws generalizing p with
  | nil =>
    constructor
    · rintro ⟨k, -, hp⟩
      simp at hp
    · rintro ⟨b, hb, -⟩
      simp at hb
  | cons w ws ih =>
    have hw := h w List.mem_cons_self
    have hpos := hw.length_pos
    have ih := fun p => ih (p := p) fun v hv => h v (List.mem_cons_of_mem _ hv)
    rw [boundary_cons, List.flatten_cons]
    by_cases hlt : p < w.length
    · rw [List.getElem?_append_left hlt, List.getElem?_eq_getElem hlt]
      constructor
      · rintro (hz | ⟨q, -, hq⟩)
        · cases hz
        · exact ⟨_, rfl, (hw.stop_iff hlt).2 (by omega)⟩
      · rintro ⟨b, hb, hstop⟩
        cases hb
        exact .inr ⟨0, boundary_zero ws, (hw.stop_iff hlt).1 hstop⟩
    · rw [List.getElem?_append_right (Nat.le_of_not_lt hlt), ← ih]
      constructor
      · rintro (hz | ⟨q, hq, hpq⟩)
        · cases hz
        · rwa [show p - w.length + 1 = q by omega]
      · exact fun hb => .inr ⟨_, hb, by omega⟩

/-- The first stop from `c` on is the end of the next word. -/
theorem next_boundary (h : ∀ w ∈ ws, Word stop w) :
    match (ws.flatten.drop c).findIdx? stop with
    | some i => Boundary ws (c + (i + 1)) ∧ ∀ p, Boundary ws p → c < p → c + (i + 1) ≤ p
    | none => ∀ p, Boundary ws p → ¬ c < p := by
  have hafter : ∀ p, Boundary ws p → c < p → ∃ j b, p = c + (j + 1) ∧ (ws.flatten.drop c)[j]? = some b ∧ stop b = true := by
    intro p hp hlt
    obtain ⟨j, rfl⟩ : ∃ j, p = c + j + 1 := ⟨p - c - 1, by omega⟩
    obtain ⟨b, hb, hstop⟩ := (boundary_succ_iff h).1 hp
    exact ⟨j, b, by omega, by rw [List.getElem?_drop]; exact hb, hstop⟩
  split
  · rename_i i hi
    obtain ⟨hlt, hstop, hfirst⟩ := List.findIdx?_eq_some_iff_getElem.1 hi
    refine ⟨?_, fun p hp hlt' => ?_⟩
    · rw [← Nat.add_assoc, boundary_succ_iff h]
      exact ⟨_, by rw [← List.getElem?_drop]; exact List.getElem?_eq_getElem hlt, hstop⟩
    · obtain ⟨j, b, rfl, hb, hj⟩ := hafter p hp hlt'
      refine Nat.add_le_add_left (Nat.succ_le_succ (Nat.le_of_not_lt fun hji => ?_)) c
      obtain ⟨hjl, hget⟩ := List.getElem?_eq_some_iff.1 hb
      exact hfirst j hji (by rw [hget]; exact hj)
  · rename_i hnone
    intro p hp hlt
    obtain ⟨j, b, -, hb, hj⟩ := hafter p hp hlt
    have hall := List.findIdx?_eq_none_iff.1 hnone b (List.mem_of_getElem? hb)
    rw [hj] at hall
    cases hall

end Delimit
