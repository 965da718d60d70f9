import Mathlib.Tactic.Basic
/-!
# Writing into a list

`splice` writes a block at an offset, as `pwrite(2)` does into a file: behind the end a gap
is filled up, and all other elements stay.
-/

section Splice
variable {α : Type} {z : α} {xs ys : List α} {off i : Nat}

def splice (z : α) (xs ys : List α) (off : Nat) : List α :=
  xs.take off ++ List.replicate (off - xs.length) z ++ ys ++ xs.drop (off + ys.length)

theorem splice_inside (h : off + ys.length ≤ xs.length) : splice z xs ys off = xs.take off ++ ys ++ xs.drop (off + ys.length) := by
  rw [splice, Nat.sub_eq_zero_of_le (by omega), List.replicate_zero, List.append_nil]

theorem splice_length (h : off + ys.length ≤ xs.length) : (splice z xs ys off).length = xs.length := by
  rw [splice_inside h]
  simp only [List.length_append, List.length_take, List.length_drop]
  omega

theorem splice_outside (h : off + ys.length ≤ xs.length) (hi : i < off ∨ off + ys.length ≤ i) : (splice z xs ys off)[i]? = xs[i]? := by
  have hlen : (xs.take off).length = off := by rw [List.length_take]; omega
  rw [splice_inside h]
  rcases hi with hi | hi
  · rw [List.append_assoc, List.getElem?_append_left (by omega), List.getElem?_take_of_lt hi]
  · rw [List.getElem?_append_right (by rw [List.length_append]; omega), List.getElem?_drop, List.length_append, hlen]
    congr 1
    omega

/-- A block is replaced by one of the same length. -/
theorem splice_block {pre mid post : List α} (h : ys.length = mid.length) :
    splice z (pre ++ mid ++ post) ys pre.length = pre ++ ys ++ post := by
  rw [splice_inside (by simp only [List.length_append]; omega), List.append_assoc pre mid post, List.take_left, ← List.append_assoc,
    h, ← List.length_append, List.drop_left]

end Splice
