import Mathlib.Data.List.Chain
import Mathlib.Data.List.Infix
import Mathlib.Tactic.Common
/-!
# Counted repetitions

An element that is related to the one before it is not shown but counted, with a counter that
starts again at `N`. What was counted is shown as copies of the last element shown, so the
elements come back if only equal ones are related and the counter does not start again.
-/

namespace Repeats

variable {α : Type*}

inductive Item (α : Type*) where
  | shown (a : α)
  | again (n : Nat)

/-- The elements behind `a`. -/
def expand : α → List (Item α) → List α
  | _, [] => []
  | _, .shown a :: l => a :: expand a l
  | a, .again n :: l => List.replicate n a ++ expand a l

def counted (r : Nat) : List (Item α) := if r = 0 then [] else [.again r]

/-- The elements behind `a`, where `r` elements are counted. -/
def compress (R : α → α → Prop) [DecidableRel R] (N : Nat) : Nat → α → List α → List (Item α)
  | r, _, [] => counted r
  | r, a, b :: l => if R a b then compress R N ((r + 1) % N) b l else counted r ++ .shown b :: compress R N 0 b l

variable {R : α → α → Prop} [DecidableRel R] {N r n m : Nat} {a b p x y : α} {l : List α} {t : List (Item α)}

theorem expand_counted : expand a (counted r ++ t) = List.replicate r a ++ expand a t := by
  unfold counted
  split
  · rename_i h
    rw [h]
    rfl
  · rfl

theorem expand_counted_nil : expand a (counted r) = List.replicate r a := by
  have h := expand_counted (a := a) (r := r) (t := [])
  rwa [List.append_nil, expand, List.append_nil] at h

theorem compress_covered (h : R a b) : compress R N r a (b :: l) = compress R N ((r + 1) % N) b l := if_pos h

theorem compress_shown (h : ¬ R a b) :
    compress R N r a (b :: l) = counted r ++ .shown b :: compress R N 0 b l := if_neg h

theorem expand_mem (h : x ∈ expand a t) : x = a ∨ .shown x ∈ t := by
  induction t generalizing a with
  | nil => exact absurd h List.not_mem_nil
  | cons i t ih =>
    cases i with
    | shown b =>
      rcases List.mem_cons.1 h with rfl | h
      · exact .inr List.mem_cons_self
      · rcases ih h with rfl | h
        · exact .inr List.mem_cons_self
        · exact .inr (List.mem_cons_of_mem _ h)
    | again n =>
      rcases List.mem_append.1 h with h | h
      · exact .inl (List.eq_of_mem_replicate h)
      · exact (ih h).imp_right (List.mem_cons_of_mem _)

theorem counted_shown : .shown x ∉ counted r := by
  unfold counted
  split
  · exact List.not_mem_nil
  · intro h
    cases List.mem_singleton.1 h

theorem compress_mem (h : .shown x ∈ compress R N r a l) : x ∈ l := by
  induction l generalizing r a with
  | nil => exact absurd h counted_shown
  | cons b l ih =>
    by_cases hc : R a b
    · rw [compress_covered hc] at h
      exact List.mem_cons_of_mem _ (ih h)
    · rw [compress_shown hc] at h
      rcases List.mem_append.1 h with h | h
      · exact absurd h counted_shown
      · rcases List.mem_cons.1 h with h | h
        · cases h
          exact List.mem_cons_self
        · exact List.mem_cons_of_mem _ (ih h)

/-- No more elements come back than there were. -/
theorem expand_length : (expand p (compress R N r a l)).length ≤ r + l.length := by
  induction l generalizing p r a with
  | nil => rw [compress, expand_counted_nil, List.length_replicate]; exact Nat.le_refl _
  | cons b l ih =>
    by_cases h : R a b
    · rw [compress_covered h]
      have hmod := Nat.mod_le (r + 1) N
      have hlen := ih (p := p) (r := (r + 1) % N) (a := b)
      simp only [List.length_cons]
      omega
    · rw [compress_shown h, expand_counted, List.length_append, List.length_replicate, expand]
      have hlen := ih (p := b) (r := 0) (a := b)
      simp only [List.length_cons]
      omega

/-- If none gets lost, the first ones are those that were counted. -/
theorem expand_take (h : (expand p (compress R N r a l)).length = r + l.length) :
    List.replicate r p <+: expand p (compress R N r a l) := by
  induction l generalizing r a with
  | nil =>
    rw [compress, expand_counted_nil]
  | cons b l ih =>
    by_cases hc : R a b
    · rw [compress_covered hc] at h ⊢
      have hlen := expand_length (R := R) (N := N) (p := p) (r := (r + 1) % N) (a := b) (l := l)
      have hmod : (r + 1) % N = r + 1 := by
        have hle := Nat.mod_le (r + 1) N
        simp only [List.length_cons] at h
        omega
      rw [hmod] at h ⊢
      have hnext := ih (r := r + 1) (a := b) (by simp only [List.length_cons] at h; omega)
      rw [List.replicate_succ'] at hnext
      exact (List.prefix_append _ _).trans hnext
    · rw [compress_shown hc, expand_counted]
      exact List.prefix_append _ _

/-- A run of `x` behind other elements, of which there are less. -/
theorem run_behind (hn : m < n) (hxy : b ≠ y) : List.replicate n x <:+: List.replicate m y ++ b :: l ↔ List.replicate n x <:+: b :: l := by
  induction m with
  | zero => rfl
  | succ m ih =>
    rw [List.replicate_succ, List.cons_append, List.infix_cons_iff, ih (by omega)]
    constructor
    · rintro (hpre | h)
      · have hx : ∀ i < n, (List.replicate (m + 1) y ++ b :: l)[i]? = some x := by
          intro i hi
          have hget := List.prefix_iff_getElem?.1 hpre i (by rw [List.length_replicate]; exact hi)
          rw [List.getElem_replicate] at hget
          exact hget
        have h0 := hx 0 (by omega)
        have hlast := hx (m + 1) hn
        rw [List.getElem?_append_right (by rw [List.length_replicate]), List.length_replicate, Nat.sub_self] at hlast
        cases h0
        cases hlast
        exact absurd rfl hxy
      · exact h
    · exact .inr

/-- All elements come back if only an equal element is related, and none is counted `N` times. -/
theorem expand_compress_iff (hself : ∀ a, R a a) (hr : r < N) : expand a (compress R N r a l) = List.replicate r a ++ l ↔
    (a :: l).IsChain (fun a b => R a b → b = a) ∧ ∀ x, ¬ List.replicate (N + 1) x <:+: List.replicate (r + 1) a ++ l := by
  induction l generalizing r a with
  | nil =>
    rw [compress, expand_counted_nil, List.append_nil, List.append_nil]
    refine iff_of_true rfl ⟨.singleton a, fun x h => ?_⟩
    have hlen := h.length_le
    simp only [List.length_replicate] at hlen
    omega
  | cons b l ih =>
    rw [List.isChain_cons_cons]
    by_cases hc : R a b
    · rw [compress_covered hc]
      constructor
      · intro heq
        have hlen := expand_length (R := R) (N := N) (p := a) (r := (r + 1) % N) (a := b) (l := l)
        have hle := Nat.mod_le (r + 1) N
        have hmod : (r + 1) % N = r + 1 := by
          rw [heq] at hlen
          simp only [List.length_append, List.length_replicate, List.length_cons] at hlen
          omega
        have hlt : r + 1 < N := by
          rw [← hmod]
          exact Nat.mod_lt _ (by omega)
        rw [hmod] at heq
        have hpre := expand_take (R := R) (N := N) (p := a) (r := r + 1) (a := b) (l := l) (by
          rw [heq]
          simp only [List.length_append, List.length_replicate, List.length_cons]
          omega)
        have hb : b = a := by
          have hget := List.prefix_iff_getElem?.1 hpre r (by rw [List.length_replicate]; omega)
          rw [heq, List.getElem?_append_right (by rw [List.length_replicate]), List.length_replicate, Nat.sub_self, List.getElem_replicate] at hget
          cases hget
          rfl
        subst hb
        rw [List.append_cons, ← List.replicate_succ'] at heq
        obtain ⟨hchain, hrun⟩ := (ih hlt).1 heq
        refine ⟨⟨fun _ => rfl, hchain⟩, ?_⟩
        rw [List.append_cons, ← List.replicate_succ']
        exact hrun
      · rintro ⟨⟨hb, hchain⟩, hrun⟩
        obtain rfl := hb hc
        rw [List.append_cons, ← List.replicate_succ'] at hrun ⊢
        have hlt : r + 1 < N := by
          refine Nat.lt_of_le_of_ne hr fun heq => hrun b ?_
          rw [← heq]
          exact (List.prefix_append _ _).isInfix
        rw [Nat.mod_eq_of_lt hlt]
        exact (ih hlt).2 ⟨hchain, hrun⟩
    · have hne : b ≠ a := by
        rintro rfl
        exact hc (hself b)
      rw [compress_shown hc, expand_counted, expand, List.append_cancel_left_eq, List.cons_inj_right]
      have hih := ih (r := 0) (a := b) (by omega)
      rw [List.replicate_zero, List.nil_append] at hih
      rw [hih]
      constructor
      · rintro ⟨hchain, hrun⟩
        refine ⟨⟨fun h => absurd h hc, hchain⟩, fun x h => ?_⟩
        exact hrun x ((run_behind (by omega) hne).1 h)
      · rintro ⟨⟨-, hchain⟩, hrun⟩
        refine ⟨hchain, fun x h => hrun x ?_⟩
        exact (run_behind (by omega) hne).2 h

end Repeats
