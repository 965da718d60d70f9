import Mathlib.Data.List.Pairwise
import Mathlib.Order.Defs.LinearOrder
import Mathlib.Order.Lattice
import Mathlib.Tactic.Common
/-!
# Ordered multimaps

A map whose entries stand in ascending order of their keys, those of one key in the order they came, and the entries at or below a key.
-/

structure OrderedMultimap (κ α : Type) [LinearOrder κ] where
  entries : List (κ × α)
  ascending : entries.Pairwise fun e f => e.1 ≤ f.1

namespace OrderedMultimap

variable {κ α : Type} [LinearOrder κ]

def empty : OrderedMultimap κ α := ⟨[], List.Pairwise.nil⟩

/-- The entries with `e` behind those of its key. -/
def inserted (e : κ × α) : List (κ × α) → List (κ × α)
  | [] => [e]
  | f :: l => if e.1 < f.1 then e :: f :: l else f :: inserted e l

theorem mem_inserted {e g : κ × α} {l : List (κ × α)} : g ∈ inserted e l ↔ g = e ∨ g ∈ l := by
  induction l with
  | nil => simp [inserted]
  | cons f l ih =>
    unfold inserted
    split
    · simp
    · rw [List.mem_cons, ih, List.mem_cons]
      exact or_left_comm

theorem ascending_inserted (e : κ × α) {l : List (κ × α)} (h : l.Pairwise fun e f => e.1 ≤ f.1) :
    (inserted e l).Pairwise fun e f => e.1 ≤ f.1 := by
  induction l with
  | nil => simp [inserted]
  | cons f l ih =>
    obtain ⟨hf, hl⟩ := List.pairwise_cons.1 h
    unfold inserted
    split
    · rename_i hef
      apply List.pairwise_cons.2
      refine ⟨?_, h⟩
      intro g hg
      rcases List.mem_cons.1 hg with rfl | hg
      · exact hef.le
      · exact hef.le.trans (hf g hg)
    · rename_i hfe
      apply List.pairwise_cons.2
      refine ⟨?_, ih hl⟩
      intro g hg
      rcases mem_inserted.1 hg with rfl | hg
      · exact not_lt.1 hfe
      · exact hf g hg

/-- `emplace`. -/
def emplace (m : OrderedMultimap κ α) (e : κ × α) : OrderedMultimap κ α := ⟨inserted e m.entries, ascending_inserted e m.ascending⟩

/-- The entries with the key `k`. -/
def equal_range (m : OrderedMultimap κ α) (k : κ) : List (κ × α) := m.entries.filter fun e => e.1 = k

theorem filter_inserted (e : κ × α) (k : κ) {l : List (κ × α)} (h : l.Pairwise fun e f => e.1 ≤ f.1) :
    (inserted e l).filter (fun f => f.1 = k) = l.filter (fun f => f.1 = k) ++ if e.1 = k then [e] else [] := by
  induction l with
  | nil => simp only [inserted, List.filter_cons, List.filter_nil, List.nil_append, decide_eq_true_eq]
  | cons f l ih =>
    obtain ⟨hf, hl⟩ := List.pairwise_cons.1 h
    unfold inserted
    split
    · rename_i hef
      by_cases hek : e.1 = k
      · -- nothing that comes later has the key
        have hnone : (f :: l).filter (fun f => f.1 = k) = [] := by
          apply List.filter_eq_nil_iff.2
          intro g hg
          have hfg : f.1 ≤ g.1 := by
            rcases List.mem_cons.1 hg with rfl | hg
            · exact le_rfl
            · exact hf g hg
          simpa [← hek] using (hef.trans_le hfg).ne'
        rw [List.filter_cons_of_pos (by simpa using hek), hnone, if_pos hek, List.nil_append]
      · rw [List.filter_cons_of_neg (by simpa using hek), if_neg hek, List.append_nil]
    · by_cases hfk : f.1 = k
      · rw [List.filter_cons_of_pos (by simpa using hfk), ih hl, List.filter_cons_of_pos (by simpa using hfk), List.cons_append]
      · rw [List.filter_cons_of_neg (by simpa using hfk), ih hl, List.filter_cons_of_neg (by simpa using hfk)]

theorem equal_range_emplace (m : OrderedMultimap κ α) (e : κ × α) (k : κ) :
    (m.emplace e).equal_range k = m.equal_range k ++ if e.1 = k then [e] else [] :=
  filter_inserted e k m.ascending

/-- `emplace` for one entry after the other. -/
def emplaceAll (m : OrderedMultimap κ α) (l : List (κ × α)) : OrderedMultimap κ α := l.foldl emplace m

/-- The entries of a key stand in the order they came. -/
theorem equal_range_emplaceAll (l : List (κ × α)) (k : κ) : ∀ m : OrderedMultimap κ α,
    (m.emplaceAll l).equal_range k = m.equal_range k ++ l.filter fun e => e.1 = k := by
  induction l with
  | nil =>
    intro m
    exact (List.append_nil _).symm
  | cons e l ih =>
    intro m
    change ((m.emplace e).emplaceAll l).equal_range k = _
    rw [ih, equal_range_emplace, List.append_assoc]
    by_cases hek : e.1 = k
    · rw [if_pos hek, List.filter_cons_of_pos (by simpa using hek), List.singleton_append]
    · rw [if_neg hek, List.filter_cons_of_neg (by simpa using hek), List.nil_append]

theorem mem_equal_range {m : OrderedMultimap κ α} {k : κ} {e : κ × α} : e ∈ m.equal_range k ↔ e ∈ m.entries ∧ e.1 = k := by
  simp [equal_range]

/-- The entries in front of `upper_bound(k)`. -/
def upTo (m : OrderedMultimap κ α) (k : κ) : List (κ × α) := m.entries.takeWhile fun e => e.1 ≤ k

theorem takeWhile_le_eq {l : List (κ × α)} (h : l.Pairwise fun e f => e.1 ≤ f.1) (k : κ) :
    l.takeWhile (fun e => e.1 ≤ k) = l.filter fun e => e.1 ≤ k := by
  induction l with
  | nil => rfl
  | cons f l ih =>
    obtain ⟨hf, hl⟩ := List.pairwise_cons.1 h
    by_cases hfk : f.1 ≤ k
    · rw [List.takeWhile_cons_of_pos (by simpa using hfk), List.filter_cons_of_pos (by simpa using hfk), ih hl]
    · rw [List.takeWhile_cons_of_neg (by simpa using hfk)]
      symm
      apply List.filter_eq_nil_iff.2
      intro g hg
      rcases List.mem_cons.1 hg with rfl | hg
      · simpa using hfk
      · simpa using (not_le.1 hfk).trans_le (hf g hg)

theorem mem_upTo {m : OrderedMultimap κ α} {k : κ} {e : κ × α} : e ∈ m.upTo k ↔ e ∈ m.entries ∧ e.1 ≤ k := by
  rw [upTo, takeWhile_le_eq m.ascending, List.mem_filter, decide_eq_true_eq]

/-- Nothing stands at or below `k`, or something is the nearest. -/
theorem above_or_nearest (m : OrderedMultimap κ α) (k : κ) :
    (∀ e ∈ m.entries, k < e.1) ∨ ∃ e ∈ m.entries, e.1 ≤ k ∧ ∀ f ∈ m.entries, f.1 ≤ k → f.1 ≤ e.1 := by
  by_cases hne : m.upTo k = []
  · left
    intro e he
    by_contra hek
    have hin := mem_upTo.2 ⟨he, not_lt.1 hek⟩
    rw [hne] at hin
    cases hin
  · right
    have hsub : (m.upTo k).Pairwise fun e f => e.1 ≤ f.1 := m.ascending.sublist (List.takeWhile_sublist _)
    obtain ⟨he, hek⟩ := mem_upTo.1 (List.getLast_mem hne)
    refine ⟨(m.upTo k).getLast hne, he, hek, ?_⟩
    intro f hf hfk
    have hin := mem_upTo.2 ⟨hf, hfk⟩
    rw [← List.dropLast_concat_getLast hne] at hsub hin
    rcases List.mem_append.1 hin with hin | hin
    · exact (List.pairwise_append.1 hsub).2.2 f hin _ (by simp)
    · rw [List.mem_singleton.1 hin]

/-- The entries of the greatest key come last. -/
theorem split_greatest {l : List (κ × α)} (h : l.Pairwise fun e f => e.1 ≤ f.1) {e : κ × α} (hmax : ∀ f ∈ l, f.1 ≤ e.1) :
    l = l.filter (fun f => f.1 < e.1) ++ l.filter fun f => f.1 = e.1 := by
  induction l with
  | nil => rfl
  | cons f l ih =>
    obtain ⟨hf, hl⟩ := List.pairwise_cons.1 h
    have ih := ih hl fun g hg => hmax g (List.mem_cons_of_mem f hg)
    rcases lt_or_eq_of_le (hmax f List.mem_cons_self) with hlt | heq
    · rw [List.filter_cons_of_pos (by simpa using hlt), List.filter_cons_of_neg (by simpa using hlt.ne), List.cons_append, ← ih]
    · have hnone : l.filter (fun g => g.1 < e.1) = [] := by
        apply List.filter_eq_nil_iff.2
        intro g hg
        simpa [← heq] using hf g hg
      rw [hnone, List.nil_append] at ih
      rw [List.filter_cons_of_neg (by simp [heq]), hnone, List.nil_append, List.filter_cons_of_pos (by simp [heq]), ← ih]

/-- The last entries at or below `k` are those of the greatest key there. -/
theorem upTo_eq {m : OrderedMultimap κ α} {k : κ} {e : κ × α} (hk : e.1 ≤ k) (hmax : ∀ f ∈ m.entries, f.1 ≤ k → f.1 ≤ e.1) :
    m.upTo k = (m.upTo k).filter (fun f => f.1 < e.1) ++ m.equal_range e.1 := by
  have hsub : (m.upTo k).Pairwise fun e f => e.1 ≤ f.1 := m.ascending.sublist (List.takeWhile_sublist _)
  have hrange : (m.upTo k).filter (fun f => f.1 = e.1) = m.equal_range e.1 := by
    rw [upTo, takeWhile_le_eq m.ascending, List.filter_filter, equal_range]
    apply List.filter_congr
    intro f _
    by_cases hfe : f.1 = e.1
    · simp [hfe, hk]
    · simp [hfe]
  rw [← hrange]
  apply split_greatest hsub
  intro f hf
  obtain ⟨hf, hfk⟩ := mem_upTo.1 hf
  exact hmax f hf hfk

end OrderedMultimap
