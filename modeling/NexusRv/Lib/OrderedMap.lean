import Mathlib.Order.Defs.LinearOrder
import Mathlib.Order.Lattice
import Mathlib.Data.List.Infix
import Mathlib.Data.List.Pairwise
import Mathlib.Tactic.Common
/-!
# Ordered maps and ranges

A map whose entries stand in ascending order of their keys, and the search for the entry
with the greatest key at or below a given one. When every entry covers a range that starts
at its key, that search alone finds what covers a point, exactly when no range starts
inside another.
-/

structure OrderedMap (κ α : Type) [LinearOrder κ] where
  entries : List (κ × α)
  ascending : entries.Pairwise fun e f => e.1 < f.1

namespace OrderedMap

scoped instance : LinearOrder UInt64 where
  le_refl := UInt64.le_refl
  le_trans _ _ _ := UInt64.le_trans
  lt_iff_le_not_ge a b := by rw [UInt64.not_le, and_iff_right_of_imp UInt64.le_of_lt]
  le_antisymm _ _ := UInt64.le_antisymm
  le_total := UInt64.le_total
  toDecidableLE := fun a b => inferInstanceAs (Decidable (a ≤ b))

variable {κ α : Type} [LinearOrder κ]

def empty : OrderedMap κ α := ⟨[], List.Pairwise.nil⟩

/-- The entries with `e` in its place; an entry with the same key stays. -/
def emplaced (e : κ × α) : List (κ × α) → List (κ × α)
  | [] => [e]
  | f :: l => if e.1 < f.1 then e :: f :: l else if f.1 < e.1 then f :: emplaced e l else f :: l

theorem of_mem_emplaced {e g : κ × α} {l : List (κ × α)} (h : g ∈ emplaced e l) : g = e ∨ g ∈ l := by
  induction l with
  | nil => simpa [emplaced] using h
  | cons f l ih =>
    unfold emplaced at h
    split at h
    · simpa using h
    · split at h
      · rcases List.mem_cons.1 h with h | h
        · exact .inr (by simp [h])
        · exact (ih h).imp_right (List.mem_cons_of_mem f)
      · exact .inr h

theorem mem_emplaced {e : κ × α} {l : List (κ × α)} (hnew : ∀ f ∈ l, f.1 ≠ e.1) (g : κ × α) :
    g ∈ emplaced e l ↔ g = e ∨ g ∈ l := by
  refine ⟨of_mem_emplaced, ?_⟩
  induction l with
  | nil => simp [emplaced]
  | cons f l ih =>
    have hne : f.1 ≠ e.1 := hnew f (by simp)
    have ih := ih fun f' hf' => hnew f' (List.mem_cons_of_mem f hf')
    intro h
    unfold emplaced
    split
    · simpa using h
    · rename_i hef
      rw [if_pos (lt_of_le_of_ne (not_lt.1 hef) hne)]
      rcases h with h | h
      · exact List.mem_cons_of_mem f (ih (.inl h))
      · rcases List.mem_cons.1 h with h | h
        · simp [h]
        · exact List.mem_cons_of_mem f (ih (.inr h))

theorem ascending_emplaced (e : κ × α) {l : List (κ × α)} (h : l.Pairwise fun e f => e.1 < f.1) :
    (emplaced e l).Pairwise fun e f => e.1 < f.1 := by
  induction l with
  | nil => simp [emplaced]
  | cons f l ih =>
    obtain ⟨hf, hl⟩ := List.pairwise_cons.1 h
    unfold emplaced
    split
    · rename_i hef
      apply List.pairwise_cons.2
      refine ⟨?_, h⟩
      intro g hg
      rcases List.mem_cons.1 hg with rfl | hg
      · exact hef
      · exact hef.trans (hf g hg)
    · split
      · rename_i hfe
        apply List.pairwise_cons.2
        refine ⟨?_, ih hl⟩
        intro g hg
        rcases of_mem_emplaced hg with rfl | hg
        · exact hfe
        · exact hf g hg
      · exact h

/-- The entry with this key. -/
def find (m : OrderedMap κ α) (k : κ) : Option (κ × α) := m.entries.find? fun e => e.1 = k

theorem eq_of_key (m : OrderedMap κ α) {e f : κ × α} (he : e ∈ m.entries) (hf : f ∈ m.entries) (h : e.1 = f.1) : e = f := by
  by_contra hne
  have hkeys : m.entries.Pairwise fun e f => e.1 ≠ f.1 := m.ascending.imp fun h => ne_of_lt h
  have : Std.Symm fun e f : κ × α => e.1 ≠ f.1 := ⟨fun _ _ h => h.symm⟩
  exact hkeys.forall he hf hne h

theorem find_eq_some (m : OrderedMap κ α) {k : κ} {e : κ × α} : m.find k = some e ↔ e ∈ m.entries ∧ e.1 = k := by
  unfold find
  constructor
  · intro h
    exact ⟨List.mem_of_find?_eq_some h, by simpa using List.find?_some h⟩
  · rintro ⟨he, rfl⟩
    cases h : m.entries.find? fun f => f.1 = e.1 with
    | none => exact absurd (decide_eq_true rfl) (List.find?_eq_none.1 h e he)
    | some f =>
      have hf : f.1 = e.1 := by simpa using List.find?_some h
      rw [m.eq_of_key (List.mem_of_find?_eq_some h) he hf]

theorem find_eq_none (m : OrderedMap κ α) {k : κ} : m.find k = none ↔ ∀ e ∈ m.entries, e.1 ≠ k := by
  simp [find]

/-- `emplace`: the map with a new entry, or the entry that is there. -/
def emplace (m : OrderedMap κ α) (e : κ × α) : Except (κ × α) (OrderedMap κ α) :=
  match m.find e.1 with
  | some f => .error f
  | none => .ok ⟨emplaced e m.entries, ascending_emplaced e m.ascending⟩

theorem emplace_eq_ok {m m' : OrderedMap κ α} {e : κ × α} (h : m.emplace e = .ok m') :
    (∀ f ∈ m.entries, f.1 ≠ e.1) ∧ ∀ g, g ∈ m'.entries ↔ g = e ∨ g ∈ m.entries := by
  unfold emplace at h
  cases hf : m.find e.1 with
  | some f => rw [hf] at h; cases h
  | none =>
    rw [hf] at h
    cases h
    have hnew := m.find_eq_none.1 hf
    exact ⟨hnew, mem_emplaced hnew⟩

theorem emplace_eq_error {m : OrderedMap κ α} {e f : κ × α} :
    m.emplace e = .error f ↔ f ∈ m.entries ∧ f.1 = e.1 := by
  rw [← m.find_eq_some]
  unfold emplace
  cases m.find e.1 <;> simp

def keys (m : OrderedMap κ α) : List κ := m.entries.map (·.1)

theorem keys_emplace {m m' : OrderedMap κ α} {e : κ × α} (h : m.emplace e = .ok m') :
    e.1 ∉ m.keys ∧ ∀ k, k ∈ m'.keys ↔ k = e.1 ∨ k ∈ m.keys := by
  obtain ⟨hnew, hmem⟩ := emplace_eq_ok h
  constructor
  · intro hkey
    obtain ⟨f, hf, hfe⟩ := List.mem_map.1 hkey
    exact hnew f hf hfe
  · intro k
    unfold keys
    simp only [List.mem_map, hmem]
    constructor
    · rintro ⟨g, rfl | hg, rfl⟩
      · exact .inl rfl
      · exact .inr ⟨g, hg, rfl⟩
    · rintro (rfl | ⟨g, hg, rfl⟩)
      · exact ⟨e, .inl rfl, rfl⟩
      · exact ⟨g, .inr hg, rfl⟩

/-- `emplace` for one entry after the other, as far as the first whose key is taken. -/
def emplaceAll (m : OrderedMap κ α) : List (κ × α) → Except ((κ × α) × (κ × α)) (OrderedMap κ α)
  | [] => .ok m
  | e :: l =>
    match m.emplace e with
    | .error f => .error (f, e)
    | .ok m' => m'.emplaceAll l

theorem mem_emplaceAll {l : List (κ × α)} : ∀ {m m' : OrderedMap κ α}, m.emplaceAll l = .ok m' →
    ∀ g, g ∈ m'.entries ↔ g ∈ m.entries ∨ g ∈ l := by
  induction l with
  | nil =>
    intro m m' h g
    cases h
    simp
  | cons e l ih =>
    intro m m' h g
    unfold emplaceAll at h
    cases he : m.emplace e with
    | error f => rw [he] at h; cases h
    | ok m₁ =>
      rw [he] at h
      rw [ih h g, (emplace_eq_ok he).2 g, List.mem_cons]
      tauto

theorem emplace_new {m : OrderedMap κ α} {e : κ × α} (hnew : ∀ f ∈ m.entries, f.1 ≠ e.1) : ∃ m', m.emplace e = .ok m' := by
  unfold emplace
  rw [m.find_eq_none.2 hnew]
  exact ⟨_, rfl⟩

/-- All entries find a place exactly when no two have the same key. -/
theorem emplaceAll_iff {l : List (κ × α)} : ∀ {m : OrderedMap κ α},
    (∃ m', m.emplaceAll l = .ok m') ↔ (l.map Prod.fst).Nodup ∧ ∀ e ∈ l, ∀ f ∈ m.entries, f.1 ≠ e.1 := by
  induction l with
  | nil => simp [emplaceAll]
  | cons e l ih =>
    intro m
    rw [List.map_cons, List.nodup_cons, List.forall_mem_cons]
    by_cases hnew : ∀ f ∈ m.entries, f.1 ≠ e.1
    · obtain ⟨m₁, hm₁⟩ := emplace_new hnew
      have hmem := (emplace_eq_ok hm₁).2
      simp only [emplaceAll, hm₁, ih, hmem, forall_eq_or_imp]
      constructor
      · rintro ⟨hnodup, hl⟩
        refine ⟨⟨?_, hnodup⟩, hnew, fun g hg => (hl g hg).2⟩
        intro hin
        obtain ⟨g, hg, heq⟩ := List.mem_map.1 hin
        exact (hl g hg).1 heq.symm
      · rintro ⟨⟨hin, hnodup⟩, -, hl⟩
        exact ⟨hnodup, fun g hg => ⟨fun heq => hin (List.mem_map.2 ⟨g, hg, heq.symm⟩), hl g hg⟩⟩
    · constructor
      · rintro ⟨m', h⟩
        unfold emplaceAll at h
        cases he : m.emplace e with
        | error f => rw [he] at h; cases h
        | ok m₁ => exact absurd (emplace_eq_ok he).1 hnew
      · exact fun h => absurd h.2.1 hnew

/-- The map with the value at `k` changed. -/
def modify (m : OrderedMap κ α) (k : κ) (f : α → α) : OrderedMap κ α where
  entries := m.entries.map fun e => if e.1 = k then (e.1, f e.2) else e
  ascending := by
    rw [List.pairwise_map]
    apply m.ascending.imp
    intro e e' h
    split <;> split <;> exact h

theorem mem_modify {m : OrderedMap κ α} {k : κ} {f : α → α} {g : κ × α} :
    g ∈ (m.modify k f).entries ↔ ∃ e ∈ m.entries, g = if e.1 = k then (e.1, f e.2) else e := by
  simp only [modify, List.mem_map, eq_comm]

@[simp] theorem keys_modify (m : OrderedMap κ α) (k : κ) (f : α → α) : (m.modify k f).keys = m.keys := by
  unfold keys modify
  rw [List.map_map]
  apply List.map_congr_left
  intro e _
  simp only [Function.comp]
  split <;> rfl

/-! ## The nearest key -/

/-- The entry before `upper_bound(k)`. -/
def below (m : OrderedMap κ α) (k : κ) : Option (κ × α) := (m.entries.takeWhile fun e => e.1 ≤ k).getLast?

/-- The keys at or below `k` come first. -/
theorem mem_takeWhile_le {l : List (κ × α)} (h : l.Pairwise fun e f => e.1 < f.1) (k : κ) (e : κ × α) :
    e ∈ l.takeWhile (fun e => e.1 ≤ k) ↔ e ∈ l ∧ e.1 ≤ k := by
  induction l with
  | nil => simp
  | cons f l ih =>
    obtain ⟨hf, hl⟩ := List.pairwise_cons.1 h
    by_cases hfk : f.1 ≤ k
    · rw [List.takeWhile_cons_of_pos (by simpa using hfk), List.mem_cons, List.mem_cons, ih hl]
      constructor
      · rintro (rfl | ⟨he, hek⟩)
        · exact ⟨.inl rfl, hfk⟩
        · exact ⟨.inr he, hek⟩
      · rintro ⟨rfl | he, hek⟩
        · exact .inl rfl
        · exact .inr ⟨he, hek⟩
    · rw [List.takeWhile_cons_of_neg (by simpa using hfk)]
      constructor
      · intro he
        cases he
      · rintro ⟨he, hek⟩
        rcases List.mem_cons.1 he with rfl | he
        · exact absurd hek hfk
        · exact absurd ((hf e he).le.trans hek) hfk

theorem below_eq_none (m : OrderedMap κ α) {k : κ} : m.below k = none ↔ ∀ e ∈ m.entries, k < e.1 := by
  unfold below
  rw [List.getLast?_eq_none_iff, List.eq_nil_iff_forall_not_mem]
  constructor
  · intro h e he
    by_contra hke
    exact h e ((mem_takeWhile_le m.ascending k e).2 ⟨he, not_lt.1 hke⟩)
  · intro h e he
    obtain ⟨he, hek⟩ := (mem_takeWhile_le m.ascending k e).1 he
    exact absurd (h e he) (not_lt.2 hek)

/-- In a list with ascending keys the last entry has the greatest. -/
theorem le_getLast {l : List (κ × α)} (h : l.Pairwise fun e f => e.1 < f.1) {e : κ × α} (he : l.getLast? = some e) :
    ∀ f ∈ l, f.1 ≤ e.1 := by
  obtain ⟨pre, rfl⟩ := List.getLast?_eq_some_iff.1 he
  intro f hf
  rcases List.mem_append.1 hf with hf | hf
  · exact (List.pairwise_append.1 h).2.2 f hf e (by simp) |>.le
  · rw [List.mem_singleton.1 hf]

theorem below_eq_some (m : OrderedMap κ α) {k : κ} {e : κ × α} :
    m.below k = some e ↔ e ∈ m.entries ∧ e.1 ≤ k ∧ ∀ f ∈ m.entries, f.1 ≤ k → f.1 ≤ e.1 := by
  have hsub : (m.entries.takeWhile fun e => e.1 ≤ k).Pairwise fun e f => e.1 < f.1 :=
    m.ascending.sublist (List.takeWhile_sublist _)
  have hgreatest : ∀ {e}, m.below k = some e → e ∈ m.entries ∧ e.1 ≤ k ∧ ∀ f ∈ m.entries, f.1 ≤ k → f.1 ≤ e.1 := by
    intro e h
    obtain ⟨he, hek⟩ := (mem_takeWhile_le m.ascending k e).1 (List.mem_of_getLast? h)
    refine ⟨he, hek, ?_⟩
    intro f hf hfk
    exact le_getLast hsub h f ((mem_takeWhile_le m.ascending k f).2 ⟨hf, hfk⟩)
  refine ⟨hgreatest, ?_⟩
  rintro ⟨he, hek, hmax⟩
  cases h : m.below k with
  | none => exact absurd (m.below_eq_none.1 h e he) (not_lt.2 hek)
  | some f =>
    obtain ⟨hf, hfk, hfmax⟩ := hgreatest h
    rw [m.eq_of_key he hf (le_antisymm (hfmax e he hek) (hmax f hf hfk))]

/-! ## Ranges

`covers e k`: the range of the entry `e` holds `k`. -/

section Ranges
variable {covers : κ × α → κ → Bool}

/-- The nearest entry at or below `k`, when its range holds `k`. -/
def locate (covers : κ × α → κ → Bool) (m : OrderedMap κ α) (k : κ) : Option (κ × α) :=
  (m.below k).filter fun e => covers e k

/-- Every entry covers a range that starts at its key, and at least its key. -/
structure Spans (covers : κ × α → κ → Bool) (m : OrderedMap κ α) : Prop where
  start : ∀ e ∈ m.entries, covers e e.1 = true
  above : ∀ e ∈ m.entries, ∀ k, covers e k = true → e.1 ≤ k
  between : ∀ e ∈ m.entries, ∀ j k, e.1 ≤ j → j ≤ k → covers e k = true → covers e j = true

/-- No point is in the ranges of two entries. -/
def Disjoint (covers : κ × α → κ → Bool) (m : OrderedMap κ α) : Prop :=
  ∀ e ∈ m.entries, ∀ f ∈ m.entries, ∀ k, covers e k = true → covers f k = true → e = f

theorem locate_eq_some {m : OrderedMap κ α} {k : κ} {e : κ × α} :
    locate covers m k = some e ↔ m.below k = some e ∧ covers e k = true := by
  unfold locate
  rw [Option.filter_eq_some_iff]

variable {m : OrderedMap κ α}

theorem locate_iff (hm : Spans covers m) (h : Disjoint covers m) {k : κ} {e : κ × α} :
    locate covers m k = some e ↔ e ∈ m.entries ∧ covers e k = true := by
  rw [locate_eq_some, m.below_eq_some]
  constructor
  · rintro ⟨⟨he, -, -⟩, hk⟩
    exact ⟨he, hk⟩
  · rintro ⟨he, hk⟩
    refine ⟨⟨he, hm.above e he k hk, ?_⟩, hk⟩
    intro f hf hfk
    -- an entry that starts behind `e` starts inside its range
    by_contra hlt
    have hcov := hm.between e he f.1 k (not_le.1 hlt).le hfk hk
    have hef := h e he f hf f.1 hcov (hm.start f hf)
    exact hlt (by rw [hef])

/-- Ranges are disjoint exactly when none starts inside another. -/
theorem disjoint_iff_starts (hm : Spans covers m) :
    Disjoint covers m ↔ ∀ e ∈ m.entries, ∀ f ∈ m.entries, e.1 < f.1 → covers e f.1 = false := by
  constructor
  · intro h e he f hf hlt
    by_contra hcov
    have hef := h e he f hf f.1 (by simpa using hcov) (hm.start f hf)
    exact absurd hlt (by rw [hef]; exact lt_irrefl _)
  · intro h e he f hf k hek hfk
    have hstart : ∀ e ∈ m.entries, ∀ f ∈ m.entries, covers e k = true → covers f k = true → ¬ e.1 < f.1 := by
      intro e he f hf hek hfk hlt
      have hcov := hm.between e he f.1 k hlt.le (hm.above f hf k hfk) hek
      rw [h e he f hf hlt] at hcov
      cases hcov
    apply m.eq_of_key he hf
    exact le_antisymm (not_lt.1 (hstart f hf e he hfk hek)) (not_lt.1 (hstart e he f hf hek hfk))

end Ranges

end OrderedMap
