import Mathlib.Tactic.Basic
/-!
# Clocks

A clock over a log of events, newest first: an event sets the clock, or advances
it by an amount. Amounts are combined by an associative and commutative operation
with a unit, such as addition or exclusive or.
-/

section Clock
variable {α τ : Type} (op : τ → τ → τ)

def clock (sets : α → Option τ) (amount : α → τ) (base : τ) : List α → τ
  | [] => base
  | a :: l => (sets a).getD (op (clock sets amount base l) (amount a))

/-- What the events advance the clock by since it was set last. -/
def since_set (unit : τ) (sets : α → Option τ) (amount : α → τ) (l : List α) : τ := clock op (fun a => (sets a).map fun _ => unit) amount unit l

variable {op} {sets : α → Option τ} {amount amount' rest : α → τ} {base unit : τ} {a : α} {l : List α}

theorem clock_set {t : τ} (h : sets a = some t) : clock op sets amount base (a :: l) = t := by
  rw [clock, h]
  rfl

theorem clock_advance (h : sets a = none) : clock op sets amount base (a :: l) = op (clock op sets amount base l) (amount a) := by
  rw [clock, h]
  rfl

theorem clock_map {β : Type} (f : β → α) (l : List β) :
    clock op sets amount base (l.map f) = clock op (sets ∘ f) (amount ∘ f) base l := by
  induction l with
  | nil => rfl
  | cons b l ih => rw [List.map_cons, clock, clock, ih]; rfl

variable [Std.Associative op] [Std.Commutative op] [Std.LawfulIdentity op unit]

/-- Amounts in two parts. -/
theorem clock_split (h : ∀ a ∈ l, sets a = none → amount' a = op (amount a) (rest a)) :
    clock op sets amount' base l = op (clock op sets amount base l) (since_set op unit sets rest l) := by
  induction l with
  | nil => exact (Std.LawfulRightIdentity.right_id base).symm
  | cons a l ih =>
    have ih := ih fun b hb => h b (List.mem_cons_of_mem _ hb)
    rw [since_set] at ih ⊢
    cases ha : sets a with
    | some t =>
      rw [clock_set ha, clock_set ha, clock_set (by rw [ha]; rfl)]
      exact (Std.LawfulRightIdentity.right_id t).symm
    | none =>
      rw [clock_advance ha, clock_advance ha, clock_advance (by rw [ha]; rfl), ih, h a List.mem_cons_self ha]
      ac_rfl

end Clock
