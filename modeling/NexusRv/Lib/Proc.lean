import Mathlib.Tactic.Basic
/-!
# Procedures

A C function works on a state, returns a value or an error code, and stops the
program when an assertion fails. `Proc σ ε α` is such a function. The rules
below take a procedure apart: what a successful run of `x >>= f` went through,
what a predicate kept by every part keeps, and how two procedures run in
lockstep.
-/

/-- `none` when an assertion fails, otherwise what is returned and the state left. -/
def Proc (σ ε α : Type) : Type := σ → Option (Except ε α × σ)

namespace Proc

variable {σ τ ε α β : Type}

instance : Monad (Proc σ ε) where
  pure a := fun s => some (.ok a, s)
  bind x f := fun s =>
    match x s with
    | none => none
    | some (.error e, s') => some (.error e, s')
    | some (.ok a, s') => f a s'

/-- Return the error code `e`. -/
def fail (e : ε) : Proc σ ε α := fun s => some (.error e, s)

/-- Read the state. -/
def get : Proc σ ε σ := fun s => some (.ok s, s)

/-- Change the state. -/
def modify (f : σ → σ) : Proc σ ε Unit := fun s => some (.ok (), f s)

/-- C's `assert`. -/
def assert (p : Bool) : Proc σ ε Unit := fun s => if p then some (.ok (), s) else none

/-- `x` if `p` holds. -/
def when (p : Bool) (x : Proc σ ε Unit) : Proc σ ε Unit := fun s => if p then x s else some (.ok (), s)

/-- Run `x` on a part of the state. -/
def zoom (part : σ → τ) (put : τ → σ → σ) (x : Proc τ ε α) : Proc σ ε α :=
  fun s => (x (part s)).map fun r => (r.1, put r.2 s)

/-- Run `x` with a local variable that holds `l` before, and return it too. -/
def withLocal (l : τ) (x : Proc (σ × τ) ε α) : Proc σ ε (α × τ) :=
  fun s => (x (s, l)).map fun r => (r.1.map fun a => (a, r.2.2), r.2.1)

@[simp] theorem pure_apply (a : α) (s : σ) : (pure a : Proc σ ε α) s = some (.ok a, s) := rfl
@[simp] theorem fail_apply (e : ε) (s : σ) : (fail e : Proc σ ε α) s = some (.error e, s) := rfl
@[simp] theorem get_apply (s : σ) : (get : Proc σ ε σ) s = some (.ok s, s) := rfl
@[simp] theorem modify_apply (f : σ → σ) (s : σ) : (modify f : Proc σ ε Unit) s = some (.ok (), f s) := rfl
@[simp] theorem assert_apply (p : Bool) (s : σ) :
    (assert p : Proc σ ε Unit) s = if p then some (.ok (), s) else none := rfl

@[simp] theorem when_true (x : Proc σ ε Unit) : when true x = x := rfl
@[simp] theorem when_false (x : Proc σ ε Unit) : when false x = pure () := rfl

theorem bind_apply (x : Proc σ ε α) (f : α → Proc σ ε β) (s : σ) :
    (x >>= f) s = match x s with
      | none => none
      | some (.error e, s') => some (.error e, s')
      | some (.ok a, s') => f a s' := rfl

@[simp] theorem ite_apply (p : Prop) [Decidable p] (x y : Proc σ ε α) (s : σ) :
    (if p then x else y) s = if p then x s else y s := by
  split <;> rfl

theorem bind_ok {x : Proc σ ε α} {f : α → Proc σ ε β} {s s' : σ} {a : α} (h : x s = some (.ok a, s')) :
    (x >>= f) s = f a s' := by
  rw [bind_apply, h]

theorem bind_error {x : Proc σ ε α} {f : α → Proc σ ε β} {s s' : σ} {e : ε} (h : x s = some (.error e, s')) :
    (x >>= f) s = some (.error e, s') := by
  rw [bind_apply, h]

theorem bind_none {x : Proc σ ε α} {f : α → Proc σ ε β} {s : σ} (h : x s = none) : (x >>= f) s = none := by
  rw [bind_apply, h]

theorem bind_of_eq {x y : Proc σ ε α} {s t : σ} (h : x s = y t) (f : α → Proc σ ε β) : (x >>= f) s = (y >>= f) t := by
  rw [bind_apply, bind_apply, h]

@[simp] theorem pure_bind_apply (a : α) (f : α → Proc σ ε β) (s : σ) : (pure a >>= f) s = f a s := rfl
@[simp] theorem fail_bind_apply (e : ε) (f : α → Proc σ ε β) (s : σ) :
    ((fail e : Proc σ ε α) >>= f) s = some (.error e, s) := rfl
@[simp] theorem get_bind_apply (f : σ → Proc σ ε β) (s : σ) : (get >>= f) s = f s s := rfl
@[simp] theorem modify_bind_apply (g : σ → σ) (f : Unit → Proc σ ε β) (s : σ) :
    (modify g >>= f) s = f () (g s) := rfl
@[simp] theorem assert_bind_apply (p : Bool) (f : Unit → Proc σ ε β) (s : σ) :
    (assert p >>= f) s = if p then f () s else none := by
  cases p <;> rfl

@[simp] theorem ite_bind_apply (p : Prop) [Decidable p] (x y : Proc σ ε α) (f : α → Proc σ ε β) (s : σ) :
    ((if p then x else y) >>= f) s = if p then (x >>= f) s else (y >>= f) s := by
  split <;> rfl

@[simp] theorem bind_assoc_apply {γ : Type} (x : Proc σ ε α) (f : α → Proc σ ε β) (g : β → Proc σ ε γ) (s : σ) :
    ((x >>= f) >>= g) s = (x >>= fun a => f a >>= g) s := by
  simp only [bind_apply]
  rcases x s with _ | ⟨_ | _, _⟩ <;> rfl

/-! ## What a run went through -/

theorem bind_eq_ok {x : Proc σ ε α} {f : α → Proc σ ε β} {s s' : σ} {b : β} :
    (x >>= f) s = some (.ok b, s') ↔ ∃ a t, x s = some (.ok a, t) ∧ f a t = some (.ok b, s') := by
  rw [bind_apply]
  rcases x s with _ | ⟨_ | a, t⟩ <;> simp [and_assoc]

theorem bind_eq_error {x : Proc σ ε α} {f : α → Proc σ ε β} {s s' : σ} {e : ε} :
    (x >>= f) s = some (.error e, s') ↔
      x s = some (.error e, s') ∨ ∃ a t, x s = some (.ok a, t) ∧ f a t = some (.error e, s') := by
  rw [bind_apply]
  rcases x s with _ | ⟨_ | a, t⟩ <;> simp [and_assoc]

theorem bind_eq_some {x : Proc σ ε α} {f : α → Proc σ ε β} {s s' : σ} {r : Except ε β} :
    (x >>= f) s = some (r, s') ↔
      (∃ e, x s = some (.error e, s') ∧ r = .error e) ∨ ∃ a t, x s = some (.ok a, t) ∧ f a t = some (r, s') := by
  rw [bind_apply]
  rcases x s with _ | ⟨_ | a, t⟩ <;> simp [and_assoc, and_comm, eq_comm]

theorem map_apply (f : α → β) (x : Proc σ ε α) (s : σ) : (f <$> x) s = (x s).map fun r => (r.1.map f, r.2) := by
  change (x >>= fun a => pure (f a)) s = _
  rw [bind_apply]
  rcases x s with _ | ⟨_ | a, t⟩ <;> rfl

theorem map_of_eq {x y : Proc σ ε α} {s t : σ} (h : x s = y t) (f : α → β) : (f <$> x) s = (f <$> y) t :=
  bind_of_eq h _

theorem map_eq_some {f : α → β} {x : Proc σ ε α} {s s' : σ} {r : Except ε β} :
    (f <$> x) s = some (r, s') ↔ ∃ r₁, x s = some (r₁, s') ∧ r₁.map f = r := by
  rw [map_apply, Option.map_eq_some_iff]
  exact ⟨fun ⟨⟨r₁, _⟩, h, he⟩ => by cases he; exact ⟨r₁, h, rfl⟩, fun ⟨r₁, h, he⟩ => ⟨(r₁, s'), h, by rw [he]⟩⟩

theorem assert_bind_eq_some {p : Bool} {f : Unit → Proc σ ε α} {s : σ} {r : Except ε α × σ} :
    (assert p >>= f) s = some r ↔ p = true ∧ f () s = some r := by
  cases p <;> simp

/-! ## Runs that return

`Returns P x Q`: from every state in `P`, `x` returns without an error, and what
it returns and leaves is in `Q`. -/

def Returns (P : σ → Prop) (x : Proc σ ε α) (Q : α → σ → Prop) : Prop :=
  ∀ s, P s → ∃ a s', x s = some (.ok a, s') ∧ Q a s'

section Returns
variable {P R : σ → Prop} {Q : α → σ → Prop} {S : β → σ → Prop} {x : Proc σ ε α} {f : α → Proc σ ε β}

theorem returns_pure {a : α} (h : ∀ s, P s → Q a s) : Returns P (pure a : Proc σ ε α) Q := fun s hs => ⟨a, s, rfl, h s hs⟩

theorem returns_modify {g : σ → σ} {S : Unit → σ → Prop} (h : ∀ s, P s → S () (g s)) : Returns P (modify g : Proc σ ε Unit) S :=
  fun s hs => ⟨(), g s, rfl, h s hs⟩

theorem Returns.bind (hx : Returns P x Q) (hf : ∀ a, Returns (Q a) (f a) S) : Returns P (x >>= f) S := by
  intro s h
  obtain ⟨a, t, hxs, hq⟩ := hx s h
  rw [bind_ok hxs]
  exact hf a t hq

/-- A procedure that first looks at the state. -/
theorem Returns.get_bind {f : σ → Proc σ ε β} (hf : ∀ s, P s → Returns (· = s) (f s) S) :
    Returns P (get >>= f) S :=
  fun s h => hf s h s rfl

theorem Returns.mono (hx : Returns P x Q) {Q' : α → σ → Prop} (hP : ∀ s, R s → P s) (hQ : ∀ a s, Q a s → Q' a s) :
    Returns R x Q' := by
  intro s h
  obtain ⟨a, t, hxs, hq⟩ := hx s (hP s h)
  exact ⟨a, t, hxs, hQ a t hq⟩

end Returns

/-! ## Runs that do return

`Post P x Q E`: from every state in `P`, if no assertion of `x` fails, then what it
returns and leaves is in `Q`, or in `E` where it is an error. -/

def Post (P : σ → Prop) (x : Proc σ ε α) (Q : α → σ → Prop) (E : ε → σ → Prop) : Prop :=
  ∀ s, P s → (∀ a s', x s = some (.ok a, s') → Q a s') ∧ ∀ e s', x s = some (.error e, s') → E e s'

section Post
variable {P R : σ → Prop} {Q : α → σ → Prop} {S : β → σ → Prop} {E : ε → σ → Prop} {x y : Proc σ ε α} {f : α → Proc σ ε β}

theorem post_pure {a : α} (h : ∀ s, P s → Q a s) : Post P (pure a) Q E :=
  fun s hs => ⟨fun _ _ he => by cases he; exact h s hs, fun _ _ he => by cases he⟩

theorem post_fail {e : ε} (h : ∀ s, P s → E e s) : Post P (fail e) Q E :=
  fun s hs => ⟨fun _ _ he => by (cases he), fun _ _ he => by cases he; exact h s hs⟩

theorem post_modify {g : σ → σ} {S : Unit → σ → Prop} (h : ∀ s, P s → S () (g s)) : Post P (modify g) S E :=
  fun s hs => ⟨fun _ _ he => by cases he; exact h s hs, fun _ _ he => by cases he⟩

theorem post_assert {p : Bool} {S : Unit → σ → Prop} (h : ∀ s, P s → p = true → S () s) : Post P (assert p) S E := by
  intro s hs
  cases p
  · exact ⟨fun _ _ he => by (cases he), fun _ _ he => by cases he⟩
  · exact ⟨fun _ _ he => by cases he; exact h s hs rfl, fun _ _ he => by cases he⟩

theorem Post.bind (hx : Post P x Q E) (hf : ∀ a, Post (Q a) (f a) S E) : Post P (x >>= f) S E := by
  refine fun s hs => ⟨fun b s' h => ?_, fun e s' h => ?_⟩
  · obtain ⟨a, t, ha, hb⟩ := bind_eq_ok.1 h
    exact (hf a t ((hx s hs).1 a t ha)).1 b s' hb
  · rcases bind_eq_error.1 h with he | ⟨a, t, ha, he⟩
    · exact (hx s hs).2 e s' he
    · exact (hf a t ((hx s hs).1 a t ha)).2 e s' he

theorem Post.get_bind {f : σ → Proc σ ε β} (hf : ∀ s, P s → Post (· = s) (f s) S E) : Post P (get >>= f) S E :=
  fun s hs => hf s hs s rfl

theorem Post.ite {p : Prop} [Decidable p] (hx : p → Post P x Q E) (hy : ¬ p → Post P y Q E) :
    Post P (if p then x else y) Q E := by
  split
  · exact hx ‹_›
  · exact hy ‹_›

theorem Post.when {p : Bool} {x : Proc σ ε Unit} {S : Unit → σ → Prop} (hx : p = true → Post P x S E)
    (hn : p = false → ∀ s, P s → S () s) : Post P (Proc.when p x) S E := by
  cases p
  · exact post_pure (hn rfl)
  · exact hx rfl

theorem Post.mono {Q' : α → σ → Prop} (hx : Post P x Q E) (hP : ∀ s, R s → P s) (hQ : ∀ a s, Q a s → Q' a s) :
    Post R x Q' E :=
  fun s hs => ⟨fun a s' h => hQ a s' ((hx s (hP s hs)).1 a s' h), (hx s (hP s hs)).2⟩

end Post

/-! ## Runs that fail no assertion

`Safe P x Q E`: from every state in `P`, no assertion of `x` fails; if it returns
`a` the state left is in `Q a`, if it returns the error `e` it is in `E e`. -/

def Safe (P : σ → Prop) (x : Proc σ ε α) (Q : α → σ → Prop) (E : ε → σ → Prop) : Prop :=
  ∀ s, P s → (∃ a s', x s = some (.ok a, s') ∧ Q a s') ∨ ∃ e s', x s = some (.error e, s') ∧ E e s'

section Safe
variable {P R : σ → Prop} {Q : α → σ → Prop} {S : β → σ → Prop} {E : ε → σ → Prop} {x y : Proc σ ε α} {f : α → Proc σ ε β}

theorem safe_pure {a : α} (h : ∀ s, P s → Q a s) : Safe P (pure a) Q E := fun s hs => .inl ⟨a, s, rfl, h s hs⟩

theorem safe_fail {e : ε} (h : ∀ s, P s → E e s) : Safe P (fail e) Q E := fun s hs => .inr ⟨e, s, rfl, h s hs⟩

theorem safe_modify {g : σ → σ} {S : Unit → σ → Prop} (h : ∀ s, P s → S () (g s)) : Safe P (modify g) S E :=
  fun s hs => .inl ⟨(), g s, rfl, h s hs⟩

theorem safe_assert {p : Bool} {S : Unit → σ → Prop} (hp : ∀ s, P s → p = true) (h : ∀ s, P s → S () s) :
    Safe P (assert p) S E :=
  fun s hs => .inl ⟨(), s, by rw [assert_apply, hp s hs]; rfl, h s hs⟩

theorem Safe.bind (hx : Safe P x Q E) (hf : ∀ a, Safe (Q a) (f a) S E) : Safe P (x >>= f) S E := by
  intro s hs
  rcases hx s hs with ⟨a, t, hxs, hq⟩ | ⟨e, t, hxs, he⟩
  · rw [bind_ok hxs]
    exact hf a t hq
  · exact .inr ⟨e, t, bind_error hxs, he⟩

theorem Safe.get_bind {f : σ → Proc σ ε β} (hf : ∀ s, P s → Safe (· = s) (f s) S E) : Safe P (get >>= f) S E :=
  fun s hs => hf s hs s rfl

theorem Safe.ite {p : Prop} [Decidable p] (hx : p → Safe P x Q E) (hy : ¬ p → Safe P y Q E) :
    Safe P (if p then x else y) Q E := by
  split
  · exact hx ‹_›
  · exact hy ‹_›

theorem Safe.when {p : Bool} {x : Proc σ ε Unit} {S : Unit → σ → Prop} (hx : p = true → Safe P x S E)
    (hn : p = false → ∀ s, P s → S () s) : Safe P (Proc.when p x) S E := by
  cases p
  · exact safe_pure (hn rfl)
  · exact hx rfl

theorem Safe.mono {Q' : α → σ → Prop} (hx : Safe P x Q E) (hP : ∀ s, R s → P s) (hQ : ∀ a s, Q a s → Q' a s) :
    Safe R x Q' E := by
  intro s hs
  rcases hx s (hP s hs) with ⟨a, t, hxs, hq⟩ | h
  · exact .inl ⟨a, t, hxs, hQ a t hq⟩
  · exact .inr h

end Safe

/-! ## Two procedures in step

`Couples esc R x y Q`: from states related by `R`, unless `x` returns an error in
`esc`, both fail an assertion, or both return the same and leave states related
by `Q`. -/

def Couples (esc : ε → Prop) (R : σ → τ → Prop) (x : Proc σ ε α) (y : Proc τ ε α)
    (Q : Except ε α → σ → τ → Prop) : Prop :=
  ∀ s t, R s t → (x s = none ∧ y t = none) ∨ (∃ e s', x s = some (.error e, s') ∧ esc e) ∨
    ∃ r s' t', x s = some (r, s') ∧ y t = some (r, t') ∧ Q r s' t'

section Couples
variable {esc : ε → Prop} {R : σ → τ → Prop} {x x' : Proc σ ε α} {y y' : Proc τ ε α} {Q : Except ε α → σ → τ → Prop}
  {S : Except ε β → σ → τ → Prop} {f : α → Proc σ ε β} {g : α → Proc τ ε β}

theorem couples_pure {a : α} (h : ∀ s t, R s t → Q (.ok a) s t) : Couples esc R (pure a) (pure a) Q :=
  fun s t hr => .inr (.inr ⟨.ok a, s, t, rfl, rfl, h s t hr⟩)

theorem couples_fail {e : ε} (h : ∀ s t, R s t → Q (.error e) s t) : Couples esc R (fail e) (fail e) Q :=
  fun s t hr => .inr (.inr ⟨.error e, s, t, rfl, rfl, h s t hr⟩)

theorem couples_modify {g : σ → σ} {k : τ → τ} {Q : Except ε Unit → σ → τ → Prop}
    (h : ∀ s t, R s t → Q (.ok ()) (g s) (k t)) : Couples esc R (modify g) (modify k) Q :=
  fun s t hr => .inr (.inr ⟨.ok (), g s, k t, rfl, rfl, h s t hr⟩)

theorem couples_assert {p : Bool} {Q : Except ε Unit → σ → τ → Prop} (h : ∀ s t, R s t → Q (.ok ()) s t) :
    Couples esc R (assert p) (assert p) Q := by
  intro s t hr
  cases p
  · exact .inl ⟨rfl, rfl⟩
  · exact .inr (.inr ⟨.ok (), s, t, rfl, rfl, h s t hr⟩)

theorem Couples.bind (hx : Couples esc R x y Q) (hf : ∀ a, Couples esc (Q (.ok a)) (f a) (g a) S)
    (he : ∀ e s t, Q (.error e) s t → S (.error e) s t) : Couples esc R (x >>= f) (y >>= g) S := by
  intro s t hr
  rcases hx s t hr with ⟨hxs, hyt⟩ | ⟨e, s', hxs, hesc⟩ | ⟨r, s', t', hxs, hyt, hq⟩
  · exact .inl ⟨bind_none hxs, bind_none hyt⟩
  · exact .inr (.inl ⟨e, s', bind_error hxs, hesc⟩)
  · cases r with
    | error e => exact .inr (.inr ⟨.error e, s', t', bind_error hxs, bind_error hyt, he e s' t' hq⟩)
    | ok a =>
      rw [bind_ok hxs, bind_ok hyt]
      exact hf a s' t' hq

theorem Couples.ite {p : Prop} [Decidable p] (hx : p → Couples esc R x y Q) (hy : ¬ p → Couples esc R x' y' Q) :
    Couples esc R (if p then x else x') (if p then y else y') Q := by
  split
  · exact hx ‹_›
  · exact hy ‹_›

theorem Couples.when {p : Bool} {x : Proc σ ε Unit} {y : Proc τ ε Unit} {Q : Except ε Unit → σ → τ → Prop}
    (hx : p = true → Couples esc R x y Q) (hn : p = false → ∀ s t, R s t → Q (.ok ()) s t) :
    Couples esc R (Proc.when p x) (Proc.when p y) Q := by
  cases p
  · exact couples_pure (hn rfl)
  · exact hx rfl

theorem Couples.mono {R' : σ → τ → Prop} {Q' : Except ε α → σ → τ → Prop} (h : Couples esc R x y Q)
    (hR : ∀ s t, R' s t → R s t) (hQ : ∀ r s t, Q r s t → Q' r s t) : Couples esc R' x y Q' := by
  intro s t hr
  rcases h s t (hR s t hr) with hn | he | ⟨r, s', t', hxs, hyt, hq⟩
  · exact .inl hn
  · exact .inr (.inl he)
  · exact .inr (.inr ⟨r, s', t', hxs, hyt, hQ r s' t' hq⟩)

end Couples

/-! ## Two procedures, one the image of the other

`Maps h x y`: where `h` maps the state of `x`, `y` does what `x` does. -/

def Maps (h : σ → τ) (x : Proc σ ε α) (y : Proc τ ε α) : Prop := ∀ s, y (h s) = (x s).map fun r => (r.1, h r.2)

section Maps
variable {h : σ → τ} {x x' : Proc σ ε α} {y y' : Proc τ ε α}

theorem Maps.pure (a : α) : Maps h (Pure.pure a : Proc σ ε α) (Pure.pure a) := fun _ => rfl

theorem Maps.fail (e : ε) : Maps h (Proc.fail e : Proc σ ε α) (Proc.fail e) := fun _ => rfl

theorem Maps.modify {f : σ → σ} {g : τ → τ} (hf : ∀ s, g (h s) = h (f s)) : Maps h (Proc.modify f : Proc σ ε Unit) (Proc.modify g) := by
  intro s
  rw [modify_apply, modify_apply, hf]
  rfl

theorem Maps.assert (p : Bool) : Maps h (Proc.assert p : Proc σ ε Unit) (Proc.assert p) := by
  intro s
  cases p <;> rfl

theorem Maps.bind {f : α → Proc σ ε β} {g : α → Proc τ ε β} (hx : Maps h x y) (hf : ∀ a, Maps h (f a) (g a)) :
    Maps h (x >>= f) (y >>= g) := by
  intro s
  rw [bind_apply, bind_apply, hx s]
  rcases x s with _ | ⟨_ | a, t⟩
  · rfl
  · rfl
  · exact hf a t

/-- Each reads its own state. -/
theorem Maps.get_bind {f : σ → Proc σ ε β} {g : τ → Proc τ ε β} (hf : ∀ s, Maps h (f s) (g (h s))) :
    Maps h (Proc.get >>= f) (Proc.get >>= g) :=
  fun s => hf s s

theorem Maps.ite {p : Prop} [Decidable p] (hx : Maps h x y) (hx' : Maps h x' y') : Maps h (if p then x else x') (if p then y else y') := by
  split
  · exact hx
  · exact hx'

theorem Maps.map {f : α → β} (hx : Maps h x y) : Maps h (f <$> x) (f <$> y) := by
  intro s
  rw [map_apply, map_apply, hx s, Option.map_map, Option.map_map]
  rfl

end Maps

/-! ## Two runs side by side -/

/-- Two procedures, each on its own state, both fail an assertion, or return the same and leave states that `Q` relates. -/
def Matches (Q : Except ε α → σ → τ → Prop) (x : Option (Except ε α × σ)) (y : Option (Except ε α × τ)) : Prop :=
  (x = none ∧ y = none) ∨ ∃ r s t, x = some (r, s) ∧ y = some (r, t) ∧ Q r s t

section Matches
variable {Q : Except ε α → σ → τ → Prop} {S : Except ε β → σ → τ → Prop} {x : Proc σ ε α} {y : Proc τ ε α} {s : σ} {t : τ}

theorem matches_some {r : Except ε α} (h : Q r s t) : Matches Q (some (r, s)) (some (r, t)) := .inr ⟨r, s, t, rfl, rfl, h⟩

theorem matches_none : Matches Q (none : Option (Except ε α × σ)) (none : Option (Except ε α × τ)) := .inl ⟨rfl, rfl⟩

theorem Matches.bind {f : α → Proc σ ε β} {g : α → Proc τ ε β} (hx : Matches Q (x s) (y t))
    (hf : ∀ a s' t', Q (.ok a) s' t' → Matches S (f a s') (g a t')) (he : ∀ e s' t', Q (.error e) s' t' → S (.error e) s' t') :
    Matches S ((x >>= f) s) ((y >>= g) t) := by
  rcases hx with ⟨hs, ht⟩ | ⟨e | a, s', t', hs, ht, hq⟩
  · rw [bind_none hs, bind_none ht]
    exact matches_none
  · rw [bind_error hs, bind_error ht]
    exact matches_some (he e s' t' hq)
  · rw [bind_ok hs, bind_ok ht]
    exact hf a s' t' hq

theorem matches_assert {p : Bool} {f : Unit → Proc σ ε α} {g : Unit → Proc τ ε α} (h : p = true → Matches Q (f () s) (g () t)) :
    Matches Q ((assert p >>= f) s) ((assert p >>= g) t) := by
  cases p
  · exact matches_none
  · exact h rfl

theorem Matches.ite {x' : Proc σ ε α} {y' : Proc τ ε α} {p : Prop} [Decidable p] (hx : p → Matches Q (x s) (y t))
    (hy : ¬ p → Matches Q (x' s) (y' t)) : Matches Q ((if p then x else x') s) ((if p then y else y') t) := by
  split
  · exact hx ‹_›
  · exact hy ‹_›

/-- With what a run of the first one returns and leaves. -/
theorem Matches.with {P : Except ε α → σ → Prop} {a : Option (Except ε α × σ)} {b : Option (Except ε α × τ)} (h : Matches Q a b)
    (hp : ∀ r s, a = some (r, s) → P r s) : Matches (fun r s t => Q r s t ∧ P r s) a b := by
  rcases h with h | ⟨r, s', t', ha, hb, h⟩
  · exact .inl h
  · exact .inr ⟨r, s', t', ha, hb, h, hp r s' ha⟩

end Matches

end Proc
