import Mathlib.Order.Basic

/-!
# Outcomes of calls

A call of a C function either returns or does not: it may dereference a null
pointer or one to storage that is not allocated, run past the end of a buffer, or go on
for ever. `Outcome` records all but the last as faults. Loops and recursions that
need not terminate take a bound on their depth, and `outOfFuel` says that the
bound was met; the call itself returns `r` when some bound lets it return `r`.

`FuelMonotone` is the side condition that makes this reading sound: a larger
bound never changes a result. Under it a call returns at most one value. `FuelStable` says
the same of faults, so that a call has at most one outcome.
-/

namespace BareMetal.CS

/-- Why a call did not return. -/
inductive Fault
  | nullPointer
  | danglingPointer
  | outOfBounds
  | outOfFuel
deriving DecidableEq, Repr

/-- The result of running a call up to a bound. -/
abbrev Outcome (α : Type*) := Except Fault α

universe u

variable {α β : Type u} {f : ℕ → Outcome α} {r r' : α}

@[simp] theorem outcome_bind_ok (a : α) (k : α → Outcome β) : (Except.ok a >>= k) = k a := rfl

@[simp] theorem outcome_bind_error (e : Fault) (k : α → Outcome β) :
    ((Except.error e : Outcome α) >>= k) = .error e := rfl

@[simp] theorem outcome_pure (a : α) : (pure a : Outcome α) = .ok a := rfl

/-- A sequence returns when its first part returns and its second part does. -/
theorem outcome_bind_eq_ok {x : Outcome α} {k : α → Outcome β} {b : β} :
    (x >>= k) = .ok b ↔ ∃ a, x = .ok a ∧ k a = .ok b := by
  cases x <;> simp

/-- A fault of neither part is no fault of the sequence. -/
theorem outcome_bind_ne_error {x : Outcome α} {k : α → Outcome β} {e : Fault}
    (first : x ≠ .error e) (second : ∀ a, k a ≠ .error e) : (x >>= k) ≠ .error e := by
  cases x with
  | error e' => simpa using first
  | ok a => exact second a

/-- The call returns `r`: some bound lets it. -/
def Returns (f : ℕ → Outcome α) (r : α) : Prop := ∃ fuel, f fuel = .ok r

/-- A larger bound never changes a result. -/
def FuelMonotone (f : ℕ → Outcome α) : Prop :=
  ∀ ⦃fuel r⦄, f fuel = .ok r → f (fuel + 1) = .ok r

theorem FuelMonotone.of_le (mono : FuelMonotone f) {fuel fuel' : ℕ} (le : fuel ≤ fuel')
    (h : f fuel = .ok r) : f fuel' = .ok r := by
  induction le with
  | refl => exact h
  | step _ ih => exact mono ih

/-- A call returns at most one value. -/
theorem FuelMonotone.returns_unique (mono : FuelMonotone f) (h : Returns f r)
    (h' : Returns f r') : r = r' := by
  obtain ⟨n, hn⟩ := h
  obtain ⟨m, hm⟩ := h'
  have left := mono.of_le (Nat.le_max_left n m) hn
  have right := mono.of_le (Nat.le_max_right n m) hm
  exact Except.ok.inj (left.symm.trans right)

/-- Running two calls one after the other keeps monotonicity. -/
theorem FuelMonotone.bind {g : α → ℕ → Outcome β} (mono : FuelMonotone f)
    (mono' : ∀ a, FuelMonotone (g a)) : FuelMonotone fun fuel => f fuel >>= fun a => g a fuel := by
  intro fuel r h
  obtain ⟨a, ha, hr⟩ := outcome_bind_eq_ok.mp h
  exact outcome_bind_eq_ok.mpr ⟨a, mono ha, mono' a hr⟩

/-- What one call returns after the other. -/
theorem Returns.bind {g : α → ℕ → Outcome β} {a : α} {b : β} (mono : FuelMonotone f)
    (mono' : FuelMonotone (g a)) (first : Returns f a) (second : Returns (g a) b) :
    Returns (fun fuel => f fuel >>= fun a => g a fuel) b := by
  obtain ⟨n, first⟩ := first
  obtain ⟨m, second⟩ := second
  refine ⟨max n m, ?_⟩
  dsimp only
  rw [mono.of_le (Nat.le_max_left n m) first, outcome_bind_ok]
  exact mono'.of_le (Nat.le_max_right n m) second

theorem fuelMonotone_const (x : Outcome α) : FuelMonotone fun _ => x := fun _ _ h => h

/-! ## Outcomes that stay -/

/-- A bound that is not met is as good as the next one. -/
def StableAt (f : ℕ → Outcome α) (fuel : ℕ) : Prop :=
  f fuel ≠ .error .outOfFuel → f (fuel + 1) = f fuel

/-- A larger bound changes no outcome, but that the bound was met. -/
def FuelStable (f : ℕ → Outcome α) : Prop := ∀ fuel, StableAt f fuel

/-- The call ends with this outcome: some bound gives it, and the bound is not met. -/
def Ends (f : ℕ → Outcome α) (o : Outcome α) : Prop := o ≠ .error .outOfFuel ∧ ∃ fuel, f fuel = o

variable {o o' : Outcome α} {fuel : ℕ}

theorem StableAt.succ {g : ℕ → Outcome α} (unfold_eq : ∀ n, f (n + 1) = g n)
    (stable : StableAt g fuel) :
    StableAt f (fuel + 1) := by
  rw [StableAt, unfold_eq, unfold_eq]
  exact stable

theorem stableAt_const (x : Outcome α) : StableAt (fun _ => x) fuel := fun _ => rfl

/-- A sequence of calls is stable where they are. -/
theorem StableAt.bind {g : α → ℕ → Outcome β} (stable : StableAt f fuel)
    (stable' : ∀ a, StableAt (g a) fuel) :
    StableAt (fun fuel => f fuel >>= fun a => g a fuel) fuel := by
  intro ended
  dsimp only at ended ⊢
  cases first : f fuel with
  | error e =>
    rw [first, outcome_bind_error] at ended
    have same := stable (by simpa [first] using ended)
    rw [same, first]
    rfl
  | ok a =>
    rw [first, outcome_bind_ok] at ended
    rw [stable (by simp [first]), first, outcome_bind_ok, outcome_bind_ok]
    exact stable' a ended

theorem fuelStable_const (x : Outcome α) : FuelStable fun _ => x := fun _ => stableAt_const x

theorem FuelStable.bind {g : α → ℕ → Outcome β} (stable : FuelStable f)
    (stable' : ∀ a, FuelStable (g a)) : FuelStable fun fuel => f fuel >>= fun a => g a fuel :=
  fun fuel => (stable fuel).bind fun a => stable' a fuel

theorem FuelStable.of_le (stable : FuelStable f) {fuel fuel' : ℕ} (le : fuel ≤ fuel')
    (ended : f fuel ≠ .error .outOfFuel) : f fuel' = f fuel := by
  induction le with
  | refl => rfl
  | step _ ih => rw [stable _ (ih ▸ ended), ih]

theorem FuelStable.mono (stable : FuelStable f) : FuelMonotone f := by
  intro fuel r returns
  rw [stable fuel (by simp [returns]), returns]

theorem Returns.ends (returns : Returns f r) : Ends f (.ok r) := ⟨by simp, returns⟩

/-- A call has one outcome. -/
theorem FuelStable.ends_unique (stable : FuelStable f) (ends : Ends f o) (ends' : Ends f o') :
    o = o' := by
  obtain ⟨ended, n, rfl⟩ := ends
  obtain ⟨ended', m, rfl⟩ := ends'
  rw [← stable.of_le (Nat.le_max_left n m) ended, stable.of_le (Nat.le_max_right n m) ended']

/-- What one part of a sequence does after the other. -/
theorem FuelStable.ends_bind {g : α → ℕ → Outcome β} {o : Outcome β} {a : α} (stable : FuelStable f)
    (stable' : FuelStable (g a)) (first : Ends f (.ok a)) (second : Ends (g a) o) :
    Ends (fun fuel => f fuel >>= fun a => g a fuel) o := by
  obtain ⟨ended, n, first⟩ := first
  obtain ⟨ended', m, rfl⟩ := second
  refine ⟨ended', max n m, ?_⟩
  dsimp only
  rw [stable.of_le (Nat.le_max_left n m) (first ▸ ended), first, outcome_bind_ok,
    stable'.of_le (Nat.le_max_right n m) ended']

theorem Ends.bind_error {g : α → ℕ → Outcome β} {e : Fault} (first : Ends f (.error e)) :
    Ends (fun fuel => f fuel >>= fun a => g a fuel) (.error e) := by
  obtain ⟨ended, n, first⟩ := first
  refine ⟨by simpa using ended, n, ?_⟩
  dsimp only
  rw [first, outcome_bind_error]

/-! ## Checks -/

/-- The first call has failed a check of its bounds, or ends as the second. -/
def Checks (x y : Outcome α) : Prop := x = .error .outOfBounds ∨ x = y

namespace Checks

variable {x y : Outcome α} {k k' : α → Outcome β} {z : Outcome β}

theorem refl (x : Outcome α) : Checks x x := .inr rfl

/-- A call that fails no check. -/
theorem eq (checks : Checks x y) (passes : x ≠ .error .outOfBounds) : x = y :=
  checks.resolve_left passes

theorem bind (first : Checks x y) (second : ∀ a, Checks (k a) (k' a)) :
    Checks (x >>= k) (y >>= k') := by
  rcases first with fails | rfl
  · exact .inl (by rw [fails, outcome_bind_error])
  · cases x with
    | error e => exact .inr rfl
    | ok a => exact second a

/-- A check in front of a call. -/
theorem guard {c : Outcome α} (check : Checks c (.ok r)) (rest : Checks (k r) z) :
    Checks (c >>= k) z := by
  rcases check with fails | rfl
  · exact .inl (by rw [fails, outcome_bind_error])
  · exact rest

end Checks

section Map

variable {γ : Type u} (x : Outcome α) (c : α → β)

@[simp] theorem outcome_map_ok (a : α) : Except.map c (.ok a : Outcome α) = .ok (c a) := rfl

@[simp] theorem outcome_map_error (e : Fault) :
    Except.map c (.error e : Outcome α) = .error e := rfl

/-- A view of the result of the first of two calls. -/
theorem outcome_map_bind (k : β → Outcome γ) : (Except.map c x >>= k) = x >>= fun a => k (c a) := by
  cases x <;> rfl

/-- A view of the result of the second. -/
theorem outcome_bind_map {d : β → γ} (k : α → Outcome β) :
    Except.map d (x >>= k) = x >>= fun a => Except.map d (k a) := by
  cases x <;> rfl

variable {x} {y : Outcome α} {x' y' : Outcome β}

/-- A call that passes its checks returns the same on the view of its state. -/
theorem Checks.map_ok (checks : Checks x y) (checks' : Checks x' y') {c : α → β}
    (view : x' = Except.map c x) (passes : x ≠ .error .outOfBounds) {a : α} (run : y = .ok a) :
    y' = .ok (c a) := by
  have image : x' = .ok (c a) := by rw [view, checks.eq passes, run, outcome_map_ok]
  have passes' : x' ≠ .error .outOfBounds := by
    rw [image]
    simp
  exact (checks'.eq passes').symm.trans image

end Map

end BareMetal.CS
