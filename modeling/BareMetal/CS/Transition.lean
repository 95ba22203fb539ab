import Mathlib.Data.List.Basic
import Mathlib.Data.List.Induction

/-!
# Runs of a labelled transition system

`Run step s w t` says that from `s` the steps labelled by `w`, in this order, lead
to `t`. An invariant is proved once for a step and holds along every run; a
simulation carries every run of one system to a run of another. Runs under a
side condition on each step are runs of the restricted relation `Guarded`.
-/

namespace BareMetal.CS

variable {σ τ α : Type*} {step step' : σ → α → σ → Prop} {s t u : σ} {a : α} {w v : List α}

/-- The steps labelled by `w` lead from `s` to `t`. -/
inductive Run (step : σ → α → σ → Prop) : σ → List α → σ → Prop
  | refl (s : σ) : Run step s [] s
  | snoc {s t u : σ} {w : List α} {a : α} :
      Run step s w t → step t a u → Run step s (w ++ [a]) u

/-- What every step preserves, every run preserves. -/
theorem Run.preserves (run : Run step s w t) (inv : σ → Prop)
    (keep : ∀ s a t, inv s → step s a t → inv t) (start : inv s) : inv t := by
  induction run with
  | refl => exact start
  | snoc _ last ih => exact keep _ _ _ ih last

/-- A run of a relation is a run of every weaker one. -/
theorem Run.mono (run : Run step s w t) (weaker : ∀ s a t, step s a t → step' s a t) :
    Run step' s w t := by
  induction run with
  | refl => exact .refl _
  | snoc _ last ih => exact ih.snoc (weaker _ _ _ last)

/-- Runs compose. -/
theorem Run.trans (first : Run step s w t) (second : Run step t v u) :
    Run step s (w ++ v) u := by
  induction second with
  | refl => simpa using first
  | snoc _ last ih =>
    rw [← List.append_assoc]
    exact ih.snoc last

theorem Run.single (h : step s a t) : Run step s [a] t := (Run.refl s).snoc h

theorem Run.cons (first : step s a t) (rest : Run step t w u) : Run step s (a :: w) u :=
  (Run.single first).trans rest

theorem Run.eq_of_nil (run : Run step s [] t) : t = s := by
  generalize nothing : ([] : List α) = w at run
  cases run with
  | refl => rfl
  | snoc => simp at nothing

/-- The last step of a run. -/
theorem Run.of_snoc (run : Run step s (w ++ [a]) u) : ∃ t, Run step s w t ∧ step t a u := by
  generalize word : w ++ [a] = v at run
  cases run with
  | refl => simp at word
  | snoc first last =>
    obtain ⟨rfl, rfl⟩ := List.append_singleton_inj.mp word
    exact ⟨_, first, last⟩

/-- The first step of a run. -/
theorem Run.of_cons (run : Run step s (a :: w) u) : ∃ t, step s a t ∧ Run step t w u := by
  induction w using List.reverseRecOn generalizing u with
  | nil =>
    obtain ⟨t, nothing, last⟩ := Run.of_snoc (w := []) run
    obtain rfl := nothing.eq_of_nil
    exact ⟨u, last, .refl u⟩
  | append_singleton w b ih =>
    obtain ⟨m, front, last⟩ := Run.of_snoc (w := a :: w) run
    obtain ⟨t, first, rest⟩ := ih front
    exact ⟨t, first, rest.snoc last⟩

/-- Where a label leads to one state only, so does a word. -/
theorem Run.unique (run : Run step s w t)
    (functional : ∀ s a t u, step s a t → step s a u → t = u) (run' : Run step s w u) : t = u := by
  induction run generalizing u with
  | refl => exact run'.eq_of_nil.symm
  | snoc _ last ih =>
    obtain ⟨m, front, last'⟩ := run'.of_snoc
    obtain rfl := ih front
    exact functional _ _ _ _ last last'

/-- Where each state is entered by one step only, and the start by none, one word leads to
each state. -/
theorem Run.unique_word (run : Run step s w t)
    (injective : ∀ s a s' a' t, step s a t → step s' a' t → s = s' ∧ a = a')
    (no_entry : ∀ u a, ¬ step u a s) (run' : Run step s v t) : w = v := by
  induction run generalizing v with
  | refl =>
    cases run' with
    | refl => rfl
    | snoc _ last => exact absurd last (no_entry _ _)
  | snoc _ last ih =>
    cases run' with
    | refl => exact absurd last (no_entry _ _)
    | snoc front last' =>
      obtain ⟨rfl, rfl⟩ := injective _ _ _ _ _ last last'
      rw [ih front]

/-- A forward simulation carries every run over: related states stay related,
and the related system takes the same labels. -/
theorem Run.simulate {T : τ → α → τ → Prop} {r : σ → τ → Prop} {b : τ}
    (run : Run step s w t)
    (forward : ∀ s a t b, r s b → step s a t → ∃ c, T b a c ∧ r t c)
    (start : r s b) : ∃ c, Run T b w c ∧ r t c := by
  induction run with
  | refl => exact ⟨b, .refl _, start⟩
  | snoc _ last ih =>
    obtain ⟨m, run', related⟩ := ih
    obtain ⟨c, step', related'⟩ := forward _ _ _ _ related last
    exact ⟨c, run'.snoc step', related'⟩

/-- The steps whose state and label satisfy a condition. -/
def Guarded (step : σ → α → σ → Prop) (guard : σ → α → Prop) (s : σ) (a : α) (t : σ) : Prop :=
  guard s a ∧ step s a t

/-- If a step from a state of `inv` leads to one exactly under a condition on the
state and the label, then the runs under this condition are the runs through
states of `inv`. -/
theorem Run.guarded_iff {inv : σ → Prop} {guard : σ → α → Prop} (start : inv s)
    (exact_step : ∀ s a t, inv s → step s a t → (inv t ↔ guard s a)) :
    Run (Guarded step guard) s w t ↔ Run (fun s a t => step s a t ∧ inv t) s w t := by
  constructor
  · intro run
    have both : inv t ∧ Run (fun s a t => step s a t ∧ inv t) s w t := by
      induction run with
      | refl => exact ⟨start, .refl _⟩
      | snoc _ last ih =>
        obtain ⟨here, ih⟩ := ih
        have there := (exact_step _ _ _ here last.2).mpr last.1
        exact ⟨there, ih.snoc ⟨last.2, there⟩⟩
    exact both.2
  · intro run
    have both : inv t ∧ Run (Guarded step guard) s w t := by
      induction run with
      | refl => exact ⟨start, .refl _⟩
      | snoc _ last ih =>
        obtain ⟨here, ih⟩ := ih
        exact ⟨last.2, ih.snoc ⟨(exact_step _ _ _ here last.1).mp last.2, last.1⟩⟩
    exact both.2

/-- If, along all runs, a step goes well exactly under a condition on the state and the
label, then the runs under this condition are the runs whose steps all go well. -/
theorem Run.guarded_iff_ends {inv : σ → Prop} {guard : σ → α → Prop} {good : σ → α → σ → Prop}
    (start : inv s) (keep : ∀ s a t, inv s → step s a t → inv t)
    (exact_step : ∀ s a t, inv s → step s a t → (good s a t ↔ guard s a)) :
    Run (Guarded step guard) s w t ↔ Run (fun s a t => step s a t ∧ good s a t) s w t := by
  constructor
  · intro run
    have both : inv t ∧ Run (fun s a t => step s a t ∧ good s a t) s w t := by
      induction run with
      | refl => exact ⟨start, .refl _⟩
      | snoc _ last ih =>
        obtain ⟨here, ih⟩ := ih
        exact ⟨keep _ _ _ here last.2, ih.snoc ⟨last.2, (exact_step _ _ _ here last.2).mpr last.1⟩⟩
    exact both.2
  · intro run
    have both : inv t ∧ Run (Guarded step guard) s w t := by
      induction run with
      | refl => exact ⟨start, .refl _⟩
      | snoc _ last ih =>
        obtain ⟨here, ih⟩ := ih
        exact ⟨keep _ _ _ here last.1, ih.snoc ⟨(exact_step _ _ _ here last.1).mp last.2, last.1⟩⟩
    exact both.2

end BareMetal.CS
