import BareMetal.CS.Transition
import Mathlib.Algebra.Order.Group.Multiset
import Mathlib.Algebra.Order.Sub.Basic
import Mathlib.Data.Finset.Basic
import Mathlib.Data.Multiset.Dedup
import Mathlib.Data.Multiset.OrderedMonoid
import Mathlib.Data.Finset.Dedup

/-!
# Ledgers of chunks

An allocator hands out chunks to owners, who give them back. A `Ledger` has the chunks that are
live and, for each owner, those that it can still give back; an entry of its book says what an
owner has received or given back. An owner that leaves can give nothing back afterwards.

`owed` follows the book for one owner and fails when something is given back that was not owed,
so `FreedOnce` says that all the owner has received was given back, each chunk once. `replay`
follows the live chunks, and `others` strikes one owner's entries.

## Main results

* `Ledger.Step.owned` — what owners hold stays live, and nobody holds what another does
* `Ledger.settled_iff` — an owner leaves nothing behind exactly if it gives back all that it
  holds: then all it received was freed once, and the live chunks are those of a book
  without it
-/

namespace BareMetal.CS

variable {κ ι : Type*}

/-- The live chunks, and the chunks that each owner holds. -/
structure Ledger (κ ι : Type*) where
  live : Finset ι
  holds : κ → Multiset ι

/-- An entry of the book. -/
inductive Entry (κ ι : Type*)
  | receive (x : κ) (got : Multiset ι)
  | giveBack (x : κ) (gave : Multiset ι)
  | leave (x : κ) (gave : Multiset ι)

namespace Entry

/-- The owner that an entry is about. -/
def owner : Entry κ ι → κ
  | receive x _ => x
  | giveBack x _ => x
  | leave x _ => x

/-- The chunks handed out. -/
def got : Entry κ ι → Multiset ι
  | receive _ got => got
  | _ => 0

/-- The chunks given back. -/
def gave : Entry κ ι → Multiset ι
  | receive _ _ => 0
  | giveBack _ gave => gave
  | leave _ gave => gave

variable [DecidableEq ι]

/-- The live chunks after an entry. -/
def after (live : Finset ι) (e : Entry κ ι) : Finset ι := live \ e.gave.toFinset ∪ e.got.toFinset

/-- What the owner holds after an entry. -/
def keeps (held : Multiset ι) : Entry κ ι → Multiset ι
  | receive _ got => held + got
  | giveBack _ gave => held - gave
  | leave _ _ => 0

@[simp] theorem mem_after {live : Finset ι} {e : Entry κ ι} {a : ι} :
    a ∈ e.after live ↔ a ∈ live ∧ a ∉ e.gave ∨ a ∈ e.got := by
  simp [after]

variable [DecidableEq κ]

/-- What is owed of an owner after an entry, if it gives back only what it owes. -/
def settle (x : κ) (owed : Multiset ι) (e : Entry κ ι) : Option (Multiset ι) :=
  if e.owner = x then if e.gave ≤ owed then some (owed - e.gave + e.got) else none
  else some owed

/-- An owner that gives back what it owes. -/
theorem settle_mine {x : κ} {m : Multiset ι} {e : Entry κ ι} (mine : e.owner = x)
    (held : e.gave ≤ m) : e.settle x m = some (m - e.gave + e.got) := by
  rw [settle, if_pos mine, if_pos held]

end Entry

variable [DecidableEq κ] [DecidableEq ι] {x y z : κ} {a : ι} {l l' l₀ : Ledger κ ι}
  {e : Entry κ ι} {es : List (Entry κ ι)} {base : Finset ι} {gave : Multiset ι}

/-! ## Books -/

/-- The live chunks after the entries of a book. -/
def replay (live : Finset ι) (es : List (Entry κ ι)) : Finset ι := es.foldl Entry.after live

/-- A book without the entries of one owner. -/
def others (x : κ) (es : List (Entry κ ι)) : List (Entry κ ι) := es.filter fun e => e.owner ≠ x

/-- What is owed of an owner after the entries of a book. -/
def owed (x : κ) (es : List (Entry κ ι)) : Option (Multiset ι) := es.foldlM (Entry.settle x) 0

/-- All that the owner has received was given back, each chunk once. -/
def FreedOnce (x : κ) (es : List (Entry κ ι)) : Prop := owed x es = some 0

instance (x : κ) (es : List (Entry κ ι)) : Decidable (FreedOnce x es) :=
  inferInstanceAs (Decidable (owed x es = some 0))

omit [DecidableEq κ] in
theorem replay_snoc (live : Finset ι) (es : List (Entry κ ι)) (e : Entry κ ι) :
    replay live (es ++ [e]) = e.after (replay live es) := by
  rw [replay, List.foldl_append]
  rfl

theorem owed_snoc (x : κ) (es : List (Entry κ ι)) (e : Entry κ ι) :
    owed x (es ++ [e]) = (owed x es).bind fun m => e.settle x m := by
  simp [owed, List.foldlM_append]

omit [DecidableEq ι] in
theorem others_snoc_self (mine : e.owner = x) : others x (es ++ [e]) = others x es := by
  simp [others, mine]

omit [DecidableEq ι] in
theorem others_snoc_of_ne (other : e.owner ≠ x) : others x (es ++ [e]) = others x es ++ [e] := by
  simp [others, other]

/-! ## Steps -/

/-- What owners hold is live, and held once. -/
structure Owned (l : Ledger κ ι) : Prop where
  once : ∀ x, (l.holds x).Nodup
  live : ∀ x, ∀ a ∈ l.holds x, a ∈ l.live
  apart : ∀ x y, x ≠ y → ∀ a ∈ l.holds x, a ∉ l.holds y

/-- The allocator hands out chunks that are not live, and an owner gives back what it holds. -/
structure Ledger.Step (l : Ledger κ ι) (e : Entry κ ι) (l' : Ledger κ ι) : Prop where
  got_once : e.got.Nodup
  fresh : ∀ a ∈ e.got, a ∉ l.live
  gave_held : e.gave ≤ l.holds e.owner
  live : l'.live = e.after l.live
  holds : l'.holds = Function.update l.holds e.owner (e.keeps (l.holds e.owner))

namespace Ledger.Step

theorem holds_self (step : Step l e l') : l'.holds e.owner = e.keeps (l.holds e.owner) := by
  rw [step.holds, Function.update_self]

theorem holds_of_ne (step : Step l e l') (other : y ≠ e.owner) : l'.holds y = l.holds y := by
  rw [step.holds, Function.update_of_ne other]

/-- What an owner holds it has held or received, and it was not given back. -/
theorem mem_holds (owned : Owned l) (step : Step l e l') (inside : a ∈ l'.holds y) :
    a ∈ l.holds y ∧ a ∉ e.gave ∨ y = e.owner ∧ a ∈ e.got := by
  by_cases same : y = e.owner
  · subst same
    rw [step.holds_self] at inside
    cases e with
    | receive x got =>
      rcases Multiset.mem_add.mp inside with before | new
      · exact .inl ⟨before, Multiset.notMem_zero a⟩
      · exact .inr ⟨rfl, new⟩
    | giveBack x gave => exact .inl ((Multiset.mem_sub_of_nodup (owned.once x)).mp inside)
    | leave x gave => exact absurd inside (Multiset.notMem_zero a)
  · rw [step.holds_of_ne same] at inside
    refine .inl ⟨inside, fun back => ?_⟩
    exact owned.apart y e.owner same a inside (Multiset.mem_of_le step.gave_held back)

/-- **What owners hold stays live**, and nobody holds what another does. -/
theorem owned (owned : Owned l) (step : Step l e l') : Owned l' where
  once y := by
    by_cases same : y = e.owner
    · subst same
      rw [step.holds_self]
      cases e with
      | receive x got =>
        refine Multiset.nodup_add.mpr ⟨owned.once x, step.got_once, ?_⟩
        exact Multiset.disjoint_left.mpr fun {a} before new =>
          step.fresh a new (owned.live x a before)
      | giveBack x gave => exact Multiset.nodup_of_le (Multiset.sub_le_self _ _) (owned.once x)
      | leave x gave => exact Multiset.nodup_zero
    · rw [step.holds_of_ne same]
      exact owned.once y
  live y a inside := by
    rw [step.live, Entry.mem_after]
    rcases step.mem_holds owned inside with ⟨before, kept⟩ | ⟨-, new⟩
    · exact .inl ⟨owned.live y a before, kept⟩
    · exact .inr new
  apart y z ne a inside inside' := by
    rcases step.mem_holds owned inside with ⟨before, -⟩ | ⟨rfl, new⟩
    · rcases step.mem_holds owned inside' with ⟨before', -⟩ | ⟨-, new⟩
      · exact owned.apart y z ne a before before'
      · exact step.fresh a new (owned.live y a before)
    · rcases step.mem_holds owned inside' with ⟨before', -⟩ | ⟨rfl, -⟩
      · exact step.fresh a new (owned.live z a before')
      · exact ne rfl

end Ledger.Step

/-! ## The time of one owner -/

/-- While an owner is there, it owes what it holds, and the other live chunks are those of a book
without it. -/
structure Ongoing (x : κ) (live : Finset ι) (es : List (Entry κ ι)) (l : Ledger κ ι) : Prop where
  owned : Owned l
  owed : owed x es = some (l.holds x)
  apart : ∀ a ∈ l.holds x, a ∉ replay live (others x es)
  live : ∀ a, a ∈ l.live ↔ a ∈ replay live (others x es) ∨ a ∈ l.holds x

/-- Entries of others. -/
theorem Ongoing.other (ongoing : Ongoing x base es l) (step : l.Step e l') (other : e.owner ≠ x) :
    Ongoing x base (es ++ [e]) l' where
  owned := step.owned ongoing.owned
  owed := by
    rw [owed_snoc, ongoing.owed, step.holds_of_ne (Ne.symm other)]
    exact if_neg other
  apart a inside := by
    rw [step.holds_of_ne (Ne.symm other)] at inside
    rw [others_snoc_of_ne other, replay_snoc, Entry.mem_after]
    rintro (⟨before, -⟩ | new)
    · exact ongoing.apart a inside before
    · exact step.fresh a new (ongoing.owned.live x a inside)
  live a := by
    rw [others_snoc_of_ne other, replay_snoc, Entry.mem_after, step.live, Entry.mem_after,
      ongoing.live, step.holds_of_ne (Ne.symm other)]
    have kept : a ∈ l.holds x → a ∉ e.gave := fun inside back =>
      ongoing.owned.apart e.owner x other a (Multiset.mem_of_le step.gave_held back) inside
    tauto

/-- Entries of the owner, as long as it does not leave. -/
theorem Ongoing.mine (ongoing : Ongoing x base es l) (step : l.Step e l') (mine : e.owner = x)
    (stays : ∀ gave, e ≠ .leave x gave) : Ongoing x base (es ++ [e]) l' := by
  subst mine
  have holds := step.holds_self
  refine ⟨step.owned ongoing.owned, ?_, fun a inside => ?_, fun a => ?_⟩
  · rw [owed_snoc, ongoing.owed, holds, Option.bind_some, Entry.settle_mine rfl step.gave_held]
    cases e with
    | receive y got => exact congrArg some (by rw [Entry.gave, Multiset.sub_zero]; rfl)
    | giveBack y gave => exact congrArg some (add_zero _)
    | leave y gave => exact absurd rfl (stays gave)
  · rw [others_snoc_self rfl]
    intro before
    rcases step.mem_holds ongoing.owned inside with ⟨held, -⟩ | ⟨-, new⟩
    · exact ongoing.apart a held before
    · exact step.fresh a new ((ongoing.live a).mpr (.inl before))
  · rw [others_snoc_self rfl, step.live, Entry.mem_after, ongoing.live, holds]
    cases e with
    | receive y got =>
      simp only [Entry.gave, Entry.got, Entry.keeps, Entry.owner, Multiset.notMem_zero,
        not_false_eq_true, and_true, Multiset.mem_add]
      tauto
    | giveBack y gave =>
      have held : a ∈ gave → a ∈ l.holds y := fun back => Multiset.mem_of_le step.gave_held back
      have apart : a ∈ l.holds y → a ∉ replay base (others y es) := ongoing.apart a
      simp only [Entry.gave, Entry.got, Entry.keeps, Entry.owner, Multiset.notMem_zero, or_false,
        Multiset.mem_sub_of_nodup (ongoing.owned.once y)]
      tauto
    | leave y gave => exact absurd rfl (stays gave)

/-- A run in which the owner does not leave. -/
theorem Ongoing.run (start : Owned l₀) (nothing : l₀.holds x = 0) (run : Run Ledger.Step l₀ es l)
    (stays : ∀ gave, .leave x gave ∉ es) : Ongoing x l₀.live es l := by
  induction run with
  | refl =>
    refine ⟨start, ?_, fun a inside => ?_, fun a => ?_⟩
    · rw [nothing]
      rfl
    · simp [nothing] at inside
    · simp [nothing, others, replay]
  | @snoc _ _ _ e _ last ih =>
    have ongoing := ih fun gave inside => stays gave (List.mem_append_left _ inside)
    by_cases mine : e.owner = x
    · refine ongoing.mine last mine fun gave leaves => stays gave ?_
      rw [leaves]
      exact List.mem_append_right _ List.mem_cons_self
    · exact ongoing.other last mine

/-- **An owner leaves nothing behind** exactly if it gives back all that it holds. -/
theorem Ledger.settled_iff (start : Owned l₀) (nothing : l₀.holds x = 0)
    (run : Run Ledger.Step l₀ es l) (stays : ∀ gave, .leave x gave ∉ es)
    (last : l.Step (.leave x gave) l') :
    FreedOnce x (es ++ [.leave x gave]) ∧
        l'.live = replay l₀.live (others x (es ++ [.leave x gave])) ↔ gave = l.holds x := by
  have ongoing := Ongoing.run start nothing run stays
  have held : gave ≤ l.holds x := last.gave_held
  have mine : (Entry.leave x gave).owner = x := rfl
  have settled : owed x (es ++ [.leave x gave]) = some (l.holds x - gave) := by
    rw [owed_snoc, ongoing.owed, Option.bind_some, Entry.settle_mine mine held]
    exact congrArg some (add_zero _)
  rw [FreedOnce, settled, Option.some.injEq, others_snoc_self mine]
  constructor
  · rintro ⟨nothing_left, -⟩
    exact le_antisymm held (tsub_eq_zero_iff_le.mp nothing_left)
  · rintro rfl
    refine ⟨tsub_self _, Finset.ext fun a => ?_⟩
    rw [last.live, Entry.mem_after, ongoing.live]
    have apart := ongoing.apart a
    simp only [Entry.gave, Entry.got, Multiset.notMem_zero, or_false]
    tauto

end BareMetal.CS
