import BareMetal.Cpio.Walk
import Mathlib.Logic.Relation

/-!
# Where the walks end

The loops over the headers trust the archive: the next header is where two sizes from the
present one put it, computed as signed numbers, and only a trailer ends a walk. So a walk
may stay where it is, go back, or leave the archive, and `cpio_parse` writes through a
pointer that is unset when the first header is the trailer.

`Row` says of the bytes that from a header on there are records, each with the next one behind
it and before the end of the archive, up to a trailer.

## Main results

* `walksEnd_iff` — the walks end inside the archive exactly when its records are such rows
* `Walkable.row` — so they do in an archive in the newc layout
-/

namespace BareMetal.Cpio

open CS Strings Relation

variable {a : ℕ → List UInt8} {mem str : List UInt8} {n k h : ℕ} {header next : ℕ × ℤ}
  {pad : ℤ → ℤ} {Stops : ℤ → ℤ → Prop}

/-! ## The walks -/

/-- A loop goes from a header on to the next one, in the next round: `pad` rounds the size of the
name, and the loop stops where `Stops` holds of the header and the size of the file. -/
def Goes (a : ℕ → List UInt8) (mem : List UInt8) (pad : ℤ → ℤ) (Stops : ℤ → ℤ → Prop)
    (header next : ℕ × ℤ) : Prop :=
  ∃ order namesize filesize, compareName mem header.2 trailerName = .ok order ∧ order ≠ 0 ∧
    readSizes a header.1 mem header.2 = .ok (namesize, filesize) ∧ ¬ Stops header.2 filesize ∧
    next = (header.1 + 1, header.2 + pad namesize + padFile filesize + 110)

/-- `cpio_ls` and `cpio_parse` stop at the trailer only. -/
def Never (_ _ : ℤ) : Prop := False

/-- `cpio_cat` and `load_program` stop at the file that they look for. -/
def Found (mem str : List UInt8) (header filesize : ℤ) : Prop :=
  compareName mem header str = .ok 0 ∧ padFile filesize ≠ 0

/-- The headers of a walk from the first one on are in the archive, and each is behind the one
before it. -/
def Proceeds (goes : ℕ × ℤ → ℕ × ℤ → Prop) (n : ℕ) : Prop :=
  ∀ header, ReflTransGen goes (0, 0) header →
    (0 ≤ header.2 ∧ header.2 < n) ∧ ∀ next, goes header next → header.2 < next.2

/-- In memory that begins with an archive of `n` bytes the walks end, and their headers are in
the archive and go forward. A null pointer that `cpio_parse` follows would be a fault; where
the file that `load_program` copies is not in memory, it ends with a fault of the copy. -/
structure WalksEnd (a : ℕ → List UInt8) (mem : List UInt8) (n : ℕ) (str : List UInt8) :
    Prop where
  ls : ∃ names, Returns (cpioLs a mem) names
  cat : ∃ found, Returns (cpioCat a mem str) found
  load : ∃ loaded, Ends (loadProgram a mem str) loaded
  parse : ∀ supply heap, ∃ list, Returns (cpioParse a mem supply heap none) list
  proceeds : Proceeds (Goes a mem padName Never) n
  proceeds_even : Proceeds (Goes a mem (fun namesize => padName (evenName namesize))
    (Found mem str)) n

/-! ## Rows of records -/

/-- The name behind a header. -/
def Named (mem : List UInt8) (h : ℕ) (str : List UInt8) : Prop := cstr str <+: mem.drop (h + 110)

instance (mem : List UInt8) (h : ℕ) (str : List UInt8) : Decidable (Named mem h str) :=
  inferInstanceAs (Decidable (_ <+: _))

/-- From a header on, in a round of a walk, there are records: each begins before the end of the
archive, and the sizes in it lead forward, up to a trailer or to where the loop stops. -/
inductive Row (a : ℕ → List UInt8) (mem : List UInt8) (n : ℕ) (pad : ℤ → ℤ)
    (Stops : ℤ → ℤ → Prop) : ℕ → ℕ → Prop
  | trailer {k h : ℕ} (inside : h < n) (name : Named mem h trailerName) :
      Row a mem n pad Stops k h
  | stop {k h : ℕ} {namesize filesize : ℤ} (inside : h < n) (name : ¬ Named mem h trailerName)
      (sizes : readSizes a k mem h = .ok (namesize, filesize)) (stops : Stops h filesize) :
      Row a mem n pad Stops k h
  | entry {k h h' : ℕ} {namesize filesize : ℤ} (inside : h < n)
      (name : ¬ Named mem h trailerName)
      (sizes : readSizes a k mem h = .ok (namesize, filesize)) (goes : ¬ Stops h filesize)
      (next : (h' : ℤ) = h + pad namesize + padFile filesize + 110) (forward : h < h')
      (rest : Row a mem n pad Stops (k + 1) h') : Row a mem n pad Stops k h

/-! ## Names -/

theorem bytesAt_name (h : ℕ) : bytesAt mem ((h : ℤ) + 110) = .ok (mem.drop (h + 110)) := by
  rw [bytesAt, if_pos (by omega)]
  rfl

/-- A string in front of the end of memory can be compared. -/
theorem exists_strcmp {x : List UInt8} (nul : 0 ∈ x) (y : List UInt8) :
    ∃ order, strcmp x (cstr y) = .ok order := by
  induction x generalizing y with
  | nil => exact absurd nul List.not_mem_nil
  | cons b x ih =>
    cases y with
    | nil =>
      refine ⟨_, if_pos ?_⟩
      by_cases zero : b = 0
      · exact .inl zero
      · exact .inr zero
    | cons b' y =>
      by_cases ends : b = 0 ∨ b ≠ b'
      · exact ⟨_, if_pos ends⟩
      · rw [not_or, not_not] at ends
        have rest : 0 ∈ x := (List.mem_cons.mp nul).resolve_left (Ne.symm ends.1)
        obtain ⟨order, result⟩ := ih rest y
        refine ⟨order, (if_neg ?_).trans result⟩
        rw [not_or, not_not]
        exact ends

/-- `strcmp` returns 0 exactly for the same string. -/
theorem strcmp_eq_zero {x y : List UInt8} (no_nul : 0 ∉ y) :
    strcmp x (cstr y) = .ok 0 ↔ cstr y <+: x := by
  induction x generalizing y with
  | nil => simp [strcmp, cstr]
  | cons b x ih =>
    cases y with
    | nil =>
      rw [cstr, List.nil_append, strcmp, if_pos (em _), Except.ok.injEq, toNat_sub_eq_zero,
        List.cons_prefix_cons, eq_comm, and_iff_left (List.nil_prefix)]
    | cons b' y =>
      rw [List.mem_cons, not_or] at no_nul
      rw [cstr, List.cons_append, ← cstr, strcmp, List.cons_prefix_cons, ← ih no_nul.2]
      split_ifs with ends
      · rw [Except.ok.injEq, toNat_sub_eq_zero]
        have differ : b' ≠ b := by
          rintro rfl
          exact no_nul.1 (ends.resolve_right (not_not.mpr rfl)).symm
        exact iff_of_false (Ne.symm differ) fun same => differ same.1
      · rw [not_or, not_not] at ends
        simp [ends.2]

theorem compareName_eq_zero (no_nul : 0 ∉ str) :
    compareName mem h str = .ok 0 ↔ Named mem h str := by
  rw [compareName, bytesAt_name, outcome_bind_ok, strcmp_eq_zero no_nul, Named]

theorem exists_compareName (nul : 0 ∈ mem.drop (h + 110)) (str : List UInt8) :
    ∃ order, compareName mem h str = .ok order := by
  rw [compareName, bytesAt_name]
  exact exists_strcmp nul str

theorem Named.nul (named : Named mem h str) : 0 ∈ mem.drop (h + 110) :=
  List.IsPrefix.mem (by simp [cstr]) named

/-! ## Rows and walks -/

/-- Behind every header of a row there is a NUL. -/
theorem Row.nul (nul : ∀ (h : ℕ) filesize, Stops h filesize → 0 ∈ mem.drop (h + 110))
    (row : Row a mem n pad Stops k h) : 0 ∈ mem.drop (h + 110) := by
  induction row with
  | trailer _ name => exact name.nul
  | stop _ _ _ stops => exact nul _ _ stops
  | @entry _ h h' _ _ _ _ _ _ _ forward _ ih =>
    rw [show h' + 110 = h + 110 + (h' - h) by omega, ← List.drop_drop] at ih
    exact List.mem_of_mem_drop ih

/-- What decides at a header whether the walk ends. -/
theorem goes_iff (k h : ℕ) : Goes a mem pad Stops (k, h) next ↔ ¬ Named mem h trailerName ∧
    (∃ order, compareName mem h trailerName = .ok order) ∧ ∃ namesize filesize,
      readSizes a k mem h = .ok (namesize, filesize) ∧ ¬ Stops h filesize ∧
        next = (k + 1, h + pad namesize + padFile filesize + 110) := by
  rw [← compareName_eq_zero no_nul_trailerName]
  constructor
  · rintro ⟨order, namesize, filesize, compared, goes, rest⟩
    refine ⟨fun zero => goes ?_, ⟨order, compared⟩, namesize, filesize, rest⟩
    exact Except.ok.inj (compared.symm.trans zero)
  · rintro ⟨goes, ⟨order, compared⟩, namesize, filesize, rest⟩
    refine ⟨order, namesize, filesize, compared, fun zero => goes ?_, rest⟩
    rwa [zero] at compared

/-- The headers of a row are in the archive and go forward. -/
theorem Row.proceeds (row : Row a mem n pad Stops k h)
    (reached : ReflTransGen (Goes a mem pad Stops) (k, h) header) :
    (0 ≤ header.2 ∧ header.2 < n) ∧ ∀ next, Goes a mem pad Stops header next →
      header.2 < next.2 := by
  induction row with
  | @trailer k h inside name =>
    -- from here and from where a loop stops there is no next header
    have last : ∀ next, ¬ Goes a mem pad Stops (k, h) next := fun next goes =>
      ((goes_iff k h).mp goes).1 name
    rcases reached.cases_head with rfl | ⟨next, goes, -⟩
    · exact ⟨⟨Int.natCast_nonneg h, Int.ofNat_lt.mpr inside⟩,
        fun next goes => absurd goes (last next)⟩
    · exact absurd goes (last next)
  | @stop k h namesize filesize inside name sizes stops =>
    have last : ∀ next, ¬ Goes a mem pad Stops (k, h) next := by
      intro next goes
      obtain ⟨-, -, namesize', filesize', sizes', on, -⟩ := (goes_iff k h).mp goes
      obtain ⟨rfl, rfl⟩ := Prod.mk.inj (Except.ok.inj (sizes.symm.trans sizes'))
      exact on stops
    rcases reached.cases_head with rfl | ⟨next, goes, -⟩
    · exact ⟨⟨Int.natCast_nonneg h, Int.ofNat_lt.mpr inside⟩,
        fun next goes => absurd goes (last next)⟩
    · exact absurd goes (last next)
  | @entry k h h' namesize filesize inside name sizes _ next_eq forward _ ih =>
    -- the sizes that the loop reads fix the next header
    have only : ∀ next, Goes a mem pad Stops (k, h) next → next = (k + 1, (h' : ℤ)) := by
      intro next goes
      obtain ⟨-, -, namesize', filesize', sizes', -, rfl⟩ := (goes_iff k h).mp goes
      obtain ⟨rfl, rfl⟩ := Prod.mk.inj (Except.ok.inj (sizes.symm.trans sizes'))
      rw [next_eq]
    rcases reached.cases_head with rfl | ⟨next, goes, rest⟩
    · refine ⟨⟨Int.natCast_nonneg h, Int.ofNat_lt.mpr inside⟩, fun next goes => ?_⟩
      rw [only next goes]
      exact Int.ofNat_lt.mpr forward
    · obtain rfl := only next goes
      exact ih rest

/-- One round of a loop that returns from the rounds and headers of `R`. To go on, `Ready` must
hold. -/
def Rounds (a : ℕ → List UInt8) (mem : List UInt8) (pad : ℤ → ℤ) (Stops : ℤ → ℤ → Prop)
    (Ready : ℕ → Prop) (R : ℕ → ℤ → Prop) : Prop :=
  ∀ k h : ℕ, R k h ↔ Named mem h trailerName ∨ ¬ Named mem h trailerName ∧
    (∃ order, compareName mem h trailerName = .ok order) ∧ ∃ namesize filesize,
      readSizes a k mem h = .ok (namesize, filesize) ∧ (Stops h filesize ∨ ¬ Stops h filesize ∧
        Ready h ∧ R (k + 1) (h + pad namesize + padFile filesize + 110))

/-- Along a row a loop returns. -/
theorem Rounds.returns {Ready : ℕ → Prop} {R : ℕ → ℤ → Prop}
    (rounds : Rounds a mem pad Stops Ready R) (ready : ∀ h, 0 ∈ mem.drop (h + 110) → Ready h)
    (nul : ∀ (h : ℕ) filesize, Stops h filesize → 0 ∈ mem.drop (h + 110))
    (row : Row a mem n pad Stops k h) : R k h := by
  induction row with
  | trailer _ name => exact (rounds _ _).mpr (.inl name)
  | @stop k h _ _ _ name sizes stops =>
    have compared := exists_compareName (nul h _ stops) trailerName
    exact (rounds k h).mpr (.inr ⟨name, compared, _, _, sizes, .inl stops⟩)
  | @entry k h h' _ _ inside name sizes on next forward rest ih =>
    have here := (Row.entry inside name sizes on next forward rest).nul nul
    refine (rounds k h).mpr (.inr ⟨name, exists_compareName here trailerName, _, _, sizes,
      .inr ⟨on, ready h here, ?_⟩⟩)
    rwa [← next]

/-- **A loop returns and proceeds exactly along a row.** -/
theorem Rounds.row_iff {Ready : ℕ → Prop} {R : ℕ → ℤ → Prop}
    (rounds : Rounds a mem pad Stops Ready R) (ready : ∀ h, 0 ∈ mem.drop (h + 110) → Ready h)
    (nul : ∀ (h : ℕ) filesize, Stops h filesize → 0 ∈ mem.drop (h + 110)) :
    R 0 0 ∧ Proceeds (Goes a mem pad Stops) n ↔ Row a mem n pad Stops 0 0 := by
  constructor
  · rintro ⟨returns, proceeds⟩
    suffices walk : ∀ left (k h : ℕ), n - h = left →
        ReflTransGen (Goes a mem pad Stops) (0, 0) (k, h) → R k h → Row a mem n pad Stops k h
      from walk _ 0 0 rfl .refl returns
    -- the bytes that are left before the end of the archive
    intro left
    induction left using Nat.strongRecOn with
    | ind left ih =>
      intro k h bytes reached returns
      obtain ⟨⟨-, inside⟩, forward⟩ := proceeds (k, h) reached
      replace inside : h < n := Int.ofNat_lt.mp inside
      rcases (rounds k h).mp returns with name | ⟨name, compared, namesize, filesize, sizes, ends⟩
      · exact .trailer inside name
      rcases ends with stops | ⟨on, -, rest⟩
      · exact .stop inside name sizes stops
      have goes : Goes a mem pad Stops (k, h) _ :=
        (goes_iff k h).mpr ⟨name, compared, namesize, filesize, sizes, on, rfl⟩
      have later : (h : ℤ) < h + pad namesize + padFile filesize + 110 := forward _ goes
      obtain ⟨h', next⟩ := Int.eq_ofNat_of_zero_le ((Int.natCast_nonneg h).trans later.le)
      rw [next] at goes later rest
      have later : h < h' := Int.ofNat_lt.mp later
      exact .entry inside name sizes on next.symm later
        (ih _ (by omega) (k + 1) h' rfl (reached.tail goes) rest)
  · intro row
    exact ⟨rounds.returns ready nul row, fun header reached => row.proceeds reached⟩

/-! ## The four loops -/

/-- What the loops have in common: they look for the trailer and read the sizes. -/
theorem exists_returns_iff {α : Type} {f : ℕ → Outcome α} {done : α} {f' : ℤ → ℤ → ℕ → Outcome α}
    (zero : f 0 = .error .outOfFuel) (succ : ∀ fuel, f (fuel + 1) = do
      let order ← compareName mem h trailerName
      if order = 0 then return done
      else do
        let (namesize, filesize) ← readSizes a k mem h
        f' namesize filesize fuel) :
    (∃ r, Returns f r) ↔ Named mem h trailerName ∨ ¬ Named mem h trailerName ∧
      (∃ order, compareName mem h trailerName = .ok order) ∧ ∃ namesize filesize,
        readSizes a k mem h = .ok (namesize, filesize) ∧ ∃ r, Returns (f' namesize filesize) r := by
  rw [← compareName_eq_zero no_nul_trailerName]
  constructor
  · rintro ⟨r, fuel, run⟩
    cases fuel with
    | zero => exact absurd (zero.symm.trans run) (by simp)
    | succ fuel =>
      rw [succ] at run
      obtain ⟨order, compared, run⟩ := outcome_bind_eq_ok.mp run
      by_cases last : order = 0
      · exact .inl (last ▸ compared)
      rw [if_neg last] at run
      obtain ⟨⟨namesize, filesize⟩, sizes, run⟩ := outcome_bind_eq_ok.mp run
      exact .inr ⟨fun ends => last (Except.ok.inj (compared.symm.trans ends)), ⟨order, compared⟩,
        namesize, filesize, sizes, r, fuel, run⟩
  · rintro (compared | ⟨goes, ⟨order, compared⟩, namesize, filesize, sizes, r, fuel, run⟩)
    · exact ⟨done, 1, by rw [succ, compared, outcome_bind_ok, if_pos rfl, outcome_pure]⟩
    · have nonzero : order ≠ 0 := fun ends => goes (ends ▸ compared)
      exact ⟨r, fuel + 1, by rw [succ, compared, outcome_bind_ok, if_neg nonzero, sizes]; exact run⟩

/-- One round of `cpio_ls`. -/
theorem cpioLs_rounds : Rounds a mem padName Never
    (fun h => ∃ name, (bytesAt mem ((h : ℤ) + 110) >>= readStr) = .ok name)
    fun k header => ∃ names, Returns (fun fuel => cpioLsLoop a mem fuel k header) names := by
  intro k h
  have round := @exists_returns_iff a mem k h _ (fun fuel => cpioLsLoop a mem fuel k h) []
    (fun namesize filesize fuel => do
      let name ← bytesAt mem (h + 110)
      let name ← readStr name
      let names ← cpioLsLoop a mem fuel (k + 1) (h + padName namesize + padFile filesize + 110)
      return name :: names) rfl fun _ => rfl
  simp only [Never, false_or, not_false_eq_true, true_and]
  refine round.trans <| or_congr_right (and_congr_right fun _ => and_congr_right fun _ =>
    exists_congr fun namesize => exists_congr fun filesize => and_congr_right fun _ => ?_)
  constructor
  · rintro ⟨r, fuel, run⟩
    obtain ⟨bytes, found, run⟩ := outcome_bind_eq_ok.mp run
    obtain ⟨name, read, run⟩ := outcome_bind_eq_ok.mp run
    obtain ⟨names, run, -⟩ := outcome_bind_eq_ok.mp run
    exact ⟨⟨name, by rw [found, outcome_bind_ok, read]⟩, names, fuel, run⟩
  · rintro ⟨⟨name, read⟩, names, fuel, run⟩
    dsimp only at run
    refine ⟨name :: names, fuel, ?_⟩
    dsimp only
    rw [← bind_assoc, read, outcome_bind_ok, run]
    rfl

/-- One round of `cpio_cat`. -/
theorem cpioCat_rounds : Rounds a mem (fun namesize => padName (evenName namesize)) (Found mem str)
    (fun h => ∃ order, compareName mem h str = .ok order)
    fun k header => ∃ found, Returns (fun fuel => cpioCatLoop a mem str fuel k header) found := by
  intro k h
  have round := @exists_returns_iff a mem k h _ (fun fuel => cpioCatLoop a mem str fuel k h) none
    (fun namesize filesize fuel => do
      let order ← compareName mem h str
      let namesize := padName (evenName namesize)
      if order = 0 ∧ padFile filesize ≠ 0 then return some ((h : ℤ) + 110 + namesize)
      else cpioCatLoop a mem str fuel (k + 1) ((h : ℤ) + namesize + padFile filesize + 110))
    rfl fun _ => rfl
  refine round.trans <| or_congr_right (and_congr_right fun _ => and_congr_right fun _ =>
    exists_congr fun namesize => exists_congr fun filesize => and_congr_right fun _ => ?_)
  rw [Found]
  constructor
  · rintro ⟨found, fuel, run⟩
    obtain ⟨order, compared, run⟩ := outcome_bind_eq_ok.mp run
    rw [compared, Except.ok.injEq]
    by_cases here : order = 0 ∧ padFile filesize ≠ 0
    · exact .inl here
    · rw [if_neg here] at run
      exact .inr ⟨here, ⟨order, compared⟩, found, fuel, run⟩
  · rintro (stops | ⟨on, ⟨order, compared⟩, found, fuel, run⟩)
    · refine ⟨some ((h : ℤ) + 110 + padName (evenName namesize)), 0, ?_⟩
      dsimp only
      rw [stops.1, outcome_bind_ok, if_pos ⟨rfl, stops.2⟩]
      rfl
    · rw [compared, Except.ok.injEq] at on
      refine ⟨found, fuel, ?_⟩
      dsimp only
      rw [compared, outcome_bind_ok, if_neg on]
      exact run

theorem ends_of_ne {α : Type} {f : ℕ → Outcome α} (fuel : ℕ) (ended : f fuel ≠ .error .outOfFuel) :
    ∃ o, Ends f o :=
  ⟨_, ended, fuel, rfl⟩

theorem copyProgram_ne (left : ℕ) (data : List UInt8) :
    copyProgram left data ≠ .error .outOfFuel := by
  induction left generalizing data with
  | zero => simp [copyProgram]
  | succ left ih =>
    cases data with
    | nil => simp [copyProgram]
    | cons byte data =>
      exact outcome_bind_ne_error (ih data) fun bytes => by simp

/-- `load_program` ends along a row of `cpio_cat`. -/
theorem loadProgram_ends (nul : ∀ (h : ℕ) filesize, Found mem str h filesize →
    0 ∈ mem.drop (h + 110))
    (row : Row a mem n (fun namesize => padName (evenName namesize)) (Found mem str) k h) :
    ∃ loaded, Ends (fun fuel => loadProgramLoop a mem str fuel k h) loaded := by
  induction row with
  | @trailer k h _ name =>
    refine ends_of_ne 1 ?_
    rw [← compareName_eq_zero no_nul_trailerName] at name
    rw [loadProgramLoop, name, outcome_bind_ok, if_pos rfl]
    simp
  | @stop k h namesize filesize _ name sizes stops =>
    obtain ⟨order, compared⟩ := exists_compareName (nul h _ stops) trailerName
    rw [← compareName_eq_zero no_nul_trailerName, compared, Except.ok.injEq] at name
    refine ends_of_ne 1 ?_
    rw [loadProgramLoop, compared, outcome_bind_ok, if_neg name, sizes, outcome_bind_ok]
    dsimp only
    rw [stops.1, outcome_bind_ok, if_pos ⟨rfl, stops.2⟩]
    split_ifs
    · simp
    · -- the size bounds the loop that copies
      refine outcome_bind_ne_error ?_ fun data =>
        outcome_bind_ne_error (copyProgram_ne _ data) fun bytes => by simp
      unfold bytesAt
      split_ifs <;> simp
  | @entry k h h' namesize filesize inside name sizes on next forward rest ih =>
    have here := (Row.entry inside name sizes on next forward rest).nul nul
    obtain ⟨order, compared⟩ := exists_compareName here trailerName
    obtain ⟨order', compared'⟩ := exists_compareName here str
    rw [← compareName_eq_zero no_nul_trailerName, compared, Except.ok.injEq] at name
    rw [Found, compared', Except.ok.injEq] at on
    obtain ⟨loaded, ended, fuel, run⟩ := ih
    refine ⟨loaded, ended, fuel + 1, ?_⟩
    dsimp only at run ⊢
    rw [loadProgramLoop, compared, outcome_bind_ok, if_neg name, sizes, outcome_bind_ok]
    dsimp only
    rw [compared', outcome_bind_ok, if_neg on, ← next]
    exact run

/-- `cpio_parse` returns along a row, when `ptr` is set. -/
theorem cpioParseLoop_returns {calls : ℕ} (row : Row a mem n padName Never calls h)
    (supply : Supply) {heap : Heap CpioFile} (first : ℕ) {last : ℕ}
    (allocated : (heap last).isSome) : ∃ list, Returns (fun fuel =>
      cpioParseLoop a mem supply fuel calls heap (some first) (some last) h) list := by
  have nul : ∀ (h : ℕ) filesize, Never h filesize → 0 ∈ mem.drop (h + 110) := fun _ _ => False.elim
  induction row generalizing heap last with
  | @trailer calls h _ name =>
    rw [← compareName_eq_zero no_nul_trailerName] at name
    refine ⟨(heap.modify last fun file => { file with next := none }, some first), 1, ?_⟩
    dsimp only
    rw [cpioParseLoop, name, outcome_bind_ok, if_pos rfl, Heap.write_some allocated]
    rfl
  | stop _ _ _ stops => exact stops.elim
  | @entry calls h h' namesize filesize inside name sizes on next forward rest ih =>
    have here := (Row.entry inside name sizes on next forward rest).nul nul
    obtain ⟨order, compared⟩ := exists_compareName here trailerName
    rw [← compareName_eq_zero no_nul_trailerName, compared, Except.ok.injEq] at name
    -- the new node is linked behind the last one
    let stored := heap.alloc (supply.chunk calls) {
      pathname := (h : ℤ) + 110
      fileSize := toU64 (padFile filesize)
      dataPtr := (h : ℤ) + 110 + padName namesize
      next := supply.stale calls }
    let link (file : CpioFile) : CpioFile := { file with next := some (supply.chunk calls) }
    have written : stored.write (some last) link = .ok (stored.modify last link) :=
      Heap.write_some (Heap.isSome_alloc.mpr (.inr allocated))
    have linked : (stored.modify last link (supply.chunk calls)).isSome := by
      rw [Heap.isSome_modify]
      exact Heap.isSome_alloc.mpr (.inl rfl)
    obtain ⟨list, fuel, run⟩ := ih linked
    refine ⟨list, fuel + 1, ?_⟩
    dsimp only at run ⊢
    rw [cpioParseLoop, compared, outcome_bind_ok, if_neg name, sizes, outcome_bind_ok]
    dsimp only
    rw [← next]
    change (stored.write (some last) link >>= _) = _
    rw [written, outcome_bind_ok]
    exact run

/-- `cpio_parse` returns along a row that begins with an entry. -/
theorem cpioParse_returns (row : Row a mem n padName Never 0 0) (entry : ¬ Named mem 0 trailerName)
    (supply : Supply) (heap : Heap CpioFile) :
    ∃ list, Returns (cpioParse a mem supply heap none) list := by
  have nul : ∀ (h : ℕ) filesize, Never h filesize → 0 ∈ mem.drop (h + 110) := fun _ _ => False.elim
  have here := row.nul nul
  obtain ⟨order, compared⟩ := exists_compareName here trailerName
  rw [← compareName_eq_zero no_nul_trailerName, compared, Except.ok.injEq] at entry
  cases row with
  | trailer _ name =>
    rw [← compareName_eq_zero no_nul_trailerName, compared, Except.ok.injEq] at name
    exact absurd name entry
  | stop _ _ _ stops => exact stops.elim
  | @entry _ _ h' namesize filesize _ _ sizes _ next _ rest =>
    let stored := heap.alloc (supply.chunk 0) {
      pathname := ((0 : ℕ) : ℤ) + 110
      fileSize := toU64 (padFile filesize)
      dataPtr := ((0 : ℕ) : ℤ) + 110 + padName namesize
      next := supply.stale 0 }
    have allocated : (stored (supply.chunk 0)).isSome := Heap.isSome_alloc.mpr (.inl rfl)
    obtain ⟨list, fuel, run⟩ := cpioParseLoop_returns rest supply (supply.chunk 0) allocated
    refine ⟨list, fuel + 1, ?_⟩
    dsimp only at run
    rw [next] at run
    rw [cpioParse, cpioParseLoop]
    rw [Int.natCast_zero] at compared sizes
    rw [compared, outcome_bind_ok, if_neg entry, sizes, outcome_bind_ok]
    exact run

/-- With the trailer in front `cpio_parse` follows its unset pointer. -/
theorem cpioParse_trailer (name : Named mem 0 trailerName) (supply : Supply)
    (heap : Heap CpioFile) (fuel : ℕ) :
    cpioParse a mem supply heap none (fuel + 1) = .error .nullPointer := by
  rw [← compareName_eq_zero no_nul_trailerName, Int.natCast_zero] at name
  rw [cpioParse, cpioParseLoop, name, outcome_bind_ok, if_pos rfl]
  rfl

/-- What the walks need of the archive: its first header is not the trailer, and the sizes lead
forward from there up to a trailer, or up to the file that `cpio_cat` and `load_program` look
for. -/
structure Rows (a : ℕ → List UInt8) (mem : List UInt8) (n : ℕ) (str : List UInt8) : Prop where
  entry : ¬ Named mem 0 trailerName
  plain : Row a mem n padName Never 0 0
  even : Row a mem n (fun namesize => padName (evenName namesize)) (Found mem str) 0 0

section Loops

variable (a mem n)

/-- `cpio_ls` returns and proceeds along rows. -/
theorem cpioLs_iff :
    (∃ names, Returns (cpioLs a mem) names) ∧ Proceeds (Goes a mem padName Never) n ↔
      Row a mem n padName Never 0 0 := by
  refine cpioLs_rounds.row_iff (fun h nul => ?_) fun _ _ => False.elim
  obtain ⟨name, rest, same, no_nul⟩ := List.eq_append_cons_of_mem nul
  have read := readStr_cstr no_nul rest
  rw [cstr, List.append_assoc] at read
  rw [bytesAt_name, outcome_bind_ok, same]
  exact ⟨name, read⟩

theorem Found.nul (no_nul : 0 ∉ str) {filesize : ℤ} (found : Found mem str h filesize) :
    0 ∈ mem.drop (h + 110) :=
  ((compareName_eq_zero no_nul).mp found.1).nul

theorem cpioCat_iff (no_nul : 0 ∉ str) : (∃ found, Returns (cpioCat a mem str) found) ∧
    Proceeds (Goes a mem (fun namesize => padName (evenName namesize)) (Found mem str)) n ↔
      Row a mem n (fun namesize => padName (evenName namesize)) (Found mem str) 0 0 :=
  cpioCat_rounds.row_iff (fun _ nul => exists_compareName nul str) fun _ _ => Found.nul mem no_nul

end Loops

/-- In rows the walks end. -/
theorem Rows.walksEnd (no_nul : 0 ∉ str) (rows : Rows a mem n str) : WalksEnd a mem n str := by
  obtain ⟨ls, proceeds⟩ := (cpioLs_iff a mem n).mpr rows.plain
  obtain ⟨cat, proceeds_even⟩ := (cpioCat_iff a mem n no_nul).mpr rows.even
  exact ⟨ls, cat, loadProgram_ends (fun _ _ => Found.nul mem no_nul) rows.even,
    cpioParse_returns rows.plain rows.entry, proceeds, proceeds_even⟩

/-- They do not when the first header is the trailer. -/
theorem not_walksEnd_of_named (name : Named mem 0 trailerName) : ¬ WalksEnd a mem n str := by
  intro walks
  obtain ⟨list, fuel, run⟩ := walks.parse ⟨fun _ => 0, fun _ => none⟩ fun _ => none
  have returned := (cpioParse_mono ..) run
  rw [cpioParse_trailer name] at returned
  exact absurd returned (by simp)

/-- **The walks end exactly in rows of records**: the four loops end inside the archive, and
`cpio_parse` follows no unset pointer, exactly when the first header is not the trailer and
the sizes in it and in the following ones lead forward, up to a trailer in the archive. -/
theorem walksEnd_iff (no_nul : 0 ∉ str) : WalksEnd a mem n str ↔ Rows a mem n str := by
  refine ⟨fun walks => ⟨fun name => not_walksEnd_of_named name walks, ?_, ?_⟩,
    Rows.walksEnd no_nul⟩
  · exact (cpioLs_iff a mem n).mp ⟨walks.ls, walks.proceeds⟩
  · exact (cpioCat_iff a mem n no_nul).mp ⟨walks.cat, walks.proceeds_even⟩

/-! ## Archives -/

/-- The records of an archive are a row, up to its trailer. -/
theorem Walkable.row {entries : List Record} (walkable : Walkable mem h entries)
    (clear : ClearFrom a k entries.length) (room : h + (entries.map Record.size).sum < n)
    (rounded : ∀ r : Record,
      pad ((r.name.length + 1 : ℕ) : ℤ) = r.name.length + 1 + r.namePad.length) :
    Row a mem n pad Stops k h := by
  induction walkable generalizing k with
  | @trailer h r holds ends =>
    refine .trailer (by simpa using room) ?_
    rw [← compareName_eq_zero no_nul_trailerName]
    exact compareName_trailer holds ends
  | @entry h r rest holds goes next ih =>
    obtain ⟨order, compared, nonzero⟩ := compareName_entry holds goes
    have name : ¬ Named mem h trailerName := by
      rw [← compareName_eq_zero no_nul_trailerName, compared, Except.ok.injEq]
      exact nonzero
    obtain ⟨first, second, later⟩ := clear.next
    have sizes := r.readSizes_eq first second holds
    have large := r.header_le_size
    rw [List.map_cons, List.sum_cons] at room
    by_cases stops : Stops h r.data.length
    · exact .stop (by omega) name sizes stops
    · refine .entry (by omega) name sizes stops ?_ (by omega) (ih later (by omega))
      rw [rounded, r.padFile_eq, r.next_header]

/-- **In an archive in the newc layout with an entry the walks end.** -/
theorem archive_walksEnd {entries : List Record} (clear : ClearFrom a 0 entries.length)
    (nonempty : entries ≠ []) (goes : ∀ r ∈ entries, r.name ≠ trailerName) {trailer : Record}
    (ends : trailer.name = trailerName) (rest : List UInt8) (no_nul : 0 ∉ str)
    (room : (entries.map Record.size).sum < n) :
    WalksEnd a (archive entries trailer rest) n str := by
  have walkable := walkable_archive goes ends rest
  refine Rows.walksEnd no_nul ⟨fun name => ?_, walkable.row clear (by omega) Record.padName_eq,
    walkable.row clear (by omega) Record.padName_even_eq⟩
  rw [← compareName_eq_zero no_nul_trailerName] at name
  cases walkable with
  | trailer => exact nonempty rfl
  | entry holds other =>
    obtain ⟨order, compared, nonzero⟩ := compareName_entry holds other
    exact nonzero (Except.ok.inj (compared.symm.trans name))

/-- The archive with the file `hi`. -/
theorem hiFile_rows : Rows cleared (archive [hiFile] trailerRecord []) 121 [104, 105] :=
  (walksEnd_iff (by decide)).mp
    (archive_walksEnd (fun k _ _ => isClear_cleared k) (by decide) (by decide) rfl [] (by decide)
      (by decide))

/-- A walk that goes from the first header to a place that is not behind it, or not in the
archive. -/
theorem not_walksEnd_of_goes (goes : Goes a mem padName Never (0, 0) next)
    (away : next.2 ≤ 0 ∨ n ≤ next.2) : ¬ WalksEnd a mem n str := by
  intro walks
  have forward := (walks.proceeds (0, 0) .refl).2 next goes
  have inside := (walks.proceeds next (.single goes)).1
  omega

/-- A header with `FFFFFF92` for the size of the name `a`: the next header is the same one. -/
def stuck : List UInt8 := List.replicate 54 48 ++ hexField 0 ++ List.replicate 32 48 ++
  hexField 0xFFFFFF92 ++ List.replicate 8 48 ++ cstr [97]

/-- The walks do not end with a trailer only, where a size leads back to the same header, and
where the trailer is behind the archive. -/
theorem walks_do_not_end : ¬ WalksEnd cleared (archive [] trailerRecord []) 124 [97] ∧
    ¬ WalksEnd cleared stuck 112 [97] ∧
    ¬ WalksEnd cleared (archive [hiFile] trailerRecord []) 120 [97] := by
  have stays : Goes cleared stuck padName Never (0, 0) (1, 0) :=
    ⟨13, -110, 0, by decide, by decide, by decide, id, by decide⟩
  have leaves : Goes cleared (archive [hiFile] trailerRecord []) padName Never (0, 0) (1, 120) :=
    ⟨20, 3, 3, by decide, by decide, by decide, id, by decide⟩
  exact ⟨not_walksEnd_of_named (by decide), not_walksEnd_of_goes stays (.inl le_rfl),
    not_walksEnd_of_goes leaves (.inr le_rfl)⟩

end BareMetal.Cpio
