import BareMetal.Strings.Model
import Mathlib.Tactic.Common

/-!
# `strtok` in place

In `Strings.Model` a token is a string. In the source it is a pointer into the string that is
split: `strtok` overwrites the delimiter behind the token with NUL and goes on behind it. Here
memory is the list of its bytes, and a pointer is an offset in it. The string of delimiters is a
constant and lies elsewhere. A null pointer that is followed is the fault `nullPointer`, so the
tests of `final_ptr` inside the loops always fail.

## Main results

* `spiltStrings_splits` — `spilt_strings` splits a string and leaves `strtok` as it was
* `spiltStrings_refines` — the pieces are those of `Strings.Model`
-/

namespace BareMetal.Strings

open CS

namespace InPlace

/-! ## The source -/

/-- Memory, and the static variables of `strtok`. -/
structure State where
  mem : List UInt8
  tempPtr : Option ℕ
  flag : Bool

/-- Why the loops end: at the NUL or at a delimiter. -/
inductive Stop
  | ends
  | cuts

/-- The loop over the delimiters, at the byte `temp_ptr[i]`. -/
def strtokInner (byte : UInt8) : List UInt8 → Option Stop
  | [] => none
  | d :: delimiter =>
    if byte = 0 then some .ends
    else if byte = d then some .cuts
    else strtokInner byte delimiter

/-- The loop over `i`, with the number of rounds that are left. What `strlen(temp_ptr)` gives
does not change in the loop. -/
def strtokOuter (mem delimiter : List UInt8) (tempPtr : ℕ) : ℕ → ℕ → Outcome (Option (ℕ × Stop))
  | 0, _ => .ok none
  | left + 1, i =>
    match mem[tempPtr + i]? with
    | none => .error .outOfBounds
    | some byte =>
      match strtokInner byte delimiter with
      | some stop => .ok (some (i, stop))
      | none => strtokOuter mem delimiter tempPtr left (i + 1)

/-- `strtok`. -/
def strtok (str : Option ℕ) (delimiter : Option (List UInt8)) (st : State) :
    Outcome (Option ℕ × State) :=
  match delimiter with
  | none => .ok (none, { st with tempPtr := none, flag := false })
  | some delimiter =>
    if st.flag then .ok (none, { st with tempPtr := none, flag := false })
    else
      match str.or st.tempPtr with
      | none => .error .nullPointer
      | some tempPtr => do
        let length ← strlen (st.mem.drop tempPtr)
        match ← strtokOuter st.mem delimiter tempPtr (length + 1) 0 with
        | none => return (none, { st with tempPtr := none, flag := false })
        | some (_, .ends) => return (some tempPtr,
            { st with tempPtr := some tempPtr, flag := true })
        | some (i, .cuts) => return (some tempPtr,
            { mem := st.mem.set (tempPtr + i) 0, tempPtr := some (tempPtr + i + 1), flag := false })

/-- The loop of `spilt_strings`: `count`, the array and what is left behind. -/
def spiltLoop (deli : List UInt8) :
    ℕ → ℕ → (ℕ → Option ℕ) → State → Outcome (ℕ × (ℕ → Option ℕ) × State)
  | 0, _, _, _ => .error .outOfFuel
  | fuel + 1, count, strArr, st =>
    match strArr count with
    | none => .ok (count, strArr, st)
    | some _ => do
      let (token, st) ← strtok none (some deli) st
      spiltLoop deli fuel (count + 1) (Function.update strArr (count + 1) token) st

/-- `spilt_strings`. -/
def spiltStrings (fuel : ℕ) (strArr : ℕ → Option ℕ) (str : ℕ) (deli : List UInt8) (st : State) :
    Outcome (ℕ × (ℕ → Option ℕ) × State) := do
  let (token, st) ← strtok (some str) (some deli) st
  spiltLoop deli fuel 0 (Function.update strArr 0 token) st

/-! ## One token -/

section Token

variable {c : UInt8} {a s rest mem : List UInt8} {p i left : ℕ} {str tempPtr : Option ℕ}

/-- The byte that a pointer points to. -/
theorem getElem?_of_drop {b : UInt8} (here : mem.drop i = b :: rest) : mem[i]? = some b := by
  rw [← List.head?_drop, here, List.head?_cons]

theorem drop_succ_of_drop {b : UInt8} (here : mem.drop i = b :: rest) :
    mem.drop (i + 1) = rest := by
  rw [← List.tail_drop, here, List.tail_cons]

/-- The loops go on over a byte that is no delimiter and not the NUL. -/
theorem strtokOuter_next {b : UInt8} (here : mem.drop (p + i) = b :: rest) (inner : b ≠ 0)
    (other : b ≠ c) : strtokOuter mem [c] p (left + 1) i = strtokOuter mem [c] p left (i + 1) := by
  rw [strtokOuter, getElem?_of_drop here]
  simp [strtokInner, inner, other]

/-- They stop at the NUL. -/
theorem strtokOuter_ends (here : mem.drop (p + i) = cstr s ++ rest) (no_nul : 0 ∉ s)
    (none : c ∉ s) :
    strtokOuter mem [c] p (s.length + 1) i = .ok (some (i + s.length, .ends)) := by
  induction s generalizing i with
  | nil =>
    rw [List.length_nil, strtokOuter, getElem?_of_drop here]
    rfl
  | cons b s ih =>
    rw [List.mem_cons, not_or] at no_nul none
    rw [List.length_cons, strtokOuter_next here (Ne.symm no_nul.1) (Ne.symm none.1),
      ih (drop_succ_of_drop (i := p + i) here) no_nul.2 none.2, Nat.add_right_comm, Nat.add_assoc]

/-- They stop at the first delimiter. -/
theorem strtokOuter_cuts (here : mem.drop (p + i) = a ++ c :: rest) (nonzero : c ≠ 0)
    (no_nul : 0 ∉ a) (first : c ∉ a) (rounds : a.length < left) :
    strtokOuter mem [c] p left i = .ok (some (i + a.length, .cuts)) := by
  obtain ⟨left, rfl⟩ := Nat.exists_eq_add_of_lt rounds
  induction a generalizing i with
  | nil =>
    rw [strtokOuter, getElem?_of_drop here]
    simp [strtokInner, nonzero]
  | cons b a ih =>
    rw [List.mem_cons, not_or] at no_nul first
    rw [strtokOuter_next here (Ne.symm no_nul.1) (Ne.symm first.1), List.length_cons,
      Nat.add_right_comm a.length 1 left,
      ih (drop_succ_of_drop (i := p + i) here) no_nul.2 first.2 (by omega),
      Nat.add_right_comm, Nat.add_assoc]

/-- The last token: the rest of the string. -/
theorem strtok_ends (goes : str.or tempPtr = some p) (here : mem.drop p = cstr s ++ rest)
    (no_nul : 0 ∉ s) (none : c ∉ s) :
    strtok str (some [c]) ⟨mem, tempPtr, false⟩ = .ok (some p, ⟨mem, some p, true⟩) := by
  have loop := strtokOuter_ends (p := p) (i := 0) here no_nul none
  simp only [strtok, goes, here, strlen_cstr no_nul, loop, Bool.false_eq_true, if_false,
    outcome_bind_ok, outcome_pure]

/-- Another token: the string up to the delimiter, which becomes a NUL. -/
theorem strtok_cuts (goes : str.or tempPtr = some p)
    (here : mem.drop p = cstr (a ++ c :: s) ++ rest) (no_nul : 0 ∉ a ++ c :: s) (first : c ∉ a) :
    strtok str (some [c]) ⟨mem, tempPtr, false⟩ =
      .ok (some p, ⟨mem.set (p + a.length) 0, some (p + a.length + 1), false⟩) := by
  have nonzero : c ≠ 0 := fun same => no_nul (by simp [same])
  have no_nul' : 0 ∉ a := fun inside => no_nul (List.mem_append_left _ inside)
  have here' : mem.drop p = a ++ c :: (cstr s ++ rest) := by simp [here, cstr]
  have rounds : a.length < (a ++ c :: s).length + 1 := by
    rw [List.length_append]
    omega
  have loop := strtokOuter_cuts (p := p) (i := 0) here' nonzero no_nul' first rounds
  simp only [strtok, goes, here, strlen_cstr no_nul, loop, Bool.false_eq_true, if_false,
    outcome_bind_ok, outcome_pure, Nat.zero_add]

/-- Behind the last token there is none, and the static variables are cleared. -/
theorem strtok_flag {st : State} (flag : st.flag = true) (delimiter : List UInt8) :
    strtok str (some delimiter) st = .ok (none, ⟨st.mem, none, false⟩) := by
  simp [strtok, flag]

end Token

/-! ## All tokens -/

/-- A string with NULs for its delimiters. -/
def blank (c : UInt8) (s : List UInt8) : List UInt8 := s.map fun b => if b = c then 0 else b

/-- From a place on the array has pointers to the pieces, and NULL behind them. -/
def Stored (mem : List UInt8) (strArr : ℕ → Option ℕ) : ℕ → List (List UInt8) → Prop
  | place, [] => strArr place = none
  | place, piece :: pieces =>
    (∃ p, strArr place = some p ∧ cstr piece <+: mem.drop p) ∧
      Stored mem strArr (place + 1) pieces

section Split

variable {c : UInt8} {a s : List UInt8} {p count : ℕ} {str tempPtr : Option ℕ}
  {strArr strArr' : ℕ → Option ℕ} {st st' : State}

theorem blank_whole (none : c ∉ s) : blank c s = s := by
  have keep : ∀ b ∈ s, (if b = c then 0 else b) = id b := by
    intro b inside
    have other : b ≠ c := fun same => none (same ▸ inside)
    exact if_neg other
  rw [blank, List.map_congr_left keep, List.map_id]

theorem blank_cut (first : c ∉ a) (s : List UInt8) :
    cstr (blank c (a ++ c :: s)) = cstr a ++ cstr (blank c s) := by
  have kept := blank_whole first
  rw [blank] at kept
  rw [blank, List.map_append, List.map_cons, kept, if_pos rfl]
  simp [cstr, blank]

theorem length_blank (c : UInt8) (s : List UInt8) : (blank c s).length = s.length :=
  List.length_map ..

/-- The delimiter behind the first piece becomes its NUL. -/
theorem set_cut (before a s rest : List UInt8) :
    (before ++ (cstr (a ++ c :: s) ++ rest)).set (before.length + a.length) 0 =
      (before ++ cstr a) ++ (cstr s ++ rest) := by
  simp [cstr, List.append_assoc]

/-- The loop splits the string that `strtok` goes on with. The memory in front of it grows by a
piece and its NUL from one round to the next. -/
theorem spiltLoop_eq (before rest : List UInt8) (no_nul : 0 ∉ s)
    (goes : str.or tempPtr = some before.length) (count : ℕ) (strArr : ℕ → Option ℕ) :
    ∃ strArr', (strtok str (some [c]) ⟨before ++ (cstr s ++ rest), tempPtr, false⟩ >>= fun r =>
        spiltLoop [c] ((s.splitOn c).length + 1) count (Function.update strArr count r.1) r.2) =
          .ok (count + (s.splitOn c).length, strArr',
            ⟨before ++ (cstr (blank c s) ++ rest), none, false⟩) ∧
      Stored (before ++ (cstr (blank c s) ++ rest)) strArr' count (s.splitOn c) ∧
      ∀ i, i < count ∨ count + (s.splitOn c).length < i → strArr' i = strArr i := by
  have drop_before (tail : List UInt8) : (before ++ tail).drop before.length = tail :=
    List.drop_left
  induction s using splitOn_induct (c := c) generalizing before str tempPtr count strArr with
  | whole s none =>
    -- the last piece, behind which `strtok` finds nothing
    rw [List.splitOn_eq_singleton none, blank_whole none,
      strtok_ends goes (drop_before _) no_nul none, outcome_bind_ok]
    refine ⟨Function.update (Function.update strArr count (some before.length)) (count + 1) .none,
      ?_, ⟨⟨before.length, ?_, ?_⟩, ?_⟩, fun i outside => ?_⟩
    · rw [spiltLoop, Function.update_self]
      dsimp only
      rw [strtok_flag rfl, outcome_bind_ok, List.length_singleton]
      dsimp only
      rw [spiltLoop, Function.update_self]
    · rw [Function.update_of_ne (Nat.lt_succ_self count).ne, Function.update_self]
    · rw [drop_before]
      exact List.prefix_append ..
    · exact Function.update_self ..
    · rw [List.length_singleton] at outside
      rw [Function.update_of_ne (by omega), Function.update_of_ne (by omega)]
  | cut a s first ih =>
    have no_nul' : 0 ∉ s := fun inside => no_nul (by simp [inside])
    -- the piece and its NUL go over to the memory in front
    have behind : before.length + a.length + 1 = (before ++ cstr a).length := by
      simp [cstr, Nat.add_assoc]
    have goes' : Option.none.or (some (before.length + a.length + 1)) =
        some (before ++ cstr a).length := congrArg some behind
    obtain ⟨strArr', run, stored, frame⟩ := ih (before ++ cstr a) no_nul' goes' (count + 1)
      (Function.update strArr count (some before.length)) fun _ => List.drop_left
    have final : before ++ cstr a ++ (cstr (blank c s) ++ rest) =
        before ++ (cstr (blank c (a ++ c :: s)) ++ rest) := by
      rw [blank_cut first, List.append_assoc, List.append_assoc]
    rw [final] at run stored
    rw [List.splitOn_append_cons_self_of_not_mem first, List.length_cons,
      strtok_cuts goes (drop_before _) no_nul first, outcome_bind_ok, set_cut]
    refine ⟨strArr', ?_, ⟨⟨before.length, ?_, ?_⟩, stored⟩, fun i outside => ?_⟩
    · rw [spiltLoop, Function.update_self]
      rw [Nat.add_assoc count 1, Nat.add_comm 1 (s.splitOn c).length] at run
      exact run
    · rw [frame count (.inl (Nat.lt_succ_self count)), Function.update_self]
    · rw [drop_before, blank_cut first, List.append_assoc]
      exact List.prefix_append ..
    · rw [frame i (by omega), Function.update_of_ne (by omega)]

/-- What a split of the string `s` at `p` leaves: the number of its pieces and the pieces in the
array, NULL behind them, and the static variables as before the first call. Nothing is written
behind that NULL, nor outside of the string. -/
structure Split (c : UInt8) (s : List UInt8) (p : ℕ) (strArr : ℕ → Option ℕ) (st : State)
    (count : ℕ) (strArr' : ℕ → Option ℕ) (st' : State) : Prop where
  count_eq : count = s.count c + 1
  pieces : ∃ pieces : List (List UInt8), pieces.length = count ∧ (∀ piece ∈ pieces, c ∉ piece) ∧
    [c].intercalate pieces = s ∧ Stored st'.mem strArr' 0 pieces
  behind : ∀ i, count < i → strArr' i = strArr i
  outside : ∀ i, i < p ∨ p + s.length ≤ i → st'.mem[i]? = st.mem[i]?
  tempPtr : st'.tempPtr = none
  flag : st'.flag = false

/-- Bytes outside of a part that is replaced. -/
theorem getElem?_outside {before x y tail : List UInt8} {i : ℕ} (length : x.length = y.length)
    (outside : i < before.length ∨ before.length + y.length ≤ i) :
    (before ++ (x ++ tail))[i]? = (before ++ (y ++ tail))[i]? := by
  rcases outside with front | behind
  · rw [List.getElem?_append_left front, List.getElem?_append_left front]
  · rw [List.getElem?_append_right (by omega), List.getElem?_append_right (by omega),
      List.getElem?_append_right (by omega), List.getElem?_append_right (by omega), length]

/-- Memory around a string. -/
theorem exists_around {mem : List UInt8} (here : cstr s <+: mem.drop p) :
    ∃ before rest, before.length = p ∧ mem = before ++ (cstr s ++ rest) := by
  obtain ⟨rest, splits⟩ := here
  refine ⟨mem.take p, rest, ?_, ?_⟩
  · rw [List.length_take, min_eq_left]
    by_contra short
    rw [List.drop_eq_nil_of_le (by omega)] at splits
    simp [cstr] at splits
  · rw [splits, List.take_append_drop]

/-- A string is where its bytes are. -/
theorem string_iff {mem : List UInt8} :
    cstr s <+: mem.drop p ↔ ∀ i (h : i < (cstr s).length), mem[p + i]? = some (cstr s)[i] := by
  simp only [List.prefix_iff_getElem?, List.getElem?_drop]

/-- One split. -/
theorem split_returns (no_nul : 0 ∉ s) (here : cstr s <+: st.mem.drop p)
    (ready : st.flag = false) (strArr : ℕ → Option ℕ) : ∃ count strArr' st',
      Returns (fun fuel => spiltStrings fuel strArr p [c] st) (count, strArr', st') ∧
        Split c s p strArr st count strArr' st' := by
  obtain ⟨mem, tempPtr, flag⟩ := st
  obtain ⟨before, rest, rfl, same⟩ := exists_around here
  dsimp only at ready same
  subst ready same
  have goes : (some before.length).or tempPtr = some before.length := rfl
  obtain ⟨strArr', run, stored, frame⟩ := spiltLoop_eq (c := c) before rest no_nul goes 0 strArr
  rw [Nat.zero_add] at run frame
  refine ⟨_, strArr', _, ⟨_, run⟩, length_pieces c s,
    ⟨s.splitOn c, rfl, not_mem_pieces c s, List.intercalate_splitOn c, stored⟩,
    fun i behind => frame i (.inr behind), fun i outside => ?_, rfl, rfl⟩
  rw [cstr, cstr, List.append_assoc, List.append_assoc]
  exact getElem?_outside (length_blank c s) outside

/-- **`spilt_strings` splits**: it returns one more than the number of delimiters, and the pieces,
which have no delimiter, are the string again when they are joined with it. `strtok` is left as
it was at first, so that the next string, whatever its delimiter, is split as well. -/
theorem spiltStrings_splits (no_nul : 0 ∉ s) (here : cstr s <+: st.mem.drop p)
    (ready : st.flag = false) (strArr : ℕ → Option ℕ) : ∃ count strArr' st',
      Returns (fun fuel => spiltStrings fuel strArr p [c] st) (count, strArr', st') ∧
      Split c s p strArr st count strArr' st' ∧
      ∀ ⦃d t q⦄ (strArr₂ : ℕ → Option ℕ), 0 ∉ t → cstr t <+: st.mem.drop q →
        q + t.length < p ∨ p + s.length < q → ∃ count₂ strArr₂' st₂,
          Returns (fun fuel => spiltStrings fuel strArr₂ q [d] st') (count₂, strArr₂', st₂) ∧
            Split d t q strArr₂ st' count₂ strArr₂' st₂ := by
  obtain ⟨count, strArr', st', returns, split⟩ := split_returns (c := c) no_nul here ready strArr
  refine ⟨count, strArr', st', returns, split, fun d t q strArr₂ no_nul' there apart => ?_⟩
  -- the other string is outside of the one that is cut
  have still : cstr t <+: st'.mem.drop q := by
    rw [string_iff] at there ⊢
    intro i inside
    have bound : i ≤ t.length := by
      rw [cstr, List.length_append, List.length_singleton] at inside
      omega
    rw [split.outside (q + i) (by omega), there i inside]
  exact split_returns no_nul' still split.flag strArr₂

/-- The string `a  b` between two bytes. -/
def twoSpaces : State := ⟨7 :: cstr [97, 32, 32, 98] ++ [7], some 3, false⟩

/-- It is split at its spaces. -/
theorem twoSpaces_split : ∃ count strArr st,
    Returns (fun fuel => spiltStrings fuel (fun _ => none) 1 [32] twoSpaces) (count, strArr, st) ∧
    count = 3 ∧ st.tempPtr = none := by
  have here : cstr [97, 32, 32, 98] <+: twoSpaces.mem.drop 1 := List.prefix_append ..
  obtain ⟨count, strArr, st, returns, split, -⟩ :=
    spiltStrings_splits (c := 32) (by decide) here rfl fun _ => none
  exact ⟨count, strArr, st, returns, split.count_eq, split.tempPtr⟩

/-- The pieces of a split are those of the list. -/
theorem Split.pieces_eq (split : Split c s p strArr st count strArr' st') :
    Stored st'.mem strArr' 0 (s.splitOn c) := by
  obtain ⟨pieces, length, no_delimiter, joined, stored⟩ := split.pieces
  have nonempty : pieces ≠ [] := by
    rw [← List.length_pos_iff, length, split.count_eq]
    exact Nat.succ_pos _
  rwa [← joined, List.splitOn_intercalate c no_delimiter nonempty]

/-- **The two models agree.** What `Strings.spiltStrings` returns, which `lookup_path` and
`to_abs_path` are modelled with, is what the pointers in the array point to. -/
theorem spiltStrings_refines (no_nul : 0 ∉ s) (here : cstr s <+: st.mem.drop p)
    (ready : st.flag = false) (strArr : ℕ → Option ℕ) {room : ℕ} {abstract : Strtok}
    (ready' : abstract.flag = false) (fits : (s.splitOn c).length ≤ room) :
    ∃ pieces strArr' st', Strings.spiltStrings room s [c] abstract = .ok (pieces, .idle) ∧
      Returns (fun fuel => spiltStrings fuel strArr p [c] st) (pieces.length, strArr', st') ∧
      Stored st'.mem strArr' 0 pieces := by
  obtain ⟨count, strArr', st', returns, split⟩ := split_returns (c := c) no_nul here ready strArr
  refine ⟨_, strArr', st', spiltStrings_eq ready' fits, ?_, split.pieces_eq⟩
  rwa [length_pieces, ← split.count_eq]

end Split

end InPlace

end BareMetal.Strings
