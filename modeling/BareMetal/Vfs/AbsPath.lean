import BareMetal.Vfs.Lookup

/-!
# `to_abs_path`

`to_abs_path` cuts the joined path into an array and reads it from the front, while the names
that are left so far are kept as a stack at the front of the same array. The stack never
reaches the names that are still to be read, so each of them is read as it was. It reads on
behind the last name exactly if that name is blank or `.`.

## Main results

* `toAbsPath_normalises` — the result is the path of the names that are left
* `toAbsPath_returns_iff` — when no place behind the names is read
-/

namespace BareMetal.Vfs

open CS Strings

variable {names rest blanks stack : List (List UInt8)} {name cwd pathname joined : List UInt8}
  {comps : Comps} {st : Strtok} {w r rounds : ℕ}

/-! ## Names that are left -/

/-- A name that `to_abs_path` skips. -/
def Blank (name : List UInt8) : Prop := name = [] ∨ name = currentDir

instance (name : List UInt8) : Decidable (Blank name) := inferInstanceAs (Decidable (_ ∨ _))

/-- `..` takes the name on top of the stack, or stays there itself. -/
def climb : List (List UInt8) → List (List UInt8)
  | [] => [parentDir]
  | top :: below => if top = parentDir then parentDir :: top :: below else below

/-- One more name on top of the stack of those that are left. -/
def pushName (stack : List (List UInt8)) (name : List UInt8) : List (List UInt8) :=
  if Blank name then stack
  else if name = parentDir then climb stack
  else name :: stack

/-- The names that are left of a path, the last one first. -/
def normalise (names : List (List UInt8)) : List (List UInt8) := names.foldl pushName []

theorem pushName_blank (blank : Blank name) : pushName stack name = stack := if_pos blank

theorem normalise_append (names rest : List (List UInt8)) :
    normalise (names ++ rest) = rest.foldl pushName (normalise names) :=
  List.foldl_append ..

theorem normalise_snoc (names : List (List UInt8)) (name : List UInt8) :
    normalise (names ++ [name]) = pushName (normalise names) name :=
  normalise_append names [name]

/-- Blank names leave nothing. -/
theorem normalise_blanks (names : List (List UInt8)) (blank : ∀ name ∈ blanks, Blank name) :
    normalise (names ++ blanks) = normalise names := by
  induction blanks using List.reverseRecOn with
  | nil => rw [List.append_nil]
  | append_singleton blanks name ih =>
    have last := blank name (by simp)
    rw [← List.append_assoc, normalise_snoc, pushName_blank last]
    exact ih fun name inside => blank name (List.mem_append_left _ inside)

/-- The length of the path of some names. -/
theorem length_path (ks : List (List UInt8)) :
    (path ks).length = (ks.map fun k => k.length + 1).sum := by
  simp [path, List.length_flatMap]

theorem length_path_reverse (ks : List (List UInt8)) :
    (path ks.reverse).length = (path ks).length := by
  rw [length_path, length_path, List.map_reverse, List.sum_reverse]

theorem length_path_cons (k : List UInt8) (ks : List (List UInt8)) :
    (path (k :: ks)).length = k.length + 1 + (path ks).length := by
  rw [length_path, length_path, List.map_cons, List.sum_cons]

/-- A name adds at most itself to the path. -/
theorem length_path_pushName_le (stack : List (List UInt8)) (name : List UInt8) :
    (path (pushName stack name)).length ≤ name.length + 1 + (path stack).length := by
  rw [pushName]
  split_ifs with blank parent
  · exact Nat.le_add_left _ _
  · subst parent
    cases stack with
    | nil => exact Nat.le_refl _
    | cons top below =>
      rw [climb]
      split_ifs
      · rw [length_path_cons parentDir]
      · rw [length_path_cons top]
        omega
  · rw [length_path_cons]

theorem length_path_foldl_le (stack names : List (List UInt8)) :
    (path (names.foldl pushName stack)).length ≤ (path stack).length + (path names).length := by
  induction names generalizing stack with
  | nil => exact Nat.le_add_right _ _
  | cons name names ih =>
    have first := length_path_pushName_le stack name
    have rest := ih (pushName stack name)
    rw [List.foldl_cons, length_path_cons]
    omega

/-! ## The last piece -/

/-- The last piece of a path. -/
def lastPiece (pathname : List UInt8) : List UInt8 :=
  (pathname.splitOn slash).getLast (List.splitOn_ne_nil slash pathname)

/-! ## The array -/

/-- The array of names after those in front of the `r`-th have been read: the first `w` places
hold the names that are left, and those from the `r`-th on are as they were. -/
structure Halfway (names : List (List UInt8)) (comps : Comps) (w r : ℕ) : Prop where
  behind : w ≤ r
  stacked : comps.take w = ((normalise (names.take r)).reverse.map some)
  unread : comps.drop r = (names.drop r).map some ++ [none]

/-- Before the loop the stack is empty. -/
theorem Halfway.first (names : List (List UInt8)) :
    Halfway names (names.map some ++ [none]) 0 0 where
  behind := Nat.le_refl 0
  stacked := rfl
  unread := rfl

/-- The next name, behind blank ones, is where the array says. -/
theorem Halfway.getElem?_next (halfway : Halfway names comps w r)
    (next : names.drop r = blanks ++ name :: rest) :
    comps[r + blanks.length]? = some (some name) := by
  rw [← List.getElem?_drop, halfway.unread, next, List.map_append, List.append_assoc,
    List.getElem?_append_right (by simp), List.length_map, Nat.sub_self]
  rfl

theorem not_nul_mem_currentDir : 0 ∉ currentDir := by decide

theorem not_nul_mem_parentDir : 0 ∉ parentDir := by decide

/-- The inner loop stops in front of a name that is not blank. -/
theorem skipBlank_name (blank : ∀ k ∈ blanks, Blank k) (stays : ¬ Blank name)
    (no_nul : ∀ k ∈ blanks ++ [name], 0 ∉ k) (behind : Comps) (r : ℕ) :
    skipBlank (blanks.map some ++ some name :: behind) r = .ok (r + blanks.length) := by
  induction blanks generalizing r with
  | nil =>
    obtain ⟨order, compare, same⟩ := strcmp_strings (no_nul name (by simp)) not_nul_mem_currentDir
    rw [List.map_nil, List.nil_append, skipBlank, compare, outcome_bind_ok, if_neg]
    · rfl
    · rw [same]
      exact stays
  | cons k blanks ih =>
    obtain ⟨order, compare, same⟩ := strcmp_strings (no_nul k (by simp)) not_nul_mem_currentDir
    rw [List.map_cons, List.cons_append, skipBlank, compare, outcome_bind_ok, if_pos]
    · rw [ih (fun k inside => blank k (List.mem_cons_of_mem _ inside))
        (fun k inside => no_nul k (List.mem_cons_of_mem _ inside)), List.length_cons]
      congr 1
      omega
    · rw [same]
      exact blank k List.mem_cons_self

/-- The inner loop runs into NULL when only blank names are left. -/
theorem skipBlank_null (blank : ∀ k ∈ blanks, Blank k) (no_nul : ∀ k ∈ blanks, 0 ∉ k)
    (behind : Comps) (r : ℕ) :
    skipBlank (blanks.map some ++ none :: behind) r = .error .nullPointer := by
  induction blanks generalizing r with
  | nil => rfl
  | cons k blanks ih =>
    obtain ⟨order, compare, same⟩ :=
      strcmp_strings (no_nul k List.mem_cons_self) not_nul_mem_currentDir
    rw [List.map_cons, List.cons_append, skipBlank, compare, outcome_bind_ok, if_pos]
    · exact ih (fun k inside => blank k (List.mem_cons_of_mem _ inside))
        (fun k inside => no_nul k (List.mem_cons_of_mem _ inside)) (r + 1)
    · rw [same]
      exact blank k List.mem_cons_self

/-- The stack lies in front of the names that have been read. -/
theorem Halfway.length_stack (halfway : Halfway names comps w r) :
    w = (normalise (names.take r)).length := by
  have whole := congrArg List.length halfway.unread
  have first := congrArg List.length halfway.stacked
  have order := halfway.behind
  simp only [List.length_drop, List.length_append, List.length_map, List.length_singleton] at whole
  simp only [List.length_take, List.length_map, List.length_reverse] at first
  omega

/-- `comps[w-1]` is the top of the stack. -/
theorem topIsParent_eq (stacked : comps.take w = stack.reverse.map some) (length : w = stack.length)
    (no_nul : ∀ k ∈ stack, 0 ∉ k) :
    topIsParent comps w = .ok (decide (stack.head?.all (· = parentDir))) := by
  cases stack with
  | nil => exact if_pos length
  | cons top below =>
    have at_top : comps[w - 1]? = some (some top) := by
      have inside : w - 1 < w := by
        rw [length, List.length_cons]
        omega
      rw [← List.getElem?_take_of_lt inside, stacked, List.reverse_cons, List.map_append, length,
        List.getElem?_append_right (by simp)]
      simp
    have occupied : w ≠ 0 := by
      rw [length]
      exact Nat.succ_ne_zero _
    obtain ⟨order, compare, same⟩ := strcmp_strings (no_nul top List.mem_cons_self)
      not_nul_mem_parentDir
    rw [topIsParent, if_neg occupied, Comps.get, at_top]
    simp [compare, same]

/-- One name that is not blank is pushed, or climbs. -/
theorem translate_name (stacked : comps.take w = stack.reverse.map some) (length : w = stack.length)
    (no_nul : ∀ k ∈ stack, 0 ∉ k) (here : comps[r]? = some (some name)) (behind : w ≤ r)
    (name_no_nul : 0 ∉ name) (stays : ¬ Blank name) :
    ∃ comps' w', translate comps w r = .ok (comps', w') ∧ w' ≤ r + 1 ∧
      comps'.take w' = (pushName stack name).reverse.map some ∧
      comps'.drop (r + 1) = comps.drop (r + 1) := by
  have inside : r < comps.length := (List.getElem?_eq_some_iff.mp here).1
  have pushed : (comps.set w (some name)).take (w + 1) = (name :: stack).reverse.map some := by
    rw [List.take_add_one, List.take_set_of_le (Nat.le_refl w), stacked,
      List.getElem?_set_self (by omega), List.reverse_cons, List.map_append]
    rfl
  obtain ⟨order, compare, same⟩ := strcmp_strings name_no_nul not_nul_mem_parentDir
  have keeps : ∀ old, (comps.set w old).drop (r + 1) = comps.drop (r + 1) :=
    fun old => List.drop_set_of_lt (by omega)
  rw [translate, Comps.get, here, outcome_bind_ok, compare, outcome_bind_ok, pushName,
    if_neg stays]
  by_cases parent : name = parentDir
  · rw [if_pos (same.mpr parent), if_pos parent, topIsParent_eq stacked length no_nul,
      outcome_bind_ok]
    -- `..` stays on an empty stack and on another `..`
    cases stack with
    | nil => exact ⟨_, _, rfl, by omega, parent ▸ pushed, keeps _⟩
    | cons top below =>
      by_cases again : top = parentDir
      · refine ⟨_, _, if_pos (by simp [again]), by omega, ?_, keeps _⟩
        rw [climb, if_pos again, pushed, parent]
      · refine ⟨_, _, if_neg (by simp [again]), by omega, ?_, keeps _⟩
        have popped := congrArg List.dropLast stacked
        rw [climb, if_neg again, List.take_set_of_le (Nat.sub_le w 1)]
        rw [List.reverse_cons, List.map_append, List.map_singleton, List.dropLast_concat,
          List.dropLast_take (by omega)] at popped
        exact popped
  · rw [if_neg fun zero => parent (same.mp zero), if_neg parent]
    exact ⟨_, _, rfl, by omega, pushed, keeps _⟩

/-- Names on the stack are names of the path or `..`. -/
theorem mem_normalise {k : List UInt8} (inside : k ∈ normalise names) : k ∈ names := by
  induction names using List.reverseRecOn with
  | nil => exact inside
  | append_singleton names name ih =>
    rw [normalise_snoc, pushName] at inside
    split_ifs at inside with blank parent
    · exact List.mem_append_left _ (ih inside)
    · cases below : normalise names with
      | nil =>
        rw [below, climb, List.mem_singleton] at inside
        simp [inside, parent]
      | cons top stack =>
        rw [below, climb] at inside
        rw [below] at ih
        split_ifs at inside with again
        · rcases List.mem_cons.mp inside with first | other
          · simp [first, parent]
          · exact List.mem_append_left _ (ih other)
        · exact List.mem_append_left _ (ih (List.mem_cons_of_mem top inside))
    · rcases List.mem_cons.mp inside with first | other
      · simp [first]
      · exact List.mem_append_left _ (ih other)

/-- One round of the outer loop reads blank names and the name behind them. -/
theorem Halfway.round (halfway : Halfway names comps w r) (no_nul : ∀ k ∈ names, 0 ∉ k)
    (next : names.drop r = blanks ++ name :: rest) (blank : ∀ k ∈ blanks, Blank k)
    (stays : ¬ Blank name) :
    ∃ comps' w', Halfway names comps' w' (r + blanks.length + 1) ∧
      names.drop (r + blanks.length + 1) = rest ∧
      translateLoop names.length (rounds + 1) comps w r =
        translateLoop names.length rounds comps' w' (r + blanks.length + 1) := by
  have more : r < names.length := by
    by_contra! done
    rw [List.drop_of_length_le done] at next
    exact List.append_ne_nil_of_right_ne_nil blanks (List.cons_ne_nil name rest) next.symm
  have length := halfway.length_stack
  have unread : ∀ k ∈ blanks ++ [name], k ∈ names := by
    intro k inside
    apply List.mem_of_mem_drop (i := r)
    rw [next, List.append_cons]
    exact List.mem_append_left rest inside
  have skipped := skipBlank_name blank stays (fun k inside => no_nul k (unread k inside))
    (rest.map some ++ [none]) r
  have array : comps.drop r = blanks.map some ++ some name :: (rest.map some ++ [none]) := by
    rw [halfway.unread, next]
    simp
  -- the blank names push nothing, and the name behind them is pushed or pops
  have read : normalise (names.take (r + blanks.length + 1)) =
      pushName (normalise (names.take r)) name := by
    rw [Nat.add_assoc, List.take_add, next, List.append_cons, List.take_left' (by simp),
      ← List.append_assoc, normalise_snoc, normalise_blanks _ blank]
  have later : names.drop (r + blanks.length + 1) = rest := by
    rw [Nat.add_assoc, ← List.drop_drop, next, List.append_cons, List.drop_left' (by simp)]
  obtain ⟨comps', w', result, bound, stacked, kept⟩ :=
    translate_name halfway.stacked length
      (fun k inside => no_nul k (List.mem_of_mem_take (mem_normalise inside)))
      (halfway.getElem?_next next) (halfway.behind.trans (Nat.le_add_right _ _))
      (no_nul name (unread name (by simp))) stays
  refine ⟨comps', w', ⟨bound, read ▸ stacked, ?_⟩, later, ?_⟩
  · rw [kept, later, Nat.add_assoc, ← List.drop_drop, array, List.append_cons,
      List.drop_left' (by simp)]
  · have below : w < names.length := halfway.behind.trans_lt more
    rw [translateLoop, if_pos ⟨below, more⟩, array, skipped, outcome_bind_ok, result,
      outcome_bind_ok]

/-- The last of the names is blank, or there is none. -/
def EndsBlank (names : List (List UInt8)) : Prop := ∀ k ∈ names.getLast?, Blank k

instance (names : List (List UInt8)) : Decidable (EndsBlank names) :=
  inferInstanceAs (Decidable (∀ k ∈ _, _))

/-- Names are blank, or the first ones are and one behind them is not. -/
theorem blanks_or_name (names : List (List UInt8)) :
    (∀ k ∈ names, Blank k) ∨
      ∃ blanks name rest,
        names = blanks ++ name :: rest ∧ (∀ k ∈ blanks, Blank k) ∧ ¬ Blank name := by
  induction names with
  | nil => exact .inl fun k inside => absurd inside List.not_mem_nil
  | cons k names ih =>
    by_cases blank : Blank k
    · rcases ih with all | ⟨blanks, name, rest, cut, before, stays⟩
      · exact .inl (List.forall_mem_cons.mpr ⟨blank, all⟩)
      · refine .inr ⟨k :: blanks, name, rest, ?_, List.forall_mem_cons.mpr ⟨blank, before⟩, stays⟩
        rw [cut, List.cons_append]
    · exact .inr ⟨[], k, names, rfl, by simp, blank⟩

/-- Behind the last name the stack is complete. -/
theorem Halfway.done (halfway : Halfway names comps w r) (done : names.length ≤ r) :
    w = (normalise names).length ∧
      comps.take (normalise names).length = (normalise names).reverse.map some := by
  have length := halfway.length_stack
  have stacked := halfway.stacked
  rw [List.take_of_length_le done] at length stacked
  exact ⟨length, length ▸ stacked⟩

theorem getLast?_unread (more : r < names.length) :
    (names.drop r).getLast? = names.getLast? := by
  rw [List.getLast?_drop, if_neg (not_le.mpr more)]

/-- The outer loop reads every name, unless the last one is blank. -/
theorem Halfway.translateLoop_returns (halfway : Halfway names comps w r)
    (no_nul : ∀ k ∈ names, 0 ∉ k) (enough : names.length ≤ rounds + r)
    (ends : r < names.length → ¬ EndsBlank names) :
    ∃ comps', translateLoop names.length rounds comps w r =
        .ok (comps', (normalise names).length) ∧
      comps'.take (normalise names).length = (normalise names).reverse.map some := by
  induction rounds generalizing comps w r with
  | zero =>
    have past : ¬ (w < names.length ∧ r < names.length) := by omega
    obtain ⟨rfl, stacked⟩ := halfway.done (by omega)
    exact ⟨comps, if_neg past, stacked⟩
  | succ rounds ih =>
    by_cases more : r < names.length
    · rcases blanks_or_name (names.drop r) with all | ⟨blanks, name, rest, next, before, stays⟩
      · refine absurd ?_ (ends more)
        intro k last
        rw [← getLast?_unread more] at last
        exact all k (List.mem_of_getLast? last)
      · obtain ⟨comps', w', halfway', -, round⟩ := halfway.round no_nul next before stays
        rw [round]
        exact ih halfway' (by omega) fun _ => ends more
    · have past : ¬ (w < names.length ∧ r < names.length) := fun both => more both.2
      obtain ⟨rfl, stacked⟩ := halfway.done (not_lt.mp more)
      exact ⟨comps, if_neg past, stacked⟩

/-- The inner loop reads NULL when the last name is blank. -/
theorem Halfway.translateLoop_null (halfway : Halfway names comps w r)
    (no_nul : ∀ k ∈ names, 0 ∉ k) (enough : names.length ≤ rounds + r) (more : r < names.length)
    (ends : EndsBlank names) :
    translateLoop names.length rounds comps w r = .error .nullPointer := by
  induction rounds generalizing comps w r with
  | zero => omega
  | succ rounds ih =>
    rcases blanks_or_name (names.drop r) with all | ⟨blanks, name, rest, next, before, stays⟩
    · have below : w < names.length := halfway.behind.trans_lt more
      have null := skipBlank_null all (fun k inside => no_nul k (List.mem_of_mem_drop inside)) [] r
      rw [translateLoop, if_pos ⟨below, more⟩, halfway.unread, null, outcome_bind_error]
    · obtain ⟨comps', w', halfway', later, round⟩ := halfway.round no_nul next before stays
      rw [round]
      apply ih halfway' (by omega)
      -- a name that is not blank is not the last one
      by_contra! done
      rw [List.drop_of_length_le done] at later
      rw [← later] at next
      refine stays (ends name ?_)
      rw [← getLast?_unread more, next]
      simp

/-! ## The result -/

/-- The last loop writes the path of the names on the stack. -/
theorem joinLoop_path {ks : List (List UInt8)}
    (stored : ∀ (i : ℕ) (k : List UInt8), ks[i]? = some k → comps[i]? = some (some k))
    (fits : (path ks).length < tmpfsMaxPathLen) (front : List (List UInt8))
    (cut : ks = front ++ rest) :
    joinLoop comps rest.length front.length (path front) = .ok (path ks) := by
  induction rest generalizing front with
  | nil =>
    rw [cut, List.append_nil]
    rfl
  | cons k rest ih =>
    have whole : path ks = path front ++ [slash] ++ k ++ path rest := by
      rw [cut]
      simp [path]
    have here : comps[front.length]? = some (some k) := stored _ _ (by simp [cut])
    have next := ih (front ++ [k]) (by rw [cut]; simp)
    have after : path (front ++ [k]) = path front ++ [slash] ++ k := by simp [path]
    rw [whole, List.length_append] at fits
    rw [List.length_append, List.length_singleton, after] at next
    rw [List.length_cons, joinLoop, strcat, if_pos, outcome_bind_ok, Comps.get, here,
      outcome_bind_ok, strcat, if_pos, outcome_bind_ok, next]
    · omega
    · rw [List.length_append] at fits
      omega

/-- The joined path is cut, and its last piece decides. -/
theorem toAbsPath_joined (relative : pathname.head? ≠ some slash) (starts : cwd.head? = some slash)
    (closes : cwd.getLast? = some slash) (short : (cwd ++ pathname).length < tmpfsMaxPathLen)
    (slashes : (cwd ++ pathname).count slash ≤ 62) (ready : st.flag = false) :
    toAbsPath cwd pathname st = do
      let names := (cwd ++ pathname).splitOn slash
      let (comps, count) ← translateLoop names.length names.length (names.map some ++ [none]) 0 0
      let absPath ← joinLoop comps count 0 []
      return (0, absPath, .idle) := by
  have fits : ((cwd ++ pathname).splitOn slash).length ≤ vfsMaxDepth - 1 := by
    rw [length_pieces]
    exact Nat.succ_le_succ slashes
  have first : cwd.length < tmpfsMaxPathLen := by
    rw [List.length_append] at short
    omega
  have ends : ¬ (cwd.head? ≠ some slash ∨ cwd.getLast? ≠ some slash) := by
    simp [starts, closes]
  rw [toAbsPath, if_neg relative, if_neg ends, strcat, List.nil_append, if_pos first,
    outcome_bind_ok, strcat, if_pos short, outcome_bind_ok, spiltStrings_eq ready fits,
    outcome_bind_ok]

/-- The joined path ends as its relative part does. -/
theorem getLast?_joined (closes : cwd.getLast? = some slash) :
    ((cwd ++ pathname).splitOn slash).getLast? = some (lastPiece pathname) := by
  obtain ⟨front, rfl⟩ : ∃ front, cwd = front ++ [slash] :=
    List.getLast?_eq_some_iff.mp closes
  rw [List.append_assoc, List.singleton_append, List.splitOn_append_cons_self,
    List.getLast?_append_of_ne_nil _ (List.splitOn_ne_nil slash pathname), lastPiece,
    List.getLast?_eq_some_getLast]

/-- The names left of an absolute path are no longer than the path. -/
theorem length_path_normalise_le (starts : joined.head? = some slash) :
    (path (normalise (joined.splitOn slash)).reverse).length ≤ joined.length := by
  obtain ⟨rest, rfl⟩ : ∃ rest, joined = slash :: rest := List.head?_eq_some_iff.mp starts
  have bound := length_path_foldl_le [] (rest.splitOn slash)
  rw [path_splitOn] at bound
  -- the first piece is empty
  rw [splitOn_cut, length_path_reverse, normalise, List.foldl_cons, pushName_blank (.inl rfl)]
  exact bound.trans (Nat.le_of_eq (Nat.zero_add _))

/-- What `to_abs_path` does with a relative path: it reads NULL behind a blank name, and
otherwise returns the path of the names that are left. -/
theorem toAbsPath_settles (relative : pathname.head? ≠ some slash)
    (starts : cwd.head? = some slash) (closes : cwd.getLast? = some slash)
    (no_nul : 0 ∉ cwd ++ pathname) (short : (cwd ++ pathname).length < tmpfsMaxPathLen)
    (slashes : (cwd ++ pathname).count slash ≤ 62) (ready : st.flag = false) :
    toAbsPath cwd pathname st =
      if Blank (lastPiece pathname) then .error .nullPointer
      else .ok (0, path (normalise ((cwd ++ pathname).splitOn slash)).reverse, .idle) := by
  rw [toAbsPath_joined relative starts closes short slashes ready]
  by_cases last : Blank (lastPiece pathname)
  · have ends : EndsBlank ((cwd ++ pathname).splitOn slash) := by
      intro k inside
      rw [getLast?_joined closes, Option.mem_some_iff] at inside
      exact inside ▸ last
    have null := (Halfway.first _).translateLoop_null (not_nul_mem_splitOn no_nul) (Nat.le_refl _)
      (List.length_pos_of_ne_nil (List.splitOn_ne_nil slash _)) ends
    simp only [null, outcome_bind_error, if_pos last]
  · have ends : ¬ EndsBlank ((cwd ++ pathname).splitOn slash) := fun blank =>
      last (blank _ (getLast?_joined closes))
    have start : (cwd ++ pathname).head? = some slash := by
      rw [List.head?_append, starts, Option.some_or]
    obtain ⟨comps, result, stacked⟩ := (Halfway.first _).translateLoop_returns
      (not_nul_mem_splitOn no_nul) (Nat.le_refl _) fun _ => ends
    -- the last loop finds the stack in the array
    have stored : ∀ (i : ℕ) (k : List UInt8),
        (normalise ((cwd ++ pathname).splitOn slash)).reverse[i]? = some k →
          comps[i]? = some (some k) := by
      intro i k here
      have inside := (List.getElem?_eq_some_iff.mp here).1
      rw [List.length_reverse] at inside
      rw [← List.getElem?_take_of_lt inside, stacked, List.getElem?_map, here, Option.map_some]
    have joined := joinLoop_path stored ((length_path_normalise_le start).trans_lt short) []
      (List.nil_append _).symm
    rw [List.length_reverse] at joined
    simp only [result, outcome_bind_ok, if_neg last]
    exact congrArg (· >>= fun absPath => pure (0, absPath, Strtok.idle)) joined

/-- **`to_abs_path` normalises.** Names that are blank are skipped, `..` takes the name before
it, if there is one other than `..`, and every place of the array that is read has a name. -/
theorem toAbsPath_normalises (relative : pathname.head? ≠ some slash)
    (starts : cwd.head? = some slash) (closes : cwd.getLast? = some slash)
    (no_nul : 0 ∉ cwd ++ pathname) (short : (cwd ++ pathname).length < tmpfsMaxPathLen)
    (slashes : (cwd ++ pathname).count slash ≤ 62) (last : ¬ Blank (lastPiece pathname))
    (ready : st.flag = false) :
    toAbsPath cwd pathname st =
      .ok (0, path (normalise ((cwd ++ pathname).splitOn slash)).reverse, .idle) := by
  rw [toAbsPath_settles relative starts closes no_nul short slashes ready, if_neg last]

/-- `a/.././..//b` in `/c/`. -/
theorem toAbsPath_normalises_example :
    toAbsPath [47, 99, 47] [97, 47, 46, 46, 47, 46, 47, 46, 46, 47, 47, 98] .idle =
      .ok (0, [47, 98], .idle) :=
  toAbsPath_normalises (by decide) rfl rfl (by decide) (by decide) (by decide) (by decide) rfl

/-- **`to_abs_path` stays in its array** exactly if the path does not end in a blank name. -/
theorem toAbsPath_returns_iff (relative : pathname.head? ≠ some slash)
    (starts : cwd.head? = some slash) (closes : cwd.getLast? = some slash)
    (no_nul : 0 ∉ cwd ++ pathname) (short : (cwd ++ pathname).length < tmpfsMaxPathLen)
    (slashes : (cwd ++ pathname).count slash ≤ 62) (ready : st.flag = false) :
    (∃ result, toAbsPath cwd pathname st = .ok result) ↔ ¬ Blank (lastPiece pathname) := by
  rw [toAbsPath_settles relative starts closes no_nul short slashes ready]
  by_cases last : Blank (lastPiece pathname)
  · simp [last]
  · simp [last]

theorem toAbsPath_returns_iff_parent :
    (∃ result, toAbsPath [47] [46, 46] .idle = .ok result) ↔ ¬ Blank (lastPiece [46, 46]) :=
  toAbsPath_returns_iff (by decide) rfl rfl (by decide) (by decide) (by decide) rfl

/-- `cd ""` in the root directory. -/
theorem toAbsPath_empty : ¬ ∃ result, toAbsPath [slash] [] .idle = .ok result := by
  have null : toAbsPath [slash] [] .idle = .error .nullPointer := rfl
  rw [null]
  simp

end BareMetal.Vfs
