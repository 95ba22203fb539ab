import BareMetal.Cpio.ReadHeader

/-!
# The walks agree

Each loop over the headers is followed along an archive by induction on the entries that
are left: at a record it finds the name and both sizes, at the trailer it ends.

## Main results

* `walks_agree` — `cpio_parse`, `cpio_ls`, `cpio_cat` and `load_program` see the entries
  of an archive, at the same places
-/

namespace BareMetal.Cpio

open CS Strings

variable {a : ℕ → List UInt8} {mem : List UInt8} {round header : ℕ} {entries : List Record}
  {r : Record}

theorem no_nul_trailerName : 0 ∉ trailerName := by decide

/-- The step from a header to the next one. -/
theorem Record.next_header (r : Record) (header : ℕ) :
    (header : ℤ) + (r.name.length + 1 + r.namePad.length) + r.dataSize + 110 =
      ((header + r.size : ℕ) : ℤ) := by
  rw [size, dataOffset]
  omega

/-- The address of the data as the walks compute it. -/
theorem Record.data_address (r : Record) (header : ℕ) :
    (header : ℤ) + 110 + (r.name.length + 1 + r.namePad.length) =
      ((header + r.dataOffset : ℕ) : ℤ) := by
  rw [dataOffset]
  omega

theorem Record.dataSize_eq_zero : (r.dataSize : ℤ) = 0 ↔ r.data = [] := by
  have pad := r.dataPad_length
  rw [padding] at pad
  rw [dataSize, ← List.length_eq_zero_iff]
  omega

/-- At a trailer the loops end. -/
theorem compareName_trailer (holds : r.encode <+: mem.drop header) (ends : r.name = trailerName) :
    compareName mem header trailerName = .ok 0 := by
  obtain ⟨order, result, iff⟩ := Record.compareName_eq holds no_nul_trailerName
  rwa [iff.mpr ends] at result

/-- At an entry the loops go on. -/
theorem compareName_entry (holds : r.encode <+: mem.drop header) (goes : r.name ≠ trailerName) :
    ∃ order, compareName mem header trailerName = .ok order ∧ order ≠ 0 := by
  obtain ⟨order, result, iff⟩ := Record.compareName_eq holds no_nul_trailerName
  exact ⟨order, result, fun zero => goes (iff.mp zero)⟩

/-! ## `cpio_ls` -/

theorem cpioLsLoop_eq (walkable : Walkable mem header entries)
    (clear : ClearFrom a round entries.length) :
    cpioLsLoop a mem (entries.length + 1) round header = .ok (entries.map Record.name) := by
  induction walkable generalizing round with
  | trailer holds ends =>
    change (compareName _ _ _ >>= _) = _
    rw [compareName_trailer holds ends]
    rfl
  | @entry header r rest holds goes next ih =>
    obtain ⟨order, compared, nonzero⟩ := compareName_entry holds goes
    obtain ⟨first, second, later⟩ := clear.next
    rw [List.length_cons, cpioLsLoop, compared, outcome_bind_ok, if_neg nonzero,
      r.readSizes_eq first second holds, outcome_bind_ok]
    -- the padded sizes lead to the next record
    simp only [r.padName_eq, r.padFile_eq, r.next_header, ih later, outcome_bind_ok, outcome_pure]
    rw [← bind_assoc, r.readStr_eq holds]
    rfl

/-! ## `cpio_cat` and `load_program` -/

/-- The first entry with a name that has data. -/
def selected (header : ℕ) (entries : List Record) (str : List UInt8) : Option Placed :=
  (layout header entries).find? fun p => p.record.name = str ∧ p.record.data ≠ []

theorem selected_cons (r : Record) (rest : List Record) (str : List UInt8) :
    selected header (r :: rest) str = if r.name = str ∧ r.data ≠ [] then some ⟨r, header⟩
      else selected (header + r.size) rest str := by
  rw [selected, layout, List.find?_cons]
  split_ifs with this <;> simp [this, selected]

theorem cpioCatLoop_eq (walkable : Walkable mem header entries)
    (clear : ClearFrom a round entries.length) {str : List UInt8}
    (no_nul : 0 ∉ str) : cpioCatLoop a mem str (entries.length + 1) round header =
      .ok ((selected header entries str).map fun p => (p.dataPtr : ℤ)) := by
  induction walkable generalizing round with
  | trailer holds ends =>
    change (compareName _ _ _ >>= _) = _
    rw [compareName_trailer holds ends]
    rfl
  | @entry header r rest holds goes next ih =>
    obtain ⟨order, compared, nonzero⟩ := compareName_entry holds goes
    obtain ⟨order', compared', iff⟩ := r.compareName_eq holds no_nul
    obtain ⟨first, second, later⟩ := clear.next
    rw [List.length_cons, cpioCatLoop, compared, outcome_bind_ok, if_neg nonzero,
      r.readSizes_eq first second holds, outcome_bind_ok, selected_cons]
    simp only [r.padName_even_eq, r.padFile_eq, r.next_header, r.data_address, compared',
      outcome_bind_ok, iff, ne_eq, r.dataSize_eq_zero]
    split_ifs with here
    · rfl
    · exact ih later

/-- How `load_program` ends when it has selected an entry. -/
def Placed.loaded (p : Placed) : Loaded :=
  if (p.record.dataSize : ℤ) > userProgramMaxSize then .tooLarge
  else .program (p.record.data ++ p.record.dataPad)

theorem loadProgramLoop_eq (walkable : Walkable mem header entries)
    (clear : ClearFrom a round entries.length) {name : List UInt8}
    (no_nul : 0 ∉ name) : loadProgramLoop a mem name (entries.length + 1) round header =
      .ok ((selected header entries name).elim .notFound Placed.loaded) := by
  induction walkable generalizing round with
  | trailer holds ends =>
    change (compareName _ _ _ >>= _) = _
    rw [compareName_trailer holds ends]
    rfl
  | @entry header r rest holds goes next ih =>
    obtain ⟨order, compared, nonzero⟩ := compareName_entry holds goes
    obtain ⟨order', compared', iff⟩ := r.compareName_eq holds no_nul
    have copied := r.copyData_eq holds
    rw [← Int.natCast_add] at copied
    obtain ⟨first, second, later⟩ := clear.next
    rw [List.length_cons, loadProgramLoop, compared, outcome_bind_ok, if_neg nonzero,
      r.readSizes_eq first second holds, outcome_bind_ok, selected_cons]
    simp only [r.padName_even_eq, r.padFile_eq, r.next_header, r.data_address, compared',
      outcome_bind_ok, iff, ne_eq, r.dataSize_eq_zero, Int.toNat_natCast]
    by_cases here : r.name = name ∧ ¬r.data = []
    · rw [if_pos here, if_pos here, Option.elim_some, Placed.loaded]
      split_ifs
      · rfl
      · rw [← bind_assoc, copied]
        rfl
    · rw [if_neg here, if_neg here]
      exact ih later

/-! ## `cpio_parse` -/

/-- The node of an entry. -/
def Placed.file (p : Placed) (next : Option ℕ) : CpioFile where
  pathname := p.namePtr
  fileSize := p.record.dataSize
  dataPtr := p.dataPtr
  next := next

/-- New chunks: different ones, and none of them is in use. -/
structure Supply.Fresh (supply : Supply) (calls : ℕ) (heap : Heap CpioFile) : Prop where
  different : Function.Injective supply.chunk
  unused : ∀ i, calls ≤ i → heap (supply.chunk i) = none

namespace Supply.Fresh

variable {supply : Supply} {calls i x : ℕ} {heap : Heap CpioFile}

/-- A node is at none of the new chunks. -/
theorem ne (fresh : supply.Fresh calls heap) {node : CpioFile} (here : heap x = some node)
    (le : calls ≤ i) : x ≠ supply.chunk i := by
  rintro rfl
  rw [fresh.unused i le] at here
  exact absurd here (by simp)

theorem alloc (fresh : supply.Fresh calls heap) (node : CpioFile) :
    supply.Fresh (calls + 1) (heap.alloc (supply.chunk calls) node) := by
  refine ⟨fresh.different, fun i le => ?_⟩
  have other : supply.chunk i ≠ supply.chunk calls := fun same =>
    (Nat.ne_of_gt le) (fresh.different same)
  rw [Heap.alloc_of_ne other]
  exact fresh.unused i (Nat.le_of_succ_le le)

theorem modify (fresh : supply.Fresh calls heap) (f : CpioFile → CpioFile) :
    supply.Fresh calls (heap.modify x f) := by
  refine ⟨fresh.different, fun i le => ?_⟩
  have unused := fresh.unused i le
  rw [← Option.not_isSome_iff_eq_none] at unused ⊢
  rwa [Heap.isSome_modify]

end Supply.Fresh

/-- The chunks of some calls. -/
def Supply.cells (supply : Supply) (calls : ℕ) : ℕ → List ℕ
  | 0 => []
  | n + 1 => supply.chunk calls :: supply.cells (calls + 1) n

theorem Supply.mem_cells {supply : Supply} {calls n x : ℕ} (inside : x ∈ supply.cells calls n) :
    ∃ i, calls ≤ i ∧ x = supply.chunk i := by
  induction n generalizing calls with
  | zero => exact absurd inside List.not_mem_nil
  | succ n ih =>
    rcases List.mem_cons.mp inside with rfl | inside
    · exact ⟨calls, Nat.le_refl calls, rfl⟩
    · obtain ⟨i, le, same⟩ := ih inside
      exact ⟨i, Nat.le_of_succ_le le, same⟩

/-- The nodes of the entries are at some addresses, in their order. -/
def Nodes (heap : Heap CpioFile) (cells : List ℕ) (places : List Placed) : Prop :=
  List.Forall₂ (fun cell p => ∃ next, heap cell = some (p.file next)) cells places

/-- The node that the loop writes at an entry. -/
theorem Record.file_eq (r : Record) (header : ℕ) (next : Option ℕ) :
    (⟨(header : ℤ) + 110, toU64 r.dataSize,
      (header : ℤ) + 110 + (r.name.length + 1 + r.namePad.length), next⟩ : CpioFile) =
      (⟨r, header⟩ : Placed).file next := by
  have small : r.dataSize < 2 ^ 31 := r.data_small
  have wide : toU64 r.dataSize = r.dataSize := by
    rw [toU64]
    omega
  rw [r.data_address, wide]
  rfl

/-- From the first entry on the loop hangs the nodes behind `last`. -/
theorem cpioParseLoop_eq {supply : Supply} (walkable : Walkable mem header entries) {calls : ℕ}
    (clear : ClearFrom a calls entries.length) {heap : Heap CpioFile}
    (fresh : supply.Fresh calls heap) (first : ℕ) {last : ℕ} {node : CpioFile}
    (here : heap last = some node) :
    ∃ heap', cpioParseLoop a mem supply (entries.length + 1) calls heap (some first)
        (some last) header = .ok (heap', some first) ∧
      Chain CpioFile.next heap' (some last) (last :: supply.cells calls entries.length) ∧
      (∃ next, heap' last = some { node with next := next }) ∧
      Nodes heap' (supply.cells calls entries.length) (layout header entries) ∧
      ∀ x, x ≠ last → (∀ i, calls ≤ i → x ≠ supply.chunk i) → heap' x = heap x := by
  induction walkable generalizing calls heap last node with
  | trailer holds ends =>
    have allocated : (heap last).isSome := Option.isSome_iff_exists.mpr ⟨node, here⟩
    refine ⟨heap.modify last fun file => { file with next := none }, ?_, ?_, ⟨none, ?_⟩, .nil, ?_⟩
    · change (compareName _ _ _ >>= _) = _
      rw [compareName_trailer holds ends, outcome_bind_ok, if_pos rfl, Heap.write_some allocated]
      rfl
    · exact Chain.nil.push List.not_mem_nil allocated fun _ => rfl
    · rw [Heap.modify_self, here]
      rfl
    · exact fun x other _ => Heap.modify_of_ne other
  | @entry header r rest holds goes next ih =>
    obtain ⟨order, compared, nonzero⟩ := compareName_entry holds goes
    have apart := fresh.ne here (Nat.le_refl calls)
    -- the node of the entry, and the link from the node in front of it
    let stored := heap.alloc (supply.chunk calls) ((⟨r, header⟩ : Placed).file (supply.stale calls))
    let linked := stored.modify last fun file => { file with next := some (supply.chunk calls) }
    have atLast : stored last = some node := (Heap.alloc_of_ne apart).trans here
    have atCur : linked (supply.chunk calls) =
        some ((⟨r, header⟩ : Placed).file (supply.stale calls)) :=
      (Heap.modify_of_ne apart.symm).trans Heap.alloc_self
    have written := Heap.write_some (Option.isSome_iff_exists.mpr ⟨node, atLast⟩)
      (f := fun file : CpioFile => { file with next := some (supply.chunk calls) })
    have fresh' : supply.Fresh (calls + 1) linked := (fresh.alloc _).modify _
    obtain ⟨clear₁, clear₂, later⟩ := clear.next
    obtain ⟨heap', run, chain, ⟨next, atCur'⟩, nodes, frame⟩ := ih later fresh' atCur
    have atLast' : heap' last = some { node with next := some (supply.chunk calls) } := by
      have kept := frame last apart fun i le => fresh.ne here (Nat.le_of_succ_le le)
      have changed : linked last = (stored last).map _ := Heap.modify_self
      rw [kept, changed, atLast]
      rfl
    refine ⟨heap', ?_, ⟨⟨rfl, ?_⟩, ?_⟩, ⟨some (supply.chunk calls), atLast'⟩,
      .cons ⟨next, atCur'⟩ nodes, ?_⟩
    · rw [List.length_cons, cpioParseLoop, compared, outcome_bind_ok, if_neg nonzero,
        r.readSizes_eq clear₁ clear₂ holds, outcome_bind_ok]
      simp only [r.padName_eq, r.padFile_eq, r.next_header, r.file_eq]
      rw [written, outcome_bind_ok]
      exact run
    · rw [Heap.links_eq CpioFile.next atLast']
      exact chain.linked
    · intro x inside
      rcases List.mem_cons.mp inside with rfl | inside
      · exact Option.isSome_iff_exists.mpr ⟨_, atLast'⟩
      · exact chain.allocated x inside
    · intro x ne_last unlisted
      have ne_cur := unlisted calls (Nat.le_refl calls)
      have kept := frame x ne_cur fun i le => unlisted i (Nat.le_of_succ_le le)
      exact kept.trans ((Heap.modify_of_ne ne_last).trans (Heap.alloc_of_ne ne_cur))

/-- `cpio_parse` makes the list of the entries. -/
theorem cpioParse_eq {supply : Supply} (walkable : Walkable mem 0 entries)
    (clear : ClearFrom a 0 entries.length) (nonempty : entries ≠ []) {heap : Heap CpioFile}
    (fresh : supply.Fresh 0 heap) :
    ∃ heap' file, cpioParse a mem supply heap none (entries.length + 1) = .ok (heap', file) ∧
      Chain CpioFile.next heap' file (supply.cells 0 entries.length) ∧
      Nodes heap' (supply.cells 0 entries.length) (layout 0 entries) := by
  obtain @⟨-, -⟩ | @⟨-, r, rest, holds, goes, next⟩ := walkable
  · exact absurd rfl nonempty
  obtain ⟨order, compared, nonzero⟩ := compareName_entry holds goes
  -- the first node becomes `*file`, and the others hang behind it
  let stored := heap.alloc (supply.chunk 0) ((⟨r, 0⟩ : Placed).file (supply.stale 0))
  have atCur : stored (supply.chunk 0) = some ((⟨r, 0⟩ : Placed).file (supply.stale 0)) :=
    Heap.alloc_self
  have fresh' : supply.Fresh 1 stored := fresh.alloc _
  obtain ⟨first, second, later⟩ := clear.next
  obtain ⟨heap', run, chain, atCur', nodes, -⟩ :=
    cpioParseLoop_eq next later fresh' (supply.chunk 0) atCur
  refine ⟨heap', _, ?_, chain, .cons atCur' nodes⟩
  rw [cpioParse, List.length_cons, cpioParseLoop]
  have compared : compareName mem 0 trailerName = .ok order := compared
  have sizes : readSizes a 0 mem 0 = _ := r.readSizes_eq first second holds
  rw [compared, outcome_bind_ok, if_neg nonzero, sizes, outcome_bind_ok]
  have stored_eq := r.file_eq 0 (supply.stale 0)
  have header_eq := r.next_header 0
  rw [Int.natCast_zero] at stored_eq header_eq
  simp only [r.padName_eq, r.padFile_eq, stored_eq, header_eq]
  exact run

/-- It does not return when something is left in the array at a call. -/
theorem cpioParseLoop_stale {supply : Supply} (walkable : Walkable mem header entries) {calls : ℕ}
    (length : ∀ k, (a k).length = 9) (stale : ¬ ClearFrom a calls entries.length) (fuel : ℕ)
    (heap : Heap CpioFile) (file ptr : Option ℕ) (result : Heap CpioFile × Option ℕ) :
    cpioParseLoop a mem supply fuel calls heap file ptr header ≠ .ok result := by
  induction walkable generalizing calls fuel heap file ptr with
  | trailer => exact absurd (fun k low high => by simp at high; omega) stale
  | @entry header r rest holds goes next ih =>
    obtain ⟨order, compared, nonzero⟩ := compareName_entry holds goes
    cases fuel with
    | zero => simp [cpioParseLoop]
    | succ fuel =>
      intro returns
      rw [cpioParseLoop, compared, outcome_bind_ok, if_neg nonzero] at returns
      obtain ⟨sizes, read, returns⟩ := outcome_bind_eq_ok.mp returns
      obtain ⟨first, second⟩ := r.isClear_of_readSizes length holds read
      -- so something is left at a later call
      have later : ¬ ClearFrom a (calls + 1) rest.length := fun clear =>
        stale (clear.cons first second)
      obtain rfl := Except.ok.inj ((r.readSizes_eq first second holds).symm.trans read)
      simp only [r.padName_eq, r.padFile_eq, r.next_header] at returns
      cases file with
      | none => exact ih later _ _ _ _ returns
      | some file =>
        obtain ⟨heap', -, returns⟩ := outcome_bind_eq_ok.mp returns
        exact ih later _ _ _ _ returns

/-- A larger bound on the number of headers changes nothing. -/
theorem cpioParse_mono (a : ℕ → List UInt8) (mem : List UInt8) (supply : Supply)
    (heap : Heap CpioFile) (file : Option ℕ) : FuelMonotone (cpioParse a mem supply heap file) := by
  suffices loop : ∀ calls heap file ptr header, FuelMonotone fun fuel =>
      cpioParseLoop a mem supply fuel calls heap file ptr header from loop 0 heap file none 0
  intro calls heap file ptr header fuel
  induction fuel generalizing calls heap file ptr header with
  | zero =>
    intro r returns
    contradiction
  | succ fuel ih =>
    intro r returns
    change cpioParseLoop a mem supply (fuel + 1) calls heap file ptr header = .ok r at returns
    change cpioParseLoop a mem supply (fuel + 1 + 1) calls heap file ptr header = .ok r
    rw [cpioParseLoop] at returns ⊢
    obtain ⟨order, compared, returns⟩ := outcome_bind_eq_ok.mp returns
    rw [compared, outcome_bind_ok]
    by_cases last : order = 0
    · rw [if_pos last] at returns ⊢
      exact returns
    rw [if_neg last] at returns ⊢
    obtain ⟨⟨namesize, filesize⟩, sizes, returns⟩ := outcome_bind_eq_ok.mp returns
    rw [sizes, outcome_bind_ok]
    cases file with
    | none => exact ih _ _ _ _ _ returns
    | some _ =>
      obtain ⟨linked, written, returns⟩ := outcome_bind_eq_ok.mp returns
      refine outcome_bind_eq_ok.mpr ⟨linked, written, ?_⟩
      exact ih _ _ _ _ _ returns

/-! ## All walks -/

/-- **The walks agree.** In an archive with entries `cpio_parse` makes a list of their names
and data in their order, `cpio_ls` prints the names, and `cpio_cat` and `load_program`
take the first entry with the name that has data. The array of `read_header` begins with 0 at
each call. -/
theorem walks_agree (clear : ∀ k, IsClear (a k)) (nonempty : entries ≠ [])
    (goes : ∀ r ∈ entries, r.name ≠ trailerName) {trailer : Record}
    (ends : trailer.name = trailerName) {rest : List UInt8}
    (encoded : mem = archive entries trailer rest) :
    ((layout 0 entries).map Placed.record = entries ∧ ∀ p ∈ layout 0 entries,
      cstr p.record.name <+: mem.drop p.namePtr ∧ p.record.data <+: mem.drop p.dataPtr) ∧
    (∀ ⦃supply heap⦄, supply.Fresh 0 heap → ∃ heap' file cells,
      Returns (cpioParse a mem supply heap none) (heap', file) ∧
      Chain CpioFile.next heap' file cells ∧ Nodes heap' cells (layout 0 entries)) ∧
    Returns (cpioLs a mem) (entries.map Record.name) ∧
    ∀ ⦃str : List UInt8⦄, 0 ∉ str →
      Returns (cpioCat a mem str) ((selected 0 entries str).map fun p => (p.dataPtr : ℤ)) ∧
      Returns (loadProgram a mem str) ((selected 0 entries str).elim .notFound Placed.loaded) := by
  have walkable : Walkable mem 0 entries := encoded ▸ walkable_archive goes ends rest
  have at_calls : ClearFrom a 0 entries.length := fun k _ _ => clear k
  refine ⟨⟨map_layout .., fun p inside => ?_⟩, fun supply heap fresh => ?_, ?_,
    fun str no_nul => ?_⟩
  · have holds := walkable.holds p inside
    exact ⟨holds.name, holds.data⟩
  · obtain ⟨heap', file, run, chain, nodes⟩ := cpioParse_eq walkable at_calls nonempty fresh
    exact ⟨heap', file, _, ⟨_, run⟩, chain, nodes⟩
  · exact ⟨_, cpioLsLoop_eq walkable at_calls⟩
  · exact ⟨⟨_, cpioCatLoop_eq walkable at_calls no_nul⟩,
      ⟨_, loadProgramLoop_eq walkable at_calls no_nul⟩⟩

theorem hi_ne_nil : ([104, 105] : List UInt8) ≠ [] := by decide

theorem hi_no_nul : (0 : UInt8) ∉ [104, 105] := by decide

theorem hi_small : 110 + (([104, 105] : List UInt8).length + 1) +
    padding (110 + (([104, 105] : List UInt8).length + 1)) < 2 ^ 31 := by decide

theorem nil_small : ([] : List UInt8).length + padding ([] : List UInt8).length < 2 ^ 31 := by
  decide

/-- The file `hi` of three bytes. -/
def hiFile : Record := newc [104, 105] [1, 2, 3] hi_ne_nil hi_no_nul hi_small (by decide)

/-- The trailer as it is written. -/
def trailerRecord : Record := newc trailerName [] (by decide) (by decide) (by decide) nil_small

/-- The empty file `hi`. -/
def emptyHi : Record := newc [104, 105] [] hi_ne_nil hi_no_nul hi_small nil_small

/-- Two files of one name, of which the first is empty: `cpio_ls` prints both, the other walks
find the second, whose data are behind 232 bytes, and they find no third name. -/
theorem twoHi_walks :
    Returns (cpioLs cleared (archive [emptyHi, hiFile] trailerRecord []))
      [[104, 105], [104, 105]] ∧
    Returns (cpioCat cleared (archive [emptyHi, hiFile] trailerRecord []) [104, 105])
      (some 232) ∧
    Returns (loadProgram cleared (archive [emptyHi, hiFile] trailerRecord []) [104, 105])
      (.program [1, 2, 3, 0]) ∧
    Returns (cpioCat cleared (archive [emptyHi, hiFile] trailerRecord []) [104]) none := by
  obtain ⟨-, -, names, select⟩ := @walks_agree cleared _ [emptyHi, hiFile] isClear_cleared
    (by decide) (by decide) trailerRecord rfl [] rfl
  exact ⟨names, (select hi_no_nul).1, (select hi_no_nul).2, (@select [104] (by decide)).1⟩

end BareMetal.Cpio
