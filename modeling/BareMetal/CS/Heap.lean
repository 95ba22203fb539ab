import BareMetal.CS.LinkedList
import BareMetal.CS.Outcome
import Mathlib.Data.Set.Basic

/-!
# Heaps of records

Where all accesses go through the fields of one record type, memory is a partial
map from addresses to records; a record is there from its allocation until it is
freed. Following a null pointer or one to a freed record is a fault.

`Chain next heap p xs` says that from the pointer `p` the field `next` leads
through the allocated records at `xs` to a null pointer.
-/

namespace BareMetal.CS

variable {α : Type*}

/-- What is allocated at each address. -/
abbrev Heap (α : Type*) := ℕ → Option α

namespace Heap

variable {heap : Heap α} {next : α → Option ℕ} {f : α → α} {a : ℕ} {v : α} {p : Option ℕ}

/-- Dereference a pointer. -/
def get (heap : Heap α) : Option ℕ → Outcome α
  | none => .error .nullPointer
  | some a =>
    match heap a with
    | none => .error .danglingPointer
    | some v => .ok v

/-- A new record. -/
def alloc (heap : Heap α) (a : ℕ) (v : α) : Heap α := Function.update heap a (some v)

/-- A change to the record at an address. -/
def modify (heap : Heap α) (a : ℕ) (f : α → α) : Heap α := Function.update heap a ((heap a).map f)

/-- A change to the record behind a pointer. -/
def write (heap : Heap α) (p : Option ℕ) (f : α → α) : Outcome (Heap α) :=
  match p with
  | none => .error .nullPointer
  | some a => if (heap a).isSome then .ok (heap.modify a f) else .error .danglingPointer

/-- The record is freed. -/
def free (heap : Heap α) (a : ℕ) : Heap α := Function.update heap a none

/-- The pointers in the field `next` of the allocated records. -/
def links (next : α → Option ℕ) (heap : Heap α) (a : ℕ) : Option ℕ := (heap a).bind next

@[simp] theorem get_none : heap.get none = .error .nullPointer := rfl

theorem get_some (here : heap a = some v) : heap.get (some a) = .ok v := by
  simp [get, here]

theorem write_some (here : (heap a).isSome) : heap.write (some a) f = .ok (heap.modify a f) :=
  if_pos here

theorem write_eq_ok {heap' : Heap α} : heap.write p f = .ok heap' ↔
    ∃ a, p = some a ∧ (heap a).isSome ∧ heap' = heap.modify a f := by
  cases p with
  | none => simp [write]
  | some a =>
    constructor
    · intro h
      by_cases here : (heap a).isSome
      · rw [write_some here] at h
        exact ⟨a, rfl, here, (Except.ok.inj h).symm⟩
      · simp only [write, if_neg here, reduceCtorEq] at h
    · rintro ⟨b, same, here, rfl⟩
      obtain rfl := Option.some.inj same
      exact write_some here

theorem get_eq_ok : heap.get p = .ok v ↔ ∃ a, p = some a ∧ heap a = some v := by
  cases p with
  | none => simp [get]
  | some a => cases here : heap a <;> simp [get, here]

theorem links_eq (next : α → Option ℕ) (here : heap a = some v) :
    links next heap a = next v := by
  simp [links, here]

@[simp] theorem alloc_self : heap.alloc a v a = some v := Function.update_self ..

theorem alloc_of_ne {b : ℕ} (ne : b ≠ a) : heap.alloc a v b = heap b := Function.update_of_ne ne ..

@[simp] theorem modify_self : heap.modify a f a = (heap a).map f := Function.update_self ..

theorem modify_of_ne {b : ℕ} (ne : b ≠ a) : heap.modify a f b = heap b :=
  Function.update_of_ne ne ..

@[simp] theorem free_self : heap.free a a = none := Function.update_self ..

theorem free_of_ne {b : ℕ} (ne : b ≠ a) : heap.free a b = heap b := Function.update_of_ne ne ..

/-- Changes to records keep them allocated. -/
@[simp] theorem isSome_modify {b : ℕ} : (heap.modify a f b).isSome = (heap b).isSome := by
  by_cases same : b = a
  · subst same
    simp
  · rw [modify_of_ne same]

/-- A change that a view of the records does not see. -/
theorem map_modify {κ : Type*} {view : α → κ} (keeps : ∀ v, view (f v) = view v) (b : ℕ) :
    (heap.modify a f b).map view = (heap b).map view := by
  by_cases same : b = a
  · subst same
    rw [modify_self, Option.map_map]
    exact congrArg (fun g => (heap b).map g) (funext keeps)
  · rw [modify_of_ne same]

/-- A store that a view of the records does not see. -/
theorem write_map {κ : Type*} {view : α → κ} {heap' : Heap α}
    (written : heap.write p f = .ok heap') (keeps : ∀ v, view (f v) = view v) (b : ℕ) :
    (heap' b).map view = (heap b).map view := by
  obtain ⟨a, -, -, rfl⟩ := write_eq_ok.mp written
  exact map_modify keeps b

theorem isSome_alloc {b : ℕ} : (heap.alloc a v b).isSome ↔ b = a ∨ (heap b).isSome := by
  by_cases same : b = a
  · simp [same]
  · rw [alloc_of_ne same]
    simp [same]

/-- A change that leaves the field alone. -/
theorem links_modify_of_eq (keeps : ∀ v, next (f v) = next v) :
    links next (heap.modify a f) = links next heap := by
  funext b
  by_cases same : b = a
  · subst same
    cases here : heap b <;> simp [links, here, keeps]
  · rw [links, links, modify_of_ne same]

/-- A change that sets the field. -/
theorem links_modify_of_set (sets : ∀ v, next (f v) = p) (here : (heap a).isSome) :
    links next (heap.modify a f) = Function.update (links next heap) a p := by
  obtain ⟨v, here⟩ := Option.isSome_iff_exists.mp here
  funext b
  by_cases same : b = a
  · subst same
    simp [links, here, sets]
  · rw [Function.update_of_ne same, links, links, modify_of_ne same]

end Heap

/-! ## Changes to links -/

/-- Records outside `S` are as before, and `view` of every record is. -/
structure Relinked {κ : Type*} (view : α → κ) (S : Set ℕ) (heap heap' : Heap α) : Prop where
  outside : ∀ x, x ∉ S → heap' x = heap x
  view : ∀ x, (heap' x).map view = (heap x).map view

namespace Relinked

variable {κ : Type*} {view : α → κ} {S T : Set ℕ} {heap heap' heap'' : Heap α} {x : ℕ}

theorem refl (view : α → κ) (S : Set ℕ) (heap : Heap α) : Relinked view S heap heap :=
  ⟨fun _ _ => rfl, fun _ => rfl⟩

theorem trans (first : Relinked view S heap heap') (second : Relinked view S heap' heap'') :
    Relinked view S heap heap'' :=
  ⟨fun x hx => (second.outside x hx).trans (first.outside x hx),
    fun x => (second.view x).trans (first.view x)⟩

theorem mono (change : Relinked view S heap heap') (sub : S ⊆ T) : Relinked view T heap heap' :=
  ⟨fun x hx => change.outside x fun inside => hx (sub inside), change.view⟩

theorem modify {f : α → α} (inside : x ∈ S) (keeps : ∀ v, view (f v) = view v) :
    Relinked view S heap (heap.modify x f) := by
  exact ⟨fun y hy => Heap.modify_of_ne (ne_of_mem_of_not_mem inside hy).symm, Heap.map_modify keeps⟩

/-- Nothing is allocated or freed. -/
theorem isSome (change : Relinked view S heap heap') (x : ℕ) :
    (heap' x).isSome = (heap x).isSome := by
  have same := congrArg Option.isSome (change.view x)
  simpa using same

end Relinked

/-! ## Chains -/

/-- The field `next` leads from `p` through the allocated records `xs` to null. -/
structure Chain (next : α → Option ℕ) (heap : Heap α) (p : Option ℕ) (xs : List ℕ) : Prop where
  linked : Linked (Heap.links next heap) p xs
  allocated : ∀ x ∈ xs, (heap x).isSome

namespace Chain

variable {heap heap' : Heap α} {next : α → Option ℕ} {p : Option ℕ} {x : ℕ} {xs : List ℕ}

theorem nil : Chain next heap none [] := ⟨rfl, fun _ inside => absurd inside List.not_mem_nil⟩

/-- The head of a chain is allocated, and its field heads the rest. -/
theorem exists_head (chain : Chain next heap p (x :: xs)) :
    ∃ v, heap x = some v ∧ p = some x ∧ Chain next heap (next v) xs := by
  obtain ⟨v, here⟩ := Option.isSome_iff_exists.mp (chain.allocated x List.mem_cons_self)
  refine ⟨v, here, chain.linked.head, ?_, fun y hy => chain.allocated y (List.mem_cons_of_mem x hy)⟩
  rw [← Heap.links_eq next here]
  exact chain.linked.pop

theorem eq_nil (chain : Chain next heap none xs) : xs = [] := linked_none.mp chain.linked

/-- A chain from a pointer that is not null has a head. -/
theorem exists_cons (chain : Chain next heap (some x) xs) : ∃ rest, xs = x :: rest := by
  obtain ⟨rest, same, -⟩ := chain.linked.exists_cons
  exact ⟨rest, same⟩

/-- A chain reads its own records only. -/
theorem congr (chain : Chain next heap p xs) (agree : ∀ x ∈ xs, heap' x = heap x) :
    Chain next heap' p xs where
  linked := chain.linked.congr fun x hx => by rw [Heap.links, Heap.links, agree x hx]
  allocated x hx := by
    rw [agree x hx]
    exact chain.allocated x hx

/-- A chain is not changed by links elsewhere. -/
theorem relinked {κ : Type*} {view : α → κ} {S : Set ℕ} (chain : Chain next heap p xs)
    (change : Relinked view S heap heap') (apart : ∀ x ∈ xs, x ∉ S) : Chain next heap' p xs :=
  chain.congr fun x hx => change.outside x (apart x hx)

/-- A new record is in no chain. -/
theorem alloc (chain : Chain next heap p xs) (fresh : heap x = none) (v : α) :
    x ∉ xs ∧ Chain next (heap.alloc x v) p xs := by
  have outside : x ∉ xs := by
    intro inside
    have allocated := chain.allocated x inside
    simp [fresh] at allocated
  refine ⟨outside, chain.congr fun y hy => Heap.alloc_of_ne ?_⟩
  exact ne_of_mem_of_not_mem hy outside

/-- A change of the link of a record in front of the chain. -/
theorem push (chain : Chain next heap p xs) (outside : x ∉ xs) (here : (heap x).isSome)
    {f : α → α} (sets : ∀ v, next (f v) = p) :
    Chain next (heap.modify x f) (some x) (x :: xs) where
  linked := by
    rw [Heap.links_modify_of_set sets here]
    exact chain.linked.push outside
  allocated y hy := by
    rw [Heap.isSome_modify]
    rcases List.mem_cons.mp hy with rfl | inside
    · exact here
    · exact chain.allocated y inside

/-- A terminated record hung behind the last one. -/
theorem snoc {f g : α → α} {y : ℕ} (chain : Chain next heap p (xs ++ [y])) (outside : x ∉ xs ++ [y])
    (here : (heap x).isSome) (ends : ∀ v, next (f v) = none) (links : ∀ v, next (g v) = some x) :
    Chain next ((heap.modify x f).modify y g) p (xs ++ [y, x]) where
  linked := by
    have last : (heap y).isSome := chain.allocated y (by simp)
    rw [Heap.links_modify_of_set links (by rwa [Heap.isSome_modify]),
      Heap.links_modify_of_set ends here]
    exact chain.linked.snoc outside
  allocated z hz := by
    rw [Heap.isSome_modify, Heap.isSome_modify]
    by_cases new : z = x
    · rwa [new]
    · apply chain.allocated
      simp only [List.mem_append, List.mem_cons, List.not_mem_nil, or_false] at hz ⊢
      tauto

/-- A change that leaves all links alone. -/
theorem modify (chain : Chain next heap p xs) {f : α → α} (keeps : ∀ v, next (f v) = next v) :
    Chain next (heap.modify x f) p xs where
  linked := by
    rw [Heap.links_modify_of_eq keeps]
    exact chain.linked
  allocated y hy := by
    rw [Heap.isSome_modify]
    exact chain.allocated y hy

/-- A chain hung behind the last record of another. -/
theorem append {f : α → α} {q : Option ℕ} {y : ℕ} {ys : List ℕ}
    (chain : Chain next heap p (xs ++ [y])) (behind : Chain next heap q ys)
    (apart : y ∉ ys) (links : ∀ v, next (f v) = q) :
    Chain next (heap.modify y f) p (xs ++ [y] ++ ys) where
  linked := by
    have distinct := chain.linked.nodup
    have before : y ∉ xs := fun inside =>
      (List.nodup_append.mp distinct).2.2 y inside y List.mem_cons_self rfl
    obtain ⟨r, front, rfl, -⟩ := segment_append.mp chain.linked
    rw [Heap.links_modify_of_set links (chain.allocated y (by simp)), List.append_assoc]
    refine segment_append.mpr ⟨_, front.update before, rfl, ?_⟩
    rw [Function.update_self]
    exact behind.linked.update apart
  allocated z hz := by
    rw [Heap.isSome_modify]
    rcases List.mem_append.mp hz with inside | inside
    · exact chain.allocated z inside
    · exact behind.allocated z inside

/-- A record taken out by pointing the one in front of it to its successor. -/
theorem unlink {f : α → α} {y : ℕ} {ys : List ℕ} (chain : Chain next heap p (xs ++ y :: x :: ys))
    (links : ∀ v, next (f v) = Heap.links next heap x) :
    Chain next (heap.modify y f) p (xs ++ y :: ys) where
  linked := by
    rw [Heap.links_modify_of_set links (chain.allocated y (by simp))]
    exact chain.linked.unlink
  allocated z hz := by
    rw [Heap.isSome_modify]
    apply chain.allocated
    simp only [List.mem_append, List.mem_cons] at hz ⊢
    tauto

end Chain

end BareMetal.CS
