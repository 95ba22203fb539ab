import Mathlib.Data.List.Basic
import Mathlib.Logic.Function.Basic

/-!
# Sinks

A sink takes characters one at a time, each with its place in the text, and changes a
destination. A cursor is a destination together with the place of the next character.

A sink into a buffer drops what lies past the end of it; a sink into a stream appends, and may
leave characters out.

## Main results

* `Cursor.emit_idx` — the place after a text is its length further on
* `Cursor.emit_bufferSink` — a buffer holds the part of the text that fits
* `Cursor.emit_streamSink` — a stream holds the characters that were not left out
-/

namespace BareMetal.CS

variable {α σ : Type*}

/-- What a character and its place do to a destination. -/
abbrev Sink (α σ : Type*) := α → ℕ → σ → σ

/-- A destination with the place of the next character. -/
structure Cursor (σ : Type*) where
  idx : ℕ
  dest : σ

namespace Cursor

/-- One character goes to the sink. -/
def put (out : Sink α σ) (c : α) (cur : Cursor σ) : Cursor σ :=
  ⟨cur.idx + 1, out c cur.idx cur.dest⟩

/-- The characters of a text go to the sink one after the other. -/
def emit (out : Sink α σ) : List α → Cursor σ → Cursor σ
  | [], cur => cur
  | c :: text, cur => emit out text (cur.put out c)

variable {out : Sink α σ} {text : List α} {c : α}

@[simp] theorem put_idx (cur : Cursor σ) : (cur.put out c).idx = cur.idx + 1 := rfl

@[simp] theorem emit_nil (cur : Cursor σ) : emit out [] cur = cur := rfl

@[simp] theorem emit_cons (cur : Cursor σ) :
    emit out (c :: text) cur = emit out text (cur.put out c) := rfl

theorem emit_append (front back : List α) (cur : Cursor σ) :
    emit out (front ++ back) cur = emit out back (emit out front cur) := by
  induction front generalizing cur with
  | nil => rfl
  | cons c front ih => exact ih (cur.put out c)

/-- The place after a text. -/
@[simp] theorem emit_idx (cur : Cursor σ) : (emit out text cur).idx = cur.idx + text.length := by
  induction text generalizing cur with
  | nil => rfl
  | cons c text ih =>
    rw [emit_cons, ih, put_idx, List.length_cons]
    omega

end Cursor

/-! ## Buffers -/

/-- A buffer of `maxlen` characters. -/
def bufferSink (maxlen : ℕ) : Sink α (ℕ → α) := fun c idx dest =>
  if idx < maxlen then Function.update dest idx c else dest

variable {maxlen i : ℕ} {text : List α}

theorem bufferSink_of_ne {c : α} {idx : ℕ} (other : i ≠ idx) (dest : ℕ → α) :
    bufferSink maxlen c idx dest i = dest i := by
  rw [bufferSink]
  split_ifs
  · exact Function.update_of_ne other ..
  · rfl

theorem bufferSink_self {c : α} (inside : i < maxlen) (dest : ℕ → α) :
    bufferSink maxlen c i dest i = c := by
  rw [bufferSink, if_pos inside, Function.update_self]

theorem bufferSink_past {c : α} {idx : ℕ} (past : maxlen ≤ idx) (dest : ℕ → α) :
    bufferSink maxlen c idx dest = dest :=
  if_neg (Nat.not_lt.mpr past)

/-- A text leaves what lies before it. -/
theorem Cursor.emit_bufferSink_before (cur : Cursor (ℕ → α)) (before : i < cur.idx) :
    (emit (bufferSink maxlen) text cur).dest i = cur.dest i := by
  induction text generalizing cur with
  | nil => rfl
  | cons c text ih =>
    rw [emit_cons, ih _ (Nat.lt_succ_of_lt before)]
    exact bufferSink_of_ne (Nat.ne_of_lt before) cur.dest

/-- A buffer after a text: the part of the text that fits, the rest as before. -/
theorem Cursor.emit_bufferSink (cur : Cursor (ℕ → α)) (j : ℕ) :
    (emit (bufferSink maxlen) text cur).dest (cur.idx + j) =
      if cur.idx + j < maxlen then (text[j]?).getD (cur.dest (cur.idx + j))
      else cur.dest (cur.idx + j) := by
  induction text generalizing cur j with
  | nil => simp
  | cons c text ih =>
    rw [emit_cons]
    cases j with
    | zero =>
      rw [Nat.add_zero, emit_bufferSink_before _ (Nat.lt_succ_self _)]
      split_ifs with inside
      · exact bufferSink_self inside cur.dest
      · exact congrFun (bufferSink_past (Nat.not_lt.mp inside) cur.dest) _
    | succ j =>
      have moved : cur.idx + (j + 1) = (cur.put (bufferSink maxlen) c).idx + j := by
        rw [put_idx]
        omega
      have other : (cur.put (bufferSink maxlen) c).dest (cur.idx + (j + 1)) =
          cur.dest (cur.idx + (j + 1)) := bufferSink_of_ne (by omega) cur.dest
      rw [← other, List.getElem?_cons_succ]
      rw [moved] at other ⊢
      exact ih (cur.put (bufferSink maxlen) c) j

/-! ## Streams -/

/-- A stream that leaves out the characters that do not satisfy `keep`. -/
def streamSink (keep : α → Bool) : Sink α (List α) := fun c _ sent =>
  if keep c then sent ++ [c] else sent

theorem Cursor.emit_streamSink {keep : α → Bool} (cur : Cursor (List α)) :
    (emit (streamSink keep) text cur).dest = cur.dest ++ text.filter keep := by
  induction text generalizing cur with
  | nil => simp
  | cons c text ih =>
    rw [emit_cons, ih]
    simp only [put, streamSink]
    by_cases kept : keep c
    · rw [if_pos kept, List.filter_cons_of_pos kept, List.append_assoc, List.singleton_append]
    · rw [if_neg kept, List.filter_cons_of_neg kept]

end BareMetal.CS
