import Mathlib.Data.List.Basic
import Mathlib.Logic.Function.Basic
import Mathlib.Tactic.Common

/-! Cyclic memory and the bounded queue it implements. Cursors are unreduced
natural numbers, so a cursor that has gone round many times is still compared
with another one by `<`; only the access reduces it modulo the size. -/
namespace Machine

variable {α : Type*}

/-- The `count` cells that follow `start`, in order, round the cycle. -/
def window (mem : Nat → α) (size start count : Nat) : List α :=
  (List.range count).map fun i => mem ((start + i) % size)

/-- Store the values in consecutive cells from `start` on, round the cycle. -/
def storeAt (mem : Nat → α) (size : Nat) : Nat → List α → Nat → α
  | _, [] => mem
  | start, a :: rest => storeAt (Function.update mem (start % size) a) size (start + 1) rest

section Window

variable (mem : Nat → α) (size start : Nat)

@[simp] theorem window_length (count : Nat) : (window mem size start count).length = count := by
  simp [window]

theorem window_getElem (count i : Nat) (h : i < (window mem size start count).length) :
    (window mem size start count)[i] = mem ((start + i) % size) := by
  simp [window]

theorem window_add (first second : Nat) :
    window mem size start (first + second) =
      window mem size start first ++ window mem size (start + first) second := by
  simp only [window, List.range_add, List.map_append, List.map_map]
  congr 1
  apply List.map_congr_left
  intro i _
  simp only [Function.comp_apply, Nat.add_assoc]

theorem window_take (count n : Nat) (h : n ≤ count) :
    (window mem size start count).take n = window mem size start n := by
  obtain ⟨rest, rfl⟩ := Nat.exists_eq_add_of_le h
  rw [window_add, List.take_append_of_le_length (by simp), List.take_of_length_le (by simp)]

theorem window_drop (count n : Nat) (h : n ≤ count) :
    (window mem size start count).drop n = window mem size (start + n) (count - n) := by
  obtain ⟨rest, rfl⟩ := Nat.exists_eq_add_of_le h
  rw [window_add, List.drop_append_of_le_length (by simp), List.drop_of_length_le (by simp)]
  simp

/-- Once round the cycle the same cells come again. -/
theorem window_add_size (count : Nat) :
    window mem size (start + size) count = window mem size start count := by
  apply List.map_congr_left
  intro i _
  rw [Nat.add_right_comm, Nat.add_mod_right]

theorem window_mod (count : Nat) :
    window mem size (start % size) count = window mem size start count := by
  apply List.map_congr_left
  intro i _
  rw [Nat.mod_add_mod]

end Window

theorem storeAt_mod (mem : Nat → α) (size start : Nat) (values : List α) :
    storeAt mem size (start % size) values = storeAt mem size start values := by
  induction values generalizing mem start with
  | nil => rfl
  | cons a rest ih =>
      rw [storeAt, storeAt, Nat.mod_mod, ← ih _ (start % size + 1), Nat.mod_add_mod, ih]

theorem storeAt_append (mem : Nat → α) (size start : Nat) (first second : List α) :
    storeAt mem size start (first ++ second) =
      storeAt (storeAt mem size start first) size (start + first.length) second := by
  induction first generalizing mem start with
  | nil => rfl
  | cons a first ih =>
      rw [List.cons_append, storeAt, storeAt, ih, List.length_cons, Nat.add_right_comm,
        Nat.add_assoc]

/-- A cell that none of the stored positions reaches keeps its value. -/
theorem storeAt_outside {size : Nat} (mem : Nat → α) (start : Nat) (values : List α) (cell : Nat)
    (h : ∀ i < values.length, (start + i) % size ≠ cell) :
    storeAt mem size start values cell = mem cell := by
  induction values generalizing mem start with
  | nil => rfl
  | cons a rest ih =>
      rw [storeAt, ih]
      · exact Function.update_of_ne (fun he => h 0 (by simp) (by simpa using he.symm)) _ _
      · intro i hi
        have := h (i + 1) (by simpa using hi)
        rwa [Nat.add_right_comm, Nat.add_assoc] at *

/-- Two positions less than one turn apart are different cells. -/
theorem mod_ne_of_lt_of_sub_lt {size a b : Nat} (hab : a < b) (hb : b - a < size) :
    a % size ≠ b % size := by
  intro he
  have hDvd : size ∣ b - a := Nat.dvd_of_mod_eq_zero (Nat.sub_mod_eq_zero_of_mod_eq he.symm)
  have := Nat.le_of_dvd (by omega) hDvd
  omega

theorem storeAt_inside {size : Nat} (mem : Nat → α) (start : Nat) (values : List α)
    (hSize : values.length ≤ size) (i : Nat) (hi : i < values.length) :
    storeAt mem size start values ((start + i) % size) = values[i] := by
  induction values generalizing mem start i with
  | nil => simp at hi
  | cons a rest ih =>
      simp only [List.length_cons] at hSize hi
      cases i with
      | zero =>
          rw [storeAt, storeAt_outside]
          · simp
          · intro j hj
            exact (mod_ne_of_lt_of_sub_lt (by omega) (by omega)).symm
      | succ i =>
          have h := ih (Function.update mem (start % size) a) (start + 1) (by omega) i (by omega)
          rw [storeAt, List.getElem_cons_succ, ← h]
          congr 2
          omega

/-- Storing beyond the end of a window does not change what it shows, as long
as the whole extent stays within one turn. -/
theorem window_storeAt_before (mem : Nat → α) (size start count gap : Nat) (values : List α)
    (h : count + gap + values.length ≤ size) :
    window (storeAt mem size (start + count + gap) values) size start count =
      window mem size start count := by
  apply List.map_congr_left
  intro i hi
  rw [List.mem_range] at hi
  apply storeAt_outside
  intro j hj
  exact (mod_ne_of_lt_of_sub_lt (by omega) (by omega)).symm

/-- The window that starts where the values were stored shows them, then the
cells that were there before. -/
theorem window_storeAt_self (mem : Nat → α) (size start count : Nat) (values : List α)
    (hValues : values.length ≤ count) (hSize : count ≤ size) :
    window (storeAt mem size start values) size start count =
      values ++ (window mem size start count).drop values.length := by
  obtain ⟨rest, rfl⟩ := Nat.exists_eq_add_of_le hValues
  rw [window_drop _ _ _ _ _ (by omega), window_add]
  congr 1
  · apply List.ext_getElem (by simp)
    intro i h₁ h₂
    rw [window_getElem]
    exact storeAt_inside mem start values (by omega) i h₂
  · rw [Nat.add_sub_cancel_left]
    apply List.map_congr_left
    intro i hi
    rw [List.mem_range] at hi
    apply storeAt_outside
    intro j hj
    exact mod_ne_of_lt_of_sub_lt (by omega) (by omega)

/-- A queue of bounded capacity together with its free cells, in the order in
which they will be filled. `written` counts what was ever queued. -/
structure Fifo (α : Type*) where
  queue : List α
  free : List α
  written : Nat

namespace Fifo

def capacity (f : Fifo α) : Nat := f.queue.length + f.free.length

/-- Put values into the first free cells. None of them is queued by this. -/
def store (f : Fifo α) (values : List α) : Fifo α :=
  { f with free := values.take f.free.length ++ f.free.drop values.length }

/-- Queue the first `n` free cells, if there are as many. -/
def write (f : Fifo α) (n : Nat) : Fifo α × Bool :=
  if n ≤ f.free.length then
    (⟨f.queue ++ f.free.take n, f.free.drop n, f.written + n⟩, true)
  else (f, false)

/-- Dequeue `n` values, if there are as many. Their cells become the last
free ones. -/
def read (f : Fifo α) (n : Nat) : Fifo α × Bool :=
  if n ≤ f.queue.length then
    (⟨f.queue.drop n, f.free ++ f.queue.take n, f.written⟩, true)
  else (f, false)

@[simp] theorem store_queue (f : Fifo α) (values : List α) : (f.store values).queue = f.queue := rfl

@[simp] theorem store_free_length (f : Fifo α) (values : List α) :
    (f.store values).free.length = f.free.length := by
  simp only [store, List.length_append, List.length_take, List.length_drop]
  omega

theorem le_write_written (f : Fifo α) (n : Nat) : f.written ≤ (f.write n).1.written := by
  unfold write
  split
  · exact Nat.le_add_right _ _
  · exact Nat.le_refl _

@[simp] theorem read_written (f : Fifo α) (n : Nat) : (f.read n).1.written = f.written := by
  unfold read
  split <;> rfl

@[simp] theorem store_capacity (f : Fifo α) (values : List α) :
    (f.store values).capacity = f.capacity := by
  simp only [capacity, store_queue, store_free_length]

@[simp] theorem write_capacity (f : Fifo α) (n : Nat) : (f.write n).1.capacity = f.capacity := by
  unfold write
  split
  · simp only [capacity, List.length_append, List.length_take, List.length_drop]
    omega
  · rfl

@[simp] theorem read_capacity (f : Fifo α) (n : Nat) : (f.read n).1.capacity = f.capacity := by
  unfold read
  split
  · simp only [capacity, List.length_append, List.length_take, List.length_drop]
    omega
  · rfl

end Fifo

end Machine
