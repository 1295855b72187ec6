import Mathlib.Data.List.Basic
import Mathlib.Data.Nat.Notation

/-!
An array on the heap as a C program has it: a number of allocated cells, none of
them initialised before it is written. A write outside the allocated cells has no
result. Writes to consecutive cells succeed exactly if the last one does, and
leave there what was written.
-/
namespace Painless.AllocatedArray

variable {A : Type*}

/-- The allocated cells; `none` is a cell that has not been written. -/
abbrev Cells (A : Type*) := List (Option A)

def malloc (n : ℕ) : Cells A := List.replicate n none

/-- The cells that the old and the new array share keep their content. -/
def realloc (cells : Cells A) (n : ℕ) : Cells A :=
  cells.take n ++ List.replicate (n - cells.length) none

/-- `array[w.1] = w.2`. -/
def write (cells : Cells A) (w : ℕ × A) : Option (Cells A) :=
  if w.1 < cells.length then some (cells.set w.1 (some w.2)) else none

def writes : Cells A → List (ℕ × A) → Option (Cells A)
  | cells, [] => some cells
  | cells, w :: rest => (write cells w).bind fun cells => writes cells rest

/-- The writes of `xs` to the cells from `i` on. -/
def copyTo (i : ℕ) : List A → List (ℕ × A)
  | [] => []
  | x :: xs => (i, x) :: copyTo (i + 1) xs

theorem length_malloc (n : ℕ) : (malloc n : Cells A).length = n := List.length_replicate

theorem length_realloc (cells : Cells A) (n : ℕ) : (realloc cells n).length = n := by
  unfold realloc
  rw [List.length_append, List.length_take, List.length_replicate]
  omega

/-- An index of the writes of `xs` is one of the cells meant for them. -/
theorem mem_copyTo {i : ℕ} {xs : List A} {w : ℕ × A} (h : w ∈ copyTo i xs) :
    i ≤ w.1 ∧ w.1 < i + xs.length := by
  induction xs generalizing i with
  | nil => exact absurd h List.not_mem_nil
  | cons x xs ih =>
    rw [List.length_cons]
    rcases List.mem_cons.mp h with rfl | hrest
    · dsimp only
      omega
    · have hbounds := ih hrest
      omega

theorem copyTo_append (i : ℕ) (xs ys : List A) :
    copyTo i (xs ++ ys) = copyTo i xs ++ copyTo (i + xs.length) ys := by
  induction xs generalizing i with
  | nil => rfl
  | cons x xs ih =>
    rw [List.cons_append, copyTo, ih, copyTo, List.cons_append, List.length_cons]
    congr 3
    omega

theorem take_set_succ {cells : Cells A} {i : ℕ} (hi : i < cells.length) (a : Option A) :
    (cells.set i a).take (i + 1) = cells.take i ++ [a] := by
  have hlength : (cells.take i ++ [a]).length = i + 1 := by
    rw [List.length_append, List.length_take, List.length_singleton]
    omega
  rw [List.set_eq_take_append_cons_drop, if_pos hi, List.append_cons]
  exact List.take_left' hlength

/-- Where there is room for `xs`, they are what the cells hold afterwards, and
the other cells keep their content. -/
theorem writes_copyTo {cells : Cells A} {i : ℕ} {xs : List A} (h : i + xs.length ≤ cells.length) :
    writes cells (copyTo i xs) =
      some (cells.take i ++ xs.map some ++ cells.drop (i + xs.length)) := by
  induction xs generalizing cells i with
  | nil =>
    show some cells = _
    rw [List.map_nil, List.append_nil, List.length_nil, Nat.add_zero, List.take_append_drop]
  | cons x xs ih =>
    rw [List.length_cons] at h
    have hset : i + 1 + xs.length ≤ (cells.set i (some x)).length := by
      rw [List.length_set]
      omega
    rw [copyTo, writes, write, if_pos (by omega), Option.bind_some, ih hset,
      take_set_succ (by omega), List.drop_set_of_lt (by omega), List.length_cons, List.map_cons,
      List.append_assoc (cells.take i), List.singleton_append]
    congr 3
    omega

/-- The same from the first cell on. -/
theorem writes_first {cells : Cells A} {xs : List A} (h : xs.length ≤ cells.length) :
    ∃ cells', writes cells (copyTo 0 xs) = some cells' ∧ cells'.length = cells.length ∧
      cells'.take xs.length = xs.map some := by
  have hroom : 0 + xs.length ≤ cells.length := by omega
  refine ⟨_, writes_copyTo hroom, ?_, ?_⟩
  · simp only [List.length_append, List.length_take, List.length_map, List.length_drop]
    omega
  · rw [List.take_zero, List.nil_append]
    exact List.take_left' (List.length_map _)

end Painless.AllocatedArray
