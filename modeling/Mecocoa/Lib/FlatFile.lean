import Mathlib.Tactic

/-! # A flat file

A file as the list of its bytes.  Whatever grows into it is filled.  Each
operation is known by the length of its result and by what stands where.
-/

namespace Mecocoa.Lib.FlatFile

open List

variable {α : Type*}

/-- Cut the file, or extend it with `fill`. -/
def resize (fill : α) (bytes : List α) (size : Nat) : List α :=
  bytes.take size ++ List.replicate (size - bytes.length) fill

/-- Write data at a position; a gap before it is filled. -/
def write (fill : α) (bytes : List α) (position : Nat) (data : List α) : List α :=
  (resize fill bytes position) ++ data ++ bytes.drop (position + data.length)

@[simp] theorem length_resize (fill : α) (bytes : List α) (size : Nat) :
    (resize fill bytes size).length = size := by
  simp only [resize, length_append, length_take, length_replicate]
  omega

@[simp] theorem length_write (fill : α) (bytes : List α) (position : Nat) (data : List α) :
    (write fill bytes position data).length = max bytes.length (position + data.length) := by
  simp only [write, length_append, length_resize, length_drop]
  omega

theorem getElem?_resize (fill : α) (bytes : List α) (inside : n < size) :
    (resize fill bytes size)[n]? = some (bytes.getD n fill) := by
  unfold resize
  rw [getElem?_append, length_take, getD_eq_getElem?_getD]
  by_cases old : n < bytes.length
  · rw [if_pos (by omega), getElem?_take, if_pos inside, getElem?_eq_getElem old]
    rfl
  · rw [if_neg (by omega), getElem?_replicate, if_pos (by omega),
      getElem?_eq_none (Nat.le_of_not_lt old)]
    rfl

theorem getElem?_write (fill : α) (bytes : List α) (position : Nat) (data : List α)
    (inside : n < max bytes.length (position + data.length)) :
    (write fill bytes position data)[n]? =
      if position ≤ n ∧ n < position + data.length then data[n - position]?
      else some (bytes.getD n fill) := by
  unfold write
  rw [append_assoc, getElem?_append, length_resize]
  by_cases before : n < position
  · rw [if_pos before, if_neg (by omega), getElem?_resize fill bytes before]
  rw [if_neg before, getElem?_append]
  by_cases within : n < position + data.length
  · rw [if_pos (by omega), if_pos ⟨by omega, within⟩]
  · have old : n < bytes.length := by omega
    have place : position + data.length + (n - position - data.length) = n := by omega
    rw [if_neg (by omega), if_neg (by omega), getElem?_drop, place, getD_eq_getElem?_getD,
      getElem?_eq_getElem old]
    rfl

end Mecocoa.Lib.FlatFile
