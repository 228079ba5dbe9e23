import Mathlib.Tactic

/-! # Patches of an image

A patch overwrites one range of cells.  A window on the image may be patched
instead of the image itself, with the range cut to the window.
-/

namespace Mecocoa.Lib

variable {β : Type*}

/-- Overwrite the cells `[start, start + length)`. -/
def patch (image : Nat → β) (start length : Nat) (cells : Nat → β) : Nat → β := fun i =>
  if start ≤ i ∧ i < start + length then cells (i - start) else image i

theorem patch_inside (low : start ≤ i)
    (high : i < start + length) : patch image start length cells i = cells (i - start) :=
  if_pos ⟨low, high⟩

theorem patch_outside
    (outside : ¬ (start ≤ i ∧ i < start + length)) :
    patch image start length cells i = image i :=
  if_neg outside

/-- The window `[base, base + size)` of the patched image, from the window of the old one:
`low` and `high` are the ends of the range inside the window. -/
theorem patch_window (base size start length : Nat) (cells : Nat → β)
    (lowEnd : low = max base start) (highEnd : high = min (base + size) (start + length))
    (same : ∀ i < size, window i = image (base + i)) :
    ∀ i < size, patch window (low - base) (high - low) (fun j => cells (low - start + j)) i =
      patch image start length cells (base + i) := by
  intro i inWindow
  by_cases inside : start ≤ base + i ∧ base + i < start + length
  · rw [patch_inside inside.1 inside.2, patch_inside (by omega) (by omega)]
    congr 1
    omega
  · rw [patch_outside inside, patch_outside (by omega)]
    exact same i inWindow

end Mecocoa.Lib
