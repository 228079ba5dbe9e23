import Mathlib.Data.Set.Card

/-! # Who holds a resource

A slot table assigns each slot at most one resource.  Reference counts of a
resource are compared with the number of slots that hold it, so all that is
needed is how one update of the table changes that number.
-/

namespace Mecocoa.Lib

open Function (update)

variable {κ ι : Type*} [DecidableEq κ]

/-- The slots that hold `i`. -/
def holders (table : κ → Option ι) (i : ι) : Set κ := {k | table k = some i}

variable {k : κ}

theorem holders_install (free : table k = none) (j : ι) :
    holders (update table k (some i)) j = holders table j ∪ {l | l = k ∧ j = i} := by
  ext l
  by_cases same : l = k
  · subst same
    simp [holders, free, eq_comm]
  · simp [holders, same]

theorem finite_holders_install (finite : ∀ j, (holders table j).Finite) (free : table k = none)
    (j : ι) :
    (holders (update table k (some i)) j).Finite := by
  rw [holders_install free]
  exact (finite j).union ((Set.finite_singleton k).subset fun l here => here.1)

theorem finite_holders_remove (finite : ∀ j, (holders table j).Finite) (j : ι) :
    (holders (update table k none) j).Finite := by
  refine (finite j).subset fun l here => ?_
  by_cases same : l = k
  · simp [holders, same] at here
  · simpa [holders, same] using here

theorem ncard_holders_install [DecidableEq ι] (finite : ∀ j, (holders table j).Finite)
    (free : table k = none) (j : ι) :
    (holders (update table k (some i)) j).ncard = (holders table j).ncard + if i = j then 1
      else 0 := by
  rw [holders_install free]
  by_cases same : i = j
  · rw [if_pos same,
      ← Set.ncard_insert_of_notMem (show k ∉ holders table j by simp [holders, free])
      (finite j)]
    congr 1
    ext l
    simp [same]
  · simp [Ne.symm same, same]

/-- A slot that is emptied could be filled again. -/
theorem ncard_holders_remove [DecidableEq ι] (finite : ∀ j, (holders table j).Finite)
    (held : table k = some i) (j : ι) :
    (holders (update table k none) j).ncard + (if i = j then 1 else 0) =
    (holders table j).ncard := by
  rw [← ncard_holders_install (finite_holders_remove finite) (Function.update_self ..),
    Function.update_idem,
    Function.update_eq_self_iff.mpr held.symm]

end Mecocoa.Lib
