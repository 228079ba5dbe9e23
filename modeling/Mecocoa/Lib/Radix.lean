import Mathlib.Tactic

/-! # Radix trees in a memory of tables

A table is named by its address and gives, for each index, the address of the
next one.  A tree is a memory in which every table is met on one path only, so
that a write to a table is seen below one path and nowhere else.
-/

namespace Mecocoa.Lib.Radix

open List

variable {α ι : Type*}

/-- The table, or below the last level the value, that a path leads to. -/
def walk (m : α → ι → Option α) : α → List ι → Option α
  | x, [] => some x
  | x, i :: path => (m x i).bind (walk m · path)

theorem walk_append (m : α → ι → Option α) (path rest : List ι) :
    ∀ x, walk m x (path ++ rest) = (walk m x path).bind (walk m · rest) := by
  induction path with
  | nil => intro x; rfl
  | cons i path ih =>
    intro x
    cases next : m x i with
    | none => simp [walk, next]
    | some y => simp [walk, next, ih]

theorem walk_snoc (m : α → ι → Option α) (path : List ι) (i : ι) (x : α) :
    walk m x (path ++ [i]) = (walk m x path).bind (m · i) := by
  rw [walk_append]
  cases walk m x path with
  | none => rfl
  | some y => simp [walk]

/-- Paths of at most `depth` indices lead to tables, each to its own, and all are owned. -/
structure Tree (m : α → ι → Option α) (root : α) (depth : Nat) (owned : List α) :
    Prop where
  distinct : ∀ p q x, p.length ≤ depth → q.length ≤ depth → walk m root p = some x →
    walk m root q = some x → p = q
  within : ∀ p x, p.length ≤ depth → walk m root p = some x → x ∈ owned

variable [DecidableEq α] [DecidableEq ι]

/-- Write one entry. -/
def set (m : α → ι → Option α) (x : α) (i : ι) (v : Option α) : α → ι → Option α :=
  fun y j => if y = x ∧ j = i then v else m y j

/-- Clear a whole table. -/
def clear (m : α → ι → Option α) (x : α) : α → ι → Option α :=
  fun y j => if y = x then none else m y j

namespace Tree

variable {m : α → ι → Option α} {root x : α} {owned : List α}

variable (tree : Tree m root depth owned)

include tree

/-- A write is not seen on paths that do not pass through its entry. -/
theorem walk_set_other (small : p.length ≤ depth)
    (here : walk m root p = some x) (v : Option α) (short : q.length ≤ depth + 1)
    (apart : ¬ (p ++ [i]) <+: q) : walk (set m x i v) root q = walk m root q := by
  induction q using reverseRecOn with
  | nil => rfl
  | append_singleton q j ih =>
    rw [length_append, length_singleton] at short
    have before := ih (by omega) fun start => apart (start.trans (prefix_append q [j]))
    rw [walk_snoc, walk_snoc, before]
    cases there : walk m root q with
    | none => rfl
    | some y =>
      apply if_neg
      rintro ⟨rfl, rfl⟩
      cases tree.distinct p q y small (by omega) here there
      exact apart (prefix_refl _)

theorem walk_set_self (small : p.length ≤ depth)
    (here : walk m root p = some x) (v : Option α) : walk (set m x i v) root (p ++ [i]) = v := by
  have apart : ¬ (p ++ [i]) <+: p := by
    intro start
    have longer := start.length_le
    simp at longer
  rw [walk_snoc, tree.walk_set_other small here v (by omega) apart, here]
  exact if_pos ⟨rfl, rfl⟩

/-- A write below the last level changes what one path leads to. -/
theorem walk_set_leaf (whole : p.length = depth)
    (here : walk m root p = some x) (v : Option α) (short : q.length ≤ depth + 1) :
    walk (set m x i v) root q = if q = p ++ [i] then v else walk m root q := by
  split
  · rename_i same
    rw [same]
    exact tree.walk_set_self (le_of_eq whole) here v
  · rename_i other
    apply tree.walk_set_other (le_of_eq whole) here v short
    intro start
    have size := start.length_le
    simp only [length_append, length_singleton] at size
    exact other (start.eq_of_length (by simp; omega)).symm

theorem set_leaf (whole : p.length = depth)
    (here : walk m root p = some x) (v : Option α) : Tree (set m x i v) root depth owned := by
  have same : ∀ q, q.length ≤ depth → walk (set m x i v) root q = walk m root q := by
    intro q small
    rw [tree.walk_set_leaf whole here v (by omega), if_neg]
    rintro rfl
    simp at small
    omega
  constructor
  · intro q r y small small' there there'
    exact tree.distinct q r y small small' (same q small ▸ there) (same r small' ▸ there')
  · intro q y small there
    exact tree.within q y small (same q small ▸ there)

omit [DecidableEq ι] in
/-- A table outside the tree may be cleared. -/
theorem walk_clear (fresh : y ∉ owned)
    (short : q.length ≤ depth + 1) : walk (clear m y) root q = walk m root q := by
  induction q using reverseRecOn with
  | nil => rfl
  | append_singleton q j ih =>
    rw [length_append, length_singleton] at short
    rw [walk_snoc, walk_snoc, ih (by omega)]
    cases there : walk m root q with
    | none => rfl
    | some z =>
      apply if_neg
      rintro rfl
      exact fresh (tree.within q z (by omega) there)

omit [DecidableEq ι] in
theorem cleared (fresh : y ∉ owned) : Tree (clear m y) root depth owned := by
  constructor
  · intro q r z small small' there there'
    rw [tree.walk_clear fresh (by omega)] at there there'
    exact tree.distinct q r z small small' there there'
  · intro q z small there
    rw [tree.walk_clear fresh (by omega)] at there
    exact tree.within q z small there

/-- A new empty table is met at its own path, and nothing else changes. -/
theorem walk_link (small : p.length < depth)
    (here : walk m root p = some x) (free : m x i = none) (fresh : y ∉ owned)
    (empty : ∀ j, m y j = none) (short : q.length ≤ depth + 1) :
    walk (set m x i (some y)) root q = if q = p ++ [i] then some y else walk m root q := by
  have other : y ≠ x := fun same => fresh (same ▸ tree.within p x (le_of_lt small) here)
  split
  · rename_i same
    rw [same]
    exact tree.walk_set_self (le_of_lt small) here (some y)
  rename_i apart
  by_cases start : (p ++ [i]) <+: q
  · obtain ⟨rest, rfl⟩ := start
    rw [walk_append _ (p ++ [i]), walk_append _ (p ++ [i]),
      tree.walk_set_self (le_of_lt small) here, walk_snoc, here]
    cases rest with
    | nil => exact absurd (append_nil _) apart
    | cons j rest =>
      have dead : set m x i (some y) y j = none := (if_neg fun both => other both.1).trans (empty j)
      simp [walk, dead, free]
  · exact tree.walk_set_other (le_of_lt small) here (some y) short start

theorem link (small : p.length < depth)
    (here : walk m root p = some x) (free : m x i = none) (fresh : y ∉ owned)
    (empty : ∀ j, m y j = none) : Tree (set m x i (some y)) root depth (owned ++ [y]) := by
  have same : ∀ q, q.length ≤ depth → walk (set m x i (some y)) root q =
      if q = p ++ [i] then some y else walk m root q :=
    fun q short => tree.walk_link small here free fresh empty (by omega)
  have old : ∀ q z, q.length ≤ depth → walk m root q = some z → z ≠ y :=
    fun q z short there same => fresh (same ▸ tree.within q z short there)
  constructor
  · intro q r z short short' there there'
    rw [same q short] at there
    rw [same r short'] at there'
    have known := tree.distinct q r z short short'
    grind
  · intro q z short there
    rw [same q short] at there
    have known := tree.within q z short
    grind

omit tree

end Tree

omit [DecidableEq α] [DecidableEq ι] in
theorem tree_root (m : α → ι → Option α) (root : α) (depth : Nat)
    (empty : ∀ i, m root i = none) :
    Tree m root depth [root] := by
  have only : ∀ p x, walk m root p = some x → p = [] ∧ x = root := by
    intro p x there
    cases p with
    | nil => exact ⟨rfl, (Option.some.inj there).symm⟩
    | cons i p => simp [walk, empty] at there
  constructor
  · intro p q x _ _ there there'
    rw [(only p x there).1, (only q x there').1]
  · intro p x _ there
    simp [(only p x there).2]

end Mecocoa.Lib.Radix
