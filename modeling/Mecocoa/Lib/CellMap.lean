import Mathlib.Data.List.Pairwise

/-! # Partial maps denoted by lists of disjoint cells

A cell covers a set of keys and gives each covered key a value.  A list of cells
that never cover the same key twice denotes a partial map, and edits of the list
are understood through their effect on that map: cutting cells into pieces
restricts it, changing cells in place changes the values alone.
-/

namespace Mecocoa.Lib.CellMap

open List

variable {α κ β : Type*} (covers : α → κ → Bool) (value : α → κ → β)

/-- The value that the first cell covering `k` gives it. -/
def lookup (cells : List α) (k : κ) : Option β :=
  (cells.find? (covers · k)).map (value · k)

/-- No key is covered by two cells of the list. -/
def Apart (cells : List α) : Prop :=
  cells.Pairwise fun a b => ∀ k, ¬ (covers a k = true ∧ covers b k = true)

@[simp] theorem lookup_nil (k : κ) : lookup covers value [] k = none := rfl

theorem lookup_cons (c : α) (cells : List α) (k : κ) : lookup covers value (c :: cells) k =
      if covers c k = true then some (value c k) else lookup covers value cells k := by
  unfold lookup
  by_cases inside : covers c k = true
  · simp [inside]
  · simp [inside]

theorem lookup_append (left right : List α) (k : κ) : lookup covers value (left ++ right) k =
      (lookup covers value left k).or (lookup covers value right k) := by
  unfold lookup
  rw [find?_append, Option.map_or]

theorem lookup_eq_none_iff (cells : List α) (k : κ) :
    lookup covers value cells k = none ↔ ∀ c ∈ cells, covers c k = false := by
  simp [lookup]

variable {covers}

theorem Apart.cons_iff  : Apart covers (c :: cells) ↔
      (∀ d ∈ cells, ∀ k, ¬ (covers c k = true ∧ covers d k = true)) ∧
      Apart covers cells :=
  pairwise_cons

theorem Apart.append_iff :
    Apart covers (left ++ right) ↔ Apart covers left ∧ Apart covers right ∧
      ∀ a ∈ left, ∀ b ∈ right, ∀ k, ¬ (covers a k = true ∧ covers b k = true) :=
  pairwise_append

theorem Apart.sublist (sub : left.Sublist right) (apart : Apart covers right) : Apart covers left :=
  Pairwise.sublist sub apart

theorem Apart.unique (apart : Apart covers cells)
    (inC : c ∈ cells) (inD : d ∈ cells) (coversC : covers c k = true)
    (coversD : covers d k = true) : c = d := by
  by_contra different
  have symmetric : Std.Symm fun a b : α => ∀ k, ¬ (covers a k = true ∧ covers b k = true) :=
    ⟨fun _ _ free k both => free k ⟨both.2, both.1⟩⟩
  exact Pairwise.forall apart inC inD different k ⟨coversC, coversD⟩

/-- Changing every cell without moving it changes the values alone. -/
theorem lookup_map (still : ∀ c ∈ cells, covers (f c) k = covers c k)
    (changed : ∀ c ∈ cells, covers c k = true → value (f c) k = g (value c k)) :
    lookup covers value (cells.map f) k = (lookup covers value cells k).map g := by
  induction cells with
  | nil => rfl
  | cons head tail ih =>
    have tailSame := ih (fun c member => still c (.tail _ member))
      fun c member => changed c (.tail _ member)
    rw [map_cons, lookup_cons, lookup_cons, still head (.head _), tailSame]
    by_cases inside : covers head k = true
    · rw [if_pos inside, if_pos inside, changed head (.head _) inside, Option.map_some]
    · rw [if_neg inside, if_neg inside]

/-- A rewriting of each cell into pieces that together cover exactly the kept
keys of the cell, each piece with the value the cell gave. -/
structure Pieces (covers : α → κ → Bool) (value : α → κ → β) (keep : κ → Prop)
    (pieces : α → List α) (c : α) : Prop where
  covered : ∀ k, (∃ d ∈ pieces c, covers d k = true) ↔ covers c k = true ∧ keep k
  same : ∀ d ∈ pieces c, ∀ k, covers d k = true → value d k = value c k

variable {value}

theorem Apart.flatMap (apart : Apart covers cells)
    (cut : ∀ c ∈ cells, Pieces covers value keep pieces c)
    (free : ∀ c ∈ cells, Apart covers (pieces c)) :
    Apart covers (cells.flatMap pieces) := by
  induction cells with
  | nil => exact Pairwise.nil
  | cons head tail ih =>
    obtain ⟨headFree, tailApart⟩ := Apart.cons_iff.mp apart
    have headCut := cut head (.head _)
    have tailCut := fun c member => cut c (mem_cons_of_mem head member)
    rw [flatMap_cons, Apart.append_iff]
    refine ⟨free head (.head _), ih tailApart tailCut fun c member => free c (.tail _ member),
      ?_⟩
    intro a inHead b inTail k ⟨ka, kb⟩
    obtain ⟨c, member, inPieces⟩ := mem_flatMap.mp inTail
    have headCovers := ((headCut.covered k).mp ⟨a, inHead, ka⟩).1
    have cCovers := (((tailCut c member).covered k).mp ⟨b, inPieces, kb⟩).1
    exact headFree c member k ⟨headCovers, cCovers⟩

/-- Cutting every cell restricts the denoted map to the kept keys. -/
theorem lookup_flatMap [DecidablePred keep]
    (cut : ∀ c ∈ cells, Pieces covers value keep pieces c) (k : κ) :
    lookup covers value (cells.flatMap pieces) k = if keep k then lookup covers value cells k
      else none := by
  induction cells with
  | nil => simp
  | cons head tail ih =>
    obtain ⟨covered, same⟩ := cut head (.head _)
    rw [flatMap_cons, lookup_append, ih fun c member => cut c (.tail _ member), lookup_cons]
    cases found : lookup covers value (pieces head) k with
    | none =>
      by_cases kept : keep k
      · rw [if_pos kept, if_pos kept, if_neg, Option.none_or]
        intro here
        obtain ⟨d, member, inside⟩ := (covered k).mpr ⟨here, kept⟩
        simp [(lookup_eq_none_iff ..).mp found d member] at inside
      · simp [kept]
    | some v =>
      obtain ⟨d, first, rfl⟩ := Option.map_eq_some_iff.mp found
      have member := mem_of_find?_eq_some first
      have inside : covers d k = true := find?_some (p := (covers · k)) first
      obtain ⟨here, kept⟩ := (covered k).mp ⟨d, member, inside⟩
      rw [Option.some_or, if_pos kept, if_pos here, same d member k inside]

end Mecocoa.Lib.CellMap
