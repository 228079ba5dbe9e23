import Mathlib.Tactic
import Mathlib.Logic.Relation
import Mathlib.Data.Fintype.Card

/-! # Links without cycles

Every node has at most one link.  Nodes on a finite set whose links have no cycle have a rank
that falls along each link, which bounds every walk.
-/

namespace Mecocoa.Lib

open Finset

open Relation (TransGen ReflTransGen)
open Function (update update_self update_of_ne)

variable {α : Type*}

def LinkedTo (next : α → Option α) (a b : α) : Prop := next a = some b

def Acyclic (next : α → Option α) : Prop := ∀ a, ¬ TransGen (LinkedTo next) a a

namespace Acyclic

variable {next next' : α → Option α}

theorem of_le (acyclic : Acyclic next) (less : ∀ a b, next' a = some b → next a = some b) :
    Acyclic next' :=
  fun a cycle => acyclic a (TransGen.mono less _ _ cycle)

/-- A link from `a` to a node that does not lead back to `a`. -/
theorem link [DecidableEq α] (acyclic : Acyclic next)
    (away : ¬ ReflTransGen (LinkedTo next) b a) :
    Acyclic (update next a (some b)) := by
  -- A path uses the new link at its end or never, unless the new link leads back to its start.
  have split : ∀ {x y : α}, TransGen (LinkedTo (update next a (some b))) x y →
      TransGen (LinkedTo next) x y ∨ ReflTransGen (LinkedTo next) x a ∧
          ReflTransGen (LinkedTo next) b y := by
    intro x y path
    induction path with
    | single last =>
      rename_i y
      cases eq_or_ne x a with
      | inl same =>
        rw [same, LinkedTo, update_self] at last
        cases last
        exact .inr ⟨same ▸ .refl, .refl⟩
      | inr other =>
        rw [LinkedTo, update_of_ne other] at last
        exact .inl (.single last)
    | tail _ last ih =>
      rename_i y z _
      cases eq_or_ne y a with
      | inl same =>
        rw [same, LinkedTo, update_self] at last
        cases last
        cases ih with
        | inl old => exact .inr ⟨same ▸ old.to_reflTransGen, .refl⟩
        | inr new => exact absurd (same ▸ new.2) away
      | inr other =>
        rw [LinkedTo, update_of_ne other] at last
        cases ih with
        | inl old => exact .inl (old.tail last)
        | inr new => exact .inr ⟨new.1, new.2.tail last⟩
  intro x cycle
  cases split cycle with
  | inl old => exact acyclic x old
  | inr new => exact away (new.2.trans new.1)

/-- The nodes that a node leads to are fewer after each link. -/
theorem exists_rank [Fintype α] (acyclic : Acyclic next) :
    ∃ rank : α → Nat, (∀ a, rank a < Fintype.card α) ∧
    ∀ a b, next a = some b → rank b < rank a := by
  classical
  refine ⟨fun a => (univ.filter (TransGen (LinkedTo next) a)).card, fun a => ?_,
    fun a b first => ?_⟩
  · apply card_lt_univ_of_notMem (x := a)
    simpa using acyclic a
  · apply card_lt_card
    rw [ssubset_iff]
    refine ⟨b, by simpa using acyclic b, ?_⟩
    intro c there
    simp only [mem_insert, mem_filter, mem_univ, true_and] at there ⊢
    cases there with
    | inl same => exact same ▸ .single first
    | inr path => exact .head first path

end Acyclic

end Mecocoa.Lib
