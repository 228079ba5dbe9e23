import Mathlib.Data.Fintype.Card
import Mecocoa.Lib.Links

/-! # Chains with one link in their members

Several queues over one set of members, where a member knows only the one behind it, so
that an end or a neighbour before is found by walking from the head.
-/

namespace Mecocoa.Lib

open List

structure Chains (κ α : Type*) where
  head : κ → Option α
  next : α → Option α

namespace Chains

open Function (update update_self update_of_ne)
open LinkedQueues (Forward firstFrom setLink setLink_apply forward_nil forward_cons)

/-- The members of the queues in order.  The link of a member of no queue may be anything. -/
structure Holds (s : Chains κ α) (q : κ → List α) : Prop where
  link : ∀ k, Forward s.next (q k)
  head : ∀ k, s.head k = (q k).head?
  nodup : ∀ k, (q k).Nodup
  apart : ∀ k k' a, a ∈ q k → a ∈ q k' → k = k'

def empty : Chains κ α := ⟨fun _ => none, fun _ => none⟩

section Updates

variable [DecidableEq κ] [DecidableEq α]

/-- Walk to the last member and link another behind it. -/
def push (fuel : Nat) (s : Chains κ α) (k : κ) (a : α) : Option (Chains κ α) :=
  if s.head k = none then some { head := update s.head k (some a), next := update s.next a none }
  else
    (firstFrom s.next (fun b => s.next b = none) fuel (s.head k)).map fun last =>
      { s with next := update (setLink s.next last (some a)) a none }

/-- Walk to the member before and link it with the one behind. -/
def unlink (fuel : Nat) (s : Chains κ α) (k : κ) (a : α) : Option (Chains κ α) :=
  if s.head k = some a then some { s with head := update s.head k (s.next a) }
  else
    (firstFrom s.next (fun b => s.next b = some a) fuel (s.head k)).map fun before =>
      { s with next := setLink s.next before (s.next a) }

def setNext (s : Chains κ α) (a : α) (b : Option α) : Chains κ α :=
  { s with next := update s.next a b }

/-- Forget all members of a queue. -/
def clear (s : Chains κ α) (k : κ) : Chains κ α :=
  { s with head := update s.head k none }

end Updates

/-! ## Operations -/

section Holds

variable {q : κ → List α}

theorem holds_empty : Holds (empty : Chains κ α) fun _ => [] where
  link := fun _ => forward_nil
  head := fun _ => rfl
  nodup := fun _ => nodup_nil
  apart := by simp

theorem Holds.mem_of_head (holds : Holds s q) (first : s.head k = some a) : a ∈ q k :=
  mem_of_head? ((holds.head k).symm.trans first)

theorem Holds.eq_nil (holds : Holds s q) (free : s.head k = none) : q k = [] :=
  head?_eq_none_iff.mp ((holds.head k).symm.trans free)

theorem Holds.length_le [Fintype α] (holds : Holds s q) (k : κ) :
    (q k).length ≤ Fintype.card α :=
  (holds.nodup k).length_le_card

theorem Holds.chainFrom (holds : Holds s q) (enough : (q k).length ≤ fuel) :
    LinkedQueues.chainFrom s.next fuel (s.head k) = some (q k) := by
  rw [holds.head]
  exact LinkedQueues.chainFrom_forward enough (holds.link k)

theorem Holds.firstFrom (holds : Holds s q) (p : α → Bool) (enough : (q k).length ≤ fuel) :
    LinkedQueues.firstFrom s.next p fuel (s.head k) = some ((q k).find? p) := by
  rw [holds.head]
  exact LinkedQueues.firstFrom_forward p enough (holds.link k)

/-- New contents of one queue, where the other queues keep their heads and links. -/
theorem Holds.replace [DecidableEq κ] (holds : Holds s q)
    (alone : ∀ b ∈ l, ∀ k', b ∈ q k' → k' = k) (link : Forward s'.next l)
    (nodup : l.Nodup) (first : s'.head k = l.head?) (heads : ∀ k' ≠ k, s'.head k' = s.head k')
    (links : ∀ k' ≠ k, ∀ b ∈ q k', s'.next b = s.next b) : Holds s' (update q k l) where
  link := by
    intro k'
    cases eq_or_ne k' k with
    | inl same => rwa [same, update_self]
    | inr other =>
      rw [update_of_ne other]
      exact (holds.link k').congr (links k' other)
  head := by
    intro k'
    cases eq_or_ne k' k with
    | inl same => rwa [same, update_self]
    | inr other => rw [update_of_ne other, heads k' other, holds.head]
  nodup := by
    intro k'
    cases eq_or_ne k' k with
    | inl same => rwa [same, update_self]
    | inr other =>
      rw [update_of_ne other]
      exact holds.nodup k'
  apart := by
    have home : ∀ k' b, b ∈ update q k l k' → b ∈ q k' ∨ k' = k ∧ b ∈ l := by
      intro k' b there
      cases eq_or_ne k' k with
      | inl same => exact .inr ⟨same, by rwa [same, update_self] at there⟩
      | inr other => exact .inl (by rwa [update_of_ne other] at there)
    intro k₁ k₂ b one two
    rcases home k₁ b one with old₁ | ⟨is₁, new₁⟩ <;> rcases home k₂ b
      two with old₂ | ⟨is₂, new₂⟩
    · exact holds.apart k₁ k₂ b old₁ old₂
    · exact (alone b new₂ k₁ old₁).trans is₂.symm
    · exact is₁.trans (alone b new₁ k₂ old₂).symm
    · exact is₁.trans is₂.symm

/-- A queue is emptied, after the links of its members were used for something else. -/
theorem Holds.clear [DecidableEq κ] (holds : Holds s q) {s' : Chains κ α}
    (heads : s'.head = s.head) (links : ∀ b ∉ q k, s'.next b = s.next b) :
    Holds (s'.clear k) (update q k []) := by
  apply holds.replace (by simp) forward_nil nodup_nil (update_self ..)
  · intro k' other
    rw [← heads]
    exact update_of_ne other ..
  · intro k' other b there
    exact links b fun here => other (holds.apart k' k b there here)

variable [DecidableEq α]

theorem Holds.setNext (holds : Holds s q) (absent : ∀ k, a ∉ q k) (b : Option α) :
    Holds (s.setNext a b) q where
  link := fun k => (holds.link k).congr fun _ there =>
    update_of_ne (ne_of_mem_of_not_mem there (absent k)) _ _
  head := holds.head
  nodup := holds.nodup
  apart := holds.apart

variable [DecidableEq κ]

theorem Holds.push (holds : Holds s q) (absent : ∀ k, a ∉ q k)
    (enough : (q k).length ≤ fuel) :
    ∃ s', Chains.push fuel s k a = some s' ∧ Holds s' (update q k (q k ++ [a])) := by
  have alone : ∀ b ∈ q k ++ [a], ∀ k', b ∈ q k' → k' = k := by
    intro b there k' elsewhere
    cases mem_append.mp there with
    | inl old => exact holds.apart k' k b elsewhere old
    | inr new => exact absurd (mem_singleton.mp new ▸ elsewhere) (absent k')
  have nodup : (q k ++ [a]).Nodup := by
    rw [← concat_eq_append]
    exact Nodup.concat (absent k) (holds.nodup k)
  cases ends : (q k).getLast? with
  | none =>
    have nothing : q k = [] := getLast?_eq_none_iff.mp ends
    have free : s.head k = none := by rw [holds.head, nothing]; rfl
    refine ⟨_, if_pos free,
      holds.replace alone ?_ nodup ?_ (fun _ other => update_of_ne other ..) ?_⟩
    · rw [nothing]
      exact forward_cons.mpr ⟨update_self .., forward_nil⟩
    · rw [nothing]
      exact update_self ..
    · intro k' _ b there
      exact update_of_ne (ne_of_mem_of_not_mem there (absent k')) _ _
  | some last =>
    have member : last ∈ q k := mem_of_getLast? ends
    have full : s.head k ≠ none := by
      rw [holds.head]
      intro nothing
      rw [head?_eq_none_iff.mp nothing] at member
      exact not_mem_nil member
    have walk :
        Chains.push fuel s k a =
          some { s with next := update (update s.next last (some a)) a none } := by
      rw [Chains.push, if_neg full, holds.firstFrom _ enough, (holds.link k).find_last ends]
      rfl
    refine ⟨_, walk, holds.replace alone ?_ nodup ?_ (fun _ _ => rfl) ?_⟩
    · refine (holds.link k).push (holds.nodup k) (update_self ..) fun b there => ?_
      rw [ends]
      have notA := ne_of_mem_of_not_mem there (absent k)
      exact (update_of_ne notA ..).trans (setLink_apply s.next (some last) _ b)
    · show s.head k = (q k ++ [a]).head?
      rw [holds.head]
      cases contents : q k with
      | nil => rw [contents] at member; cases member
      | cons b l => rfl
    · intro k' other b there
      have notLast : b ≠ last := fun same => other (holds.apart k' k b there (same ▸ member))
      exact (update_of_ne (ne_of_mem_of_not_mem there (absent k')) _ _).trans
        (update_of_ne notLast _ _)

theorem Holds.unlink (holds : Holds s q) (member : a ∈ q k) (enough : (q k).length ≤ fuel) :
    ∃ s', Chains.unlink fuel s k a = some s' ∧ Holds s' (update q k ((q k).erase a)) := by
  have alone : ∀ b ∈ (q k).erase a, ∀ k', b ∈ q k' → k' = k :=
    fun b there k' elsewhere => holds.apart k' k b elsewhere (mem_of_mem_erase there)
  have nodup : ((q k).erase a).Nodup := (holds.nodup k).erase a
  obtain ⟨before, after, is⟩ := append_of_mem member
  have distinct := is ▸ holds.nodup k
  have notBefore : a ∉ before :=
    fun there => (nodup_append.mp distinct).2.2 a there a (by simp) rfl
  have erased : (q k).erase a = before ++ after := by
    rw [is, erase_append_right _ notBefore, erase_cons_head]
  have link := is ▸ holds.link k
  cases ends : before.getLast? with
  | none =>
    cases getLast?_eq_none_iff.mp ends
    have first : s.head k = some a := by rw [holds.head, is]; rfl
    have parts := forward_cons.mp link
    refine ⟨_, if_pos first,
      holds.replace alone ?_ nodup ?_ (fun _ other => update_of_ne other ..)
      fun _ _ _ _ => rfl⟩
    · rw [erased]
      exact parts.2
    · rw [erased]
      exact (update_self ..).trans parts.1
  | some prev =>
    have here : prev ∈ before := mem_of_getLast? ends
    have heads : s.head k = before.head? := by
      rw [holds.head, is, head?_append_of_ne_nil _ (ne_nil_of_mem here)]
    have notFirst : s.head k ≠ some a :=
      fun first => notBefore (mem_of_head? (heads.symm.trans first))
    have found : (q k).find? (fun b => s.next b = some a) = some prev := by
      rw [is]
      exact link.find_prev distinct ends
    have walk :
        Chains.unlink fuel s k a = some { s with next := update s.next prev (s.next a) } := by
      rw [Chains.unlink, if_neg notFirst, holds.firstFrom _ enough, found]
      rfl
    refine ⟨_, walk, holds.replace alone ?_ nodup ?_ (fun _ _ => rfl) ?_⟩
    · rw [erased]
      refine link.remove distinct fun b _ => ?_
      rw [ends, ← link before a after rfl]
      exact setLink_apply s.next (some prev) _ b
    · rw [erased, head?_append_of_ne_nil _ (ne_nil_of_mem here)]
      exact heads
    · intro k' other b there
      have notPrev : b ≠ prev :=
        fun same => other (holds.apart k' k b there (by simp [is, same, here]))
      exact update_of_ne notPrev ..

end Holds

end Chains

end Mecocoa.Lib
