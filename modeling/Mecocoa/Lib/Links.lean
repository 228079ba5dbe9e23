import Mathlib.Data.List.Nodup
import Mathlib.Logic.Function.Basic

/-! # Links between the members of a list

Members that know the one behind them, and members that also know the one before.
-/

namespace Mecocoa.Lib.LinkedQueues

open List

open Function (update update_of_ne)

/-- Every member of the list links to the one behind it. -/
def Forward (next : α → Option α) (l : List α) : Prop :=
  ∀ before b after, l = before ++ b :: after → next b = after.head?

/-- The links of the members of one queue. -/
def Linked (next prev : α → Option α) (l : List α) : Prop :=
  ∀ before a after, l = before ++ a :: after → prev a = before.getLast? ∧ next a = after.head?

/-- Set a link of a member, if there is one. -/
def setLink [DecidableEq α] (links : α → Option α) (a target : Option α) : α → Option α :=
  match a with
  | some a => update links a target
  | none => links

/-- The first member with the property on the way along the links; `none` when the way is longer
than the fuel. -/
def firstFrom (next : α → Option α) (p : α → Bool) : Nat → Option α → Option (Option α)
  | _, none => some none
  | 0, some _ => none
  | fuel + 1, some a => if p a then some (some a) else firstFrom next p fuel (next a)

/-- The members on the way along the links. -/
def chainFrom (next : α → Option α) : Nat → Option α → Option (List α)
  | _, none => some []
  | 0, some _ => none
  | fuel + 1, some a => (chainFrom next fuel (next a)).map (a :: ·)

variable {next prev next' prev' : α → Option α} {l before after : List α}

theorem forward_nil : Forward next [] := by
  intro before b after is
  simp at is

theorem forward_cons : Forward next (a :: l) ↔ next a = l.head? ∧ Forward next l := by
  constructor
  · intro forward
    exact ⟨forward [] a l rfl, fun before b after is => forward (a :: before) b after
      (by rw [is]; rfl)⟩
  · rintro ⟨first, rest⟩ before b after is
    cases before with
    | nil => cases is; exact first
    | cons c before =>
      cases is
      exact rest before b after rfl

theorem Forward.congr (forward : Forward next l) (same : ∀ b ∈ l, next' b = next b) :
    Forward next' l := by
  intro before b after is
  rw [same b (by simp [is])]
  exact forward before b after is

theorem Forward.find_last : ∀ {l : List α}, Forward next l → l.getLast? = some last →
    l.find? (fun b => next b = none) = some last := by
  intro l
  induction l with
  | nil => intro _ ends; cases ends
  | cons b l ih =>
    intro forward ends
    have parts := forward_cons.mp forward
    cases l with
    | nil =>
      cases ends
      simp [parts.1]
    | cons c l =>
      rw [find?_cons_of_neg (by simp [parts.1])]
      exact ih parts.2 ends

theorem firstFrom_forward (p : α → Bool) (enough : l.length ≤ fuel)
    (forward : Forward next l) :
    firstFrom next p fuel l.head? = some (l.find? p) := by
  induction l generalizing fuel with
  | nil => cases fuel <;> rfl
  | cons a l ih =>
    obtain ⟨step, rest⟩ := forward_cons.mp forward
    cases fuel with
    | zero => simp at enough
    | succ fuel =>
      have later := ih (Nat.le_of_succ_le_succ enough) rest
      cases hit : p a with
      | true => simp [firstFrom, hit]
      | false => simp [firstFrom, hit, step, later]

theorem chainFrom_forward (enough : l.length ≤ fuel) (forward : Forward next l) :
    chainFrom next fuel l.head? = some l := by
  induction l generalizing fuel with
  | nil => cases fuel <;> rfl
  | cons a l ih =>
    obtain ⟨step, rest⟩ := forward_cons.mp forward
    cases fuel with
    | zero => simp at enough
    | succ fuel => simp [chainFrom, step, ih (Nat.le_of_succ_le_succ enough) rest]

/-- The links back are those of the list turned round. -/
theorem linked_iff : Linked next prev l ↔ Forward next l ∧ Forward prev l.reverse := by
  constructor
  · intro linked
    refine ⟨fun before b after is => (linked before b after is).2, fun before b after is => ?_⟩
    have turned : l = after.reverse ++ b :: before.reverse := by
      rw [← l.reverse_reverse, is]
      simp
    rw [(linked _ _ _ turned).1, getLast?_reverse]
  · rintro ⟨ahead, back⟩ before b after is
    refine ⟨?_, ahead before b after is⟩
    rw [back after.reverse b before.reverse (by simp [is]), head?_reverse]

/-- Links of other members keep a queue linked. -/
theorem Linked.congr (linked : Linked next prev l) (sameNext : ∀ b ∈ l, next' b = next b)
    (samePrev : ∀ b ∈ l, prev' b = prev b) : Linked next' prev' l := by
  obtain ⟨ahead, back⟩ := linked_iff.mp linked
  exact linked_iff.mpr
    ⟨ahead.congr sameNext, back.congr fun b there => samePrev b (mem_reverse.mp there)⟩

variable [DecidableEq α]

theorem setLink_apply (links : α → Option α) (x target : Option α) (b : α) :
    setLink links x target b = if x = some b then target else links b := by
  cases x with
  | none => rfl
  | some c => simp [setLink, update, eq_comm]

/-- Two lists are joined by the link of the last member of the first one. -/
theorem Forward.splice (forward : Forward next (before ++ x)) (behind : Forward next' after)
    (nodup : before.Nodup)
    (links : ∀ b ∈ before, next' b = if before.getLast? = some b then after.head? else next b) :
    Forward next' (before ++ after) := by
  induction before with
  | nil => exact behind
  | cons b before ih =>
    obtain ⟨first, rest⟩ := forward_cons.mp forward
    have distinct := nodup_cons.mp nodup
    refine forward_cons.mpr ⟨?_, ih rest distinct.2 fun c there => ?_⟩
    · rw [links b mem_cons_self]
      cases before with
      | nil => simp
      | cons d before =>
        rw [getLast?_cons_cons, if_neg fun last => distinct.1 (mem_of_getLast? last)]
        exact first
    · rw [links c (mem_cons_of_mem b there)]
      cases before with
      | nil => cases there
      | cons d before => rw [getLast?_cons_cons]

theorem Forward.push (forward : Forward next l) (nodup : l.Nodup) (last : next' a = none)
    (links : ∀ b ∈ l, next' b = if l.getLast? = some b then some a else next b) :
    Forward next' (l ++ [a]) :=
  Forward.splice (x := []) (by rwa [append_nil]) (forward_cons.mpr ⟨last, forward_nil⟩) nodup
    links

/-- Taking a member out joins the members before and behind it. -/
theorem Forward.remove (forward : Forward next (before ++ a :: after))
    (nodup : (before ++ a :: after).Nodup)
    (links : ∀ b ≠ a, next' b = if before.getLast? = some b then after.head? else next b) :
    Forward next' (before ++ after) := by
  have distinct := nodup_append.mp nodup
  have notBefore : ∀ b ∈ before, b ∉ a :: after := fun b there here =>
    distinct.2.2 b there b here rfl
  have behind : Forward next (a :: after) := fun front b back is =>
    forward (before ++ front) b back (by rw [is, append_assoc])
  refine forward.splice ((forward_cons.mp behind).2.congr fun b there => ?_) distinct.1
    fun b there => ?_
  · rw [links b (ne_of_mem_of_not_mem there (nodup_cons.mp distinct.2.1).1)]
    exact if_neg fun last => notBefore b (mem_of_getLast? last) (mem_cons_of_mem a there)
  · exact links b fun same => notBefore b there (by simp [same])

theorem Forward.find_prev : ∀ {before : List α},
    Forward next (before ++ a :: after) → (before ++ a :: after).Nodup →
      before.getLast? = some last →
      (before ++ a :: after).find? (fun b => next b = some a) = some last := by
  intro before
  induction before with
  | nil => intro _ _ ends; cases ends
  | cons b before ih =>
    intro forward nodup ends
    have parts := forward_cons.mp forward
    cases before with
    | nil =>
      cases ends
      simp [parts.1]
    | cons c before =>
      have distinct := (nodup_cons.mp nodup).2
      have other : c ≠ a := fun same => (nodup_cons.mp distinct).1 (by simp [same])
      rw [cons_append, find?_cons_of_neg (by simpa [parts.1] using other)]
      exact ih parts.2 distinct ends

theorem Linked.remove (linked : Linked next prev (before ++ a :: after))
    (nodup : (before ++ a :: after).Nodup)
    (forward : ∀ b ≠ a, next' b = if before.getLast? = some b then after.head? else next b)
    (backward : ∀ b ≠ a, prev' b = if after.head? = some b then before.getLast? else prev b) :
    Linked next' prev' (before ++ after) := by
  obtain ⟨ahead, back⟩ := linked_iff.mp linked
  refine linked_iff.mpr ⟨ahead.remove nodup forward, ?_⟩
  have turned : (before ++ a :: after).reverse = after.reverse ++ a :: before.reverse := by simp
  rw [turned] at back
  rw [reverse_append]
  refine back.remove (turned ▸ nodup_reverse.mpr nodup) fun b other => ?_
  rw [getLast?_reverse, head?_reverse]
  exact backward b other

end Mecocoa.Lib.LinkedQueues
