import Mecocoa.Lib.Chains

/-! # Queues with links in their members

Several queues over one set of members, where a member has one pair of links.  The
queues are specified by the lists of their members.
-/

namespace Mecocoa.Lib

open List Function

structure LinkedQueues (κ α : Type*) where
  next : α → Option α
  prev : α → Option α
  head : κ → Option α
  tail : κ → Option α

namespace LinkedQueues

open Function (update update_self update_of_ne)

structure Represents (s : LinkedQueues κ α) (q : κ → List α) : Prop where
  linked : ∀ k, Linked s.next s.prev (q k)
  head : ∀ k, s.head k = (q k).head?
  tail : ∀ k, s.tail k = (q k).getLast?
  nodup : ∀ k, (q k).Nodup
  apart : ∀ k k' a, a ∈ q k → a ∈ q k' → k = k'
  free : ∀ a, (∀ k, a ∉ q k) → s.next a = none ∧ s.prev a = none

def empty : LinkedQueues κ α := ⟨fun _ => none, fun _ => none, fun _ => none, fun _ => none⟩

section Updates

variable [DecidableEq κ] [DecidableEq α]

/-- Link a member behind the last one. -/
def pushBack (s : LinkedQueues κ α) (k : κ) (a : α) : LinkedQueues κ α :=
  match s.tail k with
  | some last =>
    { s with
      next := update (update s.next a none) last (some a)
      prev := update s.prev a (some last)
      tail := update s.tail k (some a) }
  | none =>
    { next := update s.next a none
      prev := update s.prev a none
      head := update s.head k (some a)
      tail := update s.tail k (some a) }

/-- Link the neighbours of a member with each other. -/
def unlink (s : LinkedQueues κ α) (a : α) : LinkedQueues κ α :=
  { s with
    next := update (setLink s.next (s.prev a) (s.next a)) a none
    prev := update (setLink s.prev (s.next a) (s.prev a)) a none }

/-- Take a member out of a queue. -/
def detach (s : LinkedQueues κ α) (k : κ) (a : α) : LinkedQueues κ α :=
  { s.unlink a with
    head := if s.head k = some a then update s.head k (s.next a) else s.head
    tail := if s.tail k = some a then update s.tail k (s.prev a) else s.tail }

/-- Move all of a queue to another place. -/
def move (s : LinkedQueues κ α) (source target : κ) : LinkedQueues κ α :=
  { s with
    head := update (update s.head target (s.head source)) source none
    tail := update (update s.tail target (s.tail source)) source none }

end Updates

/-! ## Operations -/

section Represents

variable {q : κ → List α}

theorem represents_empty : Represents (empty : LinkedQueues κ α) fun _ => [] where
  linked := by intro k before a after is; simp at is
  head := fun _ => rfl
  tail := fun _ => rfl
  nodup := fun _ => nodup_nil
  apart := by simp
  free := fun _ _ => ⟨rfl, rfl⟩

variable (rep : Represents s q)

include rep

theorem Represents.holds : Chains.Holds ⟨s.head, s.next⟩ q where
  link := fun k => (linked_iff.mp (rep.linked k)).1
  head := rep.head
  nodup := rep.nodup
  apart := rep.apart

theorem Represents.mem_of_tail (last : s.tail k = some a) : a ∈ q k :=
  mem_of_getLast? ((rep.tail k).symm.trans last)

theorem Represents.mem_of_head (first : s.head k = some a) : a ∈ q k :=
  mem_of_head? ((rep.head k).symm.trans first)

theorem Represents.eq_singleton (first : s.head k = some a) (last : s.tail k = some a) :
    q k = [a] := by
  have nodup := rep.nodup k
  rw [rep.head] at first
  rw [rep.tail] at last
  cases whole : q k with
  | nil => simp [whole] at first
  | cons b rest =>
    rw [whole] at first last nodup
    cases (show b = a by simpa using first)
    cases rest with
    | nil => rfl
    | cons d rest =>
      rw [getLast?_cons_cons] at last
      exact absurd (mem_of_getLast? last) (nodup_cons.mp nodup).1

theorem Represents.links {before after} (is : q k = before ++ a :: after) :
    s.prev a = before.getLast? ∧ s.next a = after.head? :=
  rep.linked k before a after is

/-- A member without neighbours is alone. -/
theorem Represents.alone (member : a ∈ q k) (next : s.next a = none) (prev : s.prev a = none) :
    q k = [a] := by
  obtain ⟨before, after, is⟩ := append_of_mem member
  have links := rep.links is
  have first : before = [] := getLast?_eq_none_iff.mp (links.1.symm.trans prev)
  have last : after = [] := head?_eq_none_iff.mp (links.2.symm.trans next)
  rw [is, first, last]
  rfl

omit rep

variable [DecidableEq α]

/-- A member of no queue has no neighbours. -/
theorem Represents.unlink_free (rep : Represents s q) (absent : ∀ k, a ∉ q k) :
    s.unlink a = s := by
  obtain ⟨next, prev⟩ := rep.free a absent
  have nextSame : update s.next a none = s.next := by rw [← next]; exact update_eq_self a s.next
  have prevSame : update s.prev a none = s.prev := by rw [← prev]; exact update_eq_self a s.prev
  unfold unlink setLink
  rw [next, prev, nextSame, prevSame]

variable [DecidableEq κ]

/-- One queue gets other members and links, and what is in other queues or in none stays. -/
theorem Represents.replace (rep : Represents s q) (k : κ)
    (linked : Linked s'.next s'.prev l) (head : s'.head = update s.head k l.head?)
    (tail : s'.tail = update s.tail k l.getLast?) (nodup : l.Nodup)
    (new : ∀ b ∈ l, b ∈ q k ∨ ∀ k', b ∉ q k')
    (others : ∀ b, b ∉ q k → b ∉ l → s'.next b = s.next b ∧ s'.prev b = s.prev b)
    (gone : ∀ b ∈ q k, b ∉ l → s'.next b = none ∧ s'.prev b = none) :
    Represents s' (update q k l) := by
  have still : ∀ k' ≠ k, ∀ b ∈ q k', s'.next b = s.next b ∧ s'.prev b = s.prev b := by
    intro k' other b there
    have here : b ∉ q k := fun here => other (rep.apart k' k b there here)
    exact others b here fun member => (new b member).elim here fun absent => absent k' there
  have holds : Chains.Holds ⟨s'.head, s'.next⟩ (update q k l) := by
    refine rep.holds.replace (fun b there k' elsewhere => ?_) (linked_iff.mp linked).1 nodup
      ((congrFun head k).trans (update_self ..))
      (fun k' other => (congrFun head k').trans (update_of_ne other ..))
      fun k' other b there => (still k' other b there).1
    exact (new b there).elim (rep.apart k' k b elsewhere) fun absent => absurd elsewhere (absent k')
  refine ⟨fun k' => ?_, holds.head, fun k' => ?_, holds.nodup, holds.apart, fun b absent => ?_⟩
  · by_cases same : k' = k
    · subst same
      rwa [update_self]
    · rw [update_of_ne same]
      exact (rep.linked k').congr (fun b there => (still k' same b there).1) fun b there =>
        (still k' same b there).2
  · rw [tail]
    by_cases same : k' = k
    · rw [same, update_self, update_self]
    · rw [update_of_ne same, update_of_ne same, rep.tail]
  · have notIn : b ∉ l := by simpa using absent k
    by_cases member : b ∈ q k
    · exact gone b member notIn
    · rw [(others b member notIn).1, (others b member notIn).2]
      refine rep.free b fun k' there => ?_
      by_cases same : k' = k
      · exact member (same ▸ there)
      · exact absent k' (by rwa [update_of_ne same])

theorem Represents.pushBack (rep : Represents s q) (k : κ) (fresh : ∀ k, a ∉ q k) :
    Represents (s.pushBack k a) (update q k (q k ++ [a])) := by
  have tail := rep.tail k
  have ends : (s.pushBack k a).head = update s.head k (q k ++ [a]).head? ∧
      (s.pushBack k a).tail = update s.tail k (q k ++ [a]).getLast? := by
    unfold LinkedQueues.pushBack
    cases last : s.tail k with
    | none =>
      have empty : q k = [] := getLast?_eq_none_iff.mp (tail.symm.trans last)
      simp [empty]
    | some b =>
      have filled : q k ≠ [] := by
        intro empty
        simp [empty, last] at tail
      simp [head?_append_of_ne_nil _ filled, ← rep.head k]
  -- The only links that change are those of the new member and the `next` of the last one.
  have next : ∀ b, (s.pushBack k a).next b =
      if (q k).getLast? = some b then some a else if b = a then none else s.next b := by
    intro b
    rw [← tail]
    unfold LinkedQueues.pushBack
    cases last : s.tail k with
    | none => simp [update, eq_rec_constant]
    | some c =>
      simp only [Option.some.injEq, update, eq_rec_constant, dite_eq_ite]
      by_cases same : b = c
      · simp [same]
      · simp [same, Ne.symm same]
  have prev : ∀ b, (s.pushBack k a).prev b = if b = a then (q k).getLast? else s.prev b := by
    intro b
    rw [← tail]
    unfold LinkedQueues.pushBack
    cases last : s.tail k with
    | none => simp [update, eq_rec_constant]
    | some c => simp [update, eq_rec_constant]
  refine rep.replace k ?_ ends.1 ends.2 ?_ ?_ ?_
    (fun b there absent => absurd (by simp [there]) absent)
  · obtain ⟨ahead, back⟩ := linked_iff.mp (rep.linked k)
    refine linked_iff.mpr ⟨ahead.push (rep.nodup k) ?_ fun b there => ?_, ?_⟩
    · have other : (q k).getLast? ≠ some a := fun last => fresh k (mem_of_getLast? last)
      simp [next, other]
    · rw [next, if_neg (ne_of_mem_of_not_mem there (fresh k))]
    · rw [reverse_append]
      refine forward_cons.mpr ⟨by simp [prev], back.congr fun b there => ?_⟩
      rw [prev, if_neg (ne_of_mem_of_not_mem (mem_reverse.mp there) (fresh k))]
  · refine nodup_append.mpr ⟨rep.nodup k, nodup_singleton a, ?_⟩
    intro b member c single
    cases mem_singleton.mp single
    exact fun is => fresh k (is ▸ member)
  · intro b member
    rcases mem_append.mp member with old | added
    · exact .inl old
    · exact .inr (mem_singleton.mp added ▸ fresh)
  · intro b absent notIn
    have other : b ≠ a := fun is => notIn (by simp [is])
    have last : (q k).getLast? ≠ some b := fun last => absent (mem_of_getLast? last)
    rw [next, prev, if_neg last, if_neg other, if_neg other]
    exact ⟨rfl, rfl⟩

theorem Represents.detach (rep : Represents s q) (member : a ∈ q k) :
    Represents (s.detach k a) (update q k ((q k).erase a)) := by
  obtain ⟨before, after, is⟩ := append_of_mem member
  have nodup := rep.nodup k
  rw [is] at nodup
  have distinct := nodup_append.mp nodup
  have notBefore : a ∉ before := fun there => distinct.2.2 a there a (.head _) rfl
  have notAfter : a ∉ after := (nodup_cons.mp distinct.2.1).1
  have erased : (q k).erase a = before ++ after := by
    rw [is, erase_append_right _ notBefore, erase_cons_head]
  obtain ⟨prev, next⟩ := rep.links is
  have forward : ∀ b ≠ a, (s.detach k a).next b = if before.getLast? = some b then after.head?
      else s.next b := by
    intro b other
    rw [← prev, ← next]
    exact (update_of_ne other ..).trans (setLink_apply ..)
  have backward : ∀ b ≠ a, (s.detach k a).prev b = if after.head? = some b then before.getLast?
      else s.prev b := by
    intro b other
    rw [← prev, ← next]
    exact (update_of_ne other ..).trans (setLink_apply ..)
  rw [erased]
  refine rep.replace k (Linked.remove (is ▸ rep.linked k) nodup forward backward) ?_ ?_
    (erased ▸ (rep.nodup k).erase a) (fun b there => .inl ?_) ?_ ?_
  · have head := rep.head k
    change (if s.head k = some a then update s.head k (s.next a) else s.head) = _
    cases before with
    | nil =>
      have first : s.head k = some a := by rw [head, is]; rfl
      rw [if_pos first, next]
      rfl
    | cons b before =>
      rw [is] at head
      have other : ¬ s.head k = some a := by
        rw [head]
        intro eq
        exact notBefore (by simp [show b = a by simpa using eq])
      rw [if_neg other]
      exact (update_eq_self_iff.mpr head.symm).symm
  · have tail := rep.tail k
    change (if s.tail k = some a then update s.tail k (s.prev a) else s.tail) = _
    cases eq_nil_or_concat' after with
    | inl none =>
      subst none
      rw [is, getLast?_concat] at tail
      rw [if_pos tail, prev, append_nil]
    | inr more =>
      obtain ⟨init, b, rfl⟩ := more
      rw [is, ← cons_append, ← append_assoc, getLast?_concat] at tail
      have other : ¬ s.tail k = some a := by
        rw [tail]
        intro eq
        exact notAfter (by simp [show b = a by simpa using eq])
      rw [if_neg other, ← append_assoc, getLast?_concat]
      exact (update_eq_self_iff.mpr tail.symm).symm
  · exact mem_of_mem_erase (erased ▸ there)
  · intro b absent _
    have other : b ≠ a := fun same => absent (same ▸ member)
    have notLast : before.getLast? ≠ some b :=
      fun last => absent (by rw [is]; simp [mem_of_getLast? last])
    have notFirst : after.head? ≠ some b :=
      fun first => absent (by rw [is]; simp [mem_of_head? first])
    rw [forward b other, backward b other, if_neg notLast, if_neg notFirst]
    exact ⟨rfl, rfl⟩
  · intro b there absent
    obtain rfl : b = a := by
      by_contra other
      exact absent (erased ▸ (mem_erase_of_ne other).mpr there)
    simp [LinkedQueues.detach, unlink]

omit [DecidableEq α] in
/-- All of a queue goes to an empty place. -/
theorem Represents.move (rep : Represents s q) (other : source ≠ target)
    (empty : q target = []) :
    Represents (s.move source target) (update (update q target (q source)) source []) := by
  have at_ : ∀ k, update (update q target (q source)) source [] k =
      if k = source then [] else if k = target then q source else q k := by
    intro k
    simp only [update, eq_rec_constant, dite_eq_ite]
  have heads : ∀ k, (s.move source target).head k =
      if k = source then none else if k = target then s.head source else s.head k := by
    intro k
    simp only [LinkedQueues.move, update, eq_rec_constant, dite_eq_ite]
  have tails : ∀ k, (s.move source target).tail k =
      if k = source then none else if k = target then s.tail source else s.tail k := by
    intro k
    simp only [LinkedQueues.move, update, eq_rec_constant, dite_eq_ite]
  refine ⟨fun k => ?_, fun k => ?_, fun k => ?_, fun k => ?_, fun k k' a first second => ?_,
    fun a outside => ?_⟩
  · rw [at_]
    split
    · intro before a after is
      simp at is
    · split
      · exact rep.linked source
      · exact rep.linked k
  · rw [at_, heads]
    split
    · rfl
    · split
      · exact rep.head source
      · exact rep.head k
  · rw [at_, tails]
    split
    · rfl
    · split
      · exact rep.tail source
      · exact rep.tail k
  · rw [at_]
    split
    · exact nodup_nil
    · split
      · exact rep.nodup source
      · exact rep.nodup k
  · rw [at_] at first second
    grind [rep.apart]
  · apply rep.free a
    intro k there
    by_cases atSource : k = source
    · exact outside target
        (by rw [at_, if_neg (Ne.symm other), if_pos rfl, ← atSource]; exact there)
    · by_cases atTarget : k = target
      · rw [atTarget, empty] at there
        simp at there
      · exact outside k (by rw [at_, if_neg atSource, if_neg atTarget]; exact there)

end Represents

/-! ## Following the links -/

section Follow

variable [Fintype α] {q : κ → List α}

theorem Represents.length_le (rep : Represents s q) (k : κ) : (q k).length ≤ Fintype.card α :=
  rep.holds.length_le k

theorem Represents.firstFrom (rep : Represents s q) (k : κ) (p : α → Bool) :
    firstFrom s.next p (Fintype.card α) (s.head k) = some ((q k).find? p) :=
  rep.holds.firstFrom p (rep.length_le k)

theorem Represents.chainFrom (rep : Represents s q) (k : κ) :
    chainFrom s.next (Fintype.card α) (s.head k) = some (q k) :=
  rep.holds.chainFrom (rep.length_le k)

end Follow

end LinkedQueues

end Mecocoa.Lib
