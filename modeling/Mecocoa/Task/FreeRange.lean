import Mecocoa.Task.Syscall

/-! # The search for a free range

`FindFreeVmaRange` for any end of the user space, and the address that it is to find.
-/

namespace Mecocoa.Memory

/-- One round of the loop: the next candidate, or what the function returns. -/
def freeRangeRound (userEnd : Nat) (vmas : List Vma) (mapped : Nat → Bool)
    (length candidate : Nat) : Nat ⊕ Option Nat :=
  if userEnd ≤ candidate ∨ userEnd - candidate < length then .inr none
  else match vmas.find?
      (fun v => decide (candidate < v.vmEnd) && decide (v.vmStart < candidate + length)) with
    | some existing => .inl existing.vmEnd
    | none =>
      match (pagesFrom candidate (length / pageSize)).find? mapped with
      | some page => .inl (page + pageSize)
      | none => .inr (some candidate)

/-- The loop; every round moves the candidate up by at least one page. -/
def freeRangeFrom (userEnd : Nat) (vmas : List Vma) (mapped : Nat → Bool) (length : Nat) :
    Nat → Nat → Option Nat
  | 0, _ => none
  | rounds + 1, candidate =>
    match freeRangeRound userEnd vmas mapped length candidate with
    | .inl next => freeRangeFrom userEnd vmas mapped length rounds next
    | .inr result => result

/-- The loop returns within so many rounds. -/
def freeRangeEnds (userEnd : Nat) (vmas : List Vma) (mapped : Nat → Bool) (length : Nat) :
    Nat → Nat → Bool
  | 0, _ => false
  | rounds + 1, candidate =>
    match freeRangeRound userEnd vmas mapped length candidate with
    | .inl next => freeRangeEnds userEnd vmas mapped length rounds next
    | .inr _ => true

/-- The whole function in words of `w` bits. -/
def freeVmaRange (w userEnd heapbtm : Nat) (vmas : List Vma) (mapped : Nat → Bool)
    (rounds length : Nat) : Option Nat :=
  if length = 0 ∨ ¬ Aligned length ∨ heapbtm < pageSize ∨
    (userEnd + 2 ^ w - (pageSize - 1)) % 2 ^ w < heapbtm then none
  else freeRangeFrom userEnd vmas mapped length rounds
    (pageFloor ((heapbtm + (pageSize - 1)) % 2 ^ w))

theorem freeRangeFrom_succ (userEnd : Nat) (vmas : List Vma) (mapped : Nat → Bool)
    (length rounds candidate : Nat) :
    freeRangeFrom userEnd vmas mapped length (rounds + 1) candidate =
      if userEnd ≤ candidate ∨ userEnd - candidate < length then none
      else match vmas.find?
      (fun v => decide (candidate < v.vmEnd) && decide (v.vmStart < candidate + length)) with
        | some existing => freeRangeFrom userEnd vmas mapped length rounds existing.vmEnd
        | none =>
          match (pagesFrom candidate (length / pageSize)).find? mapped with
          | some page => freeRangeFrom userEnd vmas mapped length rounds (page + pageSize)
          | none => some candidate := by
  rw [freeRangeFrom, freeRangeRound]
  split_ifs
  · rfl
  · cases vmas.find?
        (fun v => decide (candidate < v.vmEnd) && decide (v.vmStart < candidate + length)) with
    | some existing => rfl
    | none => cases (pagesFrom candidate (length / pageSize)).find? mapped <;> rfl

theorem findFreeVmaRange_eq (t : Target) (s : Sys) (p length rounds candidate : Nat) :
    findFreeVmaRange t s p length rounds candidate =
      freeRangeFrom t.userEnd (s.vmas p) (fun a => (s.pte p a).isSome) length rounds candidate := by
  induction rounds generalizing candidate with
  | zero => rfl
  | succ rounds ih =>
    have next : findFreeVmaRange t s p length rounds =
        freeRangeFrom t.userEnd (s.vmas p) (fun a => (s.pte p a).isSome) length rounds := funext ih
    refine Eq.trans ?_ (freeRangeFrom_succ ..).symm
    exact next ▸ rfl

/-- The search of `sysc_MMAP` is this one. -/
theorem firstCandidate_bind (t : Target) (s : Sys) (p rounds : Nat) (some : 0 < length)
    (aligned : Aligned length) :
    (firstCandidate t s p).bind (findFreeVmaRange t s p length rounds) =
      freeVmaRange t.wordBits t.userEnd (s.procs p).heapbtm (s.vmas p)
      (fun a => (s.pte p a).isSome) rounds length := by
  have limit : (t.userEnd + 2 ^ t.wordBits - (pageSize - 1)) % 2 ^ t.wordBits =
    t.userEnd - (pageSize - 1) ∧
      t.userEnd < 2 ^ t.wordBits := by
    unfold Target.userEnd Target.wordBits pageSize
    cases t.arch <;> decide
  unfold firstCandidate freeVmaRange
  simp only [limit.1, aligned, some.ne', not_true, false_or]
  split
  · rfl
  · rename_i inside
    have fits : (s.procs p).heapbtm + (pageSize - 1) < 2 ^ t.wordBits := by
      have := limit.2
      unfold pageSize at *
      omega
    rw [Nat.mod_eq_of_lt fits, Option.bind_some, findFreeVmaRange_eq]

/-- The whole range ends in time, overlaps no area and has no mapped page. -/
structure FreeAt (userEnd : Nat) (vmas : List Vma) (mapped : Nat → Bool) (length a : Nat) :
    Prop where
  aligned : Aligned a
  inside : a + length ≤ userEnd
  apart : ∀ v ∈ vmas, ¬ (a < v.vmEnd ∧ v.vmStart < a + length)
  unmapped : ∀ b, Aligned b → a ≤ b → b < a + length → mapped b = false

/-- A round goes on to a higher candidate below the end of the space. -/
theorem freeRangeRound_lt
    (round : freeRangeRound userEnd vmas mapped length candidate = .inl next) :
    candidate < next ∧ candidate < userEnd := by
  unfold freeRangeRound at round
  split at round
  · cases round
  rename_i inside
  refine ⟨?_, by omega⟩
  split at round
  · rename_i existing found
    cases round
    have overlap := List.find?_some found
    simp only [Bool.and_eq_true, decide_eq_true_eq] at overlap
    exact overlap.1
  · split at round
    · rename_i page found
      cases round
      obtain ⟨i, -, rfl⟩ := mem_pagesFrom.mp (List.mem_of_find?_eq_some found)
      unfold pageSize
      omega
    · cases round

theorem freeRangeEnds_of_lt (rounds : Nat) :
    ∀ {candidate}, userEnd < candidate + rounds → 0 < rounds →
    freeRangeEnds userEnd vmas mapped length rounds candidate = true := by
  induction rounds with
  | zero =>
    intro candidate _ some
    omega
  | succ rounds ih =>
    intro candidate enough _
    unfold freeRangeEnds
    split
    · rename_i next round
      have up := freeRangeRound_lt round
      exact ih (by omega) (by omega)
    · rfl

theorem freeRangeFrom_least (mapped : Nat → Bool) (wf : ∀ v ∈ vmas, Aligned v.vmEnd)
    (some : 0 < length) (whole : Aligned length) (rounds : Nat) :
    ∀ {candidate}, Aligned candidate → userEnd ≤ candidate + rounds →
    Least
      (FreeAt userEnd vmas mapped length) candidate
      (freeRangeFrom userEnd vmas mapped length rounds candidate) := by
  induction rounds with
  | zero =>
    intro candidate _ enough b above free
    have := free.inside
    omega
  | succ rounds ih =>
    intro candidate aligned enough
    rw [freeRangeFrom_succ]
    split
    · intro b above free
      have := free.inside
      omega
    rename_i inside
    have range : candidate + length - candidate = length := by omega
    split
    · rename_i existing found
      have overlap := List.find?_some found
      simp only [Bool.and_eq_true, decide_eq_true_eq] at overlap
      have member := List.mem_of_find?_eq_some found
      refine (ih (wf existing member) (by omega)).skip overlap.1.le fun b above free => ?_
      have := free.apart existing member
      omega
    · rename_i apart
      split
      · rename_i page found
        have there := List.mem_of_find?_eq_some found
        rw [← range, mem_pagesFrom_range aligned (aligned.add whole)] at there
        have next : Aligned (page + pageSize) := there.1.add rfl
        refine (ih next (by unfold pageSize; omega)).skip (by omega) fun b above free => ?_
        -- A free range from here on that begins by this page would contain it.
        have behind : page < b := by
          by_contra early
          have clear := free.unmapped page there.1 (by omega) (by omega)
          rw [List.find?_some found] at clear
          cases clear
        exact (there.1.lt_iff_add_le free.aligned).mp behind
      · rename_i free
        refine ⟨le_refl _,
          ⟨aligned, by omega, fun v member overlap => ?_, fun b page low high => ?_⟩,
          fun _ above _ => above⟩
        · exact absurd (List.find?_eq_none.mp apart v member) (by simpa using overlap)
        · rw [← range] at free
          simpa using List.find?_eq_none.mp free b
            ((mem_pagesFrom_range aligned (aligned.add whole)).mpr ⟨page, low, high⟩)

theorem freeVmaRange_least_of (word : userEnd < 2 ^ w) (wf : ∀ v ∈ vmas, Aligned v.vmEnd)
    (heap : pageSize ≤ heapbtm) (some : 0 < length) (whole : Aligned length)
    (enough : userEnd ≤ rounds) :
    Least (FreeAt userEnd vmas mapped length) (pageFloor (heapbtm + (pageSize - 1)))
      (freeVmaRange w userEnd heapbtm vmas mapped rounds length) := by
  have page : pageSize ≤ length := Nat.le_of_dvd some (Nat.dvd_of_mod_eq_zero whole)
  by_cases room : userEnd < length
  · -- Too small a space for the range, so that it does not matter where the sums wrap.
    have none : freeVmaRange w userEnd heapbtm vmas mapped rounds length = none := by
      unfold freeVmaRange
      split
      · rfl
      · cases rounds with
        | zero => rfl
        | succ rounds => rw [freeRangeFrom_succ, if_pos (by omega)]
    rw [none]
    intro b above free
    have := free.inside
    omega
  have limit : (userEnd + 2 ^ w - (pageSize - 1)) % 2 ^ w = userEnd - (pageSize - 1) := by
    rw [show userEnd + 2 ^ w - (pageSize - 1) = userEnd - (pageSize - 1) + 2 ^ w by omega,
      Nat.add_mod_right]
    exact Nat.mod_eq_of_lt (by omega)
  have round : ∀ n, n ≤ pageFloor n + (pageSize - 1) := by
    unfold pageFloor pageSize
    omega
  unfold freeVmaRange
  simp only [limit, whole, some.ne', heap.not_gt, not_true, false_or]
  split
  · intro b above free
    have := free.inside
    have := round (heapbtm + (pageSize - 1))
    unfold pageSize at *
    omega
  · have fits : heapbtm + (pageSize - 1) < 2 ^ w := by
      unfold pageSize at *
      omega
    rw [Nat.mod_eq_of_lt fits]
    exact freeRangeFrom_least mapped wf some whole rounds (Aligned.pageFloor _) (by omega)

/-- The search ends with the least free address at or above the heap bottom, and fails only where
there is none; an empty range and a heap bottom in the first page are refused.  It returns by a test
of its own in as many rounds as the space has addresses. -/
theorem freeVmaRange_least (word : userEnd < 2 ^ w) (wf : ∀ v ∈ vmas, Aligned v.vmEnd)
    (enough : userEnd ≤ rounds) :
    (pageSize ≤ heapbtm → 0 < length → Aligned length →
      Least (FreeAt userEnd vmas mapped length) (pageFloor (heapbtm + (pageSize - 1)))
        (freeVmaRange w userEnd heapbtm vmas mapped rounds length)) ∧
    (length = 0 ∨ heapbtm < pageSize →
      freeVmaRange w userEnd heapbtm vmas mapped rounds length = none) ∧
    ∀ candidate, 0 < candidate → 0 < rounds →
      freeRangeEnds userEnd vmas mapped length rounds candidate = true := by
  refine ⟨fun heap some whole => freeVmaRange_least_of word wf heap some whole enough,
    fun refused => if_pos ?_,
    fun candidate above some => freeRangeEnds_of_lt rounds (by omega) some⟩
  rcases refused with zero | low
  · exact .inl zero
  · exact .inr (.inr (.inl low))

theorem freeVmaRange_least_third :
    freeVmaRange 64 0x4000 0x1001 [] (· == 0x2000) 0x4000 0x1000 = some 0x3000 ∧
    FreeAt 0x4000 [] (· == 0x2000) 0x1000 0x3000 := by
  have least : Least _ _ (freeVmaRange 64 0x4000 0x1001 [] (· == 0x2000) 0x4000 0x1000) :=
    (freeVmaRange_least (by decide) (by simp) le_rfl).1 (by decide) (by decide) (by decide)
  have found : freeVmaRange 64 0x4000 0x1001 [] (· == 0x2000) 0x4000 0x1000 =
    some 0x3000 := by decide +kernel
  rw [found] at least
  exact ⟨found, least.2.1⟩

/-- A heap bottom in the first page is refused, and so is an empty range, though addresses are
free. -/
theorem freeVmaRange_refused :
    (∀ rounds, freeVmaRange 64 0x800000000000 0 [] (fun _ => false) rounds 0x1000 = none ∧
      freeVmaRange 64 0x800000000000 0x1000 [] (fun _ => false) rounds 0 = none) ∧
    ∀ length ≤ 0x1000, FreeAt 0x800000000000 [] (fun _ => false) length 0x1000 := by
  refine ⟨fun rounds => ⟨by simp [freeVmaRange, pageSize], by simp [freeVmaRange]⟩,
    fun length small => ?_⟩
  refine ⟨rfl, ?_, by simp, by simp⟩
  omega

end Mecocoa.Memory
