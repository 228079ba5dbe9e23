import Mecocoa.Lib.Patch
import Mecocoa.Memory.Invariant

/-! # Copying a string from a user process

`MccaStrCopyP` copies what is left of a page at a time, or reads eight bytes at a time where it has
no destination.
-/

namespace Mecocoa.Memory

open Lib (patch)

/-- An address space: its bytes, and the pages that are mapped for the user or that a fault would
map. `mmap` and the loader keep them off page 0 and below the end of user space. -/
structure UserSpace (t : Target) where
  mem : Nat → UInt8
  readable : Nat → Bool
  user : ∀ page, readable page = true → 0 < page ∧ page + pageSize ≤ t.maxWord

/-- The user space of a process whose heap begins in the user half and that has not mapped page
0. -/
def UserSpace.ofProcess (leaf : LeafInv t seen s) (space : SpaceInv t s) (p : Nat)
    (heap : (s.procs p).heapbtm ≤ t.userEnd) (null : s.pte p 0 = none) : UserSpace t where
  mem a := (s.pte p (pageFloor a)).elim 0 fun e => s.mem e.frame (a % pageSize)
  readable page := (s.pte p page).any fun e => e.props.present && e.props.userAccess
  user page readable := by
    obtain ⟨e, mapped, -⟩ := Option.any_eq_true .. |>.mp readable
    have aligned := leaf.aligned p page e mapped
    have below : page < t.userEnd := by
      rcases leaf.homed p page e mapped with area | slice
      · obtain ⟨attrs, covered⟩ := Option.ne_none_iff_exists'.mp area
        exact (space.plain p page attrs covered).2
      · exact (space.slicesLow p page slice).trans_le heap
    have top : t.userEnd % pageSize = 0 ∧ t.userEnd ≤ t.maxWord := by
      unfold Target.userEnd Target.maxWord Target.wordBits pageSize
      cases t.arch <;> decide
    have notNull : page ≠ 0 := by
      rintro rfl
      exact absurd (null.symm.trans mapped) (by simp)
    unfold Aligned pageSize at *
    omega

/-- `PrepareUserBuffer` for reading. -/
def prepareUserBuffer (u : UserSpace t) (address length : Nat) : Bool :=
  if address = 0 ∧ length ≠ 0 ∨ t.maxWord - address < length then false
  else if length = 0 then true
  else (pagesFrom (pageFloor address)
    ((pageFloor (address + length - 1) - pageFloor address) / pageSize + 1)).all u.readable

/-- The first NUL of the next `left` bytes. -/
def firstNul (u : UserSpace t) (source : Nat) : Nat → Nat → Option Nat
  | 0, _ => none
  | left + 1, i => if u.mem (source + i) = 0 then some i else firstNul u source left (i + 1)

/-- The loop; the answer is the length of the string. -/
def strCopyFrom (u : UserSpace t) (toDestination : Bool) (capacity source : Nat) :
    Nat → Nat → (Nat → UInt8) → Option Nat × (Nat → UInt8)
  | 0, _, dest => (none, Function.update dest 0 0)
  | rounds + 1, copied, dest =>
    if capacity ≤ copied then (none, Function.update dest 0 0)
    else if t.maxWord - copied < source then (none, dest)
    else
      let room := min (capacity - copied) (pageSize - (source + copied) % pageSize)
      let chunk := if toDestination then room else min room 8
      if !prepareUserBuffer u (source + copied) chunk then (none, Function.update dest 0 0)
      else
        let dest := patch dest copied chunk fun i => u.mem (source + copied + i)
        match firstNul u source chunk copied with
        | some n => (some n, dest)
        | none => strCopyFrom u toDestination capacity source rounds (copied + chunk) dest

/-- `MccaStrCopyP`; without a destination nobody reads `dest`. -/
def mccaStrCopyP (u : UserSpace t) (toDestination toLength : Bool) (capacity source : Nat)
    (dest : Nat → UInt8) : Option Nat × (Nat → UInt8) :=
  let dest := if capacity = 0 then dest else Function.update dest 0 0
  if capacity = 0 ∨ source = 0 ∨ ¬ (toDestination || toLength) then (none, dest)
  else strCopyFrom u toDestination capacity source capacity 0 dest

/-- A byte at a time. -/
def byteCopy (u : UserSpace t) (source : Nat) : Nat → Nat → Option Nat
  | 0, _ => none
  | left + 1, i =>
    if !u.readable (pageFloor (source + i)) then none
    else if u.mem (source + i) = 0 then some i else byteCopy u source left (i + 1)

theorem byteCopy_chunk (u : UserSpace t) (left : Nat)
    (page : ∀ j, i ≤ j → j < i + chunk → u.readable (pageFloor (source + j)) = true) :
    byteCopy u source (chunk + left) i = (firstNul u source chunk i).or
      (byteCopy u source left (i + chunk)) := by
  induction chunk generalizing i with
  | zero => simp [firstNul]
  | succ chunk ih =>
    have rest := @ih (i + 1) fun j low high => page j (by omega) (by omega)
    rw [Nat.add_right_comm, byteCopy, firstNul, page i le_rfl (by omega), rest, show i + 1 + chunk =
      i + (chunk + 1) by omega]
    simp only [Bool.not_true, Bool.false_eq_true, if_false]
    split <;> rfl

theorem firstNul_lt {u : UserSpace t} (found : firstNul u source chunk i = some n) :
    n < i + chunk := by
  induction chunk generalizing i with
  | zero => cases found
  | succ chunk ih =>
    unfold firstNul at found
    split at found
    · cases found
      omega
    · have := ih found
      omega

theorem prepareUserBuffer_page (u : UserSpace t) (some : 0 < length)
    (page : length ≤ pageSize - address % pageSize) :
    prepareUserBuffer u address length = u.readable (pageFloor address) := by
  unfold prepareUserBuffer
  split
  · by_contra readable
    have := u.user (pageFloor address) (by simpa using Ne.symm readable)
    unfold pageFloor pageSize at *
    omega
  · have same : pageFloor (address + length - 1) = pageFloor address := by
      unfold pageFloor pageSize at *
      omega
    rw [if_neg (by omega), same]
    simp [pagesFrom]

/-- The length is answered and the destination holds the string with its NUL, or nothing and it is
empty. -/
def Copies (u : UserSpace t) (capacity source : Nat) (result : Option Nat × (Nat → UInt8)) :
    Option Nat → Prop
  | some n => result.1 = some n ∧ ∀ i ≤ n, result.2 i = u.mem (source + i)
  | none => result.1 = none ∧ (0 < capacity → result.2 0 = 0)

theorem copies_none {u : UserSpace t} :
    Copies u capacity source (none, Function.update dest 0 0) none := by
  simp [Copies]

theorem strCopyFrom_copies (u : UserSpace t) (rounds : Nat) : ∀ {copied dest},
    source + copied ≤ t.maxWord → capacity ≤ copied + rounds →
      (∀ i < copied, dest i = u.mem (source + i)) →
    Copies u capacity source (strCopyFrom u toDestination capacity source rounds copied dest)
      (byteCopy u source (capacity - copied) copied) := by
  induction rounds with
  | zero =>
    intro copied dest _ enough _
    rw [Nat.sub_eq_zero_of_le (by omega)]
    exact copies_none
  | succ rounds ih =>
    intro copied dest word enough same
    unfold strCopyFrom
    split
    · rename_i full
      rw [Nat.sub_eq_zero_of_le full]
      exact copies_none
    rw [if_neg (by omega)]
    dsimp only
    generalize choice : (if toDestination = true then _ else _) = chunk
    have bounds : 0 < chunk ∧ chunk ≤ capacity - copied ∧
        chunk ≤ pageSize - (source + copied) % pageSize := by
      rw [← choice]
      unfold pageSize
      split <;> omega
    rw [prepareUserBuffer_page u bounds.1 bounds.2.2]
    split
    · rename_i unreadable
      rw [show capacity - copied = capacity - copied - 1 + 1 by omega, byteCopy, if_pos unreadable]
      exact copies_none
    rename_i readable
    simp only [Bool.not_eq_true, Bool.not_eq_false'] at readable
    have last := u.user _ readable
    have page : ∀ j, copied ≤ j → j < copied + chunk →
        u.readable (pageFloor (source + j)) = true := by
      intro j low high
      have here : pageFloor (source + j) = pageFloor (source + copied) := by
        unfold pageFloor pageSize at *
        omega
      rwa [here]
    have filled : ∀ i < copied + chunk,
        patch dest copied chunk (fun i => u.mem (source + copied + i)) i = u.mem (source + i) := by
      intro i small
      by_cases old : i < copied
      · rw [Lib.patch_outside (by omega), same i old]
      · rw [Lib.patch_inside (by omega) small, show source + copied + (i - copied) =
          source + i by omega]
    rw [show capacity - copied = chunk + (capacity - (copied + chunk)) by omega,
      byteCopy_chunk u _ page]
    split
    · rename_i n found
      rw [found]
      exact ⟨rfl, fun i small => filled i (small.trans_lt (firstNul_lt found))⟩
    · rename_i none
      rw [none]
      exact ih (by unfold pageFloor pageSize at *; omega) (by omega) filled

/-- Pages, alignment and words never show: the copy does what a copy of one byte after the other
does. -/
theorem mccaStrCopyP_eq_byteCopy (u : UserSpace t) (toDestination toLength : Bool) (capacity : Nat)
    (source : Fin (t.maxWord + 1)) (dest : Nat → UInt8) :
    Copies u capacity source (mccaStrCopyP u toDestination toLength capacity source dest)
      (if toDestination || toLength then byteCopy u source capacity 0 else none) := by
  unfold mccaStrCopyP
  dsimp only
  split
  · rename_i refused
    have nothing : (if toDestination || toLength then byteCopy u source capacity 0 else none) =
        none := by
      obtain rfl | null | none := refused
      · simp [byteCopy]
      · cases capacity with
        | zero => simp [byteCopy]
        | succ capacity =>
          have unmapped := mt (u.user 0) (by omega)
          simp [byteCopy, null, pageFloor, unmapped]
      · rw [if_neg none]
    rw [nothing]
    exact ⟨rfl, fun room => by simp [room.ne']⟩
  · rename_i valid
    push Not at valid
    rw [if_pos valid.2.2]
    exact strCopyFrom_copies u capacity (by omega) (by omega) (by simp)

end Mecocoa.Memory
