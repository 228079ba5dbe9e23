import Mecocoa.Lib.Run

/-! # The pool of low pages for DMA

`MempoolLowdma` after `Expand`: which pages belong to the pool stays as it is, and a second
bitmap tells which are used.  No buffer crosses a window of 16 pages.  The spinlock makes each
call one step.
-/

namespace Mecocoa.Memory.LowDma

open List

/-- Pages are counted from `base_phys`, which starts a window. -/
structure Pool where
  base : Nat
  aligned : base % 0x10000 = 0
  pageCount : Nat
  owned : Nat → Bool
  used : Nat → Bool := fun _ => false
  -- What an observer notes: first page and length of the buffers that are handed out.
  live : List (Nat × Nat) := []

def pagesOf (bytes : Nat) : Nat := (bytes + 0xFFF) / 0x1000

def free (s : Pool) (p : Nat) : Bool := s.owned p && !s.used p

/-- The places of a buffer in the windows, in the order of the search. -/
def places (s : Pool) (pages : Nat) : List Nat :=
  (List.range (s.pageCount / 16)).flatMap fun window =>
    (List.range (17 - pages)).map (window * 16 + ·)

def mark (s : Pool) (first pages : Nat) (value : Bool) : Nat → Bool := fun p =>
  if first ≤ p ∧ p < first + pages then value else s.used p

/-- `Allocate`: the first page. -/
def allocate (s : Pool) (bytes : Nat) : Option Nat × Pool :=
  if s.base = 0 ∨ bytes = 0 ∨ 0x10000 < bytes then (none, s)
  else
    match (places s (pagesOf bytes)).find? fun first =>
      (List.range (pagesOf bytes)).all fun j => free s (first + j) with
    | none => (none, s)
    | some first => (some first, { s with
        used := mark s first (pagesOf bytes) true
        live := (first, pagesOf bytes) :: s.live })

def pagesFreed (bytes : Nat) : Nat := if bytes = 0 then 1 else pagesOf bytes

def deallocate (s : Pool) (addr bytes : Nat) : Bool × Pool :=
  let first := (addr - s.base) / 0x1000
  let pages := pagesFreed bytes
  if s.base = 0 ∨ addr < s.base ∨ addr % 0x1000 ≠ 0 ∨ 0x10000 < bytes then (false, s)
  else if s.pageCount ≤ first ∨ s.pageCount - first < pages ∨
    16 < first % 16 + pages then (false, s)
  else if (List.range pages).any fun j =>
    !s.owned (first + j) || !s.used (first + j) then (false, s)
  else (true, { s with
    used := mark s first pages false
    live := s.live.erase (first, pages) })

inductive Call where
  | allocate (bytes : Nat)
  | deallocate (addr bytes : Nat)

def step (s : Pool) : Call → Pool
  | .allocate bytes => (allocate s bytes).2
  | .deallocate addr bytes => (deallocate s addr bytes).2

def Within (buffer : Nat × Nat) (p : Nat) : Prop := buffer.1 ≤ p ∧ p < buffer.1 + buffer.2

/-- The address of a page. -/
def address (s : Pool) (p : Nat) : Nat := s.base + p * 0x1000

/-- The call names the buffer by its address and number of pages. -/
def Names (s : Pool) (addr bytes : Nat) (buffer : Nat × Nat) : Prop :=
  addr = address s buffer.1 ∧ pagesFreed bytes = buffer.2

/-- Pages that are all in use are given back only as they were handed out. -/
def Whole (s : Pool) : Call → Prop
  | .allocate _ => True
  | .deallocate addr bytes =>
    (∀ j < pagesFreed bytes, ∃ buffer ∈ s.live, ∃ p, Within buffer p ∧
      addr + j * 0x1000 = address s p) → ∃ buffer ∈ s.live, Names s addr bytes buffer

/-- A buffer of the pool that stays in its window. -/
structure Placed (s : Pool) (buffer : Nat × Nat) : Prop where
  some : 0 < buffer.2
  inside : buffer.1 + buffer.2 ≤ s.pageCount
  window : buffer.1 % 16 + buffer.2 ≤ 16
  owned : ∀ p, Within buffer p → s.owned p = true

structure Inv (s : Pool) : Prop where
  placed : ∀ buffer ∈ s.live, Placed s buffer
  apart : s.live.Pairwise fun a b => ∀ p, ¬ (Within a p ∧ Within b p)
  used : ∀ p, s.used p = true ↔ ∃ buffer ∈ s.live, Within buffer p

theorem mem_places (some : 0 < pages) :
    first ∈ places s pages ↔ pages ≤ 16 ∧ first / 16 < s.pageCount / 16 ∧
      first % 16 + pages ≤ 16 := by
  simp only [places, mem_flatMap, mem_map, mem_range]
  constructor
  · rintro ⟨window, inside, i, small, rfl⟩
    omega
  · intro ⟨few, inside, window⟩
    exact ⟨first / 16, inside, first % 16, by omega, by omega⟩

theorem Inv.allocate (inv : Inv s) (bytes : Nat) : Inv (allocate s bytes).2 := by
  unfold LowDma.allocate
  split
  · exact inv
  rename_i valid
  split
  · exact inv
  rename_i first found
  have some : 0 < pagesOf bytes := by unfold pagesOf; omega
  obtain ⟨_, inside, window⟩ := (mem_places some).mp (mem_of_find?_eq_some found)
  have clear : ∀ p, Within (first, pagesOf bytes) p → s.owned p = true ∧
      s.used p = false := by
    intro p within
    have all := find?_some found
    simp only [all_eq_true, mem_range, free, Bool.and_eq_true, Bool.not_eq_true'] at all
    have := all (p - first) (by unfold Within at within; omega)
    rwa [Nat.add_sub_cancel' within.1] at this
  refine ⟨?_, pairwise_cons.mpr ⟨fun buffer member p both => ?_, inv.apart⟩, fun p => ?_⟩
  · rintro buffer (_ | ⟨_, member⟩)
    · exact ⟨some, by dsimp only; omega, window, fun p within => (clear p within).1⟩
    · obtain ⟨some, inside, window, owned⟩ := inv.placed buffer member
      exact ⟨some, inside, window, owned⟩
  · have := (inv.used p).mpr ⟨buffer, member, both.2⟩
    simp [(clear p both.1).2] at this
  · simp only [mark]
    rw [exists_mem_cons_iff, ← inv.used p]
    unfold Within
    split <;> simp [*]

/-- A buffer that is given back was handed out, and nothing else is freed. -/
theorem Inv.deallocate (inv : Inv s) (whole : Whole s (.deallocate addr bytes)) :
    Inv (deallocate s addr bytes).2 ∧
      ((∀ buffer ∈ s.live, ¬ Names s addr bytes buffer) →
        deallocate s addr bytes = (false, s)) := by
  unfold LowDma.deallocate
  dsimp only
  split
  · exact ⟨inv, fun _ => rfl⟩
  rename_i ours
  split
  · exact ⟨inv, fun _ => rfl⟩
  split
  · exact ⟨inv, fun _ => rfl⟩
  rename_i taken
  -- The address is that of a page, and the pages from there on are in use.
  have aligned := s.aligned
  have page : addr = address s ((addr - s.base) / 0x1000) := by
    unfold address
    omega
  obtain ⟨buffer, member, named⟩ : ∃ buffer ∈ s.live, Names s addr bytes buffer := by
    apply whole
    intro j inside
    simp only [any_eq_true, mem_range, not_exists, not_and, Bool.or_eq_true, Bool.not_eq_true',
      not_or] at taken
    have := (taken j inside).2
    obtain ⟨buffer, member, within⟩ :=
      (inv.used ((addr - s.base) / 0x1000 + j)).mp (by simpa using this)
    exact ⟨buffer, member, _, within, by unfold address at page ⊢; omega⟩
  refine ⟨?_, fun foreign => absurd named (foreign buffer member)⟩
  obtain rfl : ((addr - s.base) / 0x1000, pagesFreed bytes) = buffer := by
    refine Prod.ext ?_ named.2
    have := named.1
    unfold address at this page
    dsimp only
    omega
  generalize (addr - s.base) / 0x1000 = first, pagesFreed bytes = pages at member
  have perm := perm_cons_erase member
  have apart := (perm.pairwise_iff fun free p both => free p both.symm).mp inv.apart
  obtain ⟨others, apart⟩ := pairwise_cons.mp apart
  refine ⟨fun other there => ?_, apart, fun p => ?_⟩
  · obtain ⟨some, inside, window, owned⟩ := inv.placed other (mem_of_mem_erase there)
    exact ⟨some, inside, window, owned⟩
  · have used := inv.used p
    simp only [perm.mem_iff, exists_mem_cons_iff] at used
    simp only [mark]
    split
    · rename_i within
      simp only [Bool.false_eq_true, false_iff, not_exists, not_and]
      exact fun other there also => others other there p ⟨within, also⟩
    · rename_i outside
      rw [used]
      exact or_iff_right outside

/-- Where pages that are all in use are given back only as they were handed out, buffers are
disjoint parts of the pool within their windows, a call that names no buffer is refused, and no
buffer is refused for which there is a place. -/
theorem low_dma_buffers {owned} {aligned : base % 0x10000 = 0}
    (run : Lib.Run (fun s call s' => Whole s call ∧ step s call = s')
      { base := base, aligned := aligned, pageCount := pageCount, owned := owned } calls s) :
    (∀ buffer ∈ s.live, Placed s buffer) ∧
    (s.live.Pairwise fun a b => ∀ p, ¬ (Within a p ∧ Within b p)) ∧
    (∀ addr bytes, Whole s (.deallocate addr bytes) →
      (∀ buffer ∈ s.live, ¬ Names s addr bytes buffer) →
      deallocate s addr bytes = (false, s)) ∧
    ∀ bytes, s.base ≠ 0 → 0 < bytes → bytes ≤ 0x10000 → (allocate s bytes).1 = none →
      ∀ first, first / 16 < s.pageCount / 16 → first % 16 + pagesOf bytes ≤ 16 →
        ∃ p, Within (first, pagesOf bytes) p ∧
          (s.owned p = false ∨ ∃ buffer ∈ s.live, Within buffer p) := by
  have inv : Inv s := by
    refine run.preserves (P := Inv) (fun s call s' inv step => ?_) ⟨nofun, .nil, by simp⟩
    obtain ⟨whole, rfl⟩ := step
    cases call with
    | allocate bytes => exact inv.allocate bytes
    | deallocate addr bytes => exact (inv.deallocate whole).1
  refine ⟨inv.placed, inv.apart, fun addr bytes whole => (inv.deallocate whole).2, ?_⟩
  intro bytes started positive small refused first inside window
  have some : 0 < pagesOf bytes := by unfold pagesOf; omega
  unfold LowDma.allocate at refused
  rw [if_neg (by omega)] at refused
  split at refused
  · rename_i none
    have := find?_eq_none.mp none first ((mem_places some).mpr ⟨by omega, inside, window⟩)
    simp only [all_eq_true, mem_range, not_forall] at this
    obtain ⟨j, inside, taken⟩ := this
    refine ⟨first + j, ⟨by simp, by simpa using inside⟩, ?_⟩
    rw [← inv.used]
    simpa [free, imp_iff_not_or] using taken
  · cases refused

def small : Pool := { base := 0x10000, aligned := rfl, pageCount := 16, owned := (· < 16) }

/-- Two buffers are handed out, and the page before the pool is not taken back. -/
theorem low_dma_buffers_two :
    Placed ([.allocate 0x2000, .allocate 1].foldl step small) (2, 1) ∧
    (deallocate ([.allocate 0x2000, .allocate 1].foldl step small) 0xF000 0x2000).1 = false := by
  generalize reached : [Call.allocate 0x2000, .allocate 1].foldl step small = s
  have base : s.base = 0x10000 := by rw [← reached]; rfl
  have live : s.live = [(2, 1), (0, 2)] := by rw [← reached]; decide
  have run : Lib.Run (fun s call s' => Whole s call ∧ step s call = s') small
      [.allocate 0x2000, .allocate 1] s :=
    .cons ⟨trivial, rfl⟩ (.cons ⟨trivial, reached⟩ (.nil _))
  have before : ∀ p, 0xF000 ≠ address s p := by
    intro p
    unfold address
    omega
  obtain ⟨placed, -, foreign, -⟩ := low_dma_buffers run
  refine ⟨placed (2, 1) (by simp [live]), ?_⟩
  rw [foreign 0xF000 0x2000 (fun covered => ?_) fun buffer _ named => before _ named.1]
  obtain ⟨buffer, _, p, _, is⟩ := covered 0 (by decide)
  exact absurd is (before p)

/-- Half of a buffer is given back and handed out once more. -/
theorem low_dma_half_freed :
    ([.allocate 0x2000, .deallocate 0x10000 0x1000, .allocate 0x1000].foldl step small).live =
      [(0, 1), (0, 2)] := by
  decide

end Mecocoa.Memory.LowDma
