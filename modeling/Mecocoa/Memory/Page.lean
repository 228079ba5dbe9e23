import Mathlib.Tactic

/-! # Machine words, page addresses and page properties

Addresses are natural numbers below `2 ^ wordBits`.  A sum that the source may
wrap is written with `Target.wrap`; where the source rejects the overflow first,
the sum is the plain one.
-/

namespace Mecocoa.Memory

/-- The targets built with `CONFIG_ENABLE_MMU`. -/
inductive Arch where
  | x8632 | x8664 | riscv32 | riscv64 | aarch64
  deriving DecidableEq, Repr

/-- What the memory manager reads of its build and of the running machine:
`_MCCA`, `Taskman::PCU_CORES` and `uni::PagingNXEnabled()`. -/
structure Target where
  arch : Arch
  cores : Nat
  nxEnabled : Bool
  deriving DecidableEq, Repr

namespace Target

/-- Width of `stduint`. -/
def wordBits (t : Target) : Nat :=
  match t.arch with
  | .x8632 | .riscv32 => 32
  | .x8664 | .riscv64 | .aarch64 => 64

/-- `~_IMM0`. -/
def maxWord (t : Target) : Nat := 2 ^ t.wordBits - 1

/-- The value of an unsigned sum kept in one `stduint`. -/
def wrap (t : Target) (n : Nat) : Nat := n % 2 ^ t.wordBits

/-- First address above the user half. -/
def userEnd (t : Target) : Nat := if t.arch = .x8664 then 0x800000000000 else 0x80000000

/-- Remote TLB invalidation exists only on x86-32, so that other multicore
machines cannot lower the permissions of a live entry. -/
def cannotDowngrade (t : Target) : Bool := t.arch != .x8632 && decide (1 < t.cores)

/-- `defined(_ARC_x86) || defined(_ARC_x64)`. -/
def isX86 (t : Target) : Bool := t.arch == .x8632 || t.arch == .x8664

theorem wordBits_ge (t : Target) : 32 ≤ t.wordBits := by
  unfold wordBits
  cases t.arch <;> decide

theorem pageSize_le_word (t : Target) : 0x1000 ≤ 2 ^ t.wordBits :=
  le_trans (by norm_num) (Nat.pow_le_pow_right (by norm_num : 0 < 2) t.wordBits_ge)

theorem wrap_of_le {t : Target} (fits : n ≤ t.maxWord) : t.wrap n = n := by
  have := t.pageSize_le_word
  unfold wrap
  apply Nat.mod_eq_of_lt
  unfold maxWord at fits
  omega

theorem maxWord_lt (t : Target) : t.maxWord < 2 ^ 64 := by
  unfold maxWord wordBits
  cases t.arch <;> decide

@[simp] theorem wrap_wrap_add (t : Target) (m n : Nat) :
    t.wrap (t.wrap m + n) = t.wrap (m + n) := by
  simp [wrap]

end Target

def pageSize : Nat := 0x1000

/-- `!(n & (PAGE_SIZE - 1))`. -/
def Aligned (n : Nat) : Prop := n % pageSize = 0

instance (n : Nat) : Decidable (Aligned n) := inferInstanceAs (Decidable (n % pageSize = 0))

/-- `address & ~_IMM(PAGE_SIZE - 1)`. -/
def pageFloor (n : Nat) : Nat := n / pageSize * pageSize

/-- Addresses of the `count` pages that start at `start`. -/
def pagesFrom (start count : Nat) : List Nat := (List.range count).map (start + · * pageSize)

theorem Aligned.pageFloor (n : Nat) : Aligned (pageFloor n) := by
  simp [Aligned, Memory.pageFloor]

theorem Aligned.pageFloor_eq (aligned : Aligned n) : Memory.pageFloor n = n := by
  unfold Aligned pageSize at aligned
  unfold Memory.pageFloor pageSize
  omega

theorem Aligned.add (hm : Aligned m) (hn : Aligned n) : Aligned (m + n) := by
  unfold Aligned pageSize at *
  omega

theorem Aligned.sub (hm : Aligned m) (hn : Aligned n) : Aligned (m - n) := by
  unfold Aligned pageSize at *
  omega

theorem Aligned.lt_iff_add_le (hm : Aligned m) (hn : Aligned n) : m < n ↔ m + pageSize ≤ n := by
  unfold Aligned pageSize at *
  omega

theorem mem_pagesFrom :
    a ∈ pagesFrom start count ↔ ∃ i, i < count ∧ a = start + i * pageSize := by
  simp [pagesFrom, eq_comm]

/-- For aligned bounds the pages of a range are its aligned addresses. -/
theorem mem_pagesFrom_range (hlo : Aligned lo) (hhi : Aligned hi) :
    a ∈ pagesFrom lo ((hi - lo) / pageSize) ↔ Aligned a ∧ lo ≤ a ∧ a < hi := by
  rw [mem_pagesFrom]
  unfold Aligned pageSize at *
  constructor
  · rintro ⟨i, small, rfl⟩
    omega
  · rintro ⟨aligned, low, high⟩
    exact ⟨(a - lo) / 0x1000, by omega, by omega⟩

theorem pagesFrom_nodup (start count : Nat) : (pagesFrom start count).Nodup := by
  apply List.Nodup.map _ List.nodup_range
  intro i j same
  simp only [pageSize] at same
  omega

/-- The answer is the least address from `low` on with the property, or there is none. -/
def Least (P : Nat → Prop) (low : Nat) : Option Nat → Prop
  | some a => low ≤ a ∧ P a ∧ ∀ b, low ≤ b → P b → a ≤ b
  | none => ∀ b, low ≤ b → ¬ P b

/-- Addresses that do not have the property may be passed over. -/
theorem Least.skip {answer} (least : Least P next answer) (up : low ≤ next)
    (passed : ∀ b, low ≤ b → P b → next ≤ b) : Least P low answer := by
  cases answer with
  | some a =>
    exact ⟨up.trans least.1, least.2.1,
      fun b above free => least.2.2 b (passed b above free) free⟩
  | none => exact fun b above free => least b (passed b above free) free

/-- Memory types of a leaf, `PGTYPE_*`.  `other` stands for the bit patterns
that name no type. -/
inductive PageType where
  | default | writeback | writethrough | uncacheable | writecombine | device | noncacheable
  | other (bits : Nat)
  deriving DecidableEq, Repr

/-- The property word of a leaf, `PGPROP_*`, with `opts` for its remaining bits. -/
structure PageProps where
  present : Bool := false
  writable : Bool := false
  userAccess : Bool := false
  nonexecutable : Bool := false
  global : Bool := false
  weak : Bool := false
  type : PageType := .default
  opts : Nat := 0
  deriving DecidableEq, Repr

namespace PageProps

/-- The property word with no bit set. -/
def none : PageProps := {}

/-- `p & (PGPROP_present | PGPROP_writable | PGPROP_user_access | PGPROP_nonexecutable)`. -/
def access (p : PageProps) : PageProps :=
  { present := p.present, writable := p.writable, userAccess := p.userAccess, nonexecutable :=
  p.nonexecutable }

/-- `p & ~PGPROP_writable`. -/
def readOnly (p : PageProps) : PageProps := { p with writable := false }

/-- `p | PGPROP_writable`. -/
def withWrite (p : PageProps) : PageProps := { p with writable := true }

@[simp] theorem readOnly_writable (p : PageProps) : p.readOnly.writable = false := rfl

end PageProps

end Mecocoa.Memory
