import Mecocoa.Memory.PhysicalMapping
import Mecocoa.Memory.Vma
import Mathlib.Logic.Function.Basic

/-! # The state that processes, page tables and the file cache share

A page table is the set of its leaves; the paging library is taken to store and
return the leaves it is given.  Physical pages carry their bytes.  Both caches
are lists in the order in which the source walks its buckets.

The allocator numbers its page allocations and keeps the numbers of the pages
it got back, so that a page returned twice would show.
-/

namespace Mecocoa.Memory

open Function (update)

structure Pte where
  frame : Nat
  props : PageProps
  deriving DecidableEq, Repr

/-- A user access through the leaf is let through by the hardware. -/
def Pte.userWritable (e : Pte) : Bool := e.props.present && e.props.userAccess && e.props.writable

inductive ManagedPageSource where
  | anonymous | file | elf
  deriving DecidableEq, Repr

structure ManagedPage where
  source : ManagedPageSource
  mappingRefs : Nat
  cacheRefs : Nat
  deriving DecidableEq, Repr

structure Pool where
  owned : Nat → Bool
  serial : Nat → Nat
  next : Nat
  returned : List Nat

structure Inode where
  contentVersion : Nat
  iSize : Nat
  regular : Bool
  filesystem : Bool
  backend : Nat → UInt8

structure FileCacheEntry where
  identity : Nat
  contentVersion : Nat
  fileOffset : Nat
  physicalAddress : Nat
  deriving DecidableEq, Repr

structure SharedFilePage where
  identity : Nat
  fileOffset : Nat
  physicalAddress : Nat
  dirty : Bool := false
  dirtyInode : Option Nat := none
  aliases : List (Nat × Nat) := []
  deriving DecidableEq, Repr

/-- `building` is the child of a fork before `Taskman::Append`. -/
inductive Life where
  | unborn | building | live | dead
  deriving DecidableEq, Repr

structure Proc where
  life : Life
  vmas : List Vma
  paging : Nat → Option Pte
  loadSlices : List (Nat × Nat)
  files : List (Option VfsFile)
  heapbtm : Nat

def Proc.empty (life : Life) : Proc where
  life := life
  vmas := []
  paging := fun _ => none
  loadSlices := []
  files := []
  heapbtm := 0

structure ExecutableImagePin where
  process : Nat
  inode : Nat
  mappedFile : Bool
  deriving DecidableEq, Repr

structure Sys where
  procs : Nat → Proc
  managed : Nat → Option ManagedPage
  pool : Pool
  mem : Nat → Nat → UInt8
  cache : List FileCacheEntry
  shared : List SharedFilePage
  inodes : Nat → Inode
  pins : List ExecutableImagePin
  registry : List PhysicalMappingRecord

namespace Sys

/-- A machine with files but no process, no page and no cached data. -/
def boot (inodes : Nat → Inode) : Sys where
  procs := fun _ => .empty .unborn
  managed := fun _ => none
  pool := ⟨fun _ => false, fun _ => 0, 0, []⟩
  mem := fun _ _ => 0
  cache := []
  shared := []
  inodes := inodes
  pins := []
  registry := []

def pte (s : Sys) (p a : Nat) : Option Pte := (s.procs p).paging a

def vmas (s : Sys) (p : Nat) : List Vma := (s.procs p).vmas

def setProc (s : Sys) (p : Nat) (proc : Proc) : Sys :=
  { s with procs := update s.procs p proc }

def setPte (s : Sys) (p a : Nat) (e : Option Pte) : Sys :=
  s.setProc p { s.procs p with paging := update (s.procs p).paging a e }

def setVmas (s : Sys) (p : Nat) (vmas : List Vma) : Sys :=
  s.setProc p { s.procs p with vmas }

def setInode (s : Sys) (ino : Nat) (inode : Inode) : Sys :=
  { s with inodes := update s.inodes ino inode }

def setManaged (s : Sys) (frame : Nat) (page : Option ManagedPage) : Sys :=
  { s with managed := update s.managed frame page }

/-- Overwrite bytes `[first, first + bytes.length)` of a physical page. -/
def copyToFrame (s : Sys) (frame first length : Nat) (bytes : Nat → UInt8) : Sys :=
  { s with mem := update s.mem frame fun i =>
      if first ≤ i ∧ i < first + length then bytes (i - first) else s.mem frame i }

def zeroFrame (s : Sys) (frame : Nat) : Sys := s.copyToFrame frame 0 pageSize fun _ => 0

theorem pte_setPte (s : Sys) (p a : Nat) (e : Option Pte) (q b : Nat) :
    (s.setPte p a e).pte q b = if q = p ∧ b = a then e else s.pte q b := by
  unfold setPte setProc pte
  by_cases sameProc : q = p
  · subst sameProc
    by_cases sameAddr : b = a
    · subst sameAddr
      simp
    · simp [sameAddr]
  · simp [sameProc]

@[simp] theorem vmas_setPte (s : Sys) (p a : Nat) (e : Option Pte) (q : Nat) :
    (s.setPte p a e).vmas q = s.vmas q := by
  unfold setPte setProc vmas
  by_cases same : q = p
  · subst same
    simp
  · simp [same]

@[simp] theorem pte_setVmas (s : Sys) (p : Nat) (vmas : List Vma) (q a : Nat) :
    (s.setVmas p vmas).pte q a = s.pte q a := by
  unfold setVmas setProc pte
  by_cases same : q = p
  · subst same
    simp
  · simp [same]

theorem vmas_setVmas (s : Sys) (p : Nat) (vmas : List Vma) (q : Nat) :
    (s.setVmas p vmas).vmas q = if q = p then vmas else s.vmas q := by
  unfold setVmas setProc Sys.vmas
  by_cases same : q = p
  · subst same
    simp
  · simp [same]

theorem setPte_setPte (s : Sys) (p a : Nat) (e e' : Option Pte) :
    (s.setPte p a e).setPte p a e' = s.setPte p a e' := by
  simp [setPte, setProc]

theorem setPte_self {s : Sys} (here : s.pte p a = e) : s.setPte p a e = s := by
  subst here
  simp [setPte, setProc, pte]

theorem setPte_comm (s : Sys) (p : Nat) (e e' : Option Pte) (apart : a ≠ b) :
    (s.setPte p a e).setPte p b e' = (s.setPte p b e').setPte p a e := by
  simp [setPte, setProc, Function.update_comm apart]

theorem setVmas_self (s : Sys) (p : Nat) : s.setVmas p (s.vmas p) = s := by
  simp [setVmas, setProc, vmas]

end Sys

theorem vmas_setProc_same {s : Sys} (proc : Proc) (vmas : proc.vmas = (s.procs p).vmas) (q : Nat) :
    (s.setProc p proc).vmas q = s.vmas q := by
  unfold Sys.setProc Sys.vmas
  by_cases same : q = p
  · subst same
    simp [vmas]
  · simp [same]

/-- A call with a known result, its state left as it is. -/
theorem returned {α β : Type} {call : α × β} {result : α} (same : call.1 = result) :
    call = (result, call.2) :=
  Prod.ext same rfl

/-! ## Managed pages -/

/-- `mempool.allocate(PAGE_SIZE, 12)`.  An answer that no correct allocator gives,
such as a page still handed out, counts as a failure. -/
def allocatePage (s : Sys) (answer : Option Nat) : Option Nat × Sys :=
  match answer with
  | none => (none, s)
  | some frame =>
    if frame = 0 ∨ ¬ Aligned frame ∨ s.pool.owned frame then (none, s)
    else (some frame, { s with pool :=
      { s.pool with
        owned := update s.pool.owned frame true
        serial := update s.pool.serial frame s.pool.next
        next := s.pool.next + 1 } })

def deallocatePage (s : Sys) (frame : Nat) : Sys :=
  { s with pool :=
    { s.pool with
      owned := update s.pool.owned frame false
      returned := s.pool.serial frame :: s.pool.returned } }

/-- `Memory::AdoptManagedPage`; `nodes` tells whether its own allocations succeed.
The page goes back to the allocator with the owner that could not be kept. -/
def adoptManagedPage (s : Sys) (frame : Nat) (source : ManagedPageSource) (nodes : Bool) :
    Bool × Sys :=
  if !nodes then (false, deallocatePage s frame)
  else match s.managed frame with
    | some _ => (false, s)
    | none => (true, s.setManaged frame (some ⟨source, 1, 0⟩))

def retainManagedPageMapping (t : Target) (s : Sys) (frame : Nat) : Bool × Sys :=
  match s.managed frame with
  | none => (false, s)
  | some page =>
    if page.mappingRefs = t.maxWord then (false, s)
    else (true, s.setManaged frame (some { page with mappingRefs := page.mappingRefs + 1 }))

def retainManagedPageCache (t : Target) (s : Sys) (frame : Nat) : Bool × Sys :=
  match s.managed frame with
  | none => (false, s)
  | some page =>
    if page.cacheRefs = t.maxWord then (false, s)
    else (true, s.setManaged frame (some { page with cacheRefs := page.cacheRefs + 1 }))

/-- The end of `ReleaseManagedPageReference`: the page goes when nobody refers to it. -/
def dropManagedPage (s : Sys) (frame : Nat) (page : ManagedPage) : Sys :=
  if page.mappingRefs = 0 ∧ page.cacheRefs = 0 then deallocatePage (s.setManaged frame none) frame
  else s.setManaged frame (some page)

def releaseManagedPageMapping (s : Sys) (frame : Nat) : Bool × Sys :=
  match s.managed frame with
  | none => (false, s)
  | some page =>
    if page.mappingRefs = 0 then (false, s)
    else (true, dropManagedPage s frame { page with mappingRefs := page.mappingRefs - 1 })

def releaseManagedPageCache (s : Sys) (frame : Nat) : Bool × Sys :=
  match s.managed frame with
  | none => (false, s)
  | some page =>
    if page.cacheRefs = 0 then (false, s)
    else (true, dropManagedPage s frame { page with cacheRefs := page.cacheRefs - 1 })

end Mecocoa.Memory
