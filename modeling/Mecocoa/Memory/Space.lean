import Mecocoa.Memory.Fault

/-! # Changing and releasing an address space

`UnmapVmaRange` plans every page it will release before it touches anything,
writes dirty shared pages back, takes the leaves out and only then edits the
areas; a failure puts the leaves back.  `ProtectVmaRange` checks every leaf
before its first write.
-/

namespace Mecocoa.Memory

/-- What the surroundings answer during one unmap: the arrays of the plan, the copy
of a split file, the flush of each page, each device range, the two page-table
steps of each leaf, and the node for a split area. -/
structure UnmapOutcome where
  plans : Bool
  clone : Bool
  flush : Nat → FlushOutcome
  device : Nat → RegistryOutcome
  decode : Nat → Bool
  unmap : Nat → Bool
  append : Bool

/-- `VmaPageReleasePlan`; identity `0` marks a page of no shared file. -/
structure ReleaseItem where
  address : Nat
  fileOffset : Nat
  sharedIdentity : Nat
  releasePhysical : Bool
  deriving DecidableEq, Repr

def sharedIdentity (v : Vma) : Nat :=
  if v.vmType = .file ∧ v.vmMode = .shared then ((v.vfile.bind (·.fInode)).getD 0) else 0

/-- The plan for the part of one area inside the range. -/
def releaseItems (t : Target) (address endAddr : Nat) (v : Vma) : List ReleaseItem :=
  let first := max address v.vmStart
  (pagesFrom first ((min endAddr v.vmEnd - first) / pageSize)).map fun page =>
    { address := page
      fileOffset := t.wrap (v.fileOffset + (page - v.vmStart))
      sharedIdentity := sharedIdentity v
      releasePhysical := v.vmType != .device }

def deviceRanges (address endAddr : Nat) (vmas : List Vma) : List (Nat × Nat) :=
  (vmas.filter fun v => v.vmType == .device && decide
  (max address v.vmStart < min endAddr v.vmEnd)).map
    fun v => (max address v.vmStart, min endAddr v.vmEnd - max address v.vmStart)

/-- The file area that the range splits in two. -/
def splitFileVma (address endAddr : Nat) (vmas : List Vma) : Option Vma :=
  vmas.find? fun v => decide (v.vmStart < address) && decide (endAddr < v.vmEnd) && v.fileBacked

/-- Write every mapped shared page of the plan back.  Only a forced release goes on
after a page that cannot be written. -/
def flushItems (t : Target) (p : Nat) (force : Bool) (flush : Nat → FlushOutcome) :
    Sys → List ReleaseItem → Bool × Sys
  | s, [] => (true, s)
  | s, item :: items =>
    if item.sharedIdentity = 0 ∨ (s.pte p item.address).isNone then
      flushItems t p force flush s items
    else match flushSharedFilePage t s item.sharedIdentity item.fileOffset (flush item.address) with
      | (flushed, s) => if flushed || force then flushItems t p force flush s items else (false, s)

def clearLeaves (s : Sys) (p first length : Nat) : Sys :=
  s.setProc p { s.procs p with
    paging := fun a => if first ≤ a ∧ a < first + length then none else (s.procs p).paging a }

/-- `Memory::UnmapPages` on the device ranges of the plan, one after another. -/
def unmapDevices (t : Target) (p : Nat) (device : Nat → RegistryOutcome) :
    Sys → List (Nat × Nat) → Bool × Sys
  | s, [] => (true, s)
  | s, (first, length) :: ranges =>
    match unmapPages t s.registry p first length (device first) with
    | (false, _) => (false, s)
    | (true, registry) =>
      unmapDevices t p device (clearLeaves { s with registry } p first length) ranges

/-- Take the planned leaves out of the page table; gives those that were taken. -/
def unmapLeaves (p : Nat) (decode unmap : Nat → Bool) :
    Sys → List ReleaseItem → Bool × Sys × List (ReleaseItem × Pte)
  | s, [] => (true, s, [])
  | s, item :: items =>
    match s.pte p item.address with
    | none => unmapLeaves p decode unmap s items
    | some e =>
      if !item.releasePhysical then unmapLeaves p decode unmap s items
      else if !(decode item.address && unmap item.address) then (false, s, [])
      else
        let (done, s, taken) := unmapLeaves p decode unmap (s.setPte p item.address none) items
        (done, s, (item, e) :: taken)

def restoreLeaves (p : Nat) : Sys → List (ReleaseItem × Pte) → Sys
  | s, [] => s
  | s, (item, e) :: taken =>
    restoreLeaves p (if e.frame = 0 then s else s.setPte p item.address (some e)) taken

def unregisterItems (p : Nat) : Sys → List (ReleaseItem × Pte) → Sys
  | s, [] => s
  | s, (item, _) :: taken =>
    unregisterItems p
      (if item.sharedIdentity = 0 then s
        else (unregisterSharedFileAlias s item.sharedIdentity item.fileOffset p item.address).2)
        taken

def releaseMappings : Sys → List Nat → Sys
  | s, [] => s
  | s, frame :: frames => releaseMappings (releaseManagedPageMapping s frame).2 frames

def unpinMappedExecutableImage (s : Sys) (p ino : Nat) : Sys :=
  { s with pins := s.pins.eraseP fun pin =>
      pin.mappedFile && pin.process == p && pin.inode == ino }

/-- Drop the pins of the inodes that no area maps any more. -/
def unpinReleased (p : Nat) : Sys → List (Option Nat) → Sys
  | s, [] => s
  | s, none :: inodes => unpinReleased p s inodes
  | s, some ino :: inodes =>
    let stillMapped := (s.vmas p).any fun v =>
      v.vmType == .file && (v.vfile.map (·.fInode)) == some (some ino)
    unpinReleased p (if stillMapped then s else unpinMappedExecutableImage s p ino) inodes

/-- The inodes of the file areas that go away whole. -/
def releasedInodes (address endAddr : Nat) (vmas : List Vma) : List (Option Nat) :=
  (vmas.filter fun v => decide (address ≤ v.vmStart) && decide (v.vmEnd ≤ endAddr) &&
  v.fileBacked).map
    fun v => v.vfile.bind (·.fInode)

/-- The locked part of `UnmapVmaRange` and what follows it. -/
def commitUnmap (t : Target) (s : Sys) (p address endAddr : Nat) (splitFile : Option VfsFile)
    (items : List ReleaseItem) (outcome : UnmapOutcome) : Bool × Sys :=
  match unmapLeaves p outcome.decode outcome.unmap s items with
  | (false, s, taken) => (false, restoreLeaves p s taken)
  | (true, s, taken) =>
    let vmas := s.vmas p
    match unmapVmas t address endAddr splitFile outcome.append vmas.length [] vmas with
    | (false, restored) => (false, restoreLeaves p (s.setVmas p restored) taken)
    | (true, edited) =>
      let s := s.setVmas p (mergeAdjacentAnonymousVmas edited)
      let s := unregisterItems p s taken
      let s := releaseMappings s (taken.map (·.2.frame))
      (true, unpinReleased p s (releasedInodes address endAddr vmas))

/-- `UnmapVmaRange`; `force` is `force_vma_release`. -/
def unmapVmaRange (t : Target) (s : Sys) (p address length : Nat) (force : Bool)
    (outcome : UnmapOutcome) : Bool × Sys :=
  if length = 0 ∨ ¬ Aligned address ∨ ¬ Aligned length ∨
    t.maxWord - address < length then (false, s)
  else
    let endAddr := address + length
    let vmas := s.vmas p
    let items := vmas.flatMap (releaseItems t address endAddr)
    let splitVma := splitFileVma address endAddr vmas
    if items ≠ [] ∧ outcome.plans = false then (false, s)
    else if splitVma.isSome ∧ outcome.clone = false then (false, s)
    else match flushItems t p force outcome.flush s items with
      | (false, s) => (false, s)
      | (true, s) =>
        match unmapDevices t p outcome.device s (deviceRanges address endAddr vmas) with
        | (false, s) => (false, s)
        | (true, s) => commitUnmap t s p address endAddr (splitVma.bind (·.vfile)) items outcome

def releaseAllVmas (t : Target) (s : Sys) (p : Nat) (outcome : UnmapOutcome) : Bool × Sys :=
  match s.vmas p with
  | [] => (true, s)
  | v :: rest =>
    let first := rest.foldl (fun low w => min low w.vmStart) v.vmStart
    let last := rest.foldl (fun high w => max high w.vmEnd) v.vmEnd
    if last ≤ first then (false, s) else unmapVmaRange t s p first (last - first) true outcome

/-! ## Protection -/

/-- What the surroundings answer during one protection change. -/
structure ProtectOutcome where
  plan : Bool
  startClone : Bool
  endClone : Bool
  decode : Nat → Bool
  setup : Nat → Bool
  append : Nat → Bool

/-- Properties of a resident leaf under the new protection; write permission is
never added here. -/
def protectProps (flags current : PageProps) : PageProps :=
  { current with
    writable := flags.writable && current.writable
    userAccess := flags.userAccess
    nonexecutable := flags.nonexecutable }

/-- The check of one resident leaf. -/
def preflight (t : Target) (flags : PageProps) (outcome : ProtectOutcome) (a : Nat) :
    Option Pte → Bool
  | none => true
  | some e =>
    outcome.decode a &&
      !(t.cannotDowngrade && (protectProps flags e.props).access != e.props.access) &&
        outcome.setup a

def protectLeaves (s : Sys) (p address endAddr : Nat) (flags : PageProps) : Sys :=
  s.setProc p { s.procs p with
    paging := fun a =>
      if address ≤ a ∧ a < endAddr then
        ((s.procs p).paging a).map fun e => { e with props := protectProps flags e.props }
      else (s.procs p).paging a }

def protectVmaRange (t : Target) (s : Sys) (p address length : Nat) (flags : PageProps)
    (outcome : ProtectOutcome) : Bool × Sys :=
  if length = 0 ∨ ¬ Aligned address ∨ ¬ Aligned length ∨ t.maxWord - address < length ∨
      flags ≠ flags.access ∨ flags.present ≠ flags.userAccess then (false, s)
  else if !outcome.plan then (false, s)
  else
    let endAddr := address + length
    match scanProtected flags address endAddr address (none, none) (s.vmas p) with
    | none => (false, s)
    | some (startFile, endFile) =>
      if (startFile.isSome ∧ outcome.startClone = false) ∨
        (endFile.isSome ∧ outcome.endClone = false)
      then (false, s)
      else if !(pagesFrom address (length / pageSize)).all
          (fun a => preflight t flags outcome a (s.pte p a)) then (false, s)
      else match splitProtectedRange t (s.vmas p) address endAddr startFile endFile
          outcome.append with
        | (false, restored) => (false, s.setVmas p restored)
        | (true, split) =>
          let vmas := mergeAdjacentAnonymousVmas (split.map (protectInside address endAddr flags))
          (true, protectLeaves (s.setVmas p vmas) p address endAddr flags)

/-! ## The end of a process -/

/-- Take the pages of one load slice out and release them. -/
def releaseSlicePages (p : Nat) (unmap : Nat → Bool) : Sys → List Nat → Bool × Sys
  | s, [] => (true, s)
  | s, a :: rest =>
    match s.pte p a with
    | none => releaseSlicePages p unmap s rest
    | some e =>
      if unmap a then
        releaseSlicePages p unmap (releaseManagedPageMapping (s.setPte p a none) e.frame).2 rest
      else
        let (_, s) := releaseSlicePages p unmap s rest
        (false, s)

/-- The pages that `[address, address + length)` meets. -/
def slicePages (slice : Nat × Nat) : List Nat :=
  let first := pageFloor slice.1
  pagesFrom first ((slice.1 + slice.2 + (pageSize - 1) - first) / pageSize)

/-- `ReleaseLoadslices`; a slice that is gone is zeroed. -/
def releaseLoadslices (p : Nat) (unmap : Nat → Bool) :
    Sys → List (Nat × Nat) → List (Nat × Nat) × Sys
  | s, [] => ([], s)
  | s, slice :: slices =>
    if slice.2 = 0 then
      let (kept, s) := releaseLoadslices p unmap s slices
      (slice :: kept, s)
    else
      let (released, s) := releaseSlicePages p unmap s (slicePages slice)
      let (kept, s) := releaseLoadslices p unmap s slices
      ((if released then (0, 0) else slice) :: kept, s)

def unpinExecutableImage (s : Sys) (p : Nat) : Sys :=
  { s with pins := s.pins.filter (·.process != p) }

/-- What the surroundings answer while a process is torn down. -/
structure TeardownOutcome where
  release : UnmapOutcome
  unmapSlice : Nat → Bool

/-- Areas and load slices of a process that goes away; failures are only logged. -/
def releaseSpace (t : Target) (s : Sys) (p : Nat) (outcome : TeardownOutcome) : Sys :=
  let s := (releaseAllVmas t s p outcome.release).2
  let (slices, s) := releaseLoadslices p outcome.unmapSlice s (s.procs p).loadSlices
  s.setProc p { s.procs p with loadSlices := slices }

/-- `ProcessBlock::Release` of the last reference: the page table and the areas go. -/
def destroyProcess (s : Sys) (p : Nat) : Sys :=
  { s.setProc p (.empty .dead) with registry := releasePagingMappings s.registry p }

/-- The memory part of `_Exit_Cleanup`. -/
def exitCleanup (t : Target) (s : Sys) (p : Nat) (outcome : TeardownOutcome) : Sys :=
  destroyProcess (unpinExecutableImage (releaseSpace t s p outcome) p) p

end Mecocoa.Memory
