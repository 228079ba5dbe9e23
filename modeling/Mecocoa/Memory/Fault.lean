import Mecocoa.File.Cache

/-! # Page faults

A missing page of an area is brought in on demand: zeroed for an anonymous area,
from the page cache for a private file area, from the table of shared pages for
a shared one.  File pages are mapped read-only first; a write then either copies
the page (private) or marks it dirty and opens the leaf (shared).
-/

namespace Mecocoa.Memory

inductive VirtualMemoryAccess where
  | read | write | execute
  deriving DecidableEq, Repr

def allowsAccess (props : PageProps) (access : VirtualMemoryAccess) : Bool :=
  props.present && props.userAccess &&
    match access with
    | .read => true
    | .write => props.writable
    | .execute => !props.nonexecutable

def vmaAllowsAccess (v : Vma) (access : VirtualMemoryAccess) : Bool := allowsAccess v.vmFlags access

/-- `PageAllowsAccess`; gives the physical page. -/
def pageAllowsAccess (s : Sys) (p a : Nat) (access : VirtualMemoryAccess) : Option Nat :=
  match s.pte p a with
  | some e => if allowsAccess e.props access then some e.frame else none
  | none => none

/-- What the surroundings answer during one fault. -/
structure FaultOutcome where
  readFile : Bool
  flush : FlushOutcome
  fill : FillOutcome
  page : Option Nat
  adopted : Bool
  aliasNode : Bool
  mapped : Bool
  sharedSetup : Bool
  copyPage : Option Nat
  copied : Bool
  copyAdopted : Bool
  copySetup : Bool

/-- A file page is mapped without write permission. -/
def filePageProps (flags : PageProps) : PageProps := flags.access.readOnly

/-- `AcquireCachedFileMappingPage`.  `some none` is a page wholly beyond the end. -/
def acquireCachedFileMappingPage (t : Target) (s : Sys) (ino fileOffset : Nat)
    (outcome : FillOutcome) : Option (Option Nat) × Sys :=
  if ¬ Aligned fileOffset then (none, s)
  else if (s.inodes ino).iSize ≤ fileOffset then
    if ino = 0 ∨ (s.inodes ino).contentVersion = 0 then (none, s) else (some none, s)
  else match getCachedPage t s ino fileOffset outcome with
    | (.ready frame, s) =>
      match retainManagedPageMapping t s frame with
      | (true, s) => (some (some frame), s)
      | (false, s) => (none, s)
    | (_, s) => (none, s)

/-- A zeroed page that the caller holds one mapping reference of. -/
def zeroPage (s : Sys) (answer : Option Nat) (source : ManagedPageSource) (nodes : Bool) :
    Option Nat × Sys :=
  match allocatePage s answer with
  | (none, s) => (none, s)
  | (some frame, s) =>
    match adoptManagedPage (s.zeroFrame frame) frame source nodes with
    | (false, s) => (none, s)
    | (true, s) => (some frame, s)

/-- Install a leaf for a page whose mapping reference is held, or drop the reference. -/
def installPage (s : Sys) (p a frame : Nat) (props : PageProps) (mapped : Bool) : Bool × Sys :=
  if mapped then (true, s.setPte p a (some ⟨frame, props⟩))
  else (false, (releaseManagedPageMapping s frame).2)

/-- The page for a private file fault: cached, or zeroes beyond the end of the file. -/
def privateFilePage (t : Target) (s : Sys) (ino fileOffset : Nat) (outcome : FaultOutcome) :
    Option Nat × Sys :=
  match acquireCachedFileMappingPage t s ino fileOffset outcome.fill with
  | (none, s) => (none, s)
  | (some (some frame), s) => (some frame, s)
  | (some none, s) => zeroPage s outcome.page .file outcome.adopted

def mapCachedFileVmaPage (t : Target) (s : Sys) (p a : Nat) (access : VirtualMemoryAccess)
    (flags : PageProps) (ino fileOffset : Nat) (outcome : FaultOutcome) : Option Nat × Sys :=
  match flushSharedFilePage t s ino fileOffset outcome.flush with
  | (false, s) => (none, s)
  | (true, s) =>
    match privateFilePage t s ino fileOffset outcome with
    | (none, s) => (none, s)
    | (some frame, s) =>
      match installPage s p a frame (filePageProps flags) outcome.mapped with
      | (false, s) => (none, s)
      | (true, s) => (if access = .write then none else some frame, s)

def acquireSharedFileMappingPage (t : Target) (s : Sys) (ino fileOffset : Nat)
    (outcome : FillOutcome) : Option Nat × Sys :=
  if ¬ Aligned fileOffset then (none, s)
  else match getSharedFilePage t s ino fileOffset outcome with
    | (none, s) => (none, s)
    | (some frame, s) =>
      match retainManagedPageMapping t s frame with
      | (true, s) => (some frame, s)
      | (false, s) => (none, s)

/-- The area still is the shared file area that the fault was taken for. -/
def sharedVmaExpected (s : Sys) (p a : Nat) (flags : PageProps) (ino fileOffset : Nat) : Bool :=
  match vmaAt (s.vmas p) a with
  | none => false
  | some v =>
    v.vmType == .file && v.vmMode == .shared && v.vmFlags == flags &&
      (match v.vfile with
        | some file => file.fInode == some ino
        | none => false) &&
      (v.fileOffset + (a - v.vmStart)) % 2 ^ 64 == fileOffset

/-- A leaf that is there already serves the access if it maps the same page. -/
def residentSharedPage (s : Sys) (p a frame : Nat) (access : VirtualMemoryAccess) : Option Nat :=
  match s.pte p a with
  | none => none
  | some e =>
    if e.frame == frame && (access != .write || e.props.writable) &&
        (access != .execute || !e.props.nonexecutable) then some e.frame
    else none

def mapSharedFileVmaPage (t : Target) (s : Sys) (p a : Nat) (access : VirtualMemoryAccess)
    (flags : PageProps) (fileOffset ino : Nat) (outcome : FaultOutcome) : Option Nat × Sys :=
  match acquireSharedFileMappingPage t s ino fileOffset outcome.fill with
  | (none, s) => (none, s)
  | (some frame, s) =>
    if outcome.aliasNode && sharedVmaExpected s p a flags ino fileOffset then
      if (s.pte p a).isSome then
        (residentSharedPage s p a frame access, (releaseManagedPageMapping s frame).2)
      else match installPage s p a frame (filePageProps flags) outcome.mapped with
        | (false, s) => (none, s)
        | (true, s) =>
          (if access = .write then none else some frame, updateSharedPage s ino fileOffset fun pg =>
              { pg with aliases := (p, a) :: pg.aliases })
    else (none, (releaseManagedPageMapping s frame).2)

/-- `EnsureVmaPage` on a page address. -/
def ensureVmaPage (t : Target) (s : Sys) (p a : Nat) (access : VirtualMemoryAccess)
    (outcome : FaultOutcome) : Option Nat × Sys :=
  match vmaAt (s.vmas p) a with
  | none => (none, s)
  | some v =>
    if v.vmType = .device ∨ vmaAllowsAccess v access = false then (none, s)
    else if (s.pte p a).isSome then (pageAllowsAccess s p a access, s)
    else match v.vmType with
      | .file =>
        match v.vfile with
        | none => (none, s)
        | some file =>
          let fileOffset := t.wrap (v.fileOffset + (a - v.vmStart))
          if !outcome.readFile then (none, s)
          else match file.fInode, v.vmMode with
            | none, _ => (none, s)
            | some ino, .priv =>
              mapCachedFileVmaPage t s p a access v.vmFlags ino fileOffset outcome
            | some ino, .shared =>
              mapSharedFileVmaPage t s p a access v.vmFlags fileOffset ino outcome
      | _ =>
        match zeroPage s outcome.page .anonymous outcome.adopted with
        | (none, s) => (none, s)
        | (some frame, s) =>
          match installPage s p a frame v.vmFlags.access outcome.mapped with
          | (false, s) => (none, s)
          | (true, s) => (some frame, s)

/-- `ReadPrivateCowPage`: a read-only user leaf in a writable private area. -/
def readPrivateCowPage (s : Sys) (p a : Nat) : Option (Pte × VmaType) :=
  match vmaAt (s.vmas p) a with
  | none => none
  | some v =>
    if v.vmMode ≠ .priv ∨ v.vmType = .device ∨ vmaAllowsAccess v .write = false then none
    else match s.pte p a with
      | none => none
      | some e =>
        if e.props.present && e.props.userAccess && !e.props.writable then some (e, v.vmType)
        else none

/-- The page may be in an area of the type. -/
def cowSourceFits (type : VmaType) (source : ManagedPageSource) : Bool :=
  match type with
  | .anonymous => source == .anonymous
  | .file => source == .file || source == .anonymous
  | .device => true

/-- Copy the page for this leaf alone; the old page loses one mapping. -/
def copyPrivatePage (s : Sys) (p a : Nat) (old : Pte) (outcome : FaultOutcome) :
    Option Nat × Sys :=
  match allocatePage s outcome.copyPage with
  | (none, s) => (none, s)
  | (some frame, s) =>
    if !outcome.copied then (none, deallocatePage s frame)
    else match adoptManagedPage (s.copyToFrame frame 0 pageSize (s.mem old.frame)) frame .anonymous
        outcome.copyAdopted with
      | (false, s) => (none, s)
      | (true, s) =>
        if !outcome.copySetup then (none, (releaseManagedPageMapping s frame).2)
        else
          let s := s.setPte p a (some ⟨frame, old.props.withWrite⟩)
          (some frame, (releaseManagedPageMapping s old.frame).2)

def resolvePrivateCowPage (s : Sys) (p a : Nat) (outcome : FaultOutcome) : Option Nat × Sys :=
  match readPrivateCowPage s p a with
  | none => (none, s)
  | some (old, type) =>
    match s.managed old.frame with
    | none => (none, s)
    | some page =>
      if cowSourceFits type page.source = false ∨ page.mappingRefs = 0 then (none, s)
      else if page.source = .anonymous ∧ page.mappingRefs = 1 ∧ page.cacheRefs = 0 then
        if !outcome.copySetup then (none, s)
        else (some old.frame, s.setPte p a (some ⟨old.frame, old.props.withWrite⟩))
      else copyPrivatePage s p a old outcome

def executableFilePinned (s : Sys) (ino : Nat) : Bool := s.pins.any (·.inode == ino)

/-- The file page under a writable shared area. -/
def sharedWriteKey (s : Sys) (p a : Nat) : Option (Nat × Nat) :=
  match vmaAt (s.vmas p) a with
  | none => none
  | some v =>
    if v.vmType = .file ∧ v.vmMode = .shared ∧ v.vmFlags.writable then
      match v.vfile with
      | none => none
      | some file => file.fInode.map fun ino => (ino, (v.fileOffset + (a - v.vmStart)) % 2 ^ 64)
    else none

def resolveSharedFileWrite (s : Sys) (p a : Nat) (setup : Bool) : Option Nat × Sys :=
  match sharedWriteKey s p a with
  | none => (none, s)
  | some (ino, fileOffset) =>
    match findSharedPage s ino fileOffset with
    | none => (none, s)
    | some pg =>
      if executableFilePinned s ino ∨ (s.inodes ino).iSize ≤ fileOffset ∨
          pg.aliases.contains (p, a) = false then (none, s)
      else match aliasPageMatches s pg p a with
        | none => (none, s)
        | some props =>
          if props.writable || !setup then (none, s)
          else (some pg.physicalAddress, (updateSharedPage s ino fileOffset fun pg =>
              { pg with dirty := true, dirtyInode := some ino }).setPte p a
                (some ⟨pg.physicalAddress, props.withWrite⟩))

def resolveVmaFault (t : Target) (s : Sys) (p address : Nat) (access : VirtualMemoryAccess)
    (protectionFault : Bool) (outcome : FaultOutcome) : Option Nat × Sys :=
  let a := pageFloor address
  let (physical, s) := if protectionFault then (none, s) else ensureVmaPage t s p a access outcome
  if physical.isSome ∨ access ≠ .write then (physical, s)
  else match resolveSharedFileWrite s p a outcome.sharedSetup with
    | (some frame, s) => (some frame, s)
    | (none, s) => resolvePrivateCowPage s p a outcome

end Mecocoa.Memory
