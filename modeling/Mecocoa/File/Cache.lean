import Mecocoa.Memory.State

/-! # The page cache of regular files

Two tables keep file data in physical pages.  `FileCacheTable` holds clean
copies, keyed by the content version they were read at.  `SharedFilePageTable`
holds the one page per file offset that all shared mappings of it use, with its
dirty state and the page-table aliases that may write to it.

A call runs to its end before the next one starts, so that an entry is never
seen while it loads, and what the source checks again after a lock was dropped
still holds.
-/

namespace Mecocoa.Memory

/-- Bound on the records each table keeps. -/
def retainedPageLimit : Nat := 1024

def cacheBucket (e : FileCacheEntry) : Nat :=
  let page := e.fileOffset / pageSize
  (e.identity ^^^ (e.identity >>> 32) ^^^ e.contentVersion ^^^ (e.contentVersion >>> 32) ^^^
    page ^^^ (page >>> 32)) % 256

def sharedBucket (pg : SharedFilePage) : Nat :=
  let page := pg.fileOffset / pageSize
  (pg.identity ^^^ (pg.identity >>> 32) ^^^ page ^^^ (page >>> 32)) % 256

/-- A new record goes to the end of its bucket. -/
def insertRecord {α : Type} (bucket : α → Nat) (records : List α) (new : α) : List α :=
  records.takeWhile (fun r => decide (bucket r ≤ bucket new)) ++
    new :: records.dropWhile (fun r => decide (bucket r ≤ bucket new))

/-- Take the first `limit` records that are inactive out of a table. -/
def detachInactive {α : Type} (inactive : α → Bool) : Nat → List α → List α × List α
  | _, [] => ([], [])
  | 0, records => (records, [])
  | limit + 1, r :: records =>
    if inactive r then
      let (kept, removed) := detachInactive inactive limit records
      (kept, r :: removed)
    else
      let (kept, removed) := detachInactive inactive (limit + 1) records
      (r :: kept, removed)

/-- Nothing but its own table refers to the page. -/
def onlyCached (s : Sys) (frame : Nat) : Bool :=
  match s.managed frame with
  | some page => page.mappingRefs == 0 && page.cacheRefs == 1
  | none => false

/-- Destroying a record gives its cache reference back. -/
def releaseCaches (s : Sys) : List Nat → Sys
  | [] => s
  | frame :: frames => releaseCaches (releaseManagedPageCache s frame).2 frames

def detachInactiveReadyPages (s : Sys) (limit : Nat) : Nat × Sys :=
  let (kept, removed) := detachInactive (fun e => onlyCached s e.physicalAddress) limit s.cache
  (removed.length, releaseCaches { s with cache := kept } (removed.map (·.physicalAddress)))

def detachInactiveSharedPages (s : Sys) (limit : Nat) : Nat × Sys :=
  let (kept, removed) := detachInactive
    (fun pg => !pg.dirty && pg.aliases.isEmpty && onlyCached s pg.physicalAddress) limit s.shared
  (removed.length, releaseCaches { s with shared := kept } (removed.map (·.physicalAddress)))

def invalidateVersions (s : Sys) (identity currentVersion : Nat) : Sys :=
  if identity = 0 then s
  else
    let stale : FileCacheEntry → Bool := fun e =>
      e.identity == identity && e.contentVersion != currentVersion
    releaseCaches { s with cache := s.cache.filter (!stale ·) }
      ((s.cache.filter stale).map (·.physicalAddress))

/-- `AdvanceContentVersion`, with the assertion against wrapping only logged. -/
def advanceContentVersion (s : Sys) (ino : Nat) : Sys :=
  let inode := s.inodes ino
  let version := (inode.contentVersion + 1) % 2 ^ 64
  invalidateVersions (s.setInode ino { inode with contentVersion := version }) ino version

/-! ## Filling a page -/

/-- What the surroundings answer while a page is filled: memory for the record, a
page at the first and the second try, the backend's read, memory to manage it. -/
structure FillOutcome where
  record : Bool
  page : Option Nat
  retryPage : Option Nat
  read : Bool
  adopted : Bool

/-- A zeroed page that holds the file from `fileOffset` to its end, owned by the caller. -/
def fillPage (s : Sys) (frame ino fileOffset length : Nat) : Sys :=
  (s.zeroFrame frame).copyToFrame frame 0 length fun i => (s.inodes ino).backend (fileOffset + i)

/-- Hand a filled page over to a cache: it keeps a cache reference only. -/
def publishPage (t : Target) (s : Sys) (frame : Nat) (nodes : Bool) : Bool × Sys :=
  match adoptManagedPage s frame .file nodes with
  | (false, s) => (false, s)
  | (true, s) =>
    match retainManagedPageCache t s frame with
    | (false, s) => (false, (releaseManagedPageMapping s frame).2)
    | (true, s) =>
      match releaseManagedPageMapping s frame with
      | (false, s) => (false, (releaseManagedPageCache s frame).2)
      | (true, s) => (true, s)

inductive FileCachePageResult where
  | ready (frame : Nat)
  | retry
  | error
  deriving DecidableEq, Repr

/-- An allocation that reclaims one inactive page and tries once more. -/
def allocateOrReclaim (reclaim : Sys → Nat × Sys) (s : Sys) (outcome : FillOutcome) :
    Option Nat × Sys :=
  match allocatePage s outcome.page with
  | (some frame, s) => (some frame, s)
  | (none, s) =>
    match reclaim s with
    | (0, s) => (none, s)
    | (_ + 1, s) => allocatePage s outcome.retryPage

/-- `GetCachedPage` at the key of the current content version. -/
def getCachedPage (t : Target) (s : Sys) (ino fileOffset : Nat) (outcome : FillOutcome) :
    FileCachePageResult × Sys :=
  let version := (s.inodes ino).contentVersion
  if ino = 0 ∨ version = 0 ∨ ¬ Aligned fileOffset then (.error, s)
  else match s.cache.find? (fun e => e.identity == ino && e.contentVersion == version &&
      e.fileOffset == fileOffset) with
  | some e => (.ready e.physicalAddress, s)
  | none =>
    if !outcome.record then (.error, s)
    else
      let s := (detachInactiveReadyPages s (s.cache.length + 1 - retainedPageLimit)).2
      match allocateOrReclaim (detachInactiveReadyPages · 1) s outcome with
      | (none, s) => (.error, s)
      | (some frame, s) =>
        let s := s.zeroFrame frame
        let inode := s.inodes ino
        if inode.iSize ≤ fileOffset then (.retry, deallocatePage s frame)
        else if !(inode.filesystem && outcome.read) then (.error, deallocatePage s frame)
        else
          let s := fillPage s frame ino fileOffset (min pageSize (inode.iSize - fileOffset))
          match publishPage t s frame outcome.adopted with
          | (false, s) => (.error, s)
          | (true, s) =>
            let trimmed := (detachInactiveReadyPages s (s.cache.length + 1 - retainedPageLimit)).2
            (.ready frame, { trimmed with
              cache :=
              insertRecord cacheBucket trimmed.cache ⟨ino, version, fileOffset, frame⟩ })

/-- `FindReady`. -/
def findSharedPage (s : Sys) (identity fileOffset : Nat) : Option SharedFilePage :=
  if identity = 0 ∨ ¬ Aligned fileOffset then none
  else s.shared.find? fun pg => pg.identity == identity && pg.fileOffset == fileOffset

/-- `GetSharedFilePage`; gives the physical page. -/
def getSharedFilePage (t : Target) (s : Sys) (ino fileOffset : Nat) (outcome : FillOutcome) :
    Option Nat × Sys :=
  if ino = 0 ∨ ¬ Aligned fileOffset then (none, s)
  else match findSharedPage s ino fileOffset with
  | some pg => (some pg.physicalAddress, s)
  | none =>
    if !outcome.record then (none, s)
    else
      let s := (detachInactiveSharedPages s (s.shared.length + 1 - retainedPageLimit)).2
      match allocateOrReclaim (detachInactiveSharedPages · 1) s outcome with
      | (none, s) => (none, s)
      | (some frame, s) =>
        let s := s.zeroFrame frame
        let inode := s.inodes ino
        let length := if fileOffset < inode.iSize then min pageSize (inode.iSize - fileOffset)
          else 0
        if !(length == 0 || (inode.filesystem && outcome.read)) then (none, deallocatePage s frame)
        else
          let s := fillPage s frame ino fileOffset length
          match publishPage t s frame outcome.adopted with
          | (false, s) => (none, s)
          | (true, s) => (some frame, { s with
              shared := insertRecord sharedBucket s.shared
                { identity := ino, fileOffset, physicalAddress := frame } })

/-! ## Aliases of a shared page -/

def updateSharedPage (s : Sys) (identity fileOffset : Nat) (f : SharedFilePage → SharedFilePage) :
    Sys :=
  { s with shared := s.shared.map fun pg =>
      if pg.identity = identity ∧ pg.fileOffset = fileOffset then f pg else pg }

/-- The area over the alias maps this very page of the file, shared. -/
def aliasVmaMatches (s : Sys) (pg : SharedFilePage) (p a : Nat) : Bool :=
  match vmaAt (s.vmas p) a with
  | none => false
  | some v =>
    v.vmType == .file && v.vmMode == .shared &&
      (match v.vfile with
        | some file => file.fInode == some pg.identity
        | none => false) &&
      (v.fileOffset + (a - v.vmStart)) % 2 ^ 64 == pg.fileOffset

/-- `AliasPageMatches`; gives the properties of the leaf. -/
def aliasPageMatches (s : Sys) (pg : SharedFilePage) (p a : Nat) : Option PageProps :=
  if !aliasVmaMatches s pg p a then none
  else match s.pte p a with
    | none => none
    | some e =>
      if e.props.present && e.props.userAccess && e.frame == pg.physicalAddress then some e.props
      else none

/-- The loop of `ProtectSharedFileAliases`; `setup` answers `SetupAsLeaf`. -/
def protectAliases (t : Target) (setup : Nat → Nat → Bool) (pg : SharedFilePage) :
    Sys → List (Nat × Nat) → Bool × Sys
  | s, [] => (true, s)
  | s, (p, a) :: aliases =>
    match aliasPageMatches s pg p a with
    | none => (false, s)
    | some props =>
      if props.writable then
        if t.cannotDowngrade || !setup p a then (false, s)
        else protectAliases t setup pg
          (s.setPte p a (some ⟨pg.physicalAddress, props.readOnly⟩)) aliases
      else protectAliases t setup pg s aliases

def protectSharedFileAliases (t : Target) (setup : Nat → Nat → Bool) (s : Sys)
    (pg : SharedFilePage) : Bool × Sys :=
  protectAliases t setup pg s pg.aliases

/-- `RegisterSharedFileAlias`; `node` tells whether the alias could be allocated. -/
def registerSharedFileAlias (s : Sys) (ino fileOffset p a frame : Nat) (node : Bool) :
    Bool × Sys :=
  if ¬ Aligned a then (false, s)
  else match findSharedPage s ino fileOffset with
  | none => (false, s)
  | some pg =>
    if pg.physicalAddress ≠ frame ∨ node = false then (false, s)
    else match aliasPageMatches s pg p a with
      | none => (false, s)
      | some props =>
        if props.writable || pg.aliases.contains (p, a) then (false, s)
        else (true, updateSharedPage s ino fileOffset fun pg =>
          { pg with aliases := (p, a) :: pg.aliases })

def unregisterSharedFileAlias (s : Sys) (identity fileOffset p a : Nat) : Bool × Sys :=
  match findSharedPage s identity fileOffset with
  | none => (false, s)
  | some pg => (pg.aliases.contains (p, a), updateSharedPage s identity fileOffset fun pg =>
    { pg with aliases := pg.aliases.erase (p, a) })

/-! ## Writing back -/

/-- What the surroundings answer during a flush: each `SetupAsLeaf`, and how many
bytes the backend accepts. -/
structure FlushOutcome where
  setup : Nat → Nat → Bool
  written : Nat

def Inode.write (inode : Inode) (offset length : Nat) (bytes : Nat → UInt8) : Inode :=
  { inode with backend := fun i =>
      if offset ≤ i ∧ i < offset + length then bytes (i - offset) else inode.backend i }

/-- Hand the bytes of a page whose aliases are protected to the backend. -/
def writeBackPage (s : Sys) (pg : SharedFilePage) (accepted : Nat) : Bool × Sys :=
  let inode := s.inodes pg.identity
  if inode.iSize ≤ pg.fileOffset ∨ inode.filesystem = false then (false, s)
  else
    let length := min pageSize (inode.iSize - pg.fileOffset)
    let written := min accepted length
    let s := s.setInode pg.identity (inode.write pg.fileOffset written (s.mem pg.physicalAddress))
    let s := if written = 0 then s else advanceContentVersion s pg.identity
    if written ≠ length then (false, s)
    else (true, updateSharedPage s pg.identity pg.fileOffset fun pg =>
      { pg with dirty := false, dirtyInode := none })

/-- `FlushSharedFilePageWithCopyLock`. -/
def flushSharedFilePage (t : Target) (s : Sys) (identity fileOffset : Nat)
    (outcome : FlushOutcome) : Bool × Sys :=
  match findSharedPage s identity fileOffset with
  | none => (true, s)
  | some pg =>
    if !pg.dirty then (true, s)
    else if pg.dirtyInode ≠ some identity then (false, s)
    else match protectSharedFileAliases t outcome.setup s pg with
      | (false, s) => (false, s)
      | (true, s) => writeBackPage s pg outcome.written

/-- The common loop of the two preparations: protect the aliases of every page of
the file at the given offsets that is in the table. -/
def protectOffsets (t : Target) (setup : Nat → Nat → Bool) (ino : Nat) :
    Sys → List Nat → Bool × Sys
  | s, [] => (true, s)
  | s, offset :: offsets =>
    match findSharedPage s ino offset with
    | none => protectOffsets t setup ino s offsets
    | some pg =>
      match protectSharedFileAliases t setup s pg with
      | (false, s) => (false, s)
      | (true, s) => protectOffsets t setup ino s offsets

def prepareSharedFileWrite (t : Target) (setup : Nat → Nat → Bool) (s : Sys)
    (ino position length : Nat) : Bool × Sys :=
  if length = 0 then (true, s)
  else if t.maxWord - position < length then (false, s)
  else
    let first := pageFloor position
    protectOffsets t setup ino s
      (pagesFrom first ((position + length - first + (pageSize - 1)) / pageSize))

/-- `PrepareSharedFileTruncate`; `snapshot` tells whether the offsets could be listed. -/
def prepareSharedFileTruncate (t : Target) (setup : Nat → Nat → Bool) (snapshot : Bool)
    (s : Sys) (ino : Nat) : Bool × Sys :=
  if !snapshot then (false, s)
  else protectOffsets t setup ino s
    ((s.shared.filter (·.identity == ino)).map (·.fileOffset))

end Mecocoa.Memory
