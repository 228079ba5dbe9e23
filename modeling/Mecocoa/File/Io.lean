import Mecocoa.Memory.Fault

/-! # Reading, writing and truncating a regular file

A write goes to the backend and to the shared pages of the file, a read takes a
shared page where there is one and a cached page otherwise, and every change of
the backend starts a new content version.
-/

namespace Mecocoa.Memory

/-- The bytes of a shared page that `CompleteTruncate` clears: first and length. -/
def truncatedBytes (oldSize newSize offset : Nat) : Nat × Nat :=
  if newSize < oldSize ∧ offset < newSize ∧ newSize - offset < pageSize then
    (newSize - offset, pageSize - (newSize - offset))
  else if newSize < oldSize ∧ newSize ≤ offset then (0, pageSize)
  else if oldSize < newSize ∧ offset < newSize ∧
      (oldSize ≤ offset ∨ oldSize - offset < pageSize) then
    (oldSize - offset, min pageSize (newSize - offset) - (oldSize - offset))
  else (0, 0)

def clearPages (ino oldSize newSize : Nat) : Sys → List SharedFilePage → Sys
  | s, [] => s
  | s, pg :: pages =>
    let (first, length) := truncatedBytes oldSize newSize pg.fileOffset
    clearPages ino oldSize newSize
      (if pg.identity = ino then s.copyToFrame pg.physicalAddress first length fun _ => 0
      else s) pages

/-- `CompleteTruncate`: clear what left or entered the file; a page that left it whole
is clean again. -/
def completeTruncate (s : Sys) (ino oldSize newSize : Nat) : Sys :=
  let s := clearPages ino oldSize newSize s s.shared
  { s with shared := s.shared.map fun pg =>
      if pg.identity = ino ∧ newSize < oldSize ∧ newSize ≤ pg.fileOffset then
        { pg with dirty := false, dirtyInode := none }
      else pg }

/-- Copy the head of the data into the shared page at the position, if there is one. -/
def updateSharedPageBytes (s : Sys) (ino position : Nat) (data : List UInt8) (chunk : Nat) : Sys :=
  match findSharedPage s ino (pageFloor position) with
  | none => s
  | some pg => s.copyToFrame pg.physicalAddress (position - pageFloor position) chunk fun i =>
    data.getD i 0

/-- `UpdateSharedFilePages`; every round copies up to the end of one page. -/
def updateSharedFilePages (ino : Nat) : Nat → Sys → Nat → List UInt8 → Sys
  | 0, s, _, _ => s
  | _ + 1, s, _, [] => s
  | rounds + 1, s, position, data@(_ :: _) =>
    let within := position - pageFloor position
    let chunk := min data.length (pageSize - within)
    updateSharedFilePages ino rounds (updateSharedPageBytes s ino position data chunk)
      (position + chunk) (data.drop chunk)

/-- The zero-filling loop of `Filesys::Write`; `accept` answers the write at an offset.
Gives the end of what was filled. -/
def fillGap (accept : Nat → Nat) (target : Nat) : Nat → Inode → Nat → Nat × Inode
  | 0, inode, filledEnd => (filledEnd, inode)
  | rounds + 1, inode, filledEnd =>
    if target ≤ filledEnd then (filledEnd, inode)
    else
      let chunk := min 256 (target - filledEnd)
      let filled := min (accept filledEnd) chunk
      let inode := inode.write filledEnd filled fun _ => 0
      if filled ≠ chunk then (filledEnd + filled, inode)
      else fillGap accept target rounds inode (filledEnd + filled)

/-- What the surroundings answer during one write: the two preparations, and how much
the backend accepts of each piece of the gap and of the data. -/
structure WriteOutcome where
  snapshot : Bool
  setup : Nat → Nat → Bool
  gap : Nat → Nat
  written : Nat

/-- Give the file a new size, after the backend has it. -/
def resizeInode (s : Sys) (ino newSize : Nat) : Sys :=
  let s := completeTruncate s ino (s.inodes ino).iSize newSize
  s.setInode ino { s.inodes ino with iSize := newSize }

/-- The transfer of `Filesys::Write` after any gap was filled. -/
def writeData (s : Sys) (ino position : Nat) (data : List UInt8) (fillsGap : Bool) (written : Nat) :
    Option Nat × Sys :=
  let bytes := min written data.length
  let s := s.setInode ino ((s.inodes ino).write position bytes fun i => data.getD i 0)
  let s := if bytes ≠ 0 ∧ (s.inodes ino).iSize < position + bytes then
    completeTruncate s ino (s.inodes ino).iSize (position + bytes) else s
  let s := updateSharedFilePages ino bytes s position (data.take bytes)
  let s := s.setInode ino { s.inodes ino with iSize := max (s.inodes ino).iSize (position + bytes) }
  (some bytes, if bytes ≠ 0 ∨ fillsGap then advanceContentVersion s ino else s)

/-- `Filesys::Write` on a regular file at the position of the file object. -/
def writeFile (t : Target) (s : Sys) (ino position : Nat) (data : List UInt8)
    (outcome : WriteOutcome) : Option Nat × Sys :=
  if (s.inodes ino).regular = false ∨ (executableFilePinned s ino ∧ data ≠ []) ∨
      (s.inodes ino).filesystem = false then (none, s)
  else if data = [] then (some 0, s)
  else
    let oldSize := (s.inodes ino).iSize
    let fillsGap := decide (oldSize < position)
    match (if fillsGap then prepareSharedFileTruncate t outcome.setup outcome.snapshot s ino
        else (true, s)) with
    | (false, s) => (none, s)
    | (true, s) =>
      match prepareSharedFileWrite t outcome.setup s ino position data.length with
      | (false, s) => (none, s)
      | (true, s) =>
        if !fillsGap then writeData s ino position data false outcome.written
        else
          let (filledEnd, inode) :=
            fillGap outcome.gap position (position - oldSize) (s.inodes ino) oldSize
          let s := s.setInode ino inode
          if filledEnd ≠ position then
            if filledEnd = oldSize then (none, s)
            else (none, advanceContentVersion (resizeInode s ino filledEnd) ino)
          else writeData (resizeInode s ino position) ino position data true outcome.written

/-- What the surroundings answer during one truncation. -/
structure TruncateOutcome where
  snapshot : Bool
  setup : Nat → Nat → Bool
  truncated : Bool

def Inode.resize (inode : Inode) (size : Nat) : Inode :=
  { inode with backend := fun i => if i < size ∧ i < inode.iSize then inode.backend i else 0 }

def truncateInode (t : Target) (s : Sys) (ino size : Nat) (outcome : TruncateOutcome) :
    Bool × Sys :=
  if (s.inodes ino).regular = false ∨ executableFilePinned s ino ∨
    (s.inodes ino).filesystem = false then (false, s)
  else match prepareSharedFileTruncate t outcome.setup outcome.snapshot s ino with
    | (false, s) => (false, s)
    | (true, s) =>
      if !outcome.truncated then (false, s)
      else
        let s := s.setInode ino ((s.inodes ino).resize size)
        (true, advanceContentVersion (resizeInode s ino size) ino)

/-- The loop of `ReadCachedRegularFile`; `fill` answers by page.  `none` is an error
before the first byte. -/
def readLoop (t : Target) (ino : Nat) (fill : Nat → FillOutcome) :
    Nat → Sys → Nat → Nat → List UInt8 → Option (List UInt8) × Sys
  | 0, s, _, _, read => (some read, s)
  | rounds + 1, s, position, count, read =>
    let inode := s.inodes ino
    if count = 0 ∨ inode.iSize ≤ position then (some read, s)
    else
      let offset := pageFloor position
      let within := position - offset
      let length := min count (min (pageSize - within) (inode.iSize - position))
      let take := fun (s : Sys) (frame : Nat) =>
        read ++ (List.range length).map fun i => s.mem frame (within + i)
      match findSharedPage s ino offset with
      | some pg => readLoop t ino fill rounds s (position + length) (count - length)
          (take s pg.physicalAddress)
      | none =>
        match getCachedPage t s ino offset (fill offset) with
        | (.ready frame, s) => readLoop t ino fill rounds s (position + length) (count - length)
            (take s frame)
        | (_, s) => (if read = [] then none else some read, s)

/-- `ReadCachedRegularFile`; every round reads at least one byte. -/
def readCachedRegularFile (t : Target) (s : Sys) (ino position count : Nat)
    (fill : Nat → FillOutcome) : Option (List UInt8) × Sys :=
  readLoop t ino fill count s position count []

end Mecocoa.Memory
