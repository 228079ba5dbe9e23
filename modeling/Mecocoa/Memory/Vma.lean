import Mecocoa.Memory.Page

/-! # Virtual memory areas of a process

The address space of a process is a list of areas sorted by address.  The edits
of that list are the same for every caller: insertion at the sorted position,
replacement of a reserved span, the two splits of a protection change, the trims
and splits of an unmap, and the merge of equal anonymous neighbours.

`vmas.Append` and the copy of a file object can fail; whether they do is an
argument.  The undo writes of the source are kept as writes.
-/

namespace Mecocoa.Memory

inductive VmaType where
  | anonymous | file | device
  deriving DecidableEq, Repr

inductive VmaMode where
  | priv | shared
  deriving DecidableEq, Repr

/-- `f_mode & O_ACCMODE`. -/
inductive AccessMode where
  | rdonly | wronly | rdwr | other
  deriving DecidableEq, Repr

/-- An open file object; inodes are named by their identity. -/
structure VfsFile where
  fInode : Option Nat
  fMode : AccessMode
  deriving DecidableEq, Repr

structure Vma where
  vmStart : Nat
  vmEnd : Nat
  vmFlags : PageProps
  vmReservation : Bool := false
  vmType : VmaType := .anonymous
  vmMode : VmaMode := .priv
  vfile : Option VfsFile := none
  fileOffset : Nat := 0
  deriving DecidableEq, Repr

namespace Vma

def covers (v : Vma) (a : Nat) : Bool := decide (v.vmStart ≤ a) && decide (a < v.vmEnd)

def overlaps (v existing : Vma) : Bool :=
  decide (v.vmStart < existing.vmEnd) && decide (existing.vmStart < v.vmEnd)

/-- A file area that has its file object. -/
def fileBacked (v : Vma) : Bool := v.vmType == .file && v.vfile.isSome

end Vma

/-- The area that a walk over the list stops at. -/
def vmaAt (vmas : List Vma) (a : Nat) : Option Vma := vmas.find? (·.covers a)

/-- The exchanges after `vmas.Append`, on the list read from its end. -/
def sinkVma (v : Vma) : List Vma → List Vma
  | [] => [v]
  | last :: rest => if v.vmStart < last.vmStart then last :: sinkVma v rest else v :: last :: rest

def insertVmaSorted (vmas : List Vma) (v : Vma) (append : Bool) : Option (List Vma) :=
  if v.vmEnd ≤ v.vmStart ∨ ¬ Aligned v.vmStart ∨ ¬ Aligned v.vmEnd then none
  else if vmas.any v.overlaps then none
  else if !append then none
  else some (sinkVma v vmas.reverse).reverse

/-- A reserved span that can take the replacement. -/
def reservedFor (replacement v : Vma) : Bool :=
  decide (v.vmStart ≤ replacement.vmStart) && decide (replacement.vmEnd ≤ v.vmEnd) &&
    v.vmReservation && v.vmType == .anonymous && v.vmFlags == .none && v.vfile.isNone

/-- `ReplaceReservedVmaRange`; `append i` answers the `i`-th `vmas.Append` of the call. -/
def replaceReservedVmaRange (mapped : Nat → Bool) (vmas : List Vma) (replacement : Vma)
    (append : Nat → Bool) : Bool × List Vma :=
  if replacement.vmEnd ≤ replacement.vmStart ∨ ¬ Aligned replacement.vmStart ∨
      ¬ Aligned replacement.vmEnd ∨ replacement.vmReservation then (false, vmas)
  else match vmas.span (!reservedFor replacement ·) with
  | (_, []) => (false, vmas)
  | (before, reserved :: after) =>
    if (pagesFrom replacement.vmStart
        ((replacement.vmEnd - replacement.vmStart) / pageSize)).any mapped then (false, vmas)
    else if replacement.vmStart = reserved.vmStart ∧ replacement.vmEnd = reserved.vmEnd then
      (true, before ++ replacement :: after)
    else if replacement.vmStart = reserved.vmStart then
      let right := { reserved with vmStart := replacement.vmEnd }
      match insertVmaSorted (before ++ right :: after) replacement (append 0) with
      | some inserted => (true, inserted)
      | none => (false, before ++ { right with vmStart := reserved.vmStart } :: after)
    else if replacement.vmEnd = reserved.vmEnd then
      let left := { reserved with vmEnd := replacement.vmStart }
      match insertVmaSorted (before ++ left :: after) replacement (append 0) with
      | some inserted => (true, inserted)
      | none => (false, before ++ { left with vmEnd := reserved.vmEnd } :: after)
    else
      let right := { reserved with vmStart := replacement.vmEnd }
      let left := { reserved with vmEnd := replacement.vmStart }
      match insertVmaSorted (before ++ left :: after) right (append 0) with
      | none => (false, before ++ { left with vmEnd := reserved.vmEnd } :: after)
      | some split =>
        match insertVmaSorted split replacement (append 1) with
        | some inserted => (true, inserted)
        | none => (false, (split.eraseIdx (before.length + 1)).modify before.length
            fun v => { v with vmEnd := reserved.vmEnd })

/-- The part of an area from `boundary` on, with its own file object. -/
def Vma.rightOf (t : Target) (v : Vma) (boundary : Nat) (file : Option VfsFile) : Vma :=
  { v with
    vmStart := boundary
    fileOffset := t.wrap (v.fileOffset + (boundary - v.vmStart))
    vfile := file }

/-- `SplitProtectedVmaAt`.  The last component is the `ProtectedVmaSplit`: index and
old end of the area that was cut. -/
def splitProtectedVmaAt (t : Target) (vmas : List Vma) (boundary : Nat) (clone : Option VfsFile)
    (append : Bool) : Bool × List Vma × Option (Nat × Nat) :=
  match vmas.span (fun v => decide (boundary ≤ v.vmStart) || decide (v.vmEnd ≤ boundary)) with
  | (_, []) => (true, vmas, none)
  | (before, original :: after) =>
    if original.vfile.isSome ∧ clone = none then (false, vmas, none)
    else
      let right := if original.vfile.isSome then original.rightOf t boundary clone
        else { original with vmStart := boundary }
      let left := { original with vmEnd := boundary }
      match insertVmaSorted (before ++ left :: after) right append with
      | none => (false, before ++ { left with vmEnd := original.vmEnd } :: after, none)
      | some split => (true, split, some (before.length, original.vmEnd))

/-- The file object of an area forbids the new protection. -/
def fileRefuses (flags : PageProps) (v : Vma) : Bool :=
  v.vmType == .file &&
    match v.vfile with
    | none => true
    | some file =>
      (flags.present && file.fMode == .wronly) ||
        (flags.writable && v.vmMode == .shared && file.fMode != .rdwr)

/-- The coverage scan of `ProtectVmaRange`; gives the file objects at both cuts. -/
def scanProtected (flags : PageProps) (address endAddr : Nat) :
    Nat → Option VfsFile × Option VfsFile → List Vma →
      Option (Option VfsFile × Option VfsFile)
  | covered, files, [] => if covered = endAddr then some files else none
  | covered, files, v :: rest =>
    if endAddr ≤ covered then (if covered = endAddr then some files else none)
    else if v.vmEnd ≤ covered then scanProtected flags address endAddr covered files rest
    else if covered < v.vmStart ∨ v.vmType = .device ∨ fileRefuses flags v then none
    else
      let startFile := if v.vmStart < address ∧ address < v.vmEnd then v.vfile else files.1
      let endFile := if v.vmStart < endAddr ∧ endAddr < v.vmEnd then v.vfile else files.2
      scanProtected flags address endAddr (min endAddr v.vmEnd) (startFile, endFile) rest

/-- Areas inside the range take the new protection. -/
def protectInside (address endAddr : Nat) (flags : PageProps) (v : Vma) : Vma :=
  if address ≤ v.vmStart ∧ v.vmEnd ≤ endAddr then
    { v with vmFlags := flags, vmReservation := v.vmReservation && flags == .none }
  else v

def mergeable (left right : Vma) : Bool :=
  left.vmType == .anonymous && right.vmType == .anonymous && left.vmEnd == right.vmStart &&
    left.vmFlags == right.vmFlags && left.vmMode == right.vmMode &&
    left.vmReservation == right.vmReservation

def mergeFrom (left : Vma) : List Vma → List Vma
  | [] => [left]
  | right :: rest =>
    if mergeable left right then mergeFrom { left with vmEnd := right.vmEnd } rest
    else left :: mergeFrom right rest

def mergeAdjacentAnonymousVmas : List Vma → List Vma
  | [] => []
  | left :: rest => mergeFrom left rest

/-- The split at the end of the range; a failure takes the split at its start back. -/
def splitProtectedEnd (t : Target) (first : List Vma) (startSplit : Option (Nat × Nat))
    (endAddr : Nat) (endClone : Option VfsFile) (append : Bool) : Bool × List Vma :=
  match splitProtectedVmaAt t first endAddr endClone append with
  | (true, second, _) => (true, second)
  | (false, restored, _) =>
    match startSplit with
    | none => (false, restored)
    | some (index, originalEnd) =>
      (false, (restored.eraseIdx (index + 1)).modify index fun v => { v with vmEnd := originalEnd })

/-- The two splits of `ProtectVmaRange`. -/
def splitProtectedRange (t : Target) (vmas : List Vma) (address endAddr : Nat)
    (startClone endClone : Option VfsFile) (append : Nat → Bool) : Bool × List Vma :=
  match splitProtectedVmaAt t vmas address startClone (append 0) with
  | (false, restored, _) => (false, restored)
  | (true, first, startSplit) => splitProtectedEnd t first startSplit endAddr endClone (append 1)

/-- The loop of `UnmapVmaRange` over the areas.  `done` is the part of the list
before the index; every round moves the index past one old area. -/
def unmapVmas (t : Target) (address endAddr : Nat) (splitFile : Option VfsFile) (append : Bool) :
    Nat → List Vma → List Vma → Bool × List Vma
  | 0, done, rest => (true, done ++ rest)
  | _ + 1, done, [] => (true, done)
  | rounds + 1, done, v :: rest =>
    if address ≤ v.vmStart ∧ v.vmEnd ≤ endAddr then
      unmapVmas t address endAddr splitFile append rounds done rest
    else if v.vmStart < address ∧ endAddr < v.vmEnd then
      let right := if v.fileBacked then v.rightOf t endAddr splitFile
        else { v with vmStart := endAddr }
      let left := { v with vmEnd := address }
      match insertVmaSorted (done ++ left :: rest) right append with
      | none => (false, done ++ { left with vmEnd := v.vmEnd } :: rest)
      | some inserted => unmapVmas t address endAddr splitFile append rounds
          (inserted.take (done.length + 2)) (inserted.drop (done.length + 2))
    else if v.vmStart < address ∧ address < v.vmEnd then
      unmapVmas t address endAddr splitFile append rounds
        (done ++ [{ v with vmEnd := address }]) rest
    else if v.vmStart < endAddr ∧ endAddr < v.vmEnd then
      let right := if v.fileBacked then v.rightOf t endAddr v.vfile
        else { v with vmStart := endAddr }
      unmapVmas t address endAddr splitFile append rounds (done ++ [right]) rest
    else unmapVmas t address endAddr splitFile append rounds (done ++ [v]) rest

end Mecocoa.Memory
