import Mecocoa.Lib.Patch
import Mecocoa.Memory.Fault

/-! # Loading an ELF image

`PlanELFFileLoads` checks the program headers of an image.  The lazy loader then
covers the pages of its `PT_LOAD` segments with areas: whole pages of file data
become file areas, the rest anonymous ones, of which the pages with file bytes
are filled at once.  The eager loader carries one segment after the other into
pages of their own.

After the plan no sum of an address and a size leaves the word, so that the
sums here are the plain ones.
-/

namespace Mecocoa.Elf

open Memory

inductive ElfType where
  | exec | dyn | other
  deriving DecidableEq, Repr

inductive PhType where
  | load
  | other (value : Nat)
  deriving DecidableEq, Repr

structure ElfHeader where
  eType : ElfType
  ePhnum : Nat
  ePhentsize : Nat
  ePhoff : Nat
  eEntry : Nat
  deriving DecidableEq, Repr

/-- `ELF_PHT_t`. -/
structure Pht where
  pType : PhType
  pFlags : Nat
  pOffset : Nat
  pVaddr : Nat
  pFilesz : Nat
  pMemsz : Nat
  pAlign : Nat
  deriving DecidableEq, Repr

namespace Pht

/-- `p_flags & PF_X`. -/
def executable (ph : Pht) : Bool := ph.pFlags.testBit 0

/-- `p_flags & PF_W`. -/
def writable (ph : Pht) : Bool := ph.pFlags.testBit 1

/-- `p_flags & PF_R`. -/
def readable (ph : Pht) : Bool := ph.pFlags.testBit 2

/-- `p_type == PT_LOAD && p_memsz`. -/
def loads (ph : Pht) : Bool := ph.pType == .load && ph.pMemsz != 0

def start (ph : Pht) (bias : Nat) : Nat := ph.pVaddr + bias

def stop (ph : Pht) (bias : Nat) : Nat := ph.start bias + ph.pMemsz

def fileStop (ph : Pht) (bias : Nat) : Nat := ph.start bias + ph.pFilesz

/-- The segment has bytes in the page. -/
def touches (bias page : Nat) (ph : Pht) : Bool :=
  ph.loads && decide (page < ph.stop bias) && decide (ph.start bias < page + pageSize)

end Pht

/-! ## The plan -/

/-- `sizeof(ELF_PHT_t)`. -/
def phtSize (t : Target) : Nat := if t.wordBits = 32 then 32 else 56

/-- `user_end` of `PlanELFFileLoads`. -/
def planUserEnd (t : Target) : Nat :=
  match t.arch with
  | .x8664 => 0x800000000000
  | .riscv64 => 0x4000000000
  | _ => 0x80000000

/-- `p_align` is no power of two, or address and offset differ by it. -/
def misaligned (t : Target) (ph : Pht) : Bool :=
  decide (1 < ph.pAlign) &&
    (ph.pAlign &&& (ph.pAlign - 1) != 0 ||
      t.wrap (ph.pVaddr + 2 ^ t.wordBits - ph.pOffset) &&& (ph.pAlign - 1) != 0)

/-- The checks on one segment with memory. -/
def segmentRefused (t : Target) (stackSize fileSize bias : Nat) (ph : Pht) : Bool :=
  decide (ph.pMemsz < ph.pFilesz) || decide (fileSize < ph.pOffset) ||
    decide (fileSize - ph.pOffset < ph.pFilesz) ||
    decide (ph.pOffset % pageSize ≠ ph.pVaddr % pageSize) || misaligned t ph ||
    decide (t.maxWord - bias < ph.pVaddr) || decide (ph.start bias < 0x10000) ||
    decide (planUserEnd t ≤ ph.start bias) || decide
      (planUserEnd t - ph.start bias < ph.pMemsz) ||
    decide (t.maxWord - (pageSize - 1) - ph.start bias < ph.pMemsz) ||
    (decide (ph.start bias < 0x1000 + stackSize) && decide (0x1000 < ph.stop bias))

/-- The entry lies in the segment, which is executable. -/
def holdsEntry (t : Target) (header : ElfHeader) (bias : Nat) (ph : Pht) : Bool :=
  let entry := t.wrap (header.eEntry + bias)
  ph.executable && decide (ph.start bias ≤ entry) && decide (entry - ph.start bias < ph.pMemsz)

/-- What the loop of the plan has seen so far. -/
structure PlanScan where
  headers : List Pht := []
  hasLoad : Bool := false
  entryInSegment : Bool := false

/-- One round of the loop; `read` answers the read of the header. -/
def planSegment (t : Target) (stackSize fileSize bias : Nat) (header : ElfHeader)
    (read : Nat → Option Pht) (scan : PlanScan) (i : Nat) : Option PlanScan :=
  match read i with
  | none => none
  | some ph =>
    let headers := scan.headers ++ [ph]
    if !ph.loads then some { scan with headers }
    else if segmentRefused t stackSize fileSize bias ph then none
    else some
      { headers
        hasLoad := true
        entryInSegment := scan.entryInSegment || holdsEntry t header bias ph }

/-- `PlanELFFileLoads`; gives the headers it filled in.  `stackSize` is `HIGHER_STACK_SIZE`. -/
def planELFFileLoads (t : Target) (stackSize : Nat) (header : ElfHeader) (fileSize bias : Nat)
    (read : Nat → Option Pht) : Option (List Pht) :=
  if header.eType = .other ∨ header.ePhnum = 0 ∨ header.ePhentsize ≠ phtSize t ∨
      fileSize < header.ePhoff ∨ (fileSize - header.ePhoff) / phtSize t < header.ePhnum then none
  else match (List.range header.ePhnum).foldlM
      (planSegment t stackSize fileSize bias header read) {} with
    | none => none
    | some scan =>
      if scan.hasLoad && decide (header.eEntry ≤ t.maxWord - bias) && scan.entryInSegment then
        some scan.headers
      else none

/-! ## Pages of the lazy loader -/

inductive ELFLoadPageKind where
  | file | priv | zero
  deriving DecidableEq, Repr

structure ELFLoadPagePlan where
  address : Nat
  flags : PageProps
  fileOffset : Nat
  kind : ELFLoadPageKind
  deriving DecidableEq, Repr

/-- The page is wholly made of file bytes of the segment and of no other one. -/
def fullFileLoadPage (headers : List Pht) (segment page bias : Nat) : Bool :=
  match headers[segment]? with
  | none => false
  | some ph =>
    decide (ph.start bias ≤ page) && decide (pageSize ≤ ph.pFilesz) &&
      decide (page - ph.start bias ≤ ph.pFilesz - pageSize) &&
      decide (Aligned (ph.pOffset + page - ph.start bias)) &&
      headers.zipIdx.all fun other => other.2 == segment || !other.1.touches bias page

/-- First page of a segment after `after`, before its last page ends. -/
def segmentPageAfter (bias : Nat) (after : Option Nat) (ph : Pht) : Option Nat :=
  let first := pageFloor (ph.start bias)
  let last := pageFloor (ph.stop bias + (pageSize - 1))
  let candidate := match after with
    | none => first
    | some a => if first ≤ a then a + pageSize else first
  if candidate < last then some candidate else none

/-- `NextELFLoadPage`; `after` is absent for the first page. -/
def nextELFLoadPage (headers : List Pht) (bias : Nat) (after : Option Nat) : Option Nat :=
  headers.foldl
    (fun result ph =>
      if !ph.loads then result
      else match segmentPageAfter bias after ph, result with
        | none, _ => result
        | some candidate, none => some candidate
        | some candidate, some best => some (if candidate < best then candidate else best))
    none

/-- The locals of `DescribeELFLoadPage`. -/
structure PageScan where
  covered : Bool := false
  hasFileBytes : Bool := false
  executable : Bool := false
  writable : Bool := false
  fullFileSegment : Option Nat := none

def describeSegment (headers : List Pht) (bias page : Nat) (scan : PageScan)
    (segment : Pht × Nat) : PageScan :=
  if !segment.1.touches bias page then scan
  else
    { covered := true
      hasFileBytes := scan.hasFileBytes ||
        (decide (page < segment.1.fileStop bias) && decide (segment.1.start bias < page + pageSize))
      executable := scan.executable || segment.1.executable
      writable := scan.writable || segment.1.writable
      fullFileSegment := if fullFileLoadPage headers segment.2 page bias then some segment.2
        else scan.fullFileSegment }

/-- The property word of a page of the image. -/
def loadFlags (t : Target) (executable writable : Bool) : PageProps :=
  { present := true, userAccess := true, writable
    nonexecutable := t.arch != .x8632 && !executable }

def describeELFLoadPage (t : Target) (headers : List Pht) (bias page : Nat) :
    Option ELFLoadPagePlan :=
  let scan := headers.zipIdx.foldl (describeSegment headers bias page) {}
  if !scan.covered then none
  else
    let flags := loadFlags t scan.executable scan.writable
    match scan.fullFileSegment.bind (headers[·]?) with
    | some ph => some
        { address := page, flags, fileOffset := ph.pOffset + page - ph.start bias, kind := .file }
    | none => some
        { address := page, flags, fileOffset := 0, kind := if scan.hasFileBytes then .priv
        else .zero }

def sameELFLoadVma (left right : ELFLoadPagePlan) : Bool :=
  left.flags == right.flags && (left.kind == .file) == (right.kind == .file) &&
    (left.kind != .file || right.fileOffset == left.fileOffset + right.address - left.address)

/-- The area of a run of pages. -/
def loadVma (file : VfsFile) (plan : ELFLoadPagePlan) (runEnd : Nat) : Vma :=
  if plan.kind = .file then
    { vmStart := plan.address, vmEnd := runEnd, vmFlags := plan.flags
      vmType := .file, vfile := some file, fileOffset := plan.fileOffset }
  else { vmStart := plan.address, vmEnd := runEnd, vmFlags := plan.flags }

/-- What the surroundings answer while an image is mapped: the copy of the file and the
node of the area that starts at a page, the fault of a page that is filled, and the
read of a segment's bytes for it. -/
structure LoadOutcome where
  cloned : Nat → Bool
  append : Nat → Bool
  fault : Nat → FaultOutcome
  read : Nat → Nat → Bool

def insertELFLoadVma (s : Sys) (p : Nat) (file : VfsFile) (plan : ELFLoadPagePlan) (runEnd : Nat)
    (outcome : LoadOutcome) : Bool × Sys :=
  if plan.kind = .file ∧ outcome.cloned plan.address = false then (false, s)
  else match insertVmaSorted (s.vmas p) (loadVma file plan runEnd)
      (outcome.append plan.address) with
    | none => (false, s)
    | some vmas => (true, s.setVmas p vmas)

/-- Copy the part of a segment's file bytes inside the page, then clear the rest of it. -/
def fillSegment (s : Sys) (frame : Nat) (source : Nat → UInt8) (bias page : Nat) (ph : Pht) :
    Sys :=
  let copyBegin := max page (ph.start bias)
  let copyEnd := min (page + pageSize) (ph.fileStop bias)
  let zeroBegin := max page (ph.fileStop bias)
  let zeroEnd := min (page + pageSize) (ph.stop bias)
  let s := s.copyToFrame frame (copyBegin - page) (copyEnd - copyBegin)
    fun i => source (ph.pOffset + (copyBegin - ph.start bias + i))
  s.copyToFrame frame (zeroBegin - page) (zeroEnd - zeroBegin) fun _ => 0

/-- The loop of `PopulateELFPrivatePage`; `read` answers the read for a segment. -/
def fillSegments (frame : Nat) (source : Nat → UInt8) (bias page : Nat) (read : Nat → Bool) :
    Sys → List (Pht × Nat) → Bool × Sys
  | s, [] => (true, s)
  | s, (ph, i) :: rest =>
    if !ph.touches bias page then fillSegments frame source bias page read s rest
    else if max page (ph.start bias) < min (page + pageSize) (ph.fileStop bias) ∧
        read i = false then
      (false, s)
    else fillSegments frame source bias page read (fillSegment s frame source bias page ph) rest

/-- `PopulateELFPrivatePage`; `source` is what the block device of the image holds. -/
def populateELFPrivatePage (t : Target) (s : Sys) (p : Nat) (source : Nat → UInt8)
    (headers : List Pht) (bias page : Nat) (outcome : LoadOutcome) : Bool × Sys :=
  match ensureVmaPage t s p page .read (outcome.fault page) with
  | (none, s) => (false, s)
  | (some frame, s) =>
    fillSegments frame source bias page (outcome.read page) (s.zeroFrame frame) headers.zipIdx

/-- The inner loop of `MapELFFileLoads` that finds the end of a run. -/
def loadRunEnd (t : Target) (headers : List Pht) (bias : Nat) (first : ELFLoadPagePlan) :
    Nat → Nat → Nat
  | 0, runEnd => runEnd
  | rounds + 1, runEnd =>
    match describeELFLoadPage t headers bias runEnd with
    | none => runEnd
    | some next =>
      if sameELFLoadVma first next then loadRunEnd t headers bias first rounds (runEnd + pageSize)
      else runEnd

/-- Fill the private pages of a run. -/
def populateRun (t : Target) (p : Nat) (source : Nat → UInt8) (headers : List Pht) (bias : Nat)
    (outcome : LoadOutcome) : Sys → List Nat → Bool × Sys
  | s, [] => (true, s)
  | s, page :: pages =>
    match describeELFLoadPage t headers bias page with
    | none => (false, s)
    | some plan =>
      if plan.kind = .priv then
        match populateELFPrivatePage t s p source headers bias page outcome with
        | (false, s) => (false, s)
        | (true, s) => populateRun t p source headers bias outcome s pages
      else populateRun t p source headers bias outcome s pages

/-- A bound on the number of pages up to the end of the image. -/
def loadRounds (headers : List Pht) (bias : Nat) : Nat :=
  (headers.map fun ph => ph.stop bias / pageSize + 2).sum + 1

/-- The outer loop of `MapELFFileLoads`. -/
def mapRuns (t : Target) (p : Nat) (source : Nat → UInt8) (file : VfsFile) (headers : List Pht)
    (bias : Nat) (outcome : LoadOutcome) : Nat → Option Nat → Sys → Bool × Sys
  | 0, _, s => (false, s)
  | rounds + 1, after, s =>
    match nextELFLoadPage headers bias after with
    | none => (true, s)
    | some page =>
      match describeELFLoadPage t headers bias page with
      | none => (false, s)
      | some plan =>
        let runEnd := loadRunEnd t headers bias plan (loadRounds headers bias) (page + pageSize)
        match insertELFLoadVma s p file plan runEnd outcome with
        | (false, s) => (false, s)
        | (true, s) =>
          let populated :=
            if plan.kind = .file then (true, s)
            else populateRun t p source headers bias outcome s
              (pagesFrom page ((runEnd - page) / pageSize))
          match populated with
          | (false, s) => (false, s)
          | (true, s) =>
            mapRuns t p source file headers bias outcome rounds (some (runEnd - pageSize)) s

def mapELFFileLoads (t : Target) (s : Sys) (p : Nat) (source : Nat → UInt8) (file : VfsFile)
    (headers : List Pht) (bias : Nat) (outcome : LoadOutcome) : Bool × Sys :=
  mapRuns t p source file headers bias outcome (loadRounds headers bias) none s

/-! ## The eager loader -/

/-- What the surroundings answer while a segment is carried in, by page. -/
structure CarryOutcome where
  pages : Bool
  page : Nat → Option Nat
  adopted : Nat → Bool
  mapped : Nat → Bool
  read : Nat → Bool
  unmap : Nat → Bool

def rollbackELFPages (p : Nat) (unmap : Nat → Bool) : Sys → List Nat → Sys
  | s, [] => s
  | s, a :: rest =>
    match s.pte p a with
    | none => rollbackELFPages p unmap s rest
    | some e =>
      if unmap a then
        rollbackELFPages p unmap (releaseManagedPageMapping (s.setPte p a none) e.frame).2 rest
      else rollbackELFPages p unmap s rest

/-- The page of a round: the one that is there, or a new zeroed one with the segment's flags. -/
def carriedPage (s : Sys) (p a : Nat) (props : PageProps) (outcome : CarryOutcome) :
    Option (Nat × Bool) × Sys :=
  match s.pte p a with
  | some e => (some (e.frame, false), s)
  | none =>
    match zeroPage s (outcome.page a) .elf (outcome.adopted a) with
    | (none, s) => (none, s)
    | (some frame, s) =>
      match installPage s p a frame props (outcome.mapped a) with
      | (false, s) => (none, s)
      | (true, s) => (some (frame, true), s)

/-- Clear the chunk where it lies beyond the file bytes, and read the rest of it. -/
def carryChunk (s : Sys) (frame compensation chunk bytesRead fileSize fileOffset : Nat)
    (source : Nat → UInt8) : Sys :=
  if fileSize ≤ bytesRead then s.copyToFrame frame compensation chunk fun _ => 0
  else
    let copySize := if fileSize < bytesRead + chunk then fileSize - bytesRead else chunk
    let s := if fileSize < bytesRead + chunk then
        s.copyToFrame frame (compensation + copySize) (chunk - copySize) fun _ => 0
      else s
    s.copyToFrame frame compensation copySize fun i => source (fileOffset + (bytesRead + i))

/-- The page loop of `CreateELF_Carry`.  `allocated` lists the pages mapped by this call,
the last one first. -/
def carryPages (p : Nat) (ph : Pht) (props : PageProps) (source : Nat → UInt8)
    (outcome : CarryOutcome) : Nat → Nat → Nat → Nat → List Nat → Sys → Bool × Sys
  | 0, _, _, _, _, s => (true, s)
  | rounds + 1, a, compensation, bytesRead, allocated, s =>
    match carriedPage s p a props outcome with
    | (none, s) => (false, rollbackELFPages p outcome.unmap s allocated)
    | (some (frame, fresh), s) =>
      let allocated := if fresh then a :: allocated else allocated
      let chunk := min (pageSize - compensation) (ph.pMemsz - bytesRead)
      if bytesRead < ph.pFilesz ∧ outcome.read a = false then
        (false, rollbackELFPages p outcome.unmap s allocated)
      else carryPages p ph props source outcome rounds (a + pageSize) 0
        (bytesRead + chunk) allocated
        (carryChunk s frame compensation chunk bytesRead ph.pFilesz ph.pOffset source)

/-- `CreateELF_Carry` for a user segment. -/
def createELFCarry (t : Target) (s : Sys) (p : Nat) (source : Nat → UInt8) (bias : Nat) (ph : Pht)
    (outcome : CarryOutcome) : Bool × Sys :=
  let compensation := ph.start bias % pageSize
  let count := (ph.pMemsz + compensation + (pageSize - 1)) / pageSize
  if count ≠ 0 ∧ outcome.pages = false then (false, s)
  else carryPages p ph (loadFlags t ph.executable ph.writable) source outcome count
    (pageFloor (ph.start bias)) compensation 0 [] s

/-- The segment loop of `CreateELFImage` when the image is not mapped. -/
def carryImage (t : Target) (p : Nat) (source : Nat → UInt8) (bias : Nat)
    (outcome : Nat → CarryOutcome) : Sys → List (Pht × Nat) → Bool × Sys
  | s, [] => (true, s)
  | s, (ph, i) :: rest =>
    if !ph.loads then carryImage t p source bias outcome s rest
    else match createELFCarry t s p source bias ph (outcome i) with
      | (false, s) => (false, s)
      | (true, s) => carryImage t p source bias outcome s rest

end Mecocoa.Elf
