import Mecocoa.File.Io
import Mecocoa.Task.Fork

/-! # The calls that a run is made of

The memory system calls `sysc_MMAP`, `sysc_SMAP` and `sysc_UMAP`, and one step
type for everything that a run may do: process creation and exit, faults, fork,
file reads and writes, cache eviction, and the loads and stores of a process.
-/

namespace Mecocoa.Memory

structure Prot where
  read : Bool
  write : Bool
  exec : Bool
  deriving DecidableEq, Repr

def Prot.none (prot : Prot) : Bool := !prot.read && !prot.write && !prot.exec

/-- Flags of an area under `prot`. -/
def Prot.flags (t : Target) (prot : Prot) : PageProps :=
  { present := !prot.none
    userAccess := !prot.none
    writable := prot.write
    nonexecutable := !prot.none && !prot.exec && t.arch != .x8632 }

/-- Without the no-execute bit x86-64 cannot keep a page from being executed. -/
def Prot.supported (t : Target) (prot : Prot) : Bool :=
  !(t.arch == .x8664 && !prot.none && !prot.exec && !t.nxEnabled)

/-- `syscall_mmap_request_t`, and the legacy form with raw page flags.  `fd` is
`none` for `-1`. -/
inductive MmapCall where
  | request (address : Nat) (prot : Prot) (mode : VmaMode) (fixed anonymous : Bool)
      (fd : Option Nat) (offset : Nat)
  | legacy (flag : PageProps) (fd : Option Nat)
  deriving DecidableEq, Repr

/-- A checked `sysc_MMAP` call. -/
structure MmapPlan where
  flag : PageProps
  mode : VmaMode
  fixed : Option Nat
  reservation : Bool
  executableFile : Bool
  fd : Option Nat
  offset : Nat
  deriving DecidableEq, Repr

/-- The argument checks of both forms. -/
def MmapCall.plan (t : Target) : MmapCall → Option MmapPlan
  | request address prot mode fixed anonymous fd offset =>
    if (!prot.none && !prot.read) || (anonymous && mode != .priv) ||
        (if fixed then address == 0 || decide (¬ Aligned address) else address != 0) ||
        (if anonymous then fd.isSome || offset != 0 else fd.isNone) ||
        decide (¬ Aligned offset) || !prot.supported t then none
    else some
      { flag := prot.flags t
        mode := mode
        fixed := if fixed then some address else none
        reservation := anonymous && !fixed && prot.none
        executableFile := !anonymous && prot.exec && !(mode == .shared && prot.write)
        fd := fd
        offset := offset }
  | legacy flag fd =>
    if flag ≠ flag.access ∨ (t.arch = .x8632 ∧ flag.nonexecutable) ∨
      flag.present = false ∨
        flag.userAccess = false then none
    else some
      { flag := flag, mode := .shared, fixed := none, reservation := false, executableFile := false,
        fd := fd, offset := 0 }

/-- What the surroundings answer while an executable image is pinned. -/
structure PinOutcome where
  node : Bool
  setup : Nat → Nat → Bool
  snapshot : Bool
  listed : Bool

/-- `PinMappedExecutableImage`: result, whether a pin was created, state. -/
def pinMappedExecutableImage (t : Target) (s : Sys) (p : Nat) (file : VfsFile)
    (outcome : PinOutcome) :
    Bool × Bool × Sys :=
  match file.fInode with
  | none => (false, false, s)
  | some ino =>
    if !outcome.node then (false, false, s)
    else if s.pins.any fun pin => pin.mappedFile && pin.process == p && pin.inode == ino then
      (true, false, s)
    else match prepareSharedFileTruncate t outcome.setup outcome.snapshot s ino with
      | (false, s) => (false, false, s)
      | (true, s) =>
        if !outcome.listed || s.shared.any (fun pg => pg.identity == ino && pg.dirty) then
          (false, false, s)
        else (true, true, { s with pins := ⟨p, ino, true⟩ :: s.pins })

/-- `FindFreeVmaRange`; every round moves the candidate up by at least one page. -/
def findFreeVmaRange (t : Target) (s : Sys) (p length : Nat) : Nat → Nat → Option Nat
  | 0, _ => none
  | rounds + 1, candidate =>
    if t.userEnd ≤ candidate ∨ t.userEnd - candidate < length then none
    else match (s.vmas p).find? (fun v =>
        decide (candidate < v.vmEnd) && decide (v.vmStart < candidate + length)) with
      | some existing => findFreeVmaRange t s p length rounds existing.vmEnd
      | none =>
        match (pagesFrom candidate (length / pageSize)).find? (fun a => (s.pte p a).isSome) with
        | some page => findFreeVmaRange t s p length rounds (page + pageSize)
        | none => some candidate

def firstCandidate (t : Target) (s : Sys) (p : Nat) : Option Nat :=
  let heapbtm := (s.procs p).heapbtm
  if heapbtm < pageSize ∨ t.userEnd - (pageSize - 1) < heapbtm then none
  else some (pageFloor (heapbtm + (pageSize - 1)))

/-- What the surroundings answer during one `sysc_MMAP`. -/
structure MmapOutcome where
  clone : Bool
  pin : PinOutcome
  append : Nat → Bool

/-- Place the area of a checked call: in the reserved span it names, or in a free range. -/
def placeVma (t : Target) (s : Sys) (p length : Nat) (fixed : Option Nat) (v : Vma)
    (append : Nat → Bool) : Option (Nat × Sys) :=
  match fixed with
  | some address =>
    match replaceReservedVmaRange (fun a => (s.pte p a).isSome) (s.vmas p)
        { v with vmStart := address, vmEnd := address + length } append with
    | (true, vmas) => some (address, s.setVmas p vmas)
    | (false, _) => none
  | none =>
    match (firstCandidate t s p).bind (findFreeVmaRange t s p length t.userEnd) with
    | none => none
    | some address =>
      match insertVmaSorted (s.vmas p)
          { v with vmStart := address, vmEnd := address + length } (append 0) with
      | some vmas => some (address, s.setVmas p vmas)
      | none => none

/-- The area of a checked call before it has a place. -/
def plannedVma (s : Sys) (p : Nat) (plan : MmapPlan) (clone : Bool) : Option Vma :=
  let v : Vma :=
    { vmStart := 0, vmEnd := 0, vmFlags := plan.flag, vmReservation := plan.reservation }
  match plan.fd with
  | none => some v
  | some fd =>
    match (s.procs p).files[fd]? with
    | some (some file) =>
      if clone then
        some { v with
          vmType := .file, vmMode := plan.mode, vfile := some file, fileOffset := plan.offset }
      else none
    | _ => none

/-- Pin the file of a planned executable mapping. -/
def pinPlanned (t : Target) (s : Sys) (p : Nat) (plan : MmapPlan) (v : Vma) (outcome : PinOutcome) :
    Bool × Bool × Sys :=
  match plan.executableFile, v.vfile with
  | true, some file => pinMappedExecutableImage t s p file outcome
  | _, _ => (true, false, s)

/-- `sysc_MMAP`; gives the address. -/
def syscMmap (t : Target) (s : Sys) (p len : Nat) (call : MmapCall) (outcome : MmapOutcome) :
    Option Nat × Sys :=
  match call.plan t with
  | none => (none, s)
  | some plan =>
    if len = 0 ∨ t.maxWord - (pageSize - 1) < len then (none, s)
    else
      let length := pageFloor (len + (pageSize - 1))
      if t.maxWord - length < plan.offset then (none, s)
      else if plan.fixed.any fun address =>
          decide (address < pageSize) || decide (t.userEnd ≤ address) ||
            decide (t.userEnd - address < length) then (none, s)
      else match plannedVma s p plan outcome.clone with
        | none => (none, s)
        | some v =>
          match pinPlanned t s p plan v outcome.pin with
          | (false, _, s) => (none, s)
          | (true, created, s) =>
            match placeVma t s p length plan.fixed v outcome.append with
            | some (address, s) => (some address, s)
            | none => (none, match created, v.vfile.bind (·.fInode) with
                | true, some ino => unpinMappedExecutableImage s p ino
                | _, _ => s)

/-- What the surroundings answer during one `sysc_SMAP`. -/
structure SmapOutcome where
  plan : Bool
  pin : Nat → PinOutcome
  protect : ProtectOutcome

def unpinCreated (p : Nat) : Sys → List Nat → Sys
  | s, [] => s
  | s, ino :: inodes => unpinCreated p (unpinMappedExecutableImage s p ino) inodes

/-- Pin the files of an executable protection; gives the inodes of the pins created. -/
def pinFiles (t : Target) (p : Nat) (pin : Nat → PinOutcome) :
    Nat → Sys → List Nat → List (Option VfsFile) → Option (List Nat) × Sys
  | _, s, created, [] => (some created, s)
  | _, s, created, none :: _ => (none, unpinCreated p s created)
  | i, s, created, some file :: files =>
    match pinMappedExecutableImage t s p file (pin i) with
    | (false, _, s) => (none, unpinCreated p s created)
    | (true, made, s) =>
      let created := match made, file.fInode with
        | true, some ino => created ++ [ino]
        | _, _ => created
      pinFiles t p pin (i + 1) s created files

/-- Files that `sysc_SMAP` pins before it makes a range executable. -/
def filesToPin (vmas : List Vma) (address endAddr : Nat) (prot : Prot) : List (Option VfsFile) :=
  if !prot.exec then []
  else (vmas.filter fun v => decide (address < v.vmEnd) && decide (v.vmStart < endAddr) &&
    v.vmType == .file && !(prot.write && v.vmMode == .shared)).map (·.vfile)

def syscSmap (t : Target) (s : Sys) (p address len : Nat) (prot : Prot) (outcome : SmapOutcome) :
    Bool × Sys :=
  if address < pageSize ∨ ¬ Aligned address ∨ len = 0 ∨ t.maxWord - (pageSize - 1) < len ∨
      (prot.none = false ∧ prot.read = false) ∨ prot.supported t = false then (false, s)
  else
    let length := pageFloor (len + (pageSize - 1))
    if t.userEnd ≤ address ∨ t.userEnd - address < length ∨
        (prot.exec ∧ outcome.plan = false) then
      (false, s)
    else match pinFiles t p outcome.pin 0 s []
        (filesToPin (s.vmas p) address (address + length) prot) with
      | (none, s) => (false, s)
      | (some created, s) =>
        match protectVmaRange t s p address length (prot.flags t) outcome.protect with
        | (true, s) => (true, s)
        | (false, s) => (false, unpinCreated p s created)

def syscUmap (t : Target) (s : Sys) (p address len : Nat) (outcome : UnmapOutcome) : Bool × Sys :=
  unmapVmaRange t s p address len false outcome

/-- The page loop of `CreateELF_Carry` for one page that is not present yet. -/
def carryPage (s : Sys) (p a : Nat) (props : PageProps) (answer : Option Nat)
    (nodes mapped : Bool) : Bool × Sys :=
  match zeroPage s answer .elf nodes with
  | (none, s) => (false, s)
  | (some frame, s) => installPage s p a frame props mapped

/-! ## Steps -/

inductive Op where
  | spawn (p heapbtm : Nat) (slices : List (Nat × Nat))
  | openFile (p : Nat) (file : VfsFile)
  | carry (p a : Nat) (writable : Bool) (answer : Option Nat) (nodes mapped : Bool)
  | mmap (p len : Nat) (call : MmapCall) (outcome : MmapOutcome)
  | mprotect (p address len : Nat) (prot : Prot) (outcome : SmapOutcome)
  | munmap (p address len : Nat) (outcome : UnmapOutcome)
  | fault (p address : Nat) (access : VirtualMemoryAccess) (protectionFault : Bool)
      (outcome : FaultOutcome)
  | prefault (p address : Nat) (access : VirtualMemoryAccess) (outcome : FaultOutcome)
  | fork (p c : Nat) (outcome : ForkOutcome)
  | exit (p : Nat) (outcome : TeardownOutcome)
  | store (p address : Nat) (byte : UInt8)
  | load (p address : Nat)
  | read (ino position count : Nat) (fill : Nat → FillOutcome)
  | write (ino position : Nat) (data : List UInt8) (outcome : WriteOutcome)
  | truncate (ino size : Nat) (outcome : TruncateOutcome)
  | flush (ino fileOffset : Nat) (outcome : FlushOutcome)
  | reclaimCache (limit : Nat)
  | reclaimShared (limit : Nat)
  | mapShared (p a : Nat) (access : VirtualMemoryAccess) (flags : PageProps) (fileOffset ino : Nat)
      (outcome : FaultOutcome)
  | registerAlias (ino fileOffset p a frame : Nat) (node : Bool)
  | unregisterAlias (identity fileOffset p a : Nat)

/-- A user store: the hardware lets it through a user-writable leaf only. -/
def storeByte (s : Sys) (p address : Nat) (byte : UInt8) : Sys :=
  match s.pte p (pageFloor address) with
  | some e =>
    if e.userWritable then s.copyToFrame e.frame (address % pageSize) 1 fun _ => byte else s
  | none => s

/-- A user load through a present user leaf. -/
def loadByte (s : Sys) (p address : Nat) : Option UInt8 :=
  match s.pte p (pageFloor address) with
  | some e =>
    if e.props.present && e.props.userAccess then some (s.mem e.frame (address % pageSize))
      else none
  | none => none

/-- One step.  Calls are made by live processes; a process object is used once.  The
loader puts the heap above the image and carries the image in before any area. -/
def exec (lib : PagingLibrary) (t : Target) (s : Sys) : Op → Sys
  | .spawn p heapbtm slices =>
    if (s.procs p).life = .unborn ∧
        slices.all (fun slice => (slicePages slice).all (fun a => decide (a < heapbtm))) then
      s.setProc p { Proc.empty .live with heapbtm, loadSlices := slices }
    else s
  | .openFile p file =>
    if (s.procs p).life = .live then
      s.setProc p { s.procs p with files := (s.procs p).files ++ [some file] }
    else s
  | .carry p a writable answer nodes mapped =>
    if (s.procs p).life = .live ∧ s.vmas p = [] ∧ (s.pte p a).isNone ∧
        (s.procs p).loadSlices.any (fun slice => slice.2 != 0 && (slicePages slice).contains a) then
      (carryPage s p a { present := true, userAccess := true, writable } answer nodes mapped).2
    else s
  | .mmap p len call outcome =>
    if (s.procs p).life = .live then (syscMmap t s p len call outcome).2 else s
  | .mprotect p address len prot outcome =>
    if (s.procs p).life = .live then (syscSmap t s p address len prot outcome).2 else s
  | .munmap p address len outcome =>
    if (s.procs p).life = .live then (syscUmap t s p address len outcome).2 else s
  | .fault p address access protectionFault outcome =>
    if (s.procs p).life = .live then
      (resolveVmaFault t s p address access protectionFault outcome).2
    else s
  | .prefault p address access outcome =>
    if (s.procs p).life = .live then (ensureVmaPage t s p (pageFloor address) access outcome).2
      else s
  | .fork p c outcome =>
    if (s.procs p).life = .live ∧
      (s.procs c).life = .unborn then (createFork lib t s p c outcome).2
    else s
  | .exit p outcome => if (s.procs p).life = .live then exitCleanup t s p outcome else s
  | .store p address byte => storeByte s p address byte
  | .load _ _ => s
  | .read ino position count fill => (readCachedRegularFile t s ino position count fill).2
  | .write ino position data outcome => (writeFile t s ino position data outcome).2
  | .truncate ino size outcome => (truncateInode t s ino size outcome).2
  | .flush ino fileOffset outcome => (flushSharedFilePage t s ino fileOffset outcome).2
  | .reclaimCache limit => (detachInactiveReadyPages s limit).2
  | .reclaimShared limit => (detachInactiveSharedPages s limit).2
  | .mapShared p a access flags fileOffset ino outcome =>
    if (s.procs p).life = .live ∧ Aligned a ∧ allowsAccess flags access then
      (mapSharedFileVmaPage t s p a access flags fileOffset ino outcome).2
    else s
  | .registerAlias ino fileOffset p a frame node =>
    if (s.procs p).life = .live then (registerSharedFileAlias s ino fileOffset p a frame node).2
      else s
  | .unregisterAlias identity fileOffset p a =>
    if (s.pte p a).isNone then (unregisterSharedFileAlias s identity fileOffset p a).2 else s

/-- The steps lead from one state to the other. -/
def Steps (lib : PagingLibrary) (t : Target) (s : Sys) (op : Op) (s' : Sys) : Prop :=
  exec lib t s op = s'

end Mecocoa.Memory
