import Mecocoa.Memory.Space

/-! # Fork

The child gets the areas of its parent and shares its resident pages.  Leaves
that may be written are made read-only on both sides first, and the parent's
write permission is noted down so that a fork which fails later can give it back
before the child is discarded.
-/

namespace Mecocoa.Memory

/-- What the surroundings answer during one fork, by page where a step is repeated. -/
structure ForkOutcome where
  task : Bool
  deviceDecode : Nat → Bool
  device : Nat → RegistryOutcome
  clone : Nat → Bool
  decode : Nat → Bool
  record : Nat → Bool
  downgrade : Nat → Bool
  map : Nat → Bool
  aliasNode : Nat → Bool
  page : Nat → Option Nat
  adopted : Nat → Bool
  slicePage : Nat → Option Nat
  sliceAdopted : Nat → Bool
  sliceMap : Nat → Bool
  pins : Bool
  restore : Nat → Bool
  teardown : TeardownOutcome

structure ForkCowParentPage where
  address : Nat
  physicalAddress : Nat
  writableProps : PageProps
  deriving DecidableEq, Repr

def withoutFile (v : Vma) : Vma := if v.vmType = .file then { v with vfile := none } else v

/-- How many of the pages continue the run that starts with `e` at `a`. -/
def deviceRun (paging : Nat → Option Pte) (a : Nat) (e : Pte) : List Nat → Nat
  | [] => 0
  | next :: rest =>
    match paging next with
    | none => 0
    | some e' =>
      if e'.frame = e.frame + (next - a) ∧ e'.props = e.props then deviceRun paging a e rest + 1
        else 0

/-- Inherit the device leaves among the pages, one registry call per run. -/
def forkDevicePages (lib : PagingLibrary) (t : Target) (p c : Nat) (outcome : ForkOutcome) :
    Nat → Sys → List Nat → Bool × Sys
  | 0, s, _ => (true, s)
  | _ + 1, s, [] => (true, s)
  | rounds + 1, s, a :: rest =>
    match s.pte p a with
    | none => forkDevicePages lib t p c outcome rounds s rest
    | some e =>
      let more := deviceRun (s.procs p).paging a e rest
      let length := (more + 1) * pageSize
      if !outcome.deviceDecode a || e.props.type == .default then (false, s)
      else match mapPages lib t s.registry c a e.frame length none e.props (outcome.device a) with
        | (false, _) => (false, s)
        | (true, registry) =>
          let inherited := { s with registry }.setProc c { s.procs c with
            paging := fun b =>
              if a ≤ b ∧ b < a + length ∧ Aligned b then (s.procs p).paging b
              else (s.procs c).paging b }
          forkDevicePages lib t p c outcome rounds inherited (rest.drop more)

def vmaPages (v : Vma) : List Nat := pagesFrom v.vmStart ((v.vmEnd - v.vmStart) / pageSize)

def forkDevices (lib : PagingLibrary) (t : Target) (p c : Nat) (outcome : ForkOutcome) :
    Sys → List Vma → Bool × Sys
  | s, [] => (true, s)
  | s, v :: vmas =>
    if v.vmType ≠ .device then forkDevices lib t p c outcome s vmas
    else match forkDevicePages lib t p c outcome (vmaPages v).length s (vmaPages v) with
      | (false, s) => (false, s)
      | (true, s) => forkDevices lib t p c outcome s vmas

/-- Copy the file objects of the parent's areas; `clone` answers by index. -/
def cloneFiles (clone : Nat → Bool) : Nat → List Vma → Bool × List Vma
  | _, [] => (true, [])
  | i, v :: vmas =>
    if v.fileBacked ∧ clone i = false then (false, withoutFile v :: vmas.map withoutFile)
    else
      let (done, cloned) := cloneFiles clone (i + 1) vmas
      (done, (if v.fileBacked then v else withoutFile v) :: cloned)

/-- The page is shared with the child and must not be written through either side. -/
def protectsParent (v : Vma) : Bool :=
  ((v.vmType == .anonymous || v.vmType == .file) && v.vmMode == .priv && v.vmFlags.writable) ||
    (v.vmType == .file && v.vmMode == .shared)

/-- Map a page whose reference is held into the child and register its alias. -/
def forkMapChild (t : Target) (s : Sys) (c : Nat) (v : Vma) (a frame : Nat) (props : PageProps)
    (outcome : ForkOutcome) : Bool × Sys :=
  if !outcome.map a then (false, (releaseManagedPageMapping s frame).2)
  else
    let mapped := s.setPte c a (some ⟨frame, props⟩)
    if v.vmType = .file ∧ v.vmMode = .shared then
      let registered := match v.vfile.bind (·.fInode) with
        | none => (false, mapped)
        | some ino =>
          registerSharedFileAlias mapped ino (t.wrap (v.fileOffset + (a - v.vmStart))) c a
            frame (outcome.aliasNode a)
      match registered with
      | (true, s) => (true, s)
      | (false, s) => (false, (releaseManagedPageMapping (s.setPte c a none) frame).2)
    else (true, mapped)

/-- Share one resident page with the child. -/
def forkSharePage (t : Target) (s : Sys) (p c : Nat) (v : Vma) (a : Nat) (e : Pte)
    (cow : List ForkCowParentPage) (outcome : ForkOutcome) :
    Bool × Sys × List ForkCowParentPage :=
  match retainManagedPageMapping t s e.frame with
  | (false, s) => (false, s, cow)
  | (true, s) =>
    if protectsParent v && e.props.writable then
      let noted := if outcome.record a then cow ++ [⟨a, e.frame, e.props⟩] else cow
      if !outcome.downgrade a then
        (false, (releaseManagedPageMapping s e.frame).2, noted.dropLast)
      else
        let s := s.setPte p a (some ⟨e.frame, e.props.readOnly⟩)
        let (done, s) := forkMapChild t s c v a e.frame e.props.readOnly outcome
        (done, s, noted)
    else
      let props := if protectsParent v then e.props.readOnly else e.props
      let (done, s) := forkMapChild t s c v a e.frame props outcome
      (done, s, cow)

/-- Copy one resident page for the child. -/
def forkCopyPage (s : Sys) (c : Nat) (v : Vma) (a : Nat) (e : Pte) (outcome : ForkOutcome) :
    Bool × Sys :=
  match allocatePage s (outcome.page a) with
  | (none, s) => (false, s)
  | (some frame, s) =>
    let source := if v.vmType = .file then ManagedPageSource.file else .anonymous
    match adoptManagedPage (s.copyToFrame frame 0 pageSize (s.mem e.frame)) frame source
        (outcome.adopted a) with
    | (false, s) => (false, s)
    | (true, s) => installPage s c a frame v.vmFlags.access (outcome.map a)

/-- One page of the area loop of `CreateFork`. -/
def forkPage (t : Target) (s : Sys) (p c : Nat) (v : Vma) (a : Nat) (cow : List ForkCowParentPage)
    (outcome : ForkOutcome) : Bool × Sys × List ForkCowParentPage :=
  match s.pte p a with
  | none => (true, s, cow)
  | some e =>
    if outcome.decode a = false ∨ v.vmType = .device then (true, s, cow)
    else if v.vmType = .file ∧ v.vmMode = .shared ∧ e.props.writable ∧ t.cannotDowngrade then
      (false, s, cow)
    else if !v.vmFlags.writable || protectsParent v then forkSharePage t s p c v a e cow outcome
    else
      let (done, s) := forkCopyPage s c v a e outcome
      (done, s, cow)

def forkPages (t : Target) (p c : Nat) (outcome : ForkOutcome) :
    Sys → List ForkCowParentPage → List (Vma × Nat) → Bool × Sys × List ForkCowParentPage
  | s, cow, [] => (true, s, cow)
  | s, cow, (v, a) :: pages =>
    match forkPage t s p c v a cow outcome with
    | (false, s, cow) => (false, s, cow)
    | (true, s, cow) => forkPages t p c outcome s cow pages

/-- `PGPROP_present | PGPROP_writable | PGPROP_user_access`. -/
def slicePageProps : PageProps := { present := true, writable := true, userAccess := true }

/-- Copy the resident pages of a load slice that the child does not have yet. -/
def forkSlicePages (p c : Nat) (outcome : ForkOutcome) : Sys → List Nat → Bool × Sys
  | s, [] => (true, s)
  | s, a :: rest =>
    match s.pte p a, s.pte c a with
    | some e, none =>
      match allocatePage s (outcome.slicePage a) with
      | (none, s) => (false, s)
      | (some frame, s) =>
        match adoptManagedPage s frame .elf (outcome.sliceAdopted a) with
        | (false, s) => (false, s)
        | (true, s) =>
          match installPage s c a frame slicePageProps (outcome.sliceMap a) with
          | (false, s) => (false, s)
          | (true, s) => forkSlicePages p c outcome
              (s.copyToFrame frame 0 pageSize (s.mem e.frame)) rest
    | _, _ => forkSlicePages p c outcome s rest

def forkSlices (p c : Nat) (outcome : ForkOutcome) : Sys → List (Nat × Nat) → Bool × Sys
  | s, [] => (true, s)
  | s, slice :: slices =>
    if slice.2 = 0 then (true, s)
    else
      let s := s.setProc c { s.procs c with loadSlices := (s.procs c).loadSlices ++ [slice] }
      match forkSlicePages p c outcome s (slicePages slice) with
      | (false, s) => (false, s)
      | (true, s) => forkSlices p c outcome s slices

/-- Give the parent back the write permission that was noted down. -/
def restoreParent (p : Nat) (restore : Nat → Bool) : Sys → List ForkCowParentPage → Sys
  | s, [] => s
  | s, page :: cow =>
    let restored := match s.pte p page.address with
      | none => s
      | some e =>
        if e.frame = page.physicalAddress ∧ e.props = page.writableProps.readOnly ∧
            restore page.address then
          s.setPte p page.address (some ⟨page.physicalAddress, page.writableProps⟩)
        else s
    restoreParent p restore restored cow

def discardChild (t : Target) (s : Sys) (p c : Nat) (cow : List ForkCowParentPage)
    (vmasOwned : Bool) (outcome : ForkOutcome) : Sys :=
  let s := restoreParent p outcome.restore (unpinExecutableImage s c) cow
  destroyProcess (if vmasOwned then releaseSpace t s c outcome.teardown else s) c

def cloneExecutableImagePin (s : Sys) (p c : Nat) : Sys :=
  { s with
  pins := ((s.pins.filter (·.process == p)).map fun pin => { pin with process := c }).reverse ++
      s.pins }

/-- The child before it has any leaf. -/
def forkStart (s : Sys) (p c : Nat) : Sys :=
  s.setProc c { Proc.empty .building with
    vmas := (s.vmas p).map withoutFile, heapbtm := (s.procs p).heapbtm }

/-- `Taskman::CreateFork` for the child `c`; the result tells whether it was published. -/
def createFork (lib : PagingLibrary) (t : Target) (s : Sys) (p c : Nat) (outcome : ForkOutcome) :
    Bool × Sys :=
  if !outcome.task then (false, s)
  else
    let vmas := s.vmas p
    match forkDevices lib t p c outcome (forkStart s p c) vmas with
    | (false, s) => (false, discardChild t s p c [] false outcome)
    | (true, s) =>
      match cloneFiles outcome.clone 0 vmas with
      | (false, cloned) => (false, discardChild t (s.setVmas c cloned) p c [] true outcome)
      | (true, cloned) =>
        match forkPages t p c outcome (s.setVmas c cloned) []
            (vmas.flatMap fun v => (vmaPages v).map (v, ·)) with
        | (false, s, cow) => (false, discardChild t s p c cow true outcome)
        | (true, s, cow) =>
          match forkSlices p c outcome s (s.procs p).loadSlices with
          | (false, s) => (false, discardChild t s p c cow true outcome)
          | (true, s) =>
            if !outcome.pins then (false, discardChild t s p c cow true outcome)
            else
              let s := cloneExecutableImagePin s p c
              (true, s.setProc c { s.procs c with
                life := .live, files := (s.procs p).files })

end Mecocoa.Memory
