import Mecocoa.Lib.CellMap
import Mecocoa.Memory.Page

/-! # The registry of physical mappings

Every mapping made through `Memory::MapPages` leaves a record of its virtual and
physical range, memory type and permissions.  A later map or unmap of part of a
record keeps the rest of it as up to two fragments.  All record nodes are
reserved before the page table is touched, so that the commit cannot fail.

The registry lock makes each call one step; the calls are functions of the
registry and of what the allocator and the paging library answer.
-/

namespace Mecocoa.Memory

/-- A half-open address range. -/
structure PhysicalRange where
  beginAddr : Nat
  endAddr : Nat
  deriving DecidableEq, Repr

/-- Build a non-empty half-open range while rejecting address overflow. -/
def makePhysicalRange (t : Target) (beginAddr length : Nat) : Option PhysicalRange :=
  if length = 0 ∨ t.maxWord - beginAddr < length then none
  else some ⟨beginAddr, beginAddr + length⟩

def physicalRangesOverlap (left right : PhysicalRange) : Bool :=
  decide (left.beginAddr < right.endAddr) && decide (right.beginAddr < left.endAddr)

/-- Subtract one range from another and return up to two retained fragments. -/
def subtractPhysicalRange (source removed : PhysicalRange) : Option (List PhysicalRange) :=
  if source.endAddr ≤ source.beginAddr ∨ removed.endAddr ≤ removed.beginAddr then none
  else if !physicalRangesOverlap source removed then some [source]
  else some
    ((if source.beginAddr < removed.beginAddr then [⟨source.beginAddr, removed.beginAddr⟩]
    else []) ++
      if removed.endAddr < source.endAddr then [⟨removed.endAddr, source.endAddr⟩] else [])

/-- The types that `PhysicalPageTypesCompatible` lists. -/
def PageType.known : PageType → Bool
  | .other _ => false
  | _ => true

/-- On x86 a device page is an uncacheable one. -/
def PageType.effective (t : Target) (type : PageType) : PageType :=
  if t.isX86 && type == .device then .uncacheable else type

/-- Allow ordinary mappings to take an explicit type; reject other type conflicts. -/
def physicalPageTypesCompatible (t : Target) (existing requested : PageType) : Bool :=
  if !existing.known then false
  else if !requested.known then false
  else if requested == .default then false
  else if existing == .default || existing == .writeback then true
  else existing.effective t == requested.effective t

structure PhysicalMappingRecord where
  paging : Nat
  virtualRange : PhysicalRange
  physicalRange : PhysicalRange
  type : PageType
  permissions : PageProps
  deriving DecidableEq, Repr

/-- What the registry uses of the paging library: property normalisation, and
the supported leaf sizes, which are powers of two of at least one page. -/
structure PagingLibrary where
  normalizePageProperties : PageProps → Option PageProps
  isSupportedSize : Nat → Bool
  supported_ge : ∀ shift, isSupportedSize shift = true → 12 ≤ shift

/-- `normalized & (PGPROP_writable | PGPROP_user_access | PGPROP_global | PGPROP_nonexecutable)`. -/
def PageProps.permissions (p : PageProps) : PageProps :=
  { writable := p.writable, userAccess := p.userAccess, global := p.global, nonexecutable :=
  p.nonexecutable }

/-- Leaf size of a request; `none` is `PAGESIZE_ANY`. -/
def requestShift (lib : PagingLibrary) (t : Target) (size : Option Nat) : Option Nat :=
  match size with
  | none => some 12
  | some shift => if lib.isSupportedSize shift && decide (shift < t.wordBits) then some shift
    else none

/-- Round `linear` down and the length up to whole leaves of `2 ^ shift` bytes. -/
def roundRequest (t : Target) (shift linear length : Nat) : Option (Nat × Nat) :=
  let mask := 2 ^ shift - 1
  let offset := linear % 2 ^ shift
  if t.maxWord - offset < length then none
  else if t.maxWord - mask < length + offset then none
  else some (linear - offset, (length + offset + mask) / 2 ^ shift * 2 ^ shift)

/-- Validate and normalize a managed mapping request into one registry record. -/
def normalizeMapRequest (lib : PagingLibrary) (t : Target) (paging linear physical length : Nat)
    (size : Option Nat) (properties : PageProps) : Option PhysicalMappingRecord := do
  let normalized ← lib.normalizePageProperties properties
  if !normalized.present || normalized.weak then none
  if normalized.type = .default then none
  let shift ← requestShift lib t size
  if size = none ∧ linear % 2 ^ shift ≠ physical % 2 ^ shift then none
  let (first, rounded) ← roundRequest t shift linear length
  let virtualRange ← makePhysicalRange t first rounded
  let physicalRange ← makePhysicalRange t (physical / 2 ^ shift * 2 ^ shift) rounded
  some ⟨paging, virtualRange, physicalRange, normalized.type, normalized.permissions⟩

/-- Normalize an unmap request to its effective 4 KiB-aligned VA range. -/
def normalizeUnmapRequest (t : Target) (linear length : Nat) : Option PhysicalRange := do
  if length = 0 then none
  let (first, rounded) ← roundRequest t 12 linear length
  makePhysicalRange t first rounded

/-- Remove a VA range from one record and preserve matching VA-to-PA fragments. -/
def splitPhysicalMappingRecord (t : Target) (source : PhysicalMappingRecord)
    (removed : PhysicalRange) : Option (List PhysicalMappingRecord) := do
  let remainder ← subtractPhysicalRange source.virtualRange removed
  remainder.mapM fun range => do
    let offset := range.beginAddr - source.virtualRange.beginAddr
    let physicalRange ← makePhysicalRange t (t.wrap (source.physicalRange.beginAddr + offset))
      (range.endAddr - range.beginAddr)
    some { source with virtualRange := range, physicalRange }

/-- The record is one of `paging` that the range cuts into. -/
def touches (paging : Nat) (range : PhysicalRange) (existing : PhysicalMappingRecord) : Bool :=
  existing.paging == paging && physicalRangesOverlap existing.virtualRange range

/-- Detect an incompatible memory-type alias across overlapping PA ranges. -/
def mappingTypeConflicts (t : Target) (existing requested : PhysicalMappingRecord) : Bool :=
  physicalRangesOverlap existing.physicalRange requested.physicalRange &&
    !physicalPageTypesCompatible t existing.type requested.type

/-- Validate a map against the registry and count the record nodes it needs. -/
def prepareMapRecords (t : Target) (requested : PhysicalMappingRecord) :
    List PhysicalMappingRecord → Option Nat
  | [] => some 1
  | existing :: rest =>
    if touches requested.paging requested.virtualRange existing then do
      let fragments ← splitPhysicalMappingRecord t existing requested.virtualRange
      if fragments.any (mappingTypeConflicts t · requested) then none
      let count ← prepareMapRecords t requested rest
      some (if fragments.length = 2 then count + 1 else count)
    else if mappingTypeConflicts t existing requested then none
    else prepareMapRecords t requested rest

/-- Count the record nodes needed to represent the survivors of an unmap. -/
def prepareUnmapRecords (t : Target) (paging : Nat) (removed : PhysicalRange) :
    List PhysicalMappingRecord → Option Nat
  | [] => some 0
  | existing :: rest =>
    if touches paging removed existing then do
      let fragments ← splitPhysicalMappingRecord t existing removed
      let count ← prepareUnmapRecords t paging removed rest
      some (if fragments.length = 2 then count + 1 else count)
    else prepareUnmapRecords t paging removed rest

/-- The loop shared by both commits: replace each touched record by its
fragments.  A second fragment takes a reserved node; `none` is the null node
the source asserts it never sees.  Returns the nodes left over. -/
def commitSurvivors (t : Target) (paging : Nat) (removed : PhysicalRange) :
    List PhysicalMappingRecord → Nat → Option (List PhysicalMappingRecord × Nat)
  | [], reserved => some ([], reserved)
  | existing :: rest, reserved =>
    if touches paging removed existing then do
      let fragments ← splitPhysicalMappingRecord t existing removed
      if fragments.length = 2 ∧ reserved = 0 then none
      let (kept, left) ← commitSurvivors t paging removed rest
        (if fragments.length = 2 then reserved - 1 else reserved)
      some (fragments ++ kept, left)
    else do
      let (kept, left) ← commitSurvivors t paging removed rest reserved
      some (existing :: kept, left)

/-- Commit a successful map to the registry without allocating memory. -/
def commitMapRecord (t : Target) (requested : PhysicalMappingRecord)
    (records : List PhysicalMappingRecord) (reserved : Nat) :
    Option (List PhysicalMappingRecord × Nat) := do
  let (kept, left) ← commitSurvivors t requested.paging requested.virtualRange records reserved
  if left = 0 then none
  some (requested :: kept, left - 1)

/-- What the surroundings answer during one registry call: how many nodes the
allocator can still give, and whether the page-table edit succeeds. -/
structure RegistryOutcome where
  nodes : Nat
  edited : Bool
  deriving DecidableEq, Repr

/-- `Memory::MapPages`.  Returns the result and the registry. -/
def mapPages (lib : PagingLibrary) (t : Target) (records : List PhysicalMappingRecord)
    (paging linear physical length : Nat) (size : Option Nat) (properties : PageProps)
    (outcome : RegistryOutcome) : Bool × List PhysicalMappingRecord :=
  if length = 0 then (true, records)
  else match normalizeMapRequest lib t paging linear physical length size properties with
    | none => (false, records)
    | some requested =>
      match prepareMapRecords t requested records with
      | none => (false, records)
      | some needed =>
        if outcome.nodes < needed then (false, records)
        else if !outcome.edited then (false, records)
        else match commitMapRecord t requested records needed with
          | none => (false, records)
          | some (committed, _) => (true, committed)

/-- `Memory::UnmapPages`.  Returns the result and the registry. -/
def unmapPages (t : Target) (records : List PhysicalMappingRecord) (paging linear length : Nat)
    (outcome : RegistryOutcome) : Bool × List PhysicalMappingRecord :=
  if length = 0 then (true, records)
  else match normalizeUnmapRequest t linear length with
    | none => (false, records)
    | some removed =>
      match prepareUnmapRecords t paging removed records with
      | none => (false, records)
      | some needed =>
        if outcome.nodes < needed then (false, records)
        else if !outcome.edited then (false, records)
        else match commitSurvivors t paging removed records needed with
          | none => (false, records)
          | some (committed, _) => (true, committed)

def releasePagingMappings (records : List PhysicalMappingRecord) (paging : Nat) :
    List PhysicalMappingRecord :=
  records.filter (·.paging != paging)

end Mecocoa.Memory
