import Mecocoa.Lib.Radix
import Mecocoa.Memory.Page

/-! # Device address translation

The VT-d domain of one PCI device: a four-level page table in pages that the
domain owns, and a record for each range that a driver has mapped.  The IOVA lock
makes each call one step.

A table entry is `none` when neither its read nor its write bit is set, and
otherwise the page it points to; addresses are page aligned, so that an entry has
nothing else in it.
-/

namespace Mecocoa.Memory

open Lib (Radix.walk Radix.set Radix.clear)

/-- Arithmetic of `uint64`. -/
def wrap64 (n : Nat) : Nat := n % 2 ^ 64

structure IovaRange where
  deviceAddress : Nat
  physical : Nat
  length : Nat
  deriving DecidableEq, Repr

/-- An active `IovaDomain`; `entries` is the content of its tables by address and index. -/
structure IovaDomain where
  attached : Bool
  root : Nat
  tables : List Nat
  entries : Nat → Nat → Option Nat
  mappings : List (Option IovaRange)

def iovaTableCapacity : Nat := 64

def iovaMappingCapacity : Nat := 48

def iovaStartAddress : Nat := 0x00100000

/-- The fields of `vtd_state` that decide about mappings. -/
structure VtdState where
  passthroughEnabled : Bool
  hostAddressWidth : Nat
  deriving DecidableEq, Repr

def physicalRangeFits (address length addressWidth : Nat) : Bool :=
  if addressWidth = 0 ∨ 64 < addressWidth ∨ length = 0 then false
  else if wrap64 (address + length) < address then false
  else if addressWidth = 64 then true
  else decide (address < 2 ^ addressWidth) && decide (length ≤ 2 ^ addressWidth - address)

/-- `AllocateDomainTable`.  An answer that no correct allocator gives, such as a page the
domain already has, counts as a failure. -/
def allocateDomainTable (vtd : VtdState) (d : IovaDomain) (answer : Option Nat) :
    Option Nat × IovaDomain :=
  if iovaTableCapacity ≤ d.tables.length then (none, d)
  else match answer with
    | none => (none, d)
    | some table =>
      if table = 0 ∨ ¬ Aligned table ∨ table ∈ d.tables then (none, d)
      else if !physicalRangeFits table pageSize vtd.hostAddressWidth then (none, d)
      else (some table, { d with
        entries := Radix.clear d.entries table
        tables := d.tables ++ [table] })

def emptyDomain : IovaDomain :=
  { attached := false, root := 0, tables := [], entries := fun _ _ => none,
    mappings := List.replicate iovaMappingCapacity none }

/-- `CreateDomain`; `slot` tells whether one of the domains is free. -/
def createDomain (vtd : VtdState) (slot : Bool) (answer : Option Nat) : Option IovaDomain :=
  if !slot then none
  else match allocateDomainTable vtd emptyDomain answer with
    | (none, _) => none
    | (some root, d) => some { d with root }

def IovaDomain.setEntry (d : IovaDomain) (table index : Nat) (entry : Option Nat) : IovaDomain :=
  { d with entries := Radix.set d.entries table index entry }

/-- The call of `GetOrCreateNextTable` on an entry that is not present. -/
def createNextTable (vtd : VtdState) (answer : Option Nat) (d : IovaDomain) (table index : Nat) :
    Option Nat × IovaDomain :=
  match allocateDomainTable vtd d answer with
  | (none, d) => (none, d)
  | (some next, d) => (some next, d.setEntry table index (some next))

/-- The indices of the three upper levels. -/
def tableIndices (deviceAddress : Nat) : List Nat :=
  [(deviceAddress >>> 39) % 512, (deviceAddress >>> 30) % 512, (deviceAddress >>> 21) % 512]

def leafIndex (deviceAddress : Nat) : Nat := (deviceAddress >>> 12) % 512

/-- The loop of `GetLeafEntry`.  `table?` answers the allocator by the number of tables there
are, `none` when nothing is to be created. -/
def getTable (vtd : VtdState) (table? : Option (Nat → Option Nat)) :
    IovaDomain → Nat → List Nat → Option Nat × IovaDomain
  | d, table, [] => (some table, d)
  | d, table, index :: indices =>
    match d.entries table index with
    | some next => getTable vtd table? d next indices
    | none =>
      match table? with
      | none => (none, d)
      | some answer =>
        match createNextTable vtd (answer d.tables.length) d table index with
        | (none, d) => (none, d)
        | (some next, d) => getTable vtd table? d next indices

/-- `GetLeafEntry`: the table and the index of the entry. -/
def getLeafEntry (vtd : VtdState) (table? : Option (Nat → Option Nat)) (d : IovaDomain)
    (deviceAddress : Nat) : Option (Nat × Nat) × IovaDomain :=
  match getTable vtd table? d d.root (tableIndices deviceAddress) with
  | (none, d) => (none, d)
  | (some table, d) => (some (table, leafIndex deviceAddress), d)

def rangesOverlap (left leftLength right rightLength : Nat) : Bool :=
  decide (left < wrap64 (right + rightLength)) && decide (right < wrap64 (left + leftLength))

def IovaDomain.ranges (d : IovaDomain) : List IovaRange := d.mappings.filterMap id

/-- The search of `AllocateIovaRange` for a free range. -/
def findCandidate (ranges : List IovaRange) (length : Nat) : Nat → Nat → Option Nat
  | 0, _ => none
  | passes + 1, candidate =>
    match ranges.find? (fun r => rangesOverlap candidate length r.deviceAddress r.length) with
    | some r =>
      findCandidate ranges length passes
        (pageFloor (wrap64 (wrap64 (r.deviceAddress + r.length) + (pageSize - 1))))
    | none =>
      if wrap64 (candidate + length) < candidate ∨ 2 ^ 48 < wrap64 (candidate + length) then none
      else some candidate

/-- `AllocateIovaRange`: a free record and the device address. -/
def allocateIovaRange (d : IovaDomain) (length preferred : Nat) : Option (Nat × Nat) :=
  match d.mappings.findIdx? (·.isNone) with
  | none => none
  | some slot =>
    if preferred ≠ 0 then
      if ¬ Aligned preferred ∨ wrap64 (preferred + length) < preferred ∨
        2 ^ 48 < wrap64 (preferred + length) then none
      else if d.ranges.any
        (fun r => rangesOverlap preferred length r.deviceAddress r.length) then none
      else some (slot, preferred)
    else (findCandidate d.ranges length (iovaMappingCapacity + 1) iovaStartAddress).map (slot, ·)

/-- Clear one leaf entry, if there is a table for it. -/
def clearIovaPage (vtd : VtdState) (d : IovaDomain) (deviceAddress : Nat) : IovaDomain :=
  match getLeafEntry vtd none d deviceAddress with
  | (none, d) => d
  | (some (table, index), d) => d.setEntry table index none

/-- `ClearIovaPages`, by the number of pages. -/
def clearIovaPages (vtd : VtdState) (d : IovaDomain) (deviceAddress pages : Nat) : IovaDomain :=
  (pagesFrom deviceAddress pages).foldl (clearIovaPage vtd) d

/-- The loop of `PopulateIovaPages`: what is left, and how many pages are done. -/
def populateFrom (vtd : VtdState) (answer : Nat → Option Nat) (deviceAddress physical : Nat) :
    Nat → Nat → IovaDomain → Bool × IovaDomain
  | 0, _, d => (true, d)
  | left + 1, done, d =>
    match getLeafEntry vtd (some answer) d (deviceAddress + done * pageSize) with
    | (none, d) => (false, clearIovaPages vtd d deviceAddress done)
    | (some (table, index), d) =>
      if (d.entries table index).isSome then (false, clearIovaPages vtd d deviceAddress done)
      else populateFrom vtd answer deviceAddress physical left (done + 1)
        (d.setEntry table index (some (physical + done * pageSize)))

def populateIovaPages (vtd : VtdState) (answer : Nat → Option Nat) (d : IovaDomain)
    (deviceAddress physical length : Nat) : Bool × IovaDomain :=
  populateFrom vtd answer deviceAddress physical (length / pageSize) 0 d

/-- What the surroundings answer during one `MapDeviceDma`. -/
structure MapDmaOutcome where
  slot : Bool
  table : Nat → Option Nat
  attach : Bool
  invalidate : Bool
  faults : Bool

structure DmaMapping where
  deviceAddress : Nat
  translated : Bool
  deriving DecidableEq, Repr

/-- `MapDeviceDma` once the domain is there; `newDomain` tells whether this call created it. -/
def mapInDomain (vtd : VtdState) (newDomain : Bool) (d : IovaDomain)
    (physical length preferred : Nat) (outcome : MapDmaOutcome) :
    Option DmaMapping × Option IovaDomain :=
  let left := fun (d : IovaDomain) => if newDomain then none else some d
  match allocateIovaRange d length preferred with
  | none => (none, left d)
  | some (slot, deviceAddress) =>
    match populateIovaPages vtd outcome.table d deviceAddress physical length with
    | (false, d) => (none, left d)
    | (true, d) =>
      let cleared := clearIovaPages vtd d deviceAddress (length / pageSize)
      if !d.attached && !outcome.attach then (none, left cleared)
      else if !newDomain && !outcome.invalidate then (none, some { cleared with attached := true })
      else if outcome.faults then (none, some { cleared with attached := true })
      else (some ⟨deviceAddress, true⟩, some { d with
        attached := true
        mappings := d.mappings.set slot (some ⟨deviceAddress, physical, length⟩) })

def identityFlag : Nat := 1

/-- `MapDeviceDma` for a device that has the domain, or none yet. -/
def mapDeviceDma (vtd : VtdState) (domain : Option IovaDomain) (pciDevice : Bool)
    (physical length : UInt64) (flags : Nat) (outcome : MapDmaOutcome) :
    Option DmaMapping × Option IovaDomain :=
  let untranslated : DmaMapping := ⟨physical.toNat, false⟩
  if flags ||| identityFlag ≠ identityFlag then (none, domain)
  else if physical = 0 ∨ length = 0 ∨ ¬ Aligned physical.toNat ∨ ¬ Aligned length.toNat then
    (none, domain)
  else if !vtd.passthroughEnabled || !pciDevice then (some untranslated, domain)
  else if !physicalRangeFits physical.toNat length.toNat vtd.hostAddressWidth then (none, domain)
  else
    let preferred := if flags &&& identityFlag ≠ 0 then physical.toNat else 0
    match domain with
    | some d => mapInDomain vtd false d physical.toNat length.toNat preferred outcome
    | none =>
      match createDomain vtd outcome.slot (outcome.table 0) with
      | none => (none, none)
      | some d => mapInDomain vtd true d physical.toNat length.toNat preferred outcome

/-- The first record of a mapped range, with its place. -/
def findRange (deviceAddress length : Nat) :
    List (Option IovaRange) → Nat → Option (Nat × IovaRange)
  | [], _ => none
  | some r :: mappings, slot =>
    if r.deviceAddress = deviceAddress ∧ r.length = length then some (slot, r)
    else findRange deviceAddress length mappings (slot + 1)
  | none :: mappings, slot => findRange deviceAddress length mappings (slot + 1)

/-- What the surroundings answer during one `UnmapDeviceDma`. -/
structure UnmapDmaOutcome where
  table : Nat → Option Nat
  invalidate : Bool

def unmapDeviceDma (vtd : VtdState) (domain : Option IovaDomain) (deviceAddress length : UInt64)
    (outcome : UnmapDmaOutcome) : Bool × Option IovaDomain :=
  if deviceAddress = 0 ∨ length = 0 ∨ ¬ Aligned deviceAddress.toNat ∨
      ¬ Aligned length.toNat then
    (false, domain)
  else if !vtd.passthroughEnabled then (true, domain)
  else match domain with
    | none => (false, none)
    | some d =>
      if !d.attached then (false, some d)
      else match findRange deviceAddress.toNat length.toNat d.mappings 0 with
        | none => (false, some d)
        | some (slot, range) =>
          let cleared := clearIovaPages vtd d deviceAddress.toNat (length.toNat / pageSize)
          if !outcome.invalidate then
            (false, some (populateIovaPages vtd outcome.table cleared deviceAddress.toNat
              range.physical length.toNat).2)
          else (true, some { cleared with mappings := cleared.mappings.set slot none })

/-- What the hardware makes of a device address with the table of the domain. -/
def IovaDomain.translate (d : IovaDomain) (deviceAddress : Nat) : Option Nat :=
  if 2 ^ 48 ≤ deviceAddress then none
  else (Radix.walk d.entries d.root (tableIndices deviceAddress ++ [leafIndex deviceAddress])).map
    (· + deviceAddress % pageSize)

inductive DmaCall where
  | map (pciDevice : Bool) (physical length : UInt64) (flags : Nat) (outcome : MapDmaOutcome)
  | unmap (deviceAddress length : UInt64) (outcome : UnmapDmaOutcome)

/-- One call; tells whether it succeeded. -/
def DmaCall.exec (vtd : VtdState) (domain : Option IovaDomain) :
    DmaCall → Bool × Option IovaDomain
  | .map pciDevice physical length flags outcome =>
    ((mapDeviceDma vtd domain pciDevice physical length flags outcome).1.isSome,
      (mapDeviceDma vtd domain pciDevice physical length flags outcome).2)
  | .unmap deviceAddress length outcome => unmapDeviceDma vtd domain deviceAddress length outcome

end Mecocoa.Memory
