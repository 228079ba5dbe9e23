import Mecocoa.Memory.RegistryRefinement

/-! # Whole runs of the mapping registry

A registry stands for a partial map from the pages of each paging object to a
physical page, a memory type and permissions.  Each call edits that map page by
page, whatever records it cuts on the way.  Memory types of overlapping records
are ordered: an older record admits a newer one, not the other way round.
-/

namespace Mecocoa.Memory

open Mecocoa.Lib PhysicalMappingRecord List Prod

variable {paging linear physical length : Nat}
    {records : List PhysicalMappingRecord}

inductive RegistryCall where
  | mapPages (paging linear physical length : Nat) (size : Option Nat) (properties : PageProps)
      (outcome : RegistryOutcome)
  | unmapPages (paging linear length : Nat) (outcome : RegistryOutcome)
  | releasePagingMappings (paging : Nat)

namespace RegistryCall

def exec (lib : PagingLibrary) (t : Target) (records : List PhysicalMappingRecord) :
    RegistryCall → Bool × List PhysicalMappingRecord
  | mapPages paging linear physical length size properties outcome =>
    Memory.mapPages lib t records paging linear physical length size properties outcome
  | unmapPages paging linear length outcome =>
    Memory.unmapPages t records paging linear length outcome
  | releasePagingMappings paging => (true, Memory.releasePagingMappings records paging)

/-- A successful call from one registry to the next. -/
def Succeeds (lib : PagingLibrary) (t : Target) (records : List PhysicalMappingRecord)
    (call : RegistryCall) (records' : List PhysicalMappingRecord) : Prop :=
  call.exec lib t records = (true, records')

/-- A call that is accepted or refused. -/
def Returns (lib : PagingLibrary) (t : Target) (records : List PhysicalMappingRecord)
    (call : RegistryCall) (records' : List PhysicalMappingRecord) : Prop :=
  ∃ accepted, call.exec lib t records = (accepted, records')

/-- What a call means page by page. -/
def pointwise (lib : PagingLibrary) (t : Target)
    (view : Nat → Nat → Option (Nat × PageType × PageProps)) (call : RegistryCall) :
    Nat → Nat → Option (Nat × PageType × PageProps) := fun q n =>
  match call with
  | mapPages paging linear physical length size properties _ =>
    match requestShift lib t size, lib.normalizePageProperties properties with
    | some shift, some normalized =>
      if 0 < length ∧ q = paging ∧ InRequest shift linear length n then
        some ((physical / 2 ^ shift * 2 ^ shift +
            (n * pageSize - linear / 2 ^ shift * 2 ^ shift)) / pageSize, normalized.type,
            normalized.permissions)
      else view q n
    | _, _ => view q n
  | unmapPages paging linear length _ =>
    if 0 < length ∧ q = paging ∧ InRequest 12 linear length n then none else view q n
  | releasePagingMappings paging => if q = paging then none else view q n

end RegistryCall

theorem RegistryOk.nil (t : Target) : RegistryOk t [] where
  wellFormed := by simp
  apart := Pairwise.nil

theorem outside_requested
    (shape : Requested lib t paging linear physical length size properties requested) (q n : Nat) :
    Outside requested.paging requested.virtualRange (q, n) ↔
      ¬ (q = paging ∧ InRequest shape.shift linear length n) := by
  rw [shape.pages n, shape.paging]
  unfold Outside
  tauto

theorem covers_requested
    (shape : Requested lib t paging linear physical length size properties requested) (q n : Nat) :
    covers requested (q, n) = true ↔ q = paging ∧ InRequest shape.shift linear length n := by
  rw [covers_iff, shape.pages n, shape.paging]
  constructor
  · rintro ⟨rfl, inside⟩
    exact ⟨rfl, inside⟩
  · rintro ⟨rfl, inside⟩
    exact ⟨rfl, inside⟩

theorem RegistryOk.mapped (ok : RegistryOk t records)
    (shape : Requested lib t paging linear physical length size properties requested) :
    RegistryOk t
      (requested :: records.flatMap (survivors requested.paging requested.virtualRange)) := by
  have kept := ok.remove requested.paging shape.wellFormed.nonempty
    shape.wellFormed.beginAligned shape.wellFormed.endAligned
  refine ⟨?_, ?_⟩
  · exact forall_mem_cons.mpr ⟨shape.wellFormed, kept.wellFormed⟩
  · refine CellMap.Apart.cons_iff.mpr ⟨?_, kept.apart⟩
    intro d member k ⟨inside, covered⟩
    obtain ⟨r, -, piece⟩ := mem_flatMap.mp member
    have outside := ((survivors_pieces r ..).covered k |>.mp ⟨d, piece, covered⟩).2
    obtain ⟨q, n⟩ := k
    exact (outside_requested shape q n).mp outside ((covers_requested shape q n).mp inside)

theorem registryView_mapped (positive : 0 < length) (outcome : RegistryOutcome)
    (shape : Requested lib t paging linear physical length size properties requested) :
    registryView
      (requested :: records.flatMap (survivors requested.paging requested.virtualRange)) =
      (RegistryCall.mapPages paging linear physical length size properties outcome).pointwise lib t
        (registryView records) := by
  funext q n
  have rest := registryView_survivors records requested.paging requested.virtualRange q n
  simp only [RegistryCall.pointwise, shape.shiftChosen, shape.normal, positive, true_and]
  unfold registryView at rest ⊢
  rw [CellMap.lookup_cons]
  by_cases inside : q = paging ∧ InRequest shape.shift linear length n
  · rw [if_pos ((covers_requested shape q n).mpr inside), if_pos inside]
    simp only [value, shape.physicalBegin, shape.virtualBegin, shape.type, shape.permissions]
  · have unseen : ¬ covers requested (q, n) = true :=
      fun c => inside ((covers_requested shape q n).mp c)
    rw [if_neg unseen, if_neg inside, rest, if_pos ((outside_requested shape q n).mpr inside)]

theorem registryView_unmapped (positive : 0 < length)
    (normal : normalizeUnmapRequest t linear length = some removed) (lib : PagingLibrary)
    (outcome : RegistryOutcome) : registryView (records.flatMap (survivors paging removed)) =
      (RegistryCall.unmapPages paging linear length outcome).pointwise lib t
      (registryView records) := by
  obtain ⟨-, -, -, pages⟩ := normalizeUnmapRequest_some normal
  funext q n
  rw [registryView_survivors]
  simp only [RegistryCall.pointwise, positive, true_and, pages n]
  by_cases inside : q = paging ∧ removed.beginAddr ≤ n * pageSize ∧
    n * pageSize < removed.endAddr
  · rw [if_pos inside, if_neg (fun outside => outside inside)]
  · rw [if_neg inside, if_pos (show Outside paging removed (q, n) from inside)]

theorem registryView_released (records : List PhysicalMappingRecord) (paging : Nat)
    (lib : PagingLibrary) (t : Target) :
    registryView (releasePagingMappings records paging) =
      (RegistryCall.releasePagingMappings paging).pointwise lib t (registryView records) := by
  funext q n
  simp only [RegistryCall.pointwise, registryView, CellMap.lookup, releasePagingMappings,
    find?_filter]
  by_cases released : q = paging
  · rw [if_pos released, find?_eq_none.mpr fun r _ => ?_, Option.map_none]
    simpa [covers_iff, ← released] using fun other same => absurd same other
  · rw [if_neg released]
    congr 2
    funext r
    by_cases same : r.paging = paging
    · simp [covers, same, Ne.symm released]
    · simp [same]

/-! ## Memory types of overlapping records -/

def PhysicalMappingRecord.coversPhysical (r : PhysicalMappingRecord) (n : Nat) : Prop :=
  r.physicalRange.beginAddr ≤ n * pageSize ∧ n * pageSize < r.physicalRange.endAddr

/-- The type of the newer record may be put beside that of the older one. -/
def Admits (t : Target) (newer older : PhysicalMappingRecord) : Prop :=
  ∀ n, newer.coversPhysical n → older.coversPhysical n →
  physicalPageTypesCompatible t older.type newer.type = true

theorem survivors_physical {r d : PhysicalMappingRecord} (wf : r.WellFormed t)
    {range : PhysicalRange} (member : d ∈ r.survivors paging range) :
    d.type = r.type ∧ ∀ n, d.coversPhysical n → r.coversPhysical n := by
  have length := wf.length
  rcases survivors_slice member with rfl | ⟨lo, hi, low, some, high, rfl⟩
  · exact ⟨rfl, fun _ inside => inside⟩
  · refine ⟨rfl, ?_⟩
    intro n inside
    unfold coversPhysical at inside ⊢
    simp only [slice] at inside
    omega

/-- The two fragments of one record lie on different physical pages. -/
theorem survivors_admit (t : Target) (r : PhysicalMappingRecord)
    {range} (nonempty : range.beginAddr < range.endAddr) :
    (r.survivors paging range).Pairwise (Admits t) := by
  refine survivors_pairwise fun touched n inLeft inRight => ?_
  obtain ⟨-, overlapLeft, overlapRight⟩ := touches_iff.mp touched
  unfold coversPhysical at inLeft inRight
  simp only [slice] at inLeft inRight
  omega

theorem admits_survivors (wellFormed : ∀ r ∈ records, r.WellFormed t)
    (ordered : records.Pairwise (Admits t)) {range : PhysicalRange}
    (nonempty : range.beginAddr < range.endAddr) :
    (records.flatMap (survivors paging range)).Pairwise (Admits t) := by
  rw [pairwise_flatMap]
  refine ⟨fun r _ => survivors_admit t r nonempty, ?_⟩
  refine Pairwise.imp_of_mem ?_ ordered
  intro newer older inNewer inOlder admits a pieceA b pieceB n inA inB
  obtain ⟨typeA, partA⟩ := survivors_physical (wellFormed newer inNewer) pieceA
  obtain ⟨typeB, partB⟩ := survivors_physical (wellFormed older inOlder) pieceB
  rw [typeA, typeB]
  exact admits n (partA n inA) (partB n inB)

theorem admits_of_no_conflict
    (clean : mappingTypeConflicts t older newer = false) : Admits t newer older := by
  intro n inNewer inOlder
  unfold coversPhysical at inNewer inOlder
  have overlap : physicalRangesOverlap older.physicalRange newer.physicalRange = true :=
    physicalRangesOverlap_iff.mpr ⟨by omega, by omega⟩
  simpa [mappingTypeConflicts, overlap] using clean

/-- A call, accepted or refused, keeps the registry sound and its types ordered; accepted it acts
pointwise on its map, refused it leaves the registry alone. -/
theorem RegistryCall.returned (ok : RegistryOk t records) {call : RegistryCall}
    (done : call.exec lib t records = (accepted, records')) :
    RegistryOk t records' ∧ (records.Pairwise (Admits t) → records'.Pairwise (Admits t)) ∧
      if accepted then registryView records' = call.pointwise lib t (registryView records)
      else records' = records := by
  cases call with
  | mapPages paging linear physical length size properties outcome =>
    rcases mapPages_cases ok paging linear physical length size properties outcome with
      same | ⟨empty, same⟩ | ⟨requested, positive, ⟨shape⟩, clean, same⟩
    · obtain ⟨rfl, rfl⟩ := mk.inj (same.symm.trans done)
      exact ⟨ok, id, rfl⟩
    · obtain ⟨rfl, rfl⟩ := mk.inj (same.symm.trans done)
      refine ⟨ok, id, funext₂ fun q n => ?_⟩
      simp only [pointwise, empty, Nat.lt_irrefl, false_and, if_false]
      split <;> rfl
    · obtain ⟨rfl, rfl⟩ := mk.inj (same.symm.trans done)
      refine ⟨ok.mapped shape, fun ordered => pairwise_cons.mpr ⟨fun older member => ?_, ?_⟩,
        registryView_mapped positive outcome shape⟩
      · exact admits_of_no_conflict (clean older member)
      · exact admits_survivors ok.wellFormed ordered shape.wellFormed.nonempty
  | unmapPages paging linear length outcome =>
    rcases unmapPages_cases ok paging linear length outcome with
      same | ⟨empty, same⟩ | ⟨removed, positive, normal, same⟩
    · obtain ⟨rfl, rfl⟩ := mk.inj (same.symm.trans done)
      exact ⟨ok, id, rfl⟩
    · obtain ⟨rfl, rfl⟩ := mk.inj (same.symm.trans done)
      refine ⟨ok, id, funext₂ fun q n => ?_⟩
      simp only [pointwise, empty, Nat.lt_irrefl, false_and, if_false]
    · obtain ⟨rfl, rfl⟩ := mk.inj (same.symm.trans done)
      obtain ⟨nonempty, hlo, hhi, -⟩ := normalizeUnmapRequest_some normal
      exact ⟨ok.remove _ nonempty hlo hhi,
        fun ordered => admits_survivors ok.wellFormed ordered nonempty,
        registryView_unmapped positive normal lib outcome⟩
  | releasePagingMappings paging =>
    obtain ⟨rfl, rfl⟩ := mk.inj done
    have sub : (Memory.releasePagingMappings records paging).Sublist records := filter_sublist
    exact ⟨⟨fun r member => ok.wellFormed r (sub.subset member), ok.apart.sublist sub⟩,
      fun ordered => ordered.sublist sub, registryView_released ..⟩

/-! ## Runs -/

/-- Aligned records of one paging object that share an address share a page. -/
theorem RegistryOk.disjoint (ok : RegistryOk t records) :
    records.Pairwise fun a b => a.paging = b.paging →
      physicalRangesOverlap a.virtualRange b.virtualRange = false := by
  refine Pairwise.imp_of_mem ?_ ok.apart
  intro a b inA inB free samePaging
  by_contra overlap
  obtain ⟨left, right⟩ := physicalRangesOverlap_iff.mp (by simpa using overlap)
  have wa := ok.wellFormed a inA
  have wb := ok.wellFormed b inB
  have common : ∃ n, n * pageSize = max a.virtualRange.beginAddr b.virtualRange.beginAddr := by
    rcases le_total a.virtualRange.beginAddr b.virtualRange.beginAddr with order | order
    · rw [max_eq_right order]
      exact ⟨_, Nat.div_mul_cancel (Nat.dvd_of_mod_eq_zero wb.beginAligned)⟩
    · rw [max_eq_left order]
      exact ⟨_, Nat.div_mul_cancel (Nat.dvd_of_mod_eq_zero wa.beginAligned)⟩
  obtain ⟨n, start⟩ := common
  have positiveA := wa.nonempty
  have positiveB := wb.nonempty
  refine free (a.paging, n)
    ⟨covers_iff.mpr ⟨rfl, ?_⟩, covers_iff.mpr ⟨samePaging.symm, ?_⟩⟩
  · dsimp only
    omega
  · dsimp only
    omega

/-- Every run of successful calls leaves well-formed records, disjoint within each
paging object, that denote the map obtained call by call. -/
theorem registry_refines_pointwise (lib : PagingLibrary) (t : Target) (calls : List RegistryCall)
    (records : List PhysicalMappingRecord)
    (run : Run (fun before call after => call.Succeeds lib t before after) [] calls records) :
    (∀ r ∈ records, r.WellFormed t) ∧ (records.Pairwise fun a b => a.paging = b.paging →
        physicalRangesOverlap a.virtualRange b.virtualRange = false) ∧ registryView records =
        calls.foldl (fun view call => call.pointwise lib t view) (fun _ _ => none) := by
  obtain ⟨ok, view⟩ := run.simulates (P := RegistryOk t) registryView
    (fun view call => call.pointwise lib t view)
    (fun _ _ _ ok done => (RegistryCall.returned ok done).imp_right And.right) (RegistryOk.nil t)
  exact ⟨ok.wellFormed, ok.disjoint, view⟩

/-- A paging library with one leaf size that takes properties as they are. -/
def PagingLibrary.plain : PagingLibrary where
  normalizePageProperties := some
  isSupportedSize shift := shift == 12
  supported_ge := by
    intro shift supported
    exact (beq_iff_eq.mp supported).ge

def sampleProps (type : PageType) : PageProps :=
  { present := true, writable := true, userAccess := true, type }

/-- Three pages are mapped and the middle one is taken out again. -/
def splitCalls : List RegistryCall :=
  [.mapPages 0 0x1000 0x8000 0x3000 none (sampleProps .writeback)
      ⟨8, true⟩, .unmapPages 0 0x2000 0x1000 ⟨8, true⟩]

def splitRecords : List PhysicalMappingRecord :=
  [⟨0, ⟨0x1000, 0x2000⟩, ⟨0x8000, 0x9000⟩, .writeback,
  (sampleProps .writeback).permissions⟩,
    ⟨0, ⟨0x3000, 0x4000⟩, ⟨0xa000, 0xb000⟩, .writeback,
    (sampleProps .writeback).permissions⟩]

theorem registry_refines_pointwise_split : registryView splitRecords =
      splitCalls.foldl (fun view call => call.pointwise .plain ⟨.x8632, 1, false⟩ view)
        (fun _ _ => none) :=
  (registry_refines_pointwise .plain ⟨.x8632, 1, false⟩ splitCalls splitRecords
    (.cons rfl (.cons rfl (.nil _)))).2.2

/-- After any calls, accepted or refused, a record that shares a physical page with
an older one (the registry keeps the newest first) has a type the older one
admits, and a refused map leaves the registry as it was. -/
theorem registry_types_ordered (lib : PagingLibrary) (t : Target) (calls : List RegistryCall)
    (records : List PhysicalMappingRecord)
    (run : Run (fun before call after => call.Returns lib t before after) [] calls records) :
    records.Pairwise (Admits t) ∧
      ∀ paging linear physical length size properties outcome records',
        mapPages lib t records paging linear physical length size properties outcome =
          (false, records') → registryView records' = registryView records := by
  have both :=
    run.preserves (P := fun records => RegistryOk t records ∧ records.Pairwise (Admits t))
    (fun _ _ _ start ⟨_, done⟩ => (RegistryCall.returned start.1 done).imp_right fun both =>
    both.1 start.2)
    ⟨RegistryOk.nil t, Pairwise.nil⟩
  refine ⟨both.2, ?_⟩
  intro paging linear physical length size properties outcome records' refused
  have same : records' = records :=
    (RegistryCall.returned both.1 (show RegistryCall.exec lib t records
    (.mapPages paging linear physical length size properties outcome) =
    (false, records') from refused)).2.2
  rw [same]

/-- A page mapped write-back and then mapped again as device memory. -/
def mixedCalls : List RegistryCall :=
  [.mapPages 0 0x1000 0x8000 0x1000 none (sampleProps .writeback)
      ⟨8, true⟩, .mapPages 1 0x2000 0x8000 0x1000 none (sampleProps .device)
      ⟨8, true⟩]

def mixedRecords : List PhysicalMappingRecord :=
  [⟨1, ⟨0x2000, 0x3000⟩, ⟨0x8000, 0x9000⟩, .device, (sampleProps .device).permissions⟩,
    ⟨0, ⟨0x1000, 0x2000⟩, ⟨0x8000, 0x9000⟩, .writeback,
    (sampleProps .writeback).permissions⟩]

theorem mixedCalls_returns :
    Run
      (fun before call after => RegistryCall.Returns .plain
        ⟨.x8632, 1, false⟩ before call after) []
      mixedCalls mixedRecords :=
  .cons ⟨true, rfl⟩ (.cons ⟨true, rfl⟩ (.nil _))

theorem registry_types_ordered_mixed : mixedRecords.Pairwise (Admits ⟨.x8632, 1, false⟩) :=
  (registry_types_ordered .plain ⟨.x8632, 1, false⟩ mixedCalls mixedRecords
  mixedCalls_returns).1

/-- The older record does not admit the newer one the other way round. -/
theorem registry_types_not_symmetric :
    ¬ ∀ (lib : PagingLibrary) (t : Target) (calls : List RegistryCall)
        (records : List PhysicalMappingRecord),
      Run (fun before call after => call.Returns lib t before after) [] calls records →
        ∀ a ∈ records, ∀ b ∈ records, a ≠ b → ∀ n, a.coversPhysical n →
        b.coversPhysical n →
          physicalPageTypesCompatible t a.type b.type = true := by
  intro symmetric
  have wrong := symmetric .plain ⟨.x8632, 1, false⟩ mixedCalls mixedRecords mixedCalls_returns
    _ (.head _) _ (.tail _ (.head _)) (by decide) 8
    (by unfold coversPhysical; decide) (by unfold coversPhysical; decide)
  exact absurd wrong (by decide)

end Mecocoa.Memory
