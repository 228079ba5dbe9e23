import Mecocoa.Lib.Run
import Mecocoa.Memory.PhysicalMapping

/-! # What the registry of physical mappings denotes

A registry of well-formed records that are disjoint within each paging object
denotes a partial map from (paging, virtual page) to (physical page, memory type,
permissions).  Each call acts on that map pointwise, and memory types that
`PhysicalPageTypesCompatible` refuses never come to share a physical page.
-/

namespace Mecocoa.Memory

open Lib Option List

variable {r : PhysicalMappingRecord} {paging length : Nat} {range : PhysicalRange}

namespace PhysicalMappingRecord

structure WellFormed (t : Target) (r : PhysicalMappingRecord) : Prop where
  beginAligned : Aligned r.virtualRange.beginAddr
  endAligned : Aligned r.virtualRange.endAddr
  physicalAligned : Aligned r.physicalRange.beginAddr
  nonempty : r.virtualRange.beginAddr < r.virtualRange.endAddr
  length :
    r.physicalRange.endAddr =
      r.physicalRange.beginAddr + (r.virtualRange.endAddr - r.virtualRange.beginAddr)
  fits : r.physicalRange.endAddr ≤ t.maxWord

def covers (r : PhysicalMappingRecord) (k : Nat × Nat) : Bool :=
  r.paging == k.1 && decide (r.virtualRange.beginAddr ≤ k.2 * pageSize) &&
    decide (k.2 * pageSize < r.virtualRange.endAddr)

def value (r : PhysicalMappingRecord) (k : Nat × Nat) : Nat × PageType × PageProps :=
  ((r.physicalRange.beginAddr + (k.2 * pageSize - r.virtualRange.beginAddr)) / pageSize, r.type,
  r.permissions)

theorem covers_iff :
    r.covers k = true ↔ r.paging = k.1 ∧ r.virtualRange.beginAddr ≤ k.2 * pageSize ∧
      k.2 * pageSize < r.virtualRange.endAddr := by
  simp [covers, and_assoc]

/-- The part of a record over `[lo, hi)`, every page still at its physical address. -/
def slice (r : PhysicalMappingRecord) (lo hi : Nat) : PhysicalMappingRecord :=
  { r with
    virtualRange := ⟨lo, hi⟩
    physicalRange := ⟨r.physicalRange.beginAddr + (lo - r.virtualRange.beginAddr),
      r.physicalRange.beginAddr + (hi - r.virtualRange.beginAddr)⟩ }

theorem WellFormed.slice (wf : r.WellFormed t)
    (low : r.virtualRange.beginAddr ≤ lo) (some : lo < hi) (high : hi ≤ r.virtualRange.endAddr)
    (hlo : Aligned lo) (hhi : Aligned hi) : (r.slice lo hi).WellFormed t where
  beginAligned := hlo
  endAligned := hhi
  physicalAligned := wf.physicalAligned.add (hlo.sub wf.beginAligned)
  nonempty := some
  length := by simp only [PhysicalMappingRecord.slice]; omega
  fits := by
    have := wf.length
    have := wf.fits
    simp only [PhysicalMappingRecord.slice]
    omega

theorem value_slice
    (low : r.virtualRange.beginAddr ≤ lo) (inside : lo ≤ k.2 * pageSize) :
    (r.slice lo hi).value k = r.value k := by
  simp only [value, slice]
  congr 2
  omega

/-- What is left of a record of `paging` when `range` is taken out of it. -/
def survivors (paging : Nat) (range : PhysicalRange) (r : PhysicalMappingRecord) :
    List PhysicalMappingRecord :=
  if touches paging range r then
    (if r.virtualRange.beginAddr < range.beginAddr then
      [r.slice r.virtualRange.beginAddr range.beginAddr] else []) ++
    (if range.endAddr < r.virtualRange.endAddr then
      [r.slice range.endAddr r.virtualRange.endAddr] else [])
  else [r]

end PhysicalMappingRecord

open PhysicalMappingRecord

theorem physicalRangesOverlap_iff : physicalRangesOverlap left right = true ↔
      left.beginAddr < right.endAddr ∧ right.beginAddr < left.endAddr := by
  simp [physicalRangesOverlap]

theorem touches_iff : touches paging range r = true ↔ r.paging = paging ∧
      r.virtualRange.beginAddr < range.endAddr ∧ range.beginAddr < r.virtualRange.endAddr := by
  simp [touches, physicalRangesOverlap_iff]

theorem makePhysicalRange_slice (wf : r.WellFormed t)
    (lo : Nat) (low : r.virtualRange.beginAddr ≤ lo) (some : lo < hi)
    (high : hi ≤ r.virtualRange.endAddr) :
    makePhysicalRange t (t.wrap (r.physicalRange.beginAddr + (lo - r.virtualRange.beginAddr)))
      (hi - lo) = .some (r.slice lo hi).physicalRange := by
  have length := wf.length
  have fits := wf.fits
  rw [Target.wrap_of_le (by omega)]
  unfold makePhysicalRange
  rw [if_neg (by omega)]
  simp only [slice, Option.some.injEq, PhysicalRange.mk.injEq, true_and]
  omega

/-- On a well-formed record the split never fails and yields the survivors. -/
theorem splitPhysicalMappingRecord_eq (wf : r.WellFormed t)
    (nonempty : range.beginAddr < range.endAddr) (touched : touches paging range r = true) :
    splitPhysicalMappingRecord t r range = some (r.survivors paging range) := by
  obtain ⟨-, overlapLeft, overlapRight⟩ := touches_iff.mp touched
  have positive := wf.nonempty
  have overlap : physicalRangesOverlap r.virtualRange range = true :=
    physicalRangesOverlap_iff.mpr ⟨overlapLeft, overlapRight⟩
  have subtract : subtractPhysicalRange r.virtualRange range = some
      ((if r.virtualRange.beginAddr < range.beginAddr then
        [⟨r.virtualRange.beginAddr, range.beginAddr⟩] else []) ++
      if range.endAddr < r.virtualRange.endAddr then
        [⟨range.endAddr, r.virtualRange.endAddr⟩] else []) := by
    unfold subtractPhysicalRange
    rw [if_neg (by omega), overlap]
    rfl
  have leftPiece : r.virtualRange.beginAddr < range.beginAddr →
    makePhysicalRange t (t.wrap r.physicalRange.beginAddr)
        (range.beginAddr - r.virtualRange.beginAddr) =
      some (r.slice r.virtualRange.beginAddr range.beginAddr).physicalRange := by
    intro cut
    simpa only [Nat.sub_self, Nat.add_zero] using
      makePhysicalRange_slice wf _ (le_refl r.virtualRange.beginAddr) cut (by omega)
  have rightPiece := fun cut : range.endAddr < r.virtualRange.endAddr =>
    makePhysicalRange_slice wf range.endAddr (by omega) cut (le_refl _)
  unfold splitPhysicalMappingRecord survivors
  rw [subtract, touched]
  by_cases left : r.virtualRange.beginAddr < range.beginAddr
  · by_cases right : range.endAddr < r.virtualRange.endAddr
    · simp [left, right, leftPiece left, rightPiece right, slice]
    · simp [left, right, leftPiece left, slice]
  · by_cases right : range.endAddr < r.virtualRange.endAddr
    · simp [left, right, rightPiece right, slice]
    · simp [left, right]

theorem survivors_untouched
    (untouched : ¬ touches paging range r = true) : r.survivors paging range = [r] := by
  simp [survivors, untouched]

theorem mem_survivors_touched (touched : touches paging range r = true) :
    d ∈ r.survivors paging range ↔ (r.virtualRange.beginAddr < range.beginAddr ∧
        d = r.slice r.virtualRange.beginAddr range.beginAddr) ∨
        (range.endAddr < r.virtualRange.endAddr ∧
        d = r.slice range.endAddr r.virtualRange.endAddr) := by
  unfold survivors
  rw [if_pos touched, mem_append]
  by_cases left : r.virtualRange.beginAddr < range.beginAddr <;>
    by_cases right : range.endAddr < r.virtualRange.endAddr <;> simp [left, right]

/-- A survivor is the whole record or a proper part of it. -/
theorem survivors_slice (member : d ∈ r.survivors paging range) :
    d = r ∨ ∃ lo hi, r.virtualRange.beginAddr ≤ lo ∧ lo < hi ∧
      hi ≤ r.virtualRange.endAddr ∧ d = r.slice lo hi := by
  by_cases touched : touches paging range r = true
  · obtain ⟨-, overlapLeft, overlapRight⟩ := touches_iff.mp touched
    rcases (mem_survivors_touched touched).mp member with ⟨cut, rfl⟩ | ⟨cut, rfl⟩
    · exact .inr ⟨_, _, le_refl _, cut, by omega, rfl⟩
    · exact .inr ⟨_, _, by omega, cut, le_refl _, rfl⟩
  · rw [survivors_untouched touched] at member
    exact .inl (mem_singleton.mp member)

/-- What holds between the two fragments of a record holds along its survivors. -/
theorem survivors_pairwise {P : PhysicalMappingRecord → PhysicalMappingRecord → Prop}
    (two : touches paging range r = true → P (r.slice r.virtualRange.beginAddr range.beginAddr)
      (r.slice range.endAddr r.virtualRange.endAddr)) : (r.survivors paging range).Pairwise P := by
  unfold survivors
  split
  · rename_i touched
    split <;> split <;> simp [two touched]
  · exact pairwise_singleton _ _

theorem survivors_apart (nonempty : range.beginAddr < range.endAddr) :
    CellMap.Apart covers (r.survivors paging range) := by
  refine survivors_pairwise fun _ k ⟨left, right⟩ => ?_
  rw [covers_iff] at left right
  simp only [slice] at left right
  omega

/-- The keys that removing `range` from `paging` leaves alone. -/
def Outside (paging : Nat) (range : PhysicalRange) (k : Nat × Nat) : Prop :=
  ¬ (k.1 = paging ∧ range.beginAddr ≤ k.2 * pageSize ∧ k.2 * pageSize < range.endAddr)

instance (paging : Nat) (range : PhysicalRange) : DecidablePred (Outside paging range) :=
  fun _ => inferInstanceAs (Decidable (¬ _))

theorem survivors_pieces (r : PhysicalMappingRecord) (paging : Nat) (range : PhysicalRange) :
    CellMap.Pieces covers value (Outside paging range) (survivors paging range) r := by
  refine ⟨?_, ?_⟩
  · intro k
    by_cases touched : touches paging range r = true
    · obtain ⟨same, overlapLeft, overlapRight⟩ := touches_iff.mp touched
      simp only [mem_survivors_touched touched, covers_iff, Outside]
      constructor
      · intro ⟨d, piece, inside⟩
        rcases piece with ⟨cut, rfl⟩ | ⟨cut, rfl⟩ <;>
          · simp only [slice] at inside
            omega
      · intro ⟨inside, outside⟩
        by_cases before : k.2 * pageSize < range.beginAddr
        · exact ⟨_, .inl ⟨by omega, rfl⟩, inside.1, inside.2.1, before⟩
        · exact ⟨_, .inr ⟨by omega, rfl⟩, inside.1, by simp only [slice]; omega,
            inside.2.2⟩
    · rw [survivors_untouched touched]
      simp only [mem_singleton, exists_eq_left]
      refine ⟨fun inside => ⟨inside, ?_⟩, And.left⟩
      intro ⟨samePaging, low, high⟩
      rw [covers_iff] at inside
      exact touched (touches_iff.mpr ⟨by omega, by omega, by omega⟩)
  · intro d member k inside
    rcases survivors_slice member with rfl | ⟨lo, hi, low, -, -, rfl⟩
    · rfl
    · exact value_slice low (covers_iff.mp inside).2.1

/-! ## The commit consumes exactly the nodes that were prepared -/

/-- What a commit leaves of a record. -/
def pieces (t : Target) (paging : Nat) (removed : PhysicalRange) (r : PhysicalMappingRecord) :
    List PhysicalMappingRecord :=
  if touches paging removed r then (splitPhysicalMappingRecord t r removed).getD [] else [r]

theorem splitPhysicalMappingRecord_length
    (split : splitPhysicalMappingRecord t r removed = some fragments) :
    fragments.length ≤ 2 := by
  obtain ⟨remainder, subtract, pieces⟩ := bind_eq_some_iff.mp split
  unfold subtractPhysicalRange at subtract
  split_ifs at subtract <;> cases subtract <;> simp [bind_eq_some_iff] at pieces <;> grind

/-- A prepared commit takes exactly the nodes that were counted for it, and keeps every one. -/
theorem commitSurvivors_prepared (left : Nat)
    (prepared : prepareUnmapRecords t paging removed records = some needed) :
    commitSurvivors t paging removed records (needed + left) =
      some (records.flatMap (pieces t paging removed), left) ∧
      (records.flatMap (pieces t paging removed)).length + records.countP
      (fun r => (pieces t paging removed r).length = 0) =
        records.length + needed := by
  induction records generalizing needed with
  | nil =>
    cases prepared
    simp [commitSurvivors]
  | cons r records ih =>
    unfold prepareUnmapRecords at prepared
    split at prepared
    · rename_i touched
      obtain ⟨fragments, split, prepared⟩ := bind_eq_some_iff.mp prepared
      obtain ⟨count, counted, ⟨⟩⟩ := bind_eq_some_iff.mp prepared
      obtain ⟨commit, length⟩ := ih counted
      have short := splitPhysicalMappingRecord_length split
      have here : pieces t paging removed r = fragments := by simp [pieces, touched, split]
      simp only [commitSurvivors, touched, split, countP_cons, flatMap_cons, here, length_append,
        length_cons,
        decide_eq_true_iff, if_true, bind_eq_bind, bind_some]
      by_cases two : fragments.length = 2
      · simp only [two, if_true, show count + 1 + left - 1 = count + left by omega, commit]
        exact ⟨by simp, by rw [if_neg (by omega)]; omega⟩
      · simp only [two, false_and, if_false, commit, bind_some, true_and]
        split <;> omega
    · rename_i untouched
      obtain ⟨commit, length⟩ := ih prepared
      have here : pieces t paging removed r = [r] := by simp [pieces, untouched]
      simp only [commitSurvivors, untouched, commit, countP_cons, flatMap_cons, here, length_append,
        length_cons]
      exact ⟨by simp, by rw [if_neg (by simp)]; simp only [length_nil]; omega⟩

theorem prepareMapRecords_unmap (prepared : prepareMapRecords t requested records = some needed) :
    ∃ count, prepareUnmapRecords t requested.paging requested.virtualRange records =
      some count ∧ needed = count + 1 := by
  induction records generalizing needed with
  | nil =>
    cases prepared
    exact ⟨0, rfl, rfl⟩
  | cons r records ih =>
    unfold prepareMapRecords at prepared
    unfold prepareUnmapRecords
    split at prepared
    · rename_i touched
      obtain ⟨fragments, split, prepared⟩ := bind_eq_some_iff.mp prepared
      obtain ⟨_, prepared⟩ := ite_none_left_eq_some.mp prepared
      obtain ⟨n, counted, ⟨⟩⟩ := bind_eq_some_iff.mp prepared
      obtain ⟨count, tail, rfl⟩ := ih counted
      refine ⟨if fragments.length = 2 then count + 1 else count, by simp [touched, split, tail],
        ?_⟩
      split <;> rfl
    · rename_i untouched
      obtain ⟨_, prepared⟩ := ite_none_left_eq_some.mp prepared
      rw [if_neg untouched]
      exact ih prepared

/-- Whatever the registry, a commit that was prepared meets none of its assertions: it has the nodes
that it takes, and none is left over or lost.  Records that nothing is left of are given back. -/
theorem prepared_nodes_exact (t : Target) (records : List PhysicalMappingRecord) :
    (∀ requested needed, prepareMapRecords t requested records = some needed →
      ∃ committed, commitMapRecord t requested records needed = some (committed, 0) ∧
      committed.length +
        records.countP (fun r => (pieces t requested.paging requested.virtualRange r).length = 0) =
        records.length + needed) ∧
    ∀ paging removed needed, prepareUnmapRecords t paging removed records = some needed →
      ∃ kept, commitSurvivors t paging removed records needed = some (kept, 0) ∧
        kept.length + records.countP (fun r => (pieces t paging removed r).length = 0) =
        records.length + needed := by
  refine ⟨fun requested needed prepared => ?_,
    fun _ _ _ prepared => ⟨_, commitSurvivors_prepared 0 prepared⟩⟩
  obtain ⟨count, counted, rfl⟩ := prepareMapRecords_unmap prepared
  obtain ⟨commit, length⟩ := commitSurvivors_prepared 1 counted
  refine ⟨requested :: records.flatMap _, by simp only [commitMapRecord, commit]; rfl, ?_⟩
  rw [length_cons]
  omega

theorem flatMap_pieces {records : List PhysicalMappingRecord}
    (nonempty : range.beginAddr < range.endAddr) (wf : ∀ r ∈ records, r.WellFormed t) :
    records.flatMap (pieces t paging range) = records.flatMap (survivors paging range) := by
  refine flatMap_congr fun r member => ?_
  unfold pieces
  split
  · rw [splitPhysicalMappingRecord_eq (wf r member) nonempty ‹_›, getD_some]
  · rw [survivors_untouched ‹_›]

/-- A prepared map has found no type conflict with any part of the registry that it leaves in
place. -/
theorem prepareMapRecords_clean
    (nonempty : requested.virtualRange.beginAddr < requested.virtualRange.endAddr)
    (records : List PhysicalMappingRecord) (wf : ∀ r ∈ records, r.WellFormed t)
    (prepared : prepareMapRecords t requested records = some needed) :
    ∀ d ∈ records.flatMap (survivors requested.paging requested.virtualRange),
      mappingTypeConflicts t d requested = false := by
  induction records generalizing needed with
  | nil => simp
  | cons r records ih =>
    have tailWf := fun d member => wf d (mem_cons_of_mem r member)
    simp only [flatMap_cons, mem_append]
    by_cases touched : touches requested.paging requested.virtualRange r = true
    · have split := splitPhysicalMappingRecord_eq (wf r (.head _)) nonempty touched
      simp only [prepareMapRecords, touched, split, if_true, bind_eq_bind, bind_some] at prepared
      obtain ⟨clean, prepared⟩ := ite_none_left_eq_some.mp prepared
      simp only [List.any_eq_true, not_exists, not_and, Bool.not_eq_true] at clean
      obtain ⟨_, tailPrepared, _⟩ := bind_eq_some_iff.mp prepared
      exact fun d member => member.elim (clean d) (ih tailWf tailPrepared d)
    · simp only [prepareMapRecords, touched, Bool.false_eq_true, if_false] at prepared
      obtain ⟨clean, prepared⟩ := ite_none_left_eq_some.mp prepared
      refine fun d member => member.elim ?_ (ih tailWf prepared d)
      rw [survivors_untouched touched]
      intro single
      obtain rfl := mem_singleton.mp single
      simpa using clean

/-! ## Normalized requests -/

/-- Page `n` lies in the leaves of `2 ^ shift` bytes that `[linear, linear + length)` meets. -/
def InRequest (shift linear length n : Nat) : Prop :=
  linear / 2 ^ shift * 2 ^ shift ≤ n * pageSize ∧
    n * pageSize < (linear + length + (2 ^ shift - 1)) / 2 ^ shift * 2 ^ shift

instance (shift linear length n : Nat) : Decidable (InRequest shift linear length n) :=
  inferInstanceAs (Decidable (_ ∧ _))

theorem aligned_mul_pow (large : 12 ≤ shift) (n : Nat) : Aligned (n * 2 ^ shift) := by
  obtain ⟨extra, rfl⟩ := Nat.exists_eq_add_of_le large
  unfold Aligned pageSize
  rw [Nat.pow_add, show n * (2 ^ 12 * 2 ^ extra) = n * 2 ^ extra * 0x1000 by ring]
  exact Nat.mul_mod_left _ _

theorem roundRequest_some
    (done : roundRequest t shift linear length = some (first, rounded)) :
    first = linear / 2 ^ shift * 2 ^ shift ∧
      first + rounded = (linear + length + (2 ^ shift - 1)) / 2 ^ shift * 2 ^ shift := by
  unfold roundRequest at done
  obtain ⟨_, done⟩ := ite_none_left_eq_some.mp done
  obtain ⟨_, done⟩ := ite_none_left_eq_some.mp done
  simp only [some.injEq, Prod.mk.injEq] at done
  obtain ⟨rfl, rfl⟩ := done
  have positive : 0 < 2 ^ shift := Nat.two_pow_pos shift
  have whole : linear - linear % 2 ^ shift = linear / 2 ^ shift * 2 ^ shift := by
    have := Nat.div_add_mod' linear (2 ^ shift)
    omega
  refine ⟨whole, ?_⟩
  rw [whole]
  have regroup : linear + length + (2 ^ shift - 1) =
      length + linear % 2 ^ shift + (2 ^ shift - 1) + linear / 2 ^ shift * 2 ^ shift := by
    have := Nat.div_add_mod' linear (2 ^ shift)
    omega
  rw [regroup, Nat.add_mul_div_right _ _ positive, Nat.add_mul]
  omega

theorem makePhysicalRange_some (made : makePhysicalRange t first length = some range) :
    range = ⟨first, first + length⟩ ∧ 0 < length ∧ first + length ≤ t.maxWord := by
  obtain ⟨_, made⟩ := ite_none_left_eq_some.mp made
  simp only [some.injEq] at made
  exact ⟨made.symm, by omega, by omega⟩

theorem requestShift_ge
    (chosen : requestShift lib t size = some shift) : 12 ≤ shift := by
  cases size with
  | none =>
    simp only [requestShift, some.injEq] at chosen
    omega
  | some wanted =>
    obtain ⟨supported, chosen⟩ := ite_none_right_eq_some.mp chosen
    simp only [some.injEq] at chosen
    subst chosen
    exact lib.supported_ge _ ((Bool.and_eq_true _ _).mp supported).1

theorem normalizeUnmapRequest_some
    (normal : normalizeUnmapRequest t linear length = some range) :
    range.beginAddr < range.endAddr ∧ Aligned range.beginAddr ∧ Aligned range.endAddr ∧
      ∀ n, InRequest 12 linear length n ↔ range.beginAddr ≤ n * pageSize ∧
      n * pageSize < range.endAddr := by
  obtain ⟨_, normal⟩ := ite_none_left_eq_some.mp normal
  obtain ⟨⟨first, rounded⟩, round, made⟩ := bind_eq_some_iff.mp normal
  obtain ⟨begins, ends⟩ := roundRequest_some round
  obtain ⟨rfl, positive, -⟩ := makePhysicalRange_some made
  refine ⟨by simpa using positive, ?_, ?_, ?_⟩
  · simpa only [begins] using aligned_mul_pow (le_refl 12) _
  · simpa only [ends] using aligned_mul_pow (le_refl 12) _
  · intro n
    simp only [InRequest, ← begins, ← ends]

/-- The record that a normalized map request asks for. -/
structure Requested (lib : PagingLibrary) (t : Target) (paging linear physical length : Nat)
    (size : Option Nat) (properties : PageProps) (requested : PhysicalMappingRecord) where
  shift : Nat
  normalized : PageProps
  shiftChosen : requestShift lib t size = some shift
  normal : lib.normalizePageProperties properties = some normalized
  wellFormed : requested.WellFormed t
  paging : requested.paging = paging
  pages : ∀ n, InRequest shift linear length n ↔
    requested.virtualRange.beginAddr ≤ n * pageSize ∧
    n * pageSize < requested.virtualRange.endAddr
  virtualBegin : requested.virtualRange.beginAddr = linear / 2 ^ shift * 2 ^ shift
  physicalBegin : requested.physicalRange.beginAddr = physical / 2 ^ shift * 2 ^ shift
  type : requested.type = normalized.type
  permissions : requested.permissions = normalized.permissions

theorem normalizeMapRequest_some
    (normal : normalizeMapRequest lib t paging linear physical length size properties =
      some requested) :
    Nonempty (Requested lib t paging linear physical length size properties requested) := by
  obtain ⟨normalized, properNormal, normal⟩ := bind_eq_some_iff.mp normal
  obtain ⟨_, normal⟩ := ite_none_left_eq_some.mp normal
  obtain ⟨_, normal⟩ := ite_none_left_eq_some.mp normal
  obtain ⟨shift, chosen, normal⟩ := bind_eq_some_iff.mp normal
  obtain ⟨_, normal⟩ := ite_none_left_eq_some.mp normal
  obtain ⟨⟨first, rounded⟩, round, normal⟩ := bind_eq_some_iff.mp normal
  obtain ⟨virtualRange, madeVirtual, normal⟩ := bind_eq_some_iff.mp normal
  obtain ⟨physicalRange, madePhysical, normal⟩ := bind_eq_some_iff.mp normal
  simp only [some.injEq] at normal
  obtain ⟨begins, ends⟩ := roundRequest_some round
  obtain ⟨rfl, positive, -⟩ := makePhysicalRange_some madeVirtual
  obtain ⟨rfl, -, fits⟩ := makePhysicalRange_some madePhysical
  subst normal
  have large := requestShift_ge chosen
  exact ⟨{
    shift, normalized
    shiftChosen := chosen
    normal := properNormal
    wellFormed := {
      beginAligned := by simpa only [begins] using aligned_mul_pow large _
      endAligned := by simpa only [ends] using aligned_mul_pow large _
      physicalAligned := aligned_mul_pow large _
      nonempty := by simpa using positive
      length := by simp
      fits := fits }
    paging := rfl
    pages := by
      intro n
      simp only [InRequest, ← begins, ← ends]
    virtualBegin := begins
    physicalBegin := rfl
    type := rfl
    permissions := rfl }⟩

/-! ## One call -/

structure RegistryOk (t : Target) (records : List PhysicalMappingRecord) : Prop where
  wellFormed : ∀ r ∈ records, r.WellFormed t
  apart : CellMap.Apart covers records

/-- The partial map that a registry stands for. -/
def registryView (records : List PhysicalMappingRecord) (paging n : Nat) :
    Option (Nat × PageType × PageProps) :=
  CellMap.lookup covers value records (paging, n)

theorem RegistryOk.remove (ok : RegistryOk t records) (paging : Nat)
    (nonempty : range.beginAddr < range.endAddr) (hlo : Aligned range.beginAddr)
    (hhi : Aligned range.endAddr) : RegistryOk t (records.flatMap (survivors paging range)) where
  wellFormed := by
    intro d member
    obtain ⟨r, inRecords, piece⟩ := mem_flatMap.mp member
    have wf := ok.wellFormed r inRecords
    by_cases touched : touches paging range r = true
    · obtain ⟨-, overlapLeft, overlapRight⟩ := touches_iff.mp touched
      rcases (mem_survivors_touched touched).mp piece with ⟨cut, rfl⟩ | ⟨cut, rfl⟩
      · exact wf.slice (le_refl _) cut (by omega) wf.beginAligned hlo
      · exact wf.slice (by omega) cut (le_refl _) hhi wf.endAligned
    · rw [survivors_untouched touched] at piece
      obtain rfl := mem_singleton.mp piece
      exact wf
  apart := ok.apart.flatMap (fun _ _ => survivors_pieces ..) fun _ _ => survivors_apart nonempty

theorem registryView_survivors (records : List PhysicalMappingRecord) (paging : Nat)
    (range : PhysicalRange) (q n : Nat) :
    registryView (records.flatMap (survivors paging range)) q n =
      if Outside paging range (q, n) then registryView records q n else none :=
  CellMap.lookup_flatMap (fun _ _ => survivors_pieces ..) (q, n)

/-- Everything a map call can do: refuse and leave the registry alone, accept an
empty request, or put a conflict-free record in front of the survivors. -/
theorem mapPages_cases
    (ok : RegistryOk t records) (paging linear physical length : Nat) (size : Option Nat)
    (properties : PageProps) (outcome : RegistryOutcome) :
    mapPages lib t records paging linear physical length size properties outcome =
      (false, records) ∨
      (length = 0 ∧ mapPages lib t records paging linear physical length size properties outcome =
        (true, records)) ∨ ∃ requested, 0 < length ∧
        Nonempty (Requested lib t paging linear physical length size properties requested) ∧
        (∀ d ∈ records.flatMap (survivors requested.paging requested.virtualRange),
          mappingTypeConflicts t d requested = false) ∧
        mapPages lib t records paging linear physical length size properties outcome =
        (true, requested ::
            records.flatMap (survivors requested.paging requested.virtualRange)) := by
  unfold mapPages
  by_cases empty : length = 0
  · exact .inr (.inl ⟨empty, by rw [if_pos empty]⟩)
  rw [if_neg empty]
  cases normal : normalizeMapRequest lib t paging linear physical length size properties with
  | none => exact .inl rfl
  | some requested =>
    obtain ⟨shape⟩ := normalizeMapRequest_some normal
    dsimp only
    cases prepared : prepareMapRecords t requested records with
    | none => exact .inl rfl
    | some needed =>
      by_cases short : outcome.nodes < needed
      · exact .inl (if_pos short)
      by_cases edited : outcome.edited = true
      · have clean :=
          prepareMapRecords_clean shape.wellFormed.nonempty records ok.wellFormed prepared
        obtain ⟨count, counted, rfl⟩ := prepareMapRecords_unmap prepared
        have commit := (commitSurvivors_prepared 1 counted).1
        rw [flatMap_pieces shape.wellFormed.nonempty ok.wellFormed] at commit
        refine .inr (.inr ⟨requested, Nat.pos_of_ne_zero empty, ⟨shape⟩, clean, ?_⟩)
        simp [short, edited, commitMapRecord, commit]
      · simp [short, edited]

theorem unmapPages_cases (ok : RegistryOk t records) (paging linear length : Nat)
    (outcome : RegistryOutcome) :
    unmapPages t records paging linear length outcome = (false, records) ∨
      (length = 0 ∧ unmapPages t records paging linear length outcome = (true, records)) ∨
      ∃ removed, 0 < length ∧ normalizeUnmapRequest t linear length = some removed ∧
        unmapPages t records paging linear length outcome =
        (true, records.flatMap (survivors paging removed)) := by
  unfold unmapPages
  by_cases empty : length = 0
  · exact .inr (.inl ⟨empty, by rw [if_pos empty]⟩)
  rw [if_neg empty]
  cases normal : normalizeUnmapRequest t linear length with
  | none => exact .inl rfl
  | some removed =>
    dsimp only
    cases prepared : prepareUnmapRecords t paging removed records with
    | none => exact .inl rfl
    | some needed =>
      have commit := (commitSurvivors_prepared 0 prepared).1
      rw [flatMap_pieces (normalizeUnmapRequest_some normal).1 ok.wellFormed] at commit
      by_cases short : outcome.nodes < needed
      · exact .inl (if_pos short)
      by_cases edited : outcome.edited = true
      · refine .inr (.inr ⟨removed, Nat.pos_of_ne_zero empty, rfl, ?_⟩)
        simp [short, edited, show commitSurvivors t paging removed records needed = _ from commit]
      · simp [short, edited]

end Mecocoa.Memory
