import Mecocoa.Task.Elf

/-! # What the lazy loader knows about a page

The reference image is the memory that results from laying the segments one
after the other, in the order of their headers.  The three kinds of pages agree
with it: a file page is a page of the file, a zero page has no file byte, and
filling a private page lays the segments on that page alone.
-/

namespace Mecocoa.Elf

open Memory Lib List Option Function

/-! ## The reference image -/

/-- Lay one segment: its file bytes, then zeros up to its memory size. -/
def layPht (source : Nat → UInt8) (bias : Nat) (image : Nat → UInt8) (ph : Pht) :
    Nat → UInt8 :=
  if ph.loads then
    patch (patch image (ph.start bias) ph.pFilesz fun i => source (ph.pOffset + i))
      (ph.fileStop bias) (ph.pMemsz - ph.pFilesz) fun _ => 0
  else image

def referenceImage (source : Nat → UInt8) (bias : Nat) (headers : List Pht) : Nat → UInt8 :=
  headers.foldl (layPht source bias) fun _ => 0

/-- Some segment has bytes in the page. -/
def touched (headers : List Pht) (bias page : Nat) : Bool := headers.any (·.touches bias page)

theorem Pht.touches_iff {ph : Pht} : ph.touches bias page = true ↔
    ph.loads = true ∧ page < ph.stop bias ∧ ph.start bias < page + pageSize := by
  simp [Pht.touches, and_assoc]

theorem touched_iff :
    touched headers bias page = true ↔ ∃ ph ∈ headers, ph.touches bias page = true := by
  simp [touched]

/-- No segment has more file bytes than memory. -/
def SizesOk (headers : List Pht) : Prop :=
  ∀ ph ∈ headers, ph.loads = true → ph.pFilesz ≤ ph.pMemsz

section Lay

/-- A segment that does not touch the page leaves it as it is. -/
theorem layPht_apart (image : Nat → UInt8) (sizes : ph.loads = true → ph.pFilesz ≤ ph.pMemsz)
    (apart : ph.touches bias page = false) (small : i < pageSize) :
    layPht source bias image ph (page + i) = image (page + i) := by
  unfold layPht
  split
  · rename_i loads
    have away : ¬ (page < ph.stop bias ∧ ph.start bias < page + pageSize) := by
      intro near
      rw [Pht.touches_iff.mpr ⟨loads, near⟩] at apart
      exact absurd apart (by simp)
    have size := sizes loads
    unfold Pht.stop at away
    unfold Pht.fileStop
    rw [patch_outside (by omega), patch_outside (by omega)]
  · rfl

theorem foldl_layPht_apart (headers : List Pht) (sizes : SizesOk headers)
    (apart : ∀ ph ∈ headers, ph.touches bias page = false) (small : i < pageSize) :
    ∀ image : Nat → UInt8,
      headers.foldl (layPht source bias) image (page + i) = image (page + i) := by
  induction headers with
  | nil => exact fun _ => rfl
  | cons ph rest ih =>
    intro image
    rw [foldl_cons, ih (fun other member => sizes other (mem_cons_of_mem ph member))
      (fun other member => apart other (mem_cons_of_mem ph member))]
    exact layPht_apart image (sizes ph (.head _)) (apart ph (.head _)) small

/-- Zeros stay where no segment has file bytes. -/
theorem foldl_layPht_zero (headers : List Pht)
    (bare : ∀ ph ∈ headers, ph.touches bias page = true →
      ¬ (page < ph.fileStop bias ∧ ph.start bias < page + pageSize))
    (sizes : SizesOk headers) (small : i < pageSize) :
    ∀ image : Nat → UInt8, image (page + i) = 0 →
      headers.foldl (layPht source bias) image (page + i) = 0 := by
  induction headers with
  | nil => exact fun _ zero => zero
  | cons ph rest ih =>
    intro image zero
    apply ih (fun other member => bare other (mem_cons_of_mem ph member))
      (fun other member => sizes other (mem_cons_of_mem ph member))
    cases touch : ph.touches bias page with
    | false => rw [layPht_apart image (sizes ph (.head _)) touch small, zero]
    | true =>
      have none := bare ph (.head _) touch
      unfold layPht
      rw [if_pos (Pht.touches_iff.mp touch).1]
      unfold Pht.fileStop at none ⊢
      by_cases tail : ph.start bias + ph.pFilesz ≤ page + i ∧
          page + i < ph.start bias + ph.pFilesz + (ph.pMemsz - ph.pFilesz)
      · exact patch_inside tail.1 tail.2
      · rw [patch_outside tail, patch_outside (by omega), zero]

end Lay

/-! ## Filling a page -/

theorem copyToFrame_mem (s : Sys) (frame first length : Nat) (bytes : Nat → UInt8) :
    (s.copyToFrame frame first length bytes).mem =
      update s.mem frame (patch (s.mem frame) first length bytes) := rfl

/-- Filling in a segment lays it on the page. -/
theorem fillSegment_lays
    (loads : ph.loads = true) (sizes : ph.pFilesz ≤ ph.pMemsz)
    (same : ∀ i < pageSize, s.mem frame i = image (page + i)) :
    ∀ i < pageSize, (fillSegment s frame source bias page ph).mem frame i =
      layPht source bias image ph (page + i) := by
  intro i small
  simp only [fillSegment, copyToFrame_mem, update_self]
  unfold layPht
  rw [if_pos loads]
  have copied := patch_window page pageSize (ph.start bias) ph.pFilesz
    (fun i => source (ph.pOffset + i)) rfl rfl same
  have stop : ph.stop bias = ph.fileStop bias + (ph.pMemsz - ph.pFilesz) := by
    unfold Pht.stop Pht.fileStop
    omega
  rw [stop]
  exact patch_window page pageSize _ _ (fun _ => 0) rfl rfl copied i small

/-- The state differs in the bytes of one page only. -/
structure OnlyBytes (frame : Nat) (s s' : Sys) : Prop where
  rest : s' = { s with mem := s'.mem }
  bytes : ∀ f, f ≠ frame → s'.mem f = s.mem f

theorem OnlyBytes.refl (frame : Nat) (s : Sys) : OnlyBytes frame s s := ⟨rfl, fun _ _ => rfl⟩

theorem OnlyBytes.trans (first : OnlyBytes frame s mid)
    (second : OnlyBytes frame mid s') : OnlyBytes frame s s' where
  rest := by
    rw [second.rest, first.rest]
  bytes := fun f other => (second.bytes f other).trans (first.bytes f other)

theorem OnlyBytes.copyToFrame (s : Sys) (frame first length : Nat) (bytes : Nat → UInt8) :
    OnlyBytes frame s (s.copyToFrame frame first length bytes) :=
  ⟨rfl, fun _ other => update_of_ne other ..⟩

theorem OnlyBytes.fillSegment (s : Sys) (frame : Nat) (source : Nat → UInt8) (bias page : Nat)
    (ph : Pht) : OnlyBytes frame s (fillSegment s frame source bias page ph) := by
  unfold Elf.fillSegment
  exact (OnlyBytes.copyToFrame ..).trans (.copyToFrame ..)

theorem fillSegments_lays {frame bias page : Nat} {read : Nat → Bool}
    (segments : List (Pht × Nat)) : ∀ {s s' : Sys} (image : Nat → UInt8),
      (∀ segment ∈ segments, segment.1.loads = true →
        segment.1.pFilesz ≤ segment.1.pMemsz) →
      (∀ i < pageSize, s.mem frame i = image (page + i)) →
      fillSegments frame source bias page read s segments = (true, s') → OnlyBytes frame s s' ∧
      ∀ i < pageSize,
        s'.mem frame i = (segments.map (·.1)).foldl (layPht source bias) image (page + i) := by
  induction segments with
  | nil =>
    intro s s' image _ same ran
    cases ran
    exact ⟨.refl frame s, same⟩
  | cons segment rest ih =>
    intro s s' image sizes same ran
    obtain ⟨ph, index⟩ := segment
    have size := sizes (ph, index) (.head _)
    have later := fun other member => sizes other (mem_cons_of_mem (ph, index) member)
    simp only [fillSegments] at ran
    split at ran
    · rename_i apart
      have away : ph.touches bias page = false := by simpa using apart
      apply ih _ later _ ran
      intro i small
      rw [layPht_apart image size away small]
      exact same i small
    · rename_i touch
      split at ran
      · cases ran
      · have loads := (Pht.touches_iff.mp (by simpa using touch)).1
        obtain ⟨kept, bytes⟩ := ih _ later (fillSegment_lays loads (size loads) same) ran
        exact ⟨(OnlyBytes.fillSegment ..).trans kept, bytes⟩

/-! ## The description of a page -/

section Describe

/-- What the scan has gathered after some of the segments. -/
structure Scanned (headers : List Pht) (bias page : Nat) (seen : List Pht) (scan : PageScan) :
    Prop where
  covered : scan.covered = seen.any (·.touches bias page)
  executable : scan.executable = seen.any fun ph => ph.touches bias page && ph.executable
  writable : scan.writable = seen.any fun ph => ph.touches bias page && ph.writable
  bare : scan.hasFileBytes = false → ∀ ph ∈ seen, ph.touches bias page = true →
    ¬ (page < ph.fileStop bias ∧ ph.start bias < page + pageSize)
  full : ∀ i, scan.fullFileSegment = some i → fullFileLoadPage headers i page bias = true

theorem Scanned.next (scanned : Scanned headers bias page seen scan)
    (segment : Pht × Nat) :
    Scanned headers bias page (seen ++ [segment.1])
      (describeSegment headers bias page scan segment) := by
  obtain ⟨ph, index⟩ := segment
  unfold describeSegment
  cases touch : ph.touches bias page with
  | false =>
    refine ⟨by simp [scanned.covered, touch], by simp [scanned.executable, touch],
      by simp [scanned.writable, touch], ?_, scanned.full⟩
    intro none other member touches
    rcases mem_append.mp member with old | new
    · exact scanned.bare none other old touches
    · obtain rfl := mem_singleton.mp new
      exact absurd touches (by simp [touch])
  | true =>
    simp only [Bool.not_true, Bool.false_eq_true, if_false]
    refine ⟨by simp [touch], by simp [scanned.executable, touch], by simp [scanned.writable,
      touch], ?_, ?_⟩
    · intro none other member touches
      rw [Bool.or_eq_false_iff] at none
      rcases mem_append.mp member with old | new
      · exact scanned.bare none.1 other old touches
      · obtain rfl := mem_singleton.mp new
        have := none.2
        simpa using this
    · intro i found
      split at found
      · rename_i full
        cases found
        exact full
      · exact scanned.full i found

theorem Scanned.foldl (segments : List (Pht × Nat)) : ∀ {seen : List Pht} {scan : PageScan},
    Scanned headers bias page seen scan → Scanned headers bias page (seen ++ segments.map (·.1))
      (segments.foldl (describeSegment headers bias page) scan) := by
  induction segments with
  | nil =>
    intro seen scan scanned
    simpa using scanned
  | cons segment rest ih =>
    intro seen scan scanned
    have next := ih (scanned.next segment)
    rw [append_assoc] at next
    exact next

theorem Scanned.all (headers : List Pht) (bias page : Nat) :
    Scanned headers bias page headers
      (headers.zipIdx.foldl (describeSegment headers bias page) {}) := by
  have start : Scanned headers bias page [] {} := ⟨rfl, rfl, rfl, by simp, by simp⟩
  simpa using start.foldl headers.zipIdx

/-- Some segment with bytes in the page may be executed. -/
def pageExecutable (headers : List Pht) (bias page : Nat) : Bool :=
  headers.any fun ph => ph.touches bias page && ph.executable

def pageWritable (headers : List Pht) (bias page : Nat) : Bool :=
  headers.any fun ph => ph.touches bias page && ph.writable

theorem describe_none :
    describeELFLoadPage t headers bias page = none ↔ touched headers bias page = false := by
  have scanned := Scanned.all headers bias page
  unfold describeELFLoadPage touched
  rw [← scanned.covered]
  cases covered : (headers.zipIdx.foldl (describeSegment headers bias page) {}).covered with
  | false => simp [covered]
  | true =>
    simp only [covered, Bool.not_true, Bool.false_eq_true, if_false]
    split <;> simp

/-- The plan of a touched page. -/
structure Described (t : Target) (headers : List Pht) (bias page : Nat) (plan : ELFLoadPagePlan) :
    Prop where
  touched : touched headers bias page = true
  address : plan.address = page
  flags :
    plan.flags = loadFlags t (pageExecutable headers bias page) (pageWritable headers bias page)
  file : plan.kind = .file → ∃ i ph, headers[i]? = some ph ∧
    fullFileLoadPage headers i page bias = true ∧
    plan.fileOffset = ph.pOffset + page - ph.start bias
  bare : plan.kind = .zero → ∀ ph ∈ headers, ph.touches bias page = true →
    ¬ (page < ph.fileStop bias ∧ ph.start bias < page + pageSize)

theorem describe_some
    (described : describeELFLoadPage t headers bias page = some plan) :
    Described t headers bias page plan := by
  have scanned := Scanned.all headers bias page
  have touch : touched headers bias page = true := by
    cases untouched : touched headers bias page with
    | true => rfl
    | false => exact absurd (described.symm.trans (describe_none.mpr untouched)) (by simp)
  unfold describeELFLoadPage at described
  generalize headers.zipIdx.foldl (describeSegment headers bias page) {} = scan at *
  obtain ⟨_, described⟩ := ite_none_left_eq_some.mp described
  split at described
  · rename_i ph found
    obtain ⟨i, segment, here⟩ := bind_eq_some_iff.mp found
    cases described
    refine ⟨touch, rfl, ?_, fun _ => ⟨i, ph, here, scanned.full i segment, rfl⟩, by simp⟩
    rw [scanned.executable, scanned.writable]
    rfl
  · cases described
    refine ⟨touch, rfl, ?_, ?_, ?_⟩
    · dsimp only
      rw [scanned.executable, scanned.writable]
      rfl
    · dsimp only
      split <;> simp
    · dsimp only
      split
      · simp
      · rename_i none
        exact fun _ => scanned.bare (by simpa using none)

/-- The segment of a file page is the only one in it. -/
theorem Described.file_split (described : Described t headers bias page plan)
    (kind : plan.kind = .file) :
    ∃ ph before after, headers = before ++ ph :: after ∧ ph.loads = true ∧
      (∀ other ∈ after, other.touches bias page = false) ∧ ph.start bias ≤ page ∧
      page - ph.start bias + pageSize ≤ ph.pFilesz ∧
      plan.fileOffset = ph.pOffset + page - ph.start bias := by
  obtain ⟨i, ph, here, full, offset⟩ := described.file kind
  unfold fullFileLoadPage at full
  rw [here] at full
  simp only [Bool.and_eq_true, decide_eq_true_eq] at full
  obtain ⟨⟨⟨⟨low, large⟩, inside⟩, -⟩, alone⟩ := full
  obtain ⟨bound, value⟩ := List.getElem?_eq_some_iff.mp here
  have others : ∀ j other, headers[j]? = some other → j ≠ i →
      other.touches bias page = false := by
    intro j other there different
    have untouched := all_eq_true.mp alone (other, j) (by
      rw [mem_zipIdx_iff_getElem?]
      exact there)
    simpa [different] using untouched
  refine ⟨ph, headers.take i, headers.drop (i + 1), ?_, ?_, ?_, low, by omega, offset⟩
  · rw [← value, ← drop_eq_getElem_cons bound, take_append_drop]
  · obtain ⟨other, member, touch⟩ := touched_iff.mp described.touched
    obtain ⟨j, there⟩ := getElem?_of_mem member
    by_cases same : j = i
    · cases (same ▸ there).symm.trans here
      exact (Pht.touches_iff.mp touch).1
    · exact absurd touch (by simp [others j other there same])
  · intro other member
    obtain ⟨j, there⟩ := getElem?_of_mem member
    rw [getElem?_drop] at there
    exact others _ other there (by omega)

/-- A file page shows the file. -/
theorem Described.file_bytes (described : Described t headers bias page plan)
    (kind : plan.kind = .file) (sizes : SizesOk headers) (small : i < pageSize) :
    referenceImage source bias headers (page + i) = source (plan.fileOffset + i) := by
  obtain ⟨ph, before, after, split, loads, right, low, inside, offset⟩ :=
    described.file_split kind
  unfold referenceImage
  rw [split] at sizes
  rw [split, foldl_append, foldl_cons, foldl_layPht_apart after
    (fun other later => sizes other (mem_append_right _ (mem_cons_of_mem ph later))) right small]
  unfold layPht
  rw [if_pos loads, patch_outside (by unfold Pht.fileStop; omega),
    patch_inside (by omega) (by omega), offset]
  congr 1
  omega

end Describe

/-! ## Walking the pages -/

theorem aligned_pageSize : Aligned pageSize := by
  simp [Aligned]

section Walk

variable {after : Option Nat}

/-- The page comes after the last one that was handled. -/
def Beyond (after : Option Nat) (page : Nat) : Prop := ∀ last ∈ after, last < page

theorem segmentPageAfter_some {ph : Pht} (loads : ph.loads = true)
    (handled : ∀ last ∈ after, Aligned last)
    (found : segmentPageAfter bias after ph = some page) :
    Aligned page ∧ ph.touches bias page = true ∧ Beyond after page ∧
      ∀ a, Aligned a → Beyond after a → ph.touches bias a = true → page ≤ a := by
  simp only [Pht.touches_iff, loads, true_and]
  unfold segmentPageAfter at found
  unfold Beyond
  cases after with
  | none =>
    dsimp only at found
    obtain ⟨_, ⟨⟩⟩ := ite_none_right_eq_some.mp found
    unfold pageFloor pageSize at *
    refine ⟨by unfold Aligned pageSize; omega, by omega, by simp, ?_⟩
    intro a aligned _ near
    unfold Aligned pageSize at aligned
    omega
  | some last =>
    have aligned := handled last rfl
    dsimp only at found
    simp only [mem_def, some.injEq, forall_eq']
    unfold Aligned pageFloor pageSize at *
    split at found
    · obtain ⟨_, ⟨⟩⟩ := ite_none_right_eq_some.mp found
      exact ⟨by omega, by omega, by omega, fun a alignedA beyond _ => by omega⟩
    · obtain ⟨_, ⟨⟩⟩ := ite_none_right_eq_some.mp found
      exact ⟨by omega, by omega, by omega, fun a alignedA _ near => by omega⟩

theorem segmentPageAfter_none {ph : Pht} (handled : ∀ last ∈ after, Aligned last)
    (found : segmentPageAfter bias after ph = none) (aligned : Aligned a)
    (beyond : Beyond after a) : ph.touches bias a = false := by
  rw [Bool.eq_false_iff]
  intro touch
  obtain ⟨-, near⟩ := Pht.touches_iff.mp touch
  unfold segmentPageAfter at found
  cases after with
  | none =>
    dsimp only at found
    split at found
    · cases found
    · unfold Aligned pageFloor pageSize at *
      omega
  | some last =>
    have past := beyond last rfl
    dsimp only at found
    unfold Aligned pageFloor pageSize at *
    split at found
    · split at found
      · cases found
      · omega
    · split at found
      · cases found
      · omega

/-- The best page found among some of the segments. -/
structure NextAmong (bias : Nat) (after : Option Nat) (seen : List Pht) (result : Option Nat) :
    Prop where
  found : ∀ page ∈ result, Aligned page ∧ touched seen bias page = true ∧ Beyond after page
  least : ∀ a, Aligned a → Beyond after a → touched seen bias a = true →
    ∃ page ∈ result, page ≤ a

theorem nextELFLoadPage_among (headers : List Pht) (bias : Nat)
    (handled : ∀ last ∈ after, Aligned last) :
    NextAmong bias after headers (nextELFLoadPage headers bias after) := by
  unfold nextELFLoadPage
  -- from the right: the segments seen so far are those before the last one
  induction headers using List.reverseRecOn with
  | nil => exact ⟨by simp, by simp [touched]⟩
  | append_singleton seen ph among =>
    rw [foldl_append, foldl_cons, foldl_nil]
    generalize foldl _ none seen = result at among ⊢
    have split :
        ∀ a, touched (seen ++ [ph]) bias a = (touched seen bias a || ph.touches bias a) := by
      intro a
      simp [touched]
    cases loads : ph.loads with
    | false =>
      have untouched : ∀ a, ph.touches bias a = false := by
        intro a
        simp [Pht.touches, loads]
      exact ⟨by simpa [split, untouched] using among.found, by simpa [split,
        untouched] using among.least⟩
    | true =>
      cases candidate : segmentPageAfter bias after ph with
      | none =>
        refine ⟨fun page member => ?_, fun a aligned beyond touch => ?_⟩
        · obtain ⟨aligned, touch, beyond⟩ := among.found page member
          exact ⟨aligned, by simp [split, touch], beyond⟩
        · rw [split, segmentPageAfter_none handled candidate aligned beyond,
            Bool.or_false] at touch
          exact among.least a aligned beyond touch
      | some first =>
        obtain ⟨aligned, touch, beyond, least⟩ := segmentPageAfter_some loads handled candidate
        cases result with
        | none =>
          refine ⟨?_, fun a alignedA beyondA touchA => ?_⟩
          · rintro page ⟨⟩
            exact ⟨aligned, by simp [split, touch], beyond⟩
          · rw [split, Bool.or_eq_true] at touchA
            cases touchA with
            | inl old =>
              obtain ⟨page, none, -⟩ := among.least a alignedA beyondA old
              cases none
            | inr new => exact ⟨first, rfl, least a alignedA beyondA new⟩
        | some best =>
          obtain ⟨alignedB, touchB, beyondB⟩ := among.found best rfl
          refine ⟨?_, fun a alignedA beyondA touchA => ?_⟩
          · rintro page ⟨⟩
            split
            · exact ⟨aligned, by simp [split, touch], beyond⟩
            · exact ⟨alignedB, by simp [split, touchB], beyondB⟩
          · refine ⟨_, rfl, ?_⟩
            rw [split, Bool.or_eq_true] at touchA
            cases touchA with
            | inl old =>
              obtain ⟨page, ⟨⟩, low⟩ := among.least a alignedA beyondA old
              split <;> omega
            | inr new =>
              have := least a alignedA beyondA new
              split <;> omega

theorem sameELFLoadVma_iff : sameELFLoadVma left right = true ↔
    left.flags = right.flags ∧ (left.kind = .file ↔ right.kind = .file) ∧
      (left.kind = .file →
        right.fileOffset = left.fileOffset + right.address - left.address) := by
  unfold sameELFLoadVma
  cases leftKind : left.kind <;> cases rightKind : right.kind <;> simp

/-- The pages between the first page of a run and its end are planned like the first. -/
theorem loadRunEnd_same (t : Target) (headers : List Pht) (bias : Nat) (first : ELFLoadPagePlan)
    (rounds : Nat) :
    ∀ {runEnd : Nat}, Aligned runEnd →
      Aligned (loadRunEnd t headers bias first rounds runEnd) ∧
    runEnd ≤ loadRunEnd t headers bias first rounds runEnd ∧
    ∀ a, Aligned a → runEnd ≤ a → a < loadRunEnd t headers bias first rounds runEnd →
      ∃ next, describeELFLoadPage t headers bias a = some next ∧
      sameELFLoadVma first next = true := by
  induction rounds with
  | zero => exact fun aligned => ⟨aligned, le_refl _, fun a _ low high => absurd high (by
      simp only [loadRunEnd]
      omega)⟩
  | succ rounds ih =>
    intro runEnd aligned
    have stops : Aligned runEnd ∧ runEnd ≤ runEnd ∧ ∀ a, Aligned a → runEnd ≤ a →
      a < runEnd →
        ∃ next, describeELFLoadPage t headers bias a = some next ∧
            sameELFLoadVma first next = true :=
      ⟨aligned, le_refl _, fun a _ low high => absurd high (by omega)⟩
    simp only [loadRunEnd]
    cases described : describeELFLoadPage t headers bias runEnd with
    | none => exact stops
    | some next =>
      dsimp only
      split
      · rename_i same
        obtain ⟨alignedEnd, longer, pages⟩ := ih (aligned.add aligned_pageSize)
        refine ⟨alignedEnd, by omega, fun a alignedA low high => ?_⟩
        by_cases here : a = runEnd
        · exact ⟨next, here ▸ described, same⟩
        · have beyond : runEnd + pageSize ≤ a :=
            (aligned.lt_iff_add_le alignedA).mp (by omega)
          exact pages a alignedA beyond high
      · exact stops

/-- Every page of the image lies below the number of rounds. -/
theorem touched_lt_rounds (touch : touched headers bias page = true) :
    page / pageSize + 1 < loadRounds headers bias := by
  obtain ⟨ph, member, near⟩ := touched_iff.mp touch
  have below := (Pht.touches_iff.mp near).2.1
  have single :
      ph.stop bias / pageSize + 2 ≤ (headers.map fun ph => ph.stop bias / pageSize + 2).sum :=
    single_le_sum (by simp) _ (mem_map_of_mem member)
  have order : page / pageSize ≤ ph.stop bias / pageSize := Nat.div_le_div_right (le_of_lt below)
  unfold loadRounds
  omega

/-- The inner loop ends by its own test. -/
theorem loadRunEnd_stops (rounds : Nat) : ∀ {runEnd : Nat}, Aligned runEnd →
    loadRounds headers bias ≤ runEnd / pageSize + rounds →
    ∀ next, describeELFLoadPage t headers bias (loadRunEnd t headers bias first rounds runEnd) =
      some next →
      sameELFLoadVma first next = false := by
  induction rounds with
  | zero =>
    intro runEnd aligned enough next described
    simp only [loadRunEnd] at described
    have := touched_lt_rounds (describe_some described).touched
    omega
  | succ rounds ih =>
    intro runEnd aligned enough next described
    simp only [loadRunEnd] at described
    cases here : describeELFLoadPage t headers bias runEnd with
    | none =>
      rw [here] at described
      exact absurd (here.symm.trans described) (by simp)
    | some plan =>
      rw [here] at described
      dsimp only at described
      split at described
      · apply ih (aligned.add aligned_pageSize) _ next described
        have : (runEnd + pageSize) / pageSize = runEnd / pageSize + 1 :=
          Nat.add_div_right _ (by simp [pageSize])
        omega
      · rename_i different
        obtain rfl := some.inj (here.symm.trans described)
        simpa using different

end Walk

end Mecocoa.Elf
