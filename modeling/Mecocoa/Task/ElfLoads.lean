import Mecocoa.Task.ElfImage
import Mecocoa.Task.Runs

/-! # The lazy loader against the reference image

`MapELFFileLoads` goes from run to run.  After each run the areas made so far
cover exactly the touched pages that were passed, every one fits its page, and
the private pages among them are filled; the pages beyond are still empty.
-/

namespace Mecocoa.Elf

open Memory Lib Option List

section Populate

/-- Bytes of a page that is neither in the image nor in the cache. -/
theorem Kept.onlyBytes (kept : Kept img p extra s) (changed : OnlyBytes f s s')
    (unmapped : ∀ a, img.leaf p s a ≠ some f)
    (uncached : ∀ e ∈ s.cache, e.physicalAddress ≠ f) :
    Kept img p extra s' := by
  have mem := changed.bytes
  rw [changed.rest]
  refine ⟨kept.owned, kept.finite, kept.held, kept.cacheFrames, kept.cached, ?_, ?_,
    kept.file.congr rfl rfl⟩
  · intro a g here i small
    have other : g ≠ f := by
      rintro rfl
      exact unmapped a here
    rw [show ({ s with mem := s'.mem } : Sys).mem g = s.mem g from mem g other]
    exact kept.shows a g here i small
  · intro e member identity version
    exact (kept.holds e member identity version).congr (mem _ (uncached e member)) rfl

/-- What the filling of a page leaves behind. -/
structure Populated (img : Image) (p : Nat) (pages : List Nat) (s s' : Sys) : Prop where
  kept : Kept img p [] s'
  vmas : s'.vmas p = s.vmas p
  others : ∀ b, b ∉ pages → s'.pte p b = s.pte p b
  resident : ∀ b, (s.pte p b).isSome → (s'.pte p b).isSome

theorem populateELFPrivatePage_spec (kept : Kept img p [] s) (ok : ImageOk t img)
    (area : vmaAt (s.vmas p) page = some v) (anonymous : v.vmType = .anonymous)
    (inside : touched img.headers img.bias page = true) (free : s.pte p page = none)
    (done : populateELFPrivatePage t s p img.source img.headers img.bias page outcome =
      (true, s')) :
    Populated img p [page] s s' ∧ (s'.pte p page).isSome := by
  unfold populateELFPrivatePage ensureVmaPage at done
  rw [area] at done
  dsimp only at done
  split at done
  case h_1 => cases done
  rename_i frame mid ensured
  split at ensured
  · cases ensured
  rw [free, anonymous] at ensured
  rcases kept.zeroPage (outcome.fault page).page .anonymous (outcome.fault page).adopted with
    ⟨s₁, refused, -, -⟩ | ⟨g, s₁, ran, kept₁, procs₁, fresh, managed, zero⟩
  · rw [refused] at ensured
    cases ensured
  rw [ran] at ensured
  cases mapped : (outcome.fault page).mapped with
  | false =>
    simp only [mapped, Memory.installPage, Bool.false_eq_true, if_false] at ensured
    cases ensured
  | true =>
    simp only [mapped, Memory.installPage, if_true] at ensured
    obtain ⟨same, rfl⟩ := Prod.mk.inj ensured
    obtain rfl := some.inj same
    -- the bytes are written after the leaf is set; the order does not matter
    have cleared :
      ∀ i < pageSize,
        ((s₁.setPte p page (some ⟨g, v.vmFlags.access⟩)).zeroFrame g).mem g i =
        (fun _ => (0 : UInt8)) (page + i) := by
      intro i small
      simp [Sys.zeroFrame, Sys.copyToFrame, small]
    obtain ⟨filled, bytes⟩ := fillSegments_lays img.headers.zipIdx (fun _ => 0) (by
        intro segment member
        exact ok.sizes segment.1 (fst_mem_of_mem_zipIdx member)) cleared done
    have changed : OnlyBytes g (s₁.setPte p page (some ⟨g, v.vmFlags.access⟩)) s' :=
      (OnlyBytes.copyToFrame ..).trans filled
    have written : OnlyBytes g s₁ { s₁ with mem := s'.mem } := ⟨rfl, changed.bytes⟩
    have unmapped : ∀ a, img.leaf p s₁ a ≠ some g := by
      intro a here
      rw [leaf_congr procs₁] at here
      exact kept.leaf_ne fresh a here
    have uncached : ∀ e ∈ s₁.cache, e.physicalAddress ≠ g := by
      rintro e member rfl
      have := kept₁.cached e member
      simp [cacheRefs, managed] at this
    have kept₂ : Kept img p [g] { s₁ with mem := s'.mem } :=
      kept₁.onlyBytes written unmapped uncached
    have free₂ : ({ s₁ with mem := s'.mem } : Sys).pte p page = none := by
      change s₁.pte p page = none
      rw [Sys.pte, procs₁]
      exact free
    have last := kept₂.install inside free₂ v.vmFlags.access (by
      intro i small
      have here := bytes i small
      rw [zipIdx_map_fst] at here
      exact here)
    have final :
        s' = Sys.setPte { s₁ with mem := s'.mem } p page (some ⟨g, v.vmFlags.access⟩) :=
      changed.rest
    rw [final]
    refine ⟨⟨last, ?_, ?_, ?_⟩, by simp [Sys.pte_setPte]⟩
    · rw [Sys.vmas_setPte]
      exact congrArg (fun procs => (procs p).vmas) procs₁
    · intro b other
      rw [Sys.pte_setPte, if_neg (by simpa using other)]
      exact congrArg (fun procs => (procs p).paging b) procs₁
    · intro b here
      rw [Sys.pte_setPte]
      split
      · rfl
      · change (s₁.pte p b).isSome
        rw [Sys.pte, procs₁]
        exact here

theorem populateRun_spec (ok : ImageOk t img)
    (anonymous : v.vmType = .anonymous) (pages : List Nat) :
    ∀ {s s' : Sys}, Kept img p [] s → pages.Nodup →
      (∀ page ∈ pages, vmaAt (s.vmas p) page = some v) →
      (∀ page ∈ pages, s.pte p page = none) →
      populateRun t p img.source img.headers img.bias outcome s pages = (true, s') →
      Populated img p pages s s' ∧ ∀ page ∈ pages, ∀ plan,
        describeELFLoadPage t img.headers img.bias page = some plan → plan.kind = .priv →
        (s'.pte p page).isSome := by
  induction pages with
  | nil =>
    intro s s' kept _ _ _ done
    cases done
    exact ⟨⟨kept, rfl, fun _ _ => rfl, fun _ here => here⟩, by simp⟩
  | cons page pages ih =>
    intro s s' kept once area free done
    obtain ⟨fresh, once⟩ := nodup_cons.mp once
    have laterArea := fun b member => area b (mem_cons_of_mem page member)
    have laterFree := fun b member => free b (mem_cons_of_mem page member)
    simp only [populateRun] at done
    cases described : describeELFLoadPage t img.headers img.bias page with
    | none => simp [described] at done
    | some plan =>
      simp only [described] at done
      have step : ∃ mid, Populated img p [page] s mid ∧
        (plan.kind = .priv → (mid.pte p page).isSome) ∧
          populateRun t p img.source img.headers img.bias outcome mid pages = (true, s') := by
        split at done
        · split at done
          · cases done
          · rename_i mid filled
            obtain ⟨first, resident⟩ := populateELFPrivatePage_spec kept ok
              (area page (.head _)) anonymous (describe_some described).touched
              (free page (.head _)) filled
            exact ⟨mid, first, fun _ => resident, done⟩
        · rename_i kind
          exact ⟨s, ⟨kept, rfl, fun _ _ => rfl, fun _ here => here⟩,
            fun yes => absurd yes kind, done⟩
      obtain ⟨mid, first, resident, done⟩ := step
      obtain ⟨rest, filledRest⟩ := ih first.kept once
        (by rw [first.vmas]; exact laterArea)
        (fun b member => by
          rw [first.others b (by simpa using fun same : b = page => fresh (same ▸ member))]
          exact laterFree b member) done
      refine ⟨⟨rest.kept, rest.vmas.trans first.vmas, ?_, ?_⟩, ?_⟩
      · intro b outside
        rw [mem_cons, not_or] at outside
        rw [rest.others b outside.2, first.others b (by simpa using outside.1)]
      · exact fun b here => rest.resident b (first.resident b here)
      · refine forall_mem_cons.mpr ⟨fun other planned kind => ?_, filledRest⟩
        obtain rfl := some.inj (described.symm.trans planned)
        exact rest.resident page (resident kind)

end Populate

/-! ## The loop over runs -/

section Loop

variable {img : Image}

/-- The page was passed by the loop. -/
def Passed (after : Option Nat) (a : Nat) : Prop := ∃ last ∈ after, a ≤ last

theorem passed_or_beyond (after : Option Nat) (a : Nat) : Passed after a ∨ Beyond after a := by
  unfold Passed Beyond
  cases after with
  | none => exact .inr (by simp)
  | some last =>
    by_cases low : a ≤ last
    · exact .inl ⟨last, rfl, low⟩
    · exact .inr (by simpa using low)

/-- The state of the loop; `created` are the areas it has made, in order. -/
structure LoopInv (t : Target) (img : Image) (p : Nat) (s₀ : Sys) (created : List Vma)
    (after : Option Nat) (s : Sys) : Prop where
  kept : Kept img p [] s
  areas : VmasOk (s.vmas p)
  perm : (s.vmas p).Perm (s₀.vmas p ++ created)
  ordered : created.Pairwise fun v w => v.vmEnd ≤ w.vmStart
  ends : ∀ v ∈ created, ∃ last ∈ after, v.vmEnd ≤ last + pageSize
  cover : ∀ a, Aligned a →
    ((∃ v ∈ created, v.covers a = true) ↔ touched img.headers img.bias a = true ∧
    Passed after a)
  fits : ∀ v ∈ created, ∀ a, Aligned a → v.covers a = true → ∃ plan,
    describeELFLoadPage t img.headers img.bias a = some plan ∧ AreaFits img a plan v
  filled : ∀ a plan, Aligned a → describeELFLoadPage t img.headers img.bias a = some plan →
    plan.kind = .priv → Passed after a → (s.pte p a).isSome
  empty : ∀ a, Aligned a → touched img.headers img.bias a = true → Beyond after a →
    s.pte p a = none
  handled : ∀ last ∈ after, Aligned last

theorem loadVma_shape (file : VfsFile) (plan : ELFLoadPagePlan) (runEnd : Nat) :
    (loadVma file plan runEnd).vmStart = plan.address ∧
    (loadVma file plan runEnd).vmEnd = runEnd ∧
      (loadVma file plan runEnd).vmFlags = plan.flags ∧ (loadVma file plan runEnd).vmMode =
      .priv := by
  unfold loadVma
  split <;> simp

/-- The area of a run fits each of its pages. -/
theorem loadVma_fits (fInode : file.fInode = some img.ino) {first next}
    (address : next.address = a) (low : first.address ≤ a)
    (same : sameELFLoadVma first next = true) :
    AreaFits img a next (loadVma file first runEnd) := by
  obtain ⟨flags, kinds, offsets⟩ := sameELFLoadVma_iff.mp same
  obtain ⟨-, -, areaFlags, mode⟩ := loadVma_shape file first runEnd
  refine ⟨mode, areaFlags.trans flags, ?_, ?_⟩
  · intro kind
    have firstKind := kinds.mpr kind
    have offset := offsets firstKind
    unfold loadVma
    rw [if_pos firstKind]
    exact ⟨rfl, ⟨file, rfl, fInode⟩, by dsimp only; omega⟩
  · intro kind
    unfold loadVma
    rw [if_neg fun firstKind => kind (kinds.mp firstKind)]

theorem sameELFLoadVma_refl (plan : ELFLoadPagePlan) : sameELFLoadVma plan plan = true :=
  sameELFLoadVma_iff.mpr ⟨rfl, Iff.rfl, fun _ => by omega⟩

/-- The pages of a run and the plans that its area has to fit. -/
theorem run_pages (rounds : Nat) (aligned : Aligned page)
    (planned : describeELFLoadPage t img.headers img.bias page = some plan) :
    Aligned (loadRunEnd t img.headers img.bias plan rounds (page + pageSize)) ∧
      page + pageSize ≤ loadRunEnd t img.headers img.bias plan rounds (page + pageSize) ∧
      ∀ a, Aligned a → page ≤ a →
      a < loadRunEnd t img.headers img.bias plan rounds (page + pageSize) →
        ∃ next, describeELFLoadPage t img.headers img.bias a = some next ∧
        sameELFLoadVma plan next = true := by
  obtain ⟨alignedEnd, long, pages⟩ :=
    loadRunEnd_same t img.headers img.bias plan rounds (aligned.add aligned_pageSize)
  refine ⟨alignedEnd, long, fun a alignedA low high => ?_⟩
  by_cases here : a = page
  · exact ⟨plan, here ▸ planned, sameELFLoadVma_refl plan⟩
  · exact pages a alignedA ((aligned.lt_iff_add_le alignedA).mp (by omega)) high

/-- One run: its area is inserted and its private pages are filled. -/
theorem LoopInv.run {after} (inv : LoopInv t img p s₀ created after s) (ok : ImageOk t img)
    (fInode : file.fInode = some img.ino)
    (next : nextELFLoadPage img.headers img.bias after = some page)
    (planned : describeELFLoadPage t img.headers img.bias page = some plan)
    (ends : runEnd = loadRunEnd t img.headers img.bias plan (loadRounds img.headers img.bias)
    (page + pageSize)) (inserted : insertELFLoadVma s p file plan runEnd outcome = (true, mid))
    (populated : (if plan.kind = .file then (true, mid)
    else populateRun t p img.source img.headers img.bias outcome mid
    (pagesFrom page ((runEnd - page) / pageSize))) = (true, s')) :
    LoopInv t img p s₀ (created ++ [loadVma file plan runEnd]) (some (runEnd - pageSize)) s' := by
  have among := nextELFLoadPage_among img.headers img.bias inv.handled
  obtain ⟨aligned, touch, beyond⟩ := among.found page next
  have least : ∀ a, Aligned a → Beyond after a → touched img.headers img.bias a = true →
      page ≤ a := by
    intro a alignedA beyondA touchA
    obtain ⟨best, found, low⟩ := among.least a alignedA beyondA touchA
    obtain rfl := some.inj (next.symm.trans found)
    exact low
  obtain ⟨alignedEnd, long, pages⟩ :=
    run_pages (loadRounds img.headers img.bias) aligned planned
  rw [← ends] at alignedEnd long pages
  have address := (describe_some planned).address
  obtain ⟨vStart, vEnd, -, -⟩ := loadVma_shape file plan runEnd
  rw [address] at vStart
  have covers : ∀ a, (loadVma file plan runEnd).covers a = true ↔ page ≤ a ∧
      a < runEnd := by
    intro a
    rw [Vma.covers_iff, vStart, vEnd]
  have passed : ∀ a, Aligned a → (Passed (some (runEnd - pageSize)) a ↔ a < runEnd) := by
    intro a alignedA
    simp only [Passed, mem_def, some.injEq, exists_eq_left']
    have := alignedA.lt_iff_add_le alignedEnd
    omega
  have old : ∀ a, Passed after a → a < page := by
    rintro a ⟨last, here, low⟩
    have := beyond last here
    omega
  -- the area goes in
  unfold insertELFLoadVma at inserted
  split at inserted
  · cases inserted
  split at inserted
  · cases inserted
  rename_i vmas insertion
  obtain ⟨-, rfl⟩ := Prod.mk.inj inserted
  obtain ⟨wf, before, behind, split, rfl, left, right⟩ :=
    insertVmaSorted_some inv.areas insertion
  have placed : VmasOk (before ++ loadVma file plan runEnd :: behind) :=
    VmasOk.inserted (split ▸ inv.areas) wf left right
  have midVmas : (s.setVmas p (before ++ loadVma file plan runEnd :: behind)).vmas p =
      before ++ loadVma file plan runEnd :: behind := by
    rw [Sys.vmas_setVmas, if_pos rfl]
  have midPte : ∀ a, (s.setVmas p (before ++ loadVma file plan runEnd :: behind)).pte p a =
      s.pte p a :=
    fun a => Sys.pte_setVmas ..
  have keptMid : Kept img p [] (s.setVmas p (before ++ loadVma file plan runEnd :: behind)) := by
    have same : img.leaf p (s.setVmas p (before ++ loadVma file plan runEnd :: behind)) =
        img.leaf p s := by
      funext a
      simp only [Image.leaf, leafFrame, midPte]
    obtain ⟨owned, finite, held, frames, cached, shows, holds, reads⟩ := inv.kept
    exact ⟨owned, same ▸ finite, same ▸ held, frames, cached, same ▸ shows, holds,
      reads.congr rfl rfl⟩
  generalize s.setVmas p (before ++ loadVma file plan runEnd :: behind) = mid at *
  -- the pages of the run
  have runPages : ∀ a, a ∈ pagesFrom page ((runEnd - page) / pageSize) ↔
      Aligned a ∧ page ≤ a ∧ a < runEnd := fun a => mem_pagesFrom_range aligned alignedEnd
  have outcomeSpec : Populated img p (pagesFrom page ((runEnd - page) / pageSize)) mid s' ∧
      ∀ a ∈ pagesFrom page ((runEnd - page) / pageSize), ∀ other,
        describeELFLoadPage t img.headers img.bias a = some other → other.kind = .priv →
            (s'.pte p a).isSome := by
    split at populated
    · rename_i kind
      obtain ⟨-, rfl⟩ := Prod.mk.inj populated
      refine ⟨⟨keptMid, rfl, fun _ _ => rfl, fun _ here => here⟩, ?_⟩
      intro a member other plannedA kindA
      obtain ⟨alignedA, low, high⟩ := (runPages a).mp member
      obtain ⟨found, plannedB, same⟩ := pages a alignedA low high
      obtain rfl := some.inj (plannedA.symm.trans plannedB)
      have := (sameELFLoadVma_iff.mp same).2.1.mp kind
      exact absurd (kindA.symm.trans this) (by simp)
    · rename_i kind
      have anonymous : (loadVma file plan runEnd).vmType = .anonymous := by
        unfold loadVma
        rw [if_neg kind]
      refine populateRun_spec ok anonymous _ keptMid (pagesFrom_nodup ..) ?_ ?_ populated
      · intro a member
        obtain ⟨-, low, high⟩ := (runPages a).mp member
        rw [midVmas]
        exact placed.vmaAt_iff.mpr ⟨by simp, (covers a).mpr ⟨low, high⟩⟩
      · intro a member
        obtain ⟨alignedA, low, high⟩ := (runPages a).mp member
        obtain ⟨found, plannedA, -⟩ := pages a alignedA low high
        rw [midPte]
        refine inv.empty a alignedA (describe_some plannedA).touched fun last here => ?_
        have := beyond last here
        omega
  obtain ⟨step, filledRun⟩ := outcomeSpec
  have vmas : s'.vmas p = before ++ loadVma file plan runEnd :: behind := step.vmas.trans midVmas
  refine ⟨step.kept, vmas ▸ placed, ?_, ?_, ?_, ?_, ?_, ?_, ?_, ?_⟩
  · rw [vmas]
    refine perm_middle.trans ?_
    rw [← split, ← append_assoc]
    exact (Perm.cons _ inv.perm).trans (perm_append_singleton _ _).symm
  · rw [pairwise_append]
    refine ⟨inv.ordered, pairwise_singleton .., ?_⟩
    intro v member w new
    obtain rfl := mem_singleton.mp new
    obtain ⟨last, here, bound⟩ := inv.ends v member
    have := ((inv.handled last here).lt_iff_add_le aligned).mp (beyond last here)
    rw [vStart]
    omega
  · refine forall_mem_append.mpr
      ⟨fun v older => ⟨_, rfl, ?_⟩, forall_mem_singleton.mpr ⟨_, rfl, ?_⟩⟩
    · obtain ⟨last, here, bound⟩ := inv.ends v older
      have := beyond last here
      omega
    · rw [vEnd]
      omega
  · intro a alignedA
    rw [passed a alignedA]
    constructor
    · rintro ⟨v, member, covered⟩
      rcases mem_append.mp member with older | new
      · obtain ⟨touchA, passedA⟩ := (inv.cover a alignedA).mp ⟨v, older, covered⟩
        have := old a passedA
        exact ⟨touchA, by omega⟩
      · obtain rfl := mem_singleton.mp new
        obtain ⟨low, high⟩ := (covers a).mp covered
        obtain ⟨found, plannedA, -⟩ := pages a alignedA low high
        exact ⟨(describe_some plannedA).touched, high⟩
    · rintro ⟨touchA, high⟩
      rcases passed_or_beyond after a with passedA | beyondA
      · obtain ⟨v, member, covered⟩ := (inv.cover a alignedA).mpr ⟨touchA, passedA⟩
        exact ⟨v, mem_append_left _ member, covered⟩
      · exact ⟨_, mem_append_right _ (mem_singleton.mpr rfl),
          (covers a).mpr ⟨least a alignedA beyondA touchA, high⟩⟩
  · refine forall_mem_append.mpr
      ⟨inv.fits, forall_mem_singleton.mpr fun a alignedA covered => ?_⟩
    obtain ⟨low, high⟩ := (covers a).mp covered
    obtain ⟨found, plannedA, same⟩ := pages a alignedA low high
    exact ⟨found, plannedA, loadVma_fits fInode (describe_some plannedA).address
      (address ▸ low) same⟩
  · intro a other alignedA plannedA kind passedA
    have high := (passed a alignedA).mp passedA
    rcases passed_or_beyond after a with older | beyondA
    · refine step.resident a ?_
      rw [midPte]
      exact inv.filled a other alignedA plannedA kind older
    · have low := least a alignedA beyondA (describe_some plannedA).touched
      exact filledRun a ((runPages a).mpr ⟨alignedA, low, high⟩) other plannedA kind
  · intro a alignedA touchA beyondA
    have high : ¬ a < runEnd := by
      have := beyondA _ rfl
      unfold Aligned pageSize at *
      omega
    rw [step.others a fun member => high ((runPages a).mp member).2.2, midPte]
    exact inv.empty a alignedA touchA fun last here => by
      have := beyond last here
      omega
  · intro last here
    obtain rfl := some.inj here
    exact alignedEnd.sub aligned_pageSize

theorem mapRuns_spec (ok : ImageOk t img) (fInode : file.fInode = some img.ino)
    (rounds : Nat) :
    ∀ {after : Option Nat} {created : List Vma} {s s' : Sys},
      LoopInv t img p s₀ created after s →
      mapRuns t p img.source file img.headers img.bias outcome rounds after s = (true, s') →
      ∃ created after, LoopInv t img p s₀ created after s' ∧
      nextELFLoadPage img.headers img.bias after = none := by
  induction rounds with
  | zero =>
    intro after created s s' _ done
    cases done
  | succ rounds ih =>
    intro after created s s' inv done
    simp only [mapRuns] at done
    split at done
    · rename_i next
      obtain ⟨-, rfl⟩ := Prod.mk.inj done
      exact ⟨created, after, inv, next⟩
    · rename_i page next
      split at done
      · cases done
      · rename_i plan planned
        split at done
        · cases done
        · rename_i mid inserted
          split at done
          · cases done
          · rename_i final populated
            exact ih (inv.run ok fInode next planned rfl inserted populated) done

theorem nextELFLoadPage_passes {after : Option Nat} (handled : ∀ last ∈ after, Aligned last)
    (next : nextELFLoadPage headers bias after = some page) :
    Aligned page ∧ touched headers bias page = true ∧ (after.map (· / pageSize + 1)).getD 0 ≤
      page / pageSize := by
  obtain ⟨aligned, touch, beyond⟩ :=
    (nextELFLoadPage_among headers bias handled).found page next
  refine ⟨aligned, touch, ?_⟩
  cases after with
  | none => exact Nat.zero_le _
  | some last =>
    have past := beyond last rfl
    have := handled last rfl
    simp only [map_some, getD_some]
    unfold Aligned pageSize at *
    omega

/-- More rounds than pages change nothing: the loop ends by its own test. -/
theorem mapRuns_rounds
    (rounds : Nat) : ∀ {after : Option Nat} {s : Sys}, (∀ last ∈ after, Aligned last) →
      loadRounds headers bias ≤ rounds + (after.map (· / pageSize + 1)).getD 0 → ∀ more,
      mapRuns t p source file headers bias outcome (rounds + 1 + more) after s =
        mapRuns t p source file headers bias outcome (rounds + 1) after s := by
  induction rounds with
  | zero =>
    intro after s handled enough more
    have none : nextELFLoadPage headers bias after = none := by
      by_contra some
      obtain ⟨page, next⟩ := Option.ne_none_iff_exists'.mp some
      obtain ⟨-, touch, passed⟩ := nextELFLoadPage_passes handled next
      have below := touched_lt_rounds touch
      omega
    rw [Nat.zero_add, Nat.add_comm 1 more]
    simp only [mapRuns, none]
  | succ rounds ih =>
    intro after s handled enough more
    have unroll : rounds + 1 + 1 + more = (rounds + 1 + more) + 1 := by omega
    rw [unroll]
    conv_lhs => unfold mapRuns
    conv_rhs => unfold mapRuns
    cases next : nextELFLoadPage headers bias after with
    | none => rfl
    | some page =>
      dsimp only
      cases planned : describeELFLoadPage t headers bias page with
      | none => rfl
      | some plan =>
        dsimp only
        obtain ⟨aligned, -, passed⟩ := nextELFLoadPage_passes handled next
        obtain ⟨alignedEnd, long, -⟩ := loadRunEnd_same t headers bias plan
          (loadRounds headers bias) (aligned.add aligned_pageSize)
        split
        · rfl
        · split
          · rfl
          · refine ih ?_ ?_ more
            · intro last here
              obtain rfl := some.inj here
              exact alignedEnd.sub aligned_pageSize
            · have step : page / pageSize ≤
                  (loadRunEnd t headers bias plan (loadRounds headers bias) (page + pageSize) -
                    pageSize) / pageSize := Nat.div_le_div_right (by omega)
              simp only [map_some, getD_some]
              omega

end Loop

/-! ## Headers that the plan accepts -/

section Accepted

variable {read : Nat → Option Pht}

/-- What the plan has checked of a segment. -/
structure SegmentOk (t : Target) (fileSize bias : Nat) (ph : Pht) : Prop where
  sizes : ph.pFilesz ≤ ph.pMemsz
  inFile : ph.pOffset + ph.pFilesz ≤ fileSize
  low : 0x10000 ≤ ph.start bias
  high : ph.stop bias + (pageSize - 1) ≤ t.maxWord

theorem planSegment_ok
    (checked : ∀ ph ∈ scan.headers, ph.loads = true → SegmentOk t fileSize bias ph)
    (done : planSegment t stackSize fileSize bias header read scan i = some scan') :
    ∀ ph ∈ scan'.headers, ph.loads = true → SegmentOk t fileSize bias ph := by
  unfold planSegment at done
  cases answer : read i with
  | none => simp [answer] at done
  | some new =>
    simp only [answer] at done
    split at done
    · rename_i idle
      obtain rfl := some.inj done
      refine forall_mem_append.mpr ⟨checked, forall_mem_singleton.mpr fun loads => ?_⟩
      simp [loads] at idle
    · obtain ⟨accepted, done⟩ := ite_none_left_eq_some.mp done
      obtain rfl := some.inj done
      refine forall_mem_append.mpr ⟨checked, forall_mem_singleton.mpr fun loads => ?_⟩
      simp only [segmentRefused, Bool.or_eq_true, decide_eq_true_eq, not_or, not_lt] at accepted
      obtain ⟨⟨⟨⟨⟨⟨⟨⟨⟨⟨sizes, offset⟩, inFile⟩, -⟩, -⟩, -⟩, low⟩,
        -⟩, -⟩, high⟩, -⟩ := accepted
      have positive : new.pMemsz ≠ 0 := by
        simp only [Pht.loads, Bool.and_eq_true] at loads
        simpa using loads.2
      exact ⟨sizes, by omega, low, by unfold Pht.stop; omega⟩

theorem planELFFileLoads_ok
    (accepted : planELFFileLoads t stackSize header fileSize bias read = some headers) :
    ∀ ph ∈ headers, ph.loads = true → SegmentOk t fileSize bias ph := by
  obtain ⟨_, accepted⟩ := ite_none_left_eq_some.mp accepted
  split at accepted
  · cases accepted
  rename_i scan scanned
  obtain ⟨_, accepted⟩ := ite_none_right_eq_some.mp accepted
  obtain rfl := some.inj accepted
  have run := Run.of_foldlM scanned
  refine run.preserves (P := fun scan : PlanScan => ∀ ph ∈ scan.headers, ph.loads = true →
    SegmentOk t fileSize bias ph) ?_ (by simp)
  intro before i next checked step
  exact planSegment_ok checked step

end Accepted

/-! ## The image of a process -/

/-- The state in which the loader may be called: the process has nothing in the place of
the image, and the reference counts of the page cache are in order.  The file is
pinned, so that it is neither written nor dirty in a shared mapping. -/
structure LoadStart (img : Image) (p : Nat) (s : Sys) : Prop where
  areas : VmasOk (s.vmas p)
  empty : ∀ a, touched img.headers img.bias a = true → s.pte p a = none
  owned : ∀ f page, s.managed f = some page → s.pool.owned f = true
  cacheFrames : (s.cache.map (·.physicalAddress)).Nodup
  cached : ∀ e ∈ s.cache, 1 ≤ cacheRefs s e.physicalAddress
  holds : CacheHolds img s
  file : FileReads img s

theorem LoadStart.kept (start : LoadStart img p s) : Kept img p [] s := by
  have none : ∀ a, img.leaf p s a = none := by
    intro a
    unfold Image.leaf leafFrame
    split
    · rename_i touch
      simp [start.empty a touch]
    · rfl
  have empty : ∀ f, holders (img.leaf p s) f = ∅ := by
    intro f
    ext a
    simp [holders, none]
  refine ⟨start.owned, ?_, ?_, start.cacheFrames, start.cached, ?_, start.holds, start.file⟩
  · intro f
    simp [empty]
  · intro f
    simp [empty]
  · intro a f here
    simp [none] at here

/-- Between the operations of a machine without device mappings the counts are in order. -/
theorem LoadStart.of_inv
    (inv : Inv t seen ⟨[], [], [], leaked⟩ s)
    (empty : ∀ a, touched img.headers img.bias a = true → s.pte p a = none)
    (file : FileReads img s) : LoadStart img p s where
  areas := inv.space.areas p
  empty := empty
  owned := fun f page managed => (inv.refs.owned f).mpr (.inl (by simp [managed]))
  cacheFrames := inv.leaf.tables.sublist (sublist_append_left _ _)
  cached := by
    intro e member
    have inTable := mem_tableFrames_cache member
    obtain ⟨page, managed⟩ := isSome_iff_exists.mp (inv.refs.tableManaged _ inTable)
    have count := inv.refs.caching _ page managed
    have positive := count_pos_iff.mpr inTable
    simp only [cacheRefs, managed, map_some, getD_some]
    omega
  holds := fun e member identity _ => identity ▸ inv.content.cached e member
  file := file

/-- A page fault of the process on a page of its image. -/
structure FaultOp where
  address : Nat
  access : VirtualMemoryAccess
  protectionFault : Bool
  outcome : FaultOutcome

def FaultIn (t : Target) (img : Image) (p : Nat) (s : Sys) (op : FaultOp) (s' : Sys) : Prop :=
  touched img.headers img.bias (pageFloor op.address) = true ∧
    (resolveVmaFault t s p op.address op.access op.protectionFault op.outcome).2 = s'

section Theorem

theorem LoadStart.boot (size : (inodes img.ino).iSize = img.fileSize)
    (bytes : ∀ offset < img.fileSize, (inodes img.ino).backend offset = img.source offset) :
    LoadStart img p (Sys.boot inodes) where
  areas := .nil
  empty := fun _ _ => rfl
  owned := fun _ _ managed => nomatch managed
  cacheFrames := .nil
  cached := fun _ member => nomatch member
  holds := fun _ member => nomatch member
  file := ⟨size, bytes, fun _ member => nomatch member⟩

theorem mapELFFileLoads_spec (ok : ImageOk t img) (fInode : file.fInode = some img.ino)
    (start : LoadStart img p s)
    (mapped : mapELFFileLoads t s p img.source file img.headers img.bias outcome = (true, s')) :
    Loaded t img p s' ∧ ∃ created, (s'.vmas p).Perm (s.vmas p ++ created) ∧
      created.Pairwise (fun v w => v.vmEnd ≤ w.vmStart) ∧
      (∀ a, Aligned a →
        ((∃ v ∈ created, v.covers a = true) ↔ touched img.headers img.bias a = true)) ∧
      ∀ v ∈ created, ∀ a, Aligned a → v.covers a = true → v.vmFlags = loadFlags t
        (pageExecutable img.headers img.bias a) (pageWritable img.headers img.bias a) := by
  have first : LoopInv t img p s [] none s :=
    ⟨start.kept, start.areas, by simp, .nil, by simp, by simp [Passed], by simp,
      by simp [Passed], fun a _ touch _ => start.empty a touch, by simp⟩
  obtain ⟨created, after, inv, finished⟩ := mapRuns_spec ok fInode _ first mapped
  have allPassed : ∀ a, Aligned a → touched img.headers img.bias a = true →
      Passed after a := by
    intro a aligned touch
    rcases passed_or_beyond after a with passed | beyond
    · exact passed
    · obtain ⟨page, found, -⟩ :=
        (nextELFLoadPage_among img.headers img.bias inv.handled).least a aligned beyond touch
      exact absurd (finished.symm.trans found) (by simp)
  have cover : ∀ a, Aligned a →
      ((∃ v ∈ created, v.covers a = true) ↔ touched img.headers img.bias a = true) := by
    intro a aligned
    rw [inv.cover a aligned]
    exact ⟨fun both => both.1, fun touch => ⟨touch, allPassed a aligned touch⟩⟩
  refine ⟨⟨inv.kept, ?_, ?_⟩, created, inv.perm, inv.ordered, cover, ?_⟩
  · intro a aligned touch
    obtain ⟨v, member, covered⟩ := (cover a aligned).mpr touch
    obtain ⟨plan, planned, fits⟩ := inv.fits v member a aligned covered
    exact ⟨plan, v, planned, inv.areas.vmaAt_iff.mpr
      ⟨inv.perm.mem_iff.mpr (mem_append_right _ member), covered⟩, fits⟩
  · intro a plan aligned planned kind
    exact inv.filled a plan aligned planned kind
      (allPassed a aligned (describe_some planned).touched)
  · intro v member a aligned covered
    obtain ⟨plan, planned, fits⟩ := inv.fits v member a aligned covered
    rw [fits.flags, (describe_some planned).flags]

/-- The permissions that the flags of a page stand for. -/
theorem loadFlags_allows (t : Target) (executable writable : Bool) (access : VirtualMemoryAccess) :
    allowsAccess (loadFlags t executable writable) access = match access with
      | .read => true
      | .write => writable
      | .execute => executable || t.arch == .x8632 := by
  cases access with
  | read | write => simp [allowsAccess, loadFlags]
  | execute =>
    cases executable with
    | true => simp [allowsAccess, loadFlags]
    | false =>
      simp only [allowsAccess, loadFlags]
      cases t.arch <;> rfl

theorem ImageOk.of_plan {read}
    (accepted : planELFFileLoads t stackSize header img.fileSize img.bias read = some img.headers)
    (small : img.fileSize ≤ t.maxWord) : ImageOk t img := by
  have checked := planELFFileLoads_ok accepted
  exact ⟨fun ph member loads => (checked ph member loads).sizes,
    fun ph member loads => (checked ph member loads).inFile, small⟩

theorem Loaded.faults (loaded : Loaded t img p s) (ok : ImageOk t img) {faults}
    (run : Run (FaultIn t img p) s faults s') : Loaded t img p s' := by
  apply run.preserves _ loaded
  rintro s op s' before ⟨inside, rfl⟩
  exact before.resolveVmaFault ok inside op.access op.protectionFault op.outcome

theorem Loaded.bytes (loaded : Loaded t img p s)
    (touch : touched img.headers img.bias a = true) (here : s.pte p a = some e) :
    ∀ i < pageSize, s.mem e.frame i = referenceImage img.source img.bias img.headers (a + i) :=
  loaded.kept.shows a e.frame (by simp [Image.leaf, touch, leafFrame, here])

/-- The lazily loaded image, once its pages are faulted in, is the reference image. -/
theorem mapped_image_is_reference {stackSize : Nat} {header : ElfHeader} {read : Nat → Option Pht}
    (accepted : planELFFileLoads t stackSize header img.fileSize img.bias read = some img.headers)
    (small : img.fileSize ≤ t.maxWord) (fInode : file.fInode = some img.ino)
    (start : LoadStart img p s) {outcome : LoadOutcome}
    (mapped : mapELFFileLoads t s p img.source file img.headers img.bias outcome = (true, s'))
    {faults : List FaultOp} {s'' : Sys} (run : Run (FaultIn t img p) s' faults s'') :
    (∀ a e, touched img.headers img.bias a = true → s''.pte p a = some e → ∀ i < pageSize,
        s''.mem e.frame i = referenceImage img.source img.bias img.headers (a + i)) ∧
      ∃ created, (s'.vmas p).Perm (s.vmas p ++ created) ∧
      created.Pairwise (fun v w => v.vmEnd ≤ w.vmStart) ∧
        (∀ a, Aligned a →
          ((∃ v ∈ created, v.covers a = true) ↔ touched img.headers img.bias a = true)) ∧
        ∀ v ∈ created, ∀ a, Aligned a → v.covers a = true →
        vmaAllowsAccess v .read = true ∧
          vmaAllowsAccess v .write = pageWritable img.headers img.bias a ∧
          vmaAllowsAccess v .execute =
            (pageExecutable img.headers img.bias a || t.arch == .x8632) := by
  have ok := ImageOk.of_plan accepted small
  obtain ⟨loaded, created, perm, ordered, cover, flags⟩ :=
    mapELFFileLoads_spec ok fInode start mapped
  have final := loaded.faults ok run
  refine ⟨fun a e touch here => final.bytes touch here, created, perm, ordered, cover, ?_⟩
  intro v member a aligned covered
  unfold vmaAllowsAccess
  rw [flags v member a aligned covered]
  simp only [loadFlags_allows, and_self]

end Theorem

/-! ## Samples -/

/-- An image of the given segments in a file of two pages. -/
def sampleImage (headers : List Pht) : Image where
  headers := headers
  bias := 0
  source := UInt8.ofNat
  ino := 7
  fileSize := 0x2000

def sampleHeader (headers : List Pht) : ElfHeader := ⟨.exec, headers.length, 56, 64, 0x20000⟩

def sampleElfInodes : Nat → Inode := fun _ => ⟨1, 0x2000, true, true, UInt8.ofNat⟩

/-- Everything works, and the page at `a` is filled in the frame at `a`. -/
def sampleLoad : LoadOutcome := ⟨fun _ => true, fun _ => true, sampleFault, fun _ _ => true⟩

def sampleMapped (t : Target) (headers : List Pht) : Bool × Sys :=
  mapELFFileLoads t (Sys.boot sampleElfInodes) 0 UInt8.ofNat
    ⟨some 7, .rdonly⟩ headers 0 sampleLoad

/-- A page of code, and data that end in cleared memory. -/
def codeAndData : List Pht :=
  [⟨.load, 5, 0, 0x20000, 0x1000, 0x1000, 0x1000⟩,
  ⟨.load, 6, 0x1800, 0x21800, 0x100, 0x900, 0x1000⟩]

def codeFault : FaultOp := ⟨0x20008, .execute, false, sampleFault 0x20000⟩

/-- The image after the fault on its code. -/
def codeLoaded : Sys :=
  (resolveVmaFault sampleTarget (sampleMapped sampleTarget codeAndData).2 0 codeFault.address
  codeFault.access
    codeFault.protectionFault codeFault.outcome).2

theorem codeAndData_accepted : planELFFileLoads sampleTarget 0x8000 (sampleHeader codeAndData)
    (sampleImage codeAndData).fileSize (sampleImage codeAndData).bias (codeAndData[·]?) =
      some (sampleImage codeAndData).headers := by decide +kernel

theorem codeAndData_mapped :
    mapELFFileLoads sampleTarget (Sys.boot sampleElfInodes) 0 (sampleImage codeAndData).source
    ⟨some 7, .rdonly⟩ (sampleImage codeAndData).headers
      (sampleImage codeAndData).bias sampleLoad =
      (true, (sampleMapped sampleTarget codeAndData).2) := returned (by decide +kernel)

theorem codeAndData_faulted : Run (FaultIn sampleTarget (sampleImage codeAndData) 0)
    (sampleMapped sampleTarget codeAndData).2 [codeFault] codeLoaded :=
      .cons ⟨by decide +kernel, rfl⟩ (.nil _)

theorem mapped_image_is_reference_code_and_data :
    (codeLoaded.pte 0 0x20000).isSome ∧ (codeLoaded.pte 0 0x21000).isSome ∧
      (∀ a e, touched codeAndData 0 a = true → codeLoaded.pte 0 a = some e → ∀ i < pageSize,
        codeLoaded.mem e.frame i = referenceImage UInt8.ofNat 0 codeAndData (a + i)) ∧
      ∃ v, vmaAt ((sampleMapped sampleTarget codeAndData).2.vmas 0) 0x21000 = some v ∧
        vmaAllowsAccess v .write = true ∧ vmaAllowsAccess v .execute = false := by
  have shown :=
    (mapped_image_is_reference codeAndData_accepted (by decide +kernel) rfl
      (.boot rfl fun _ _ => rfl)
    codeAndData_mapped codeAndData_faulted).1
  exact ⟨by decide +kernel, by decide +kernel, shown, _,
    rfl, by decide +kernel, by decide +kernel⟩

/-- A segment that may only be executed. -/
def executeOnly : List Pht := [⟨.load, 1, 0, 0x20000, 0x1000, 0x1000, 0x1000⟩]

/-- A segment of code and one of constants. -/
def codeAndConstants : List Pht :=
  [⟨.load, 5, 0, 0x20000, 0x1000, 0x1000, 0x1000⟩,
  ⟨.load, 4, 0x1000, 0x21000, 0x800, 0x800, 0x1000⟩]

/-- The page of a segment without `PF_R` can be read, and on 32-bit x86 the page of one
without `PF_X` can be executed. -/
theorem mapped_page_exceeds_flags :
    (planELFFileLoads sampleTarget 0x8000 (sampleHeader executeOnly) 0x2000 0 (executeOnly[·]?) =
      some executeOnly ∧
      (sampleMapped sampleTarget executeOnly).1 = true ∧
      executeOnly.all (fun ph => !ph.readable) = true ∧
      ∃ v, vmaAt ((sampleMapped sampleTarget executeOnly).2.vmas 0) 0x20000 = some v ∧
      vmaAllowsAccess v .read = true) ∧
    planELFFileLoads ⟨.x8632, 1, false⟩ 0x8000
      { sampleHeader codeAndConstants with ePhentsize := 32 } 0x2000 0
        (codeAndConstants[·]?) = some codeAndConstants ∧
        (sampleMapped ⟨.x8632, 1, false⟩ codeAndConstants).1 = true ∧
      codeAndConstants.all (fun ph => !(ph.touches 0 0x21000 && ph.executable)) = true ∧
      ∃ v, vmaAt ((sampleMapped ⟨.x8632, 1, false⟩ codeAndConstants).2.vmas 0) 0x21000 =
      some v ∧
        vmaAllowsAccess v .execute = true :=
  ⟨⟨by decide +kernel, by decide +kernel, by decide +kernel, _,
  rfl, by decide +kernel⟩, by decide +kernel,
    by decide +kernel, by decide +kernel, _, rfl, by decide +kernel⟩

end Mecocoa.Elf
