import Mecocoa.Task.ElfLoads

/-! # The eager loader against the lazy one

`CreateELF_Carry` lays one segment after the other into pages of their own.  The
bytes come out as in the reference image.  The permissions of a page are those
of the segment that mapped it first, while the lazy loader grants what any of
its segments asks for.
-/

namespace Mecocoa.Elf

open Memory Lib Option List Sys
open Function (update update_self update_of_ne)

section Chunk

theorem OnlyBytes.carryChunk (s : Sys)
    (frame compensation chunk bytesRead fileSize fileOffset : Nat) (source : Nat → UInt8) :
    OnlyBytes frame s
      (carryChunk s frame compensation chunk bytesRead fileSize fileOffset source) := by
  unfold Elf.carryChunk
  split
  · exact .copyToFrame ..
  · dsimp only
    split
    · exact (OnlyBytes.copyToFrame ..).trans (.copyToFrame ..)
    · exact .copyToFrame ..

theorem carryChunk_mem (s : Sys) (frame compensation chunk bytesRead fileSize fileOffset i : Nat)
    (source : Nat → UInt8) :
    (carryChunk s frame compensation chunk bytesRead fileSize fileOffset source).mem frame i =
      if compensation ≤ i ∧ i < compensation + chunk then if bytesRead + (i - compensation) <
      fileSize then
          source (fileOffset + (bytesRead + (i - compensation))) else 0 else s.mem frame i := by
  unfold carryChunk
  by_cases bss : fileSize ≤ bytesRead
  · rw [if_pos bss, copyToFrame_mem, update_self]
    unfold patch
    split
    · rw [if_neg (by omega)]
    · rfl
  · rw [if_neg bss]
    by_cases partly : fileSize < bytesRead + chunk
    · simp only [if_pos partly, copyToFrame_mem, update_self]
      unfold patch
      by_cases file : compensation ≤ i ∧ i < compensation + (fileSize - bytesRead)
      · rw [if_pos file, if_pos (by omega), if_pos (by omega)]
      · rw [if_neg file]
        by_cases rest : compensation ≤ i ∧ i < compensation + chunk
        · rw [if_pos (by omega), if_pos rest, if_neg (by omega)]
        · rw [if_neg (by omega), if_neg rest]
    · simp only [if_neg partly, copyToFrame_mem, update_self]
      unfold patch
      split
      · rw [if_pos (by omega)]
      · rfl

/-- A chunk lays the segment on its page. -/
theorem carryChunk_lays (source : Nat → UInt8) (loads : ph.loads = true)
    (sizes : ph.pFilesz ≤ ph.pMemsz) (near : a < ph.stop bias ∧ ph.start bias < a + pageSize)
    (same : ∀ i < pageSize, s.mem frame i = image (a + i)) :
    ∀ i < pageSize, (carryChunk s frame (max a (ph.start bias) - a)
        (min (pageSize - (max a (ph.start bias) - a))
          (ph.pMemsz - (max a (ph.start bias) - ph.start bias)))
        (max a (ph.start bias) - ph.start bias) ph.pFilesz ph.pOffset source).mem frame i =
      layPht source bias image ph (a + i) := by
  intro i small
  rw [carryChunk_mem]
  unfold layPht
  rw [if_pos loads]
  unfold Pht.stop at near
  unfold Pht.fileStop
  by_cases inside : ph.start bias ≤ a + i ∧ a + i < ph.start bias + ph.pMemsz
  · rw [if_pos (by omega)]
    by_cases file : a + i < ph.start bias + ph.pFilesz
    · rw [if_pos (by omega), patch_outside (by omega), patch_inside inside.1 file]
      congr 1
      omega
    · rw [if_neg (by omega), patch_inside (by omega) (by omega)]
  · rw [if_neg (by omega), patch_outside (by omega), patch_outside (by omega)]
    exact same i small

end Chunk

/-! ## Pages of the image -/

/-- A zeroed page is one that nobody managed. -/
theorem zeroPage_some
    (owned : ∀ f page, s.managed f = some page → s.pool.owned f = true)
    (done : zeroPage s answer source nodes = (some f, s')) :
    s.managed f = none ∧ s'.procs = s.procs ∧
      s'.managed = update s.managed f (some ⟨source, 1, 0⟩) ∧
      (∀ g page, s'.managed g = some page → s'.pool.owned g = true) ∧
      (∀ g, g ≠ f → s'.mem g = s.mem g) ∧ ∀ i < pageSize, s'.mem f i = 0 := by
  unfold zeroPage at done
  rcases allocatePage_cases s answer with refused | ⟨g, -, unowned, ran⟩
  · simp [refused] at done
  have free : s.managed g = none := by
    cases managed : s.managed g with
    | none => rfl
    | some page => exact absurd (owned g page managed) (by simp [unowned])
  rw [ran] at done
  unfold adoptManagedPage at done
  cases nodes with
  | false => simp at done
  | true =>
    simp only [Bool.not_true, Bool.false_eq_true, if_false, zeroFrame, copyToFrame, free,
      Prod.mk.injEq, some.injEq] at done
    obtain ⟨rfl, rfl⟩ := done
    refine ⟨free, rfl, rfl, ?_, fun h other => update_of_ne other .., ?_⟩
    · intro h page managed
      by_cases same : h = g
      · simp [setManaged, same]
      · simp only [setManaged, update_of_ne same] at managed ⊢
        exact owned h page managed
    · intro i small
      simp [setManaged, small]

section Carry

variable {s s' : Sys}

/-- The pages of the image show `image` and have the properties `perm`; each has its own page. -/
structure Carried (img : Image) (p : Nat) (image : Nat → UInt8) (perm : Nat → Option PageProps)
    (s : Sys) : Prop where
  owned : ∀ f page, s.managed f = some page → s.pool.owned f = true
  aligned : ∀ a f, img.leaf p s a = some f → Aligned a
  managed : ∀ a f, img.leaf p s a = some f → (s.managed f).isSome
  distinct : ∀ a b f, img.leaf p s a = some f → img.leaf p s b = some f → a = b
  shows : ∀ a f, img.leaf p s a = some f → ∀ i < pageSize, s.mem f i = image (a + i)
  perms : ∀ a, Aligned a → touched img.headers img.bias a = true →
    (s.pte p a).map (·.props) = perm a
  blank : ∀ a, Aligned a → touched img.headers img.bias a = true → perm a = none →
    ∀ i < pageSize, image (a + i) = 0

namespace Carried

variable (inv : Carried img p image perm s)

include inv

theorem congr (image' : Nat → UInt8) (perm' : Nat → Option PageProps)
    (bytes : ∀ a, Aligned a → touched img.headers img.bias a = true →
      ∀ i < pageSize, image' (a + i) = image (a + i))
    (props : ∀ a, Aligned a → touched img.headers img.bias a = true → perm' a = perm a) :
    Carried img p image' perm' s where
  owned := inv.owned
  aligned := inv.aligned
  managed := inv.managed
  distinct := inv.distinct
  shows := by
    intro a f here i small
    have touch : touched img.headers img.bias a = true := by
      obtain ⟨_, here⟩ := ite_none_right_eq_some.mp here
      assumption
    rw [bytes a (inv.aligned a f here) touch i small]
    exact inv.shows a f here i small
  perms := by
    intro a aligned touch
    rw [props a aligned touch]
    exact inv.perms a aligned touch
  blank := by
    intro a aligned touch none i small
    rw [bytes a aligned touch i small]
    exact inv.blank a aligned touch (props a aligned touch ▸ none) i small

/-- A blank page is mapped at a page of the image that has none. -/
theorem install (alignedPage : Aligned a)
    (inside : touched img.headers img.bias a = true) (unknown : perm a = none)
    (fresh : s.managed f = none) (procs : s'.procs = s.procs)
    (managed : s'.managed = update s.managed f (some ⟨source, 1, 0⟩))
    (owned : ∀ g page, s'.managed g = some page → s'.pool.owned g = true)
    (others : ∀ g, g ≠ f → s'.mem g = s.mem g) (zero : ∀ i < pageSize, s'.mem f i = 0)
    (props : PageProps) :
    Carried img p image (update perm a (some props)) (s'.setPte p a (some ⟨f, props⟩)) := by
  have table := Kept.leaf_setPte img p s' inside (some ⟨f, props⟩)
  rw [leaf_congr procs] at table
  dsimp only [map_some] at table
  have apart : ∀ b, img.leaf p s b ≠ some f := by
    intro b there
    have := inv.managed b f there
    simp [fresh] at this
  have cases_ : ∀ b g, img.leaf p (s'.setPte p a (some ⟨f, props⟩)) b = some g →
      b = a ∧ g = f ∨ b ≠ a ∧ g ≠ f ∧ img.leaf p s b = some g := by
    intro b g here
    rw [table] at here
    by_cases same : b = a
    · subst same
      rw [update_self] at here
      exact .inl ⟨rfl, (some.inj here).symm⟩
    · rw [update_of_ne same] at here
      exact .inr ⟨same, fun frame => apart b (frame ▸ here), here⟩
  refine ⟨owned, ?_, ?_, ?_, ?_, ?_, ?_⟩
  · intro b g here
    rcases cases_ b g here with ⟨rfl, -⟩ | ⟨-, -, old⟩
    · exact alignedPage
    · exact inv.aligned b g old
  · intro b g here
    change (s'.managed g).isSome
    rw [managed]
    rcases cases_ b g here with ⟨-, rfl⟩ | ⟨-, other, old⟩
    · simp
    · rw [update_of_ne other]
      exact inv.managed b g old
  · intro b c g left right
    rcases cases_ b g left with ⟨rfl, rfl⟩ | ⟨-, other, old⟩
    · rcases cases_ c g right with ⟨rfl, -⟩ | ⟨-, other, -⟩
      · rfl
      · exact absurd rfl other
    · rcases cases_ c g right with ⟨-, same⟩ | ⟨-, -, old'⟩
      · exact absurd same other
      · exact inv.distinct b c g old old'
  · intro b g here i small
    change s'.mem g i = image (b + i)
    rcases cases_ b g here with ⟨rfl, rfl⟩ | ⟨-, other, old⟩
    · rw [zero i small, inv.blank b alignedPage inside unknown i small]
    · rw [others g other]
      exact inv.shows b g old i small
  · intro b aligned touch
    rw [pte_setPte]
    by_cases same : b = a
    · subst same
      simp
    · rw [if_neg (by simp [same]), update_of_ne same, pte, procs]
      exact inv.perms b aligned touch
  · intro b aligned touch none
    by_cases same : b = a
    · subst same
      simp at none
    · rw [update_of_ne same] at none
      exact inv.blank b aligned touch none

/-- The page of a round: what was there stays, and a new page is blank. -/
theorem page (alignedPage : Aligned a)
    (inside : touched img.headers img.bias a = true)
    (done : carriedPage s p a props outcome = (some (frame, fresh), s')) :
    img.leaf p s' a = some frame ∧
      Carried img p image (update perm a (some ((perm a).getD props))) s' := by
  unfold carriedPage at done
  have known := inv.perms a alignedPage inside
  cases here : s.pte p a with
  | some e =>
    simp only [here, map_some] at done known
    obtain ⟨same, rfl⟩ := Prod.mk.inj done
    obtain ⟨rfl, -⟩ := Prod.mk.inj (some.inj same)
    have keep : update perm a (some ((perm a).getD props)) = perm :=
      Function.update_eq_self_iff.mpr (by simp [← known])
    rw [keep]
    exact ⟨by simp [Image.leaf, inside, leafFrame, here], inv⟩
  | none =>
    simp only [here, map_none] at done known
    rw [← known, getD_none]
    split at done
    · cases done
    · rename_i f mid zeroed
      obtain ⟨free, procs, managed, owned, others, zero⟩ := zeroPage_some inv.owned zeroed
      unfold installPage at done
      cases mapped : outcome.mapped a with
      | false => simp [mapped] at done
      | true =>
        simp only [mapped, if_true, Prod.mk.injEq, some.injEq] at done
        obtain ⟨⟨rfl, -⟩, rfl⟩ := done
        refine ⟨?_,
          inv.install alignedPage inside known.symm free procs managed owned others zero props⟩
        rw [Kept.leaf_setPte img p mid inside]
        simp

theorem write (image' : Nat → UInt8)
    (here : img.leaf p s a = some f) (known : perm a ≠ none) (changed : OnlyBytes f s s')
    (right : ∀ i < pageSize, s'.mem f i = image' (a + i))
    (others : ∀ b, Aligned b → b ≠ a → ∀ i < pageSize, image' (b + i) = image (b + i)) :
    Carried img p image' perm s' := by
  have bytes := changed.bytes
  have procs : s'.procs = s.procs := by rw [changed.rest]
  have managed : s'.managed = s.managed := by rw [changed.rest]
  have pool : s'.pool = s.pool := by rw [changed.rest]
  have table : img.leaf p s' = img.leaf p s := leaf_congr procs
  refine ⟨managed ▸ pool ▸ inv.owned, table ▸ inv.aligned,
    table ▸ managed ▸ inv.managed,
    table ▸ inv.distinct, ?_, ?_, ?_⟩
  · intro b g there i small
    rw [table] at there
    by_cases same : b = a
    · subst same
      obtain rfl := some.inj (here.symm.trans there)
      exact right i small
    · have other : g ≠ f := by
        rintro rfl
        exact same (inv.distinct b a g there here)
      rw [bytes g other, others b (inv.aligned b g there) same i small]
      exact inv.shows b g there i small
  · intro b aligned touch
    rw [pte, procs]
    exact inv.perms b aligned touch
  · intro b aligned touch none i small
    have other : b ≠ a := by
      rintro rfl
      exact known none
    rw [others b aligned other i small]
    exact inv.blank b aligned touch none i small

omit inv

end Carried

/-! ## One segment -/

/-- The new values below `a`, the old ones from there on. -/
def upTo {β : Type} (a : Nat) (new old : Nat → β) : Nat → β :=
  fun x => if x < a then new x else old x

/-- A page that the segment maps first gets its flags. -/
def givePerm (t : Target) (bias : Nat) (perm : Nat → Option PageProps) (ph : Pht) :
    Nat → Option PageProps := fun b =>
  if ph.touches bias b then some ((perm b).getD (loadFlags t ph.executable ph.writable)) else perm b

theorem Carried.stage (loads : ph.loads = true)
    (sizes : ph.pFilesz ≤ ph.pMemsz) (alignedPage : Aligned a)
    (touch : ph.touches img.bias a = true)
    (compensated : compensation = max a (ph.start img.bias) - a)
    (readSoFar : bytesRead = max a (ph.start img.bias) - ph.start img.bias)
    (here : img.leaf p mid a = some frame)
    (inv : Carried img p (upTo a (layPht img.source img.bias image ph) image)
      (update (upTo a (givePerm t img.bias perm ph) perm) a
        (some
          ((upTo a (givePerm t img.bias perm ph) perm a).getD
            (loadFlags t ph.executable ph.writable)))) mid) :
    Carried img p (upTo (a + pageSize) (layPht img.source img.bias image ph) image)
      (upTo (a + pageSize) (givePerm t img.bias perm ph) perm)
      (carryChunk mid frame compensation (min (pageSize - compensation) (ph.pMemsz - bytesRead))
        bytesRead
        ph.pFilesz ph.pOffset img.source) := by
  subst compensated readSoFar
  have near := (Pht.touches_iff.mp touch).2
  have shown : ∀ i < pageSize, mid.mem frame i = image (a + i) := by
    intro i small
    rw [inv.shows a frame here i small]
    exact if_neg (by omega)
  have laid := carryChunk_lays img.source loads sizes near shown
  have written :=
    inv.write (upTo (a + pageSize) (layPht img.source img.bias image ph) image) here (by simp)
    (OnlyBytes.carryChunk ..) (fun i small => (laid i small).trans (if_pos (by omega)).symm) (by
      intro b alignedB other i small
      unfold upTo
      unfold Aligned pageSize at *
      by_cases before : b < a
      · rw [if_pos (by omega), if_pos (by omega)]
      · rw [if_neg (by omega), if_neg (by omega)])
  apply written.congr _ _ (fun _ _ _ _ _ => rfl)
  intro b alignedB _
  by_cases same : b = a
  · subst same
    rw [update_self]
    simp [upTo, givePerm, touch, pageSize]
  · have order : b < a + pageSize ↔ b < a := by
      unfold Aligned pageSize at *
      omega
    rw [update_of_ne same]
    simp only [upTo, order]

theorem carryPages_spec (loads : ph.loads = true) (sizes : ph.pFilesz ≤ ph.pMemsz)
    (member : ph ∈ img.headers)
    (lastPage : last = pageFloor (ph.stop img.bias + (pageSize - 1))) (rounds : Nat) :
    ∀ {a compensation bytesRead : Nat} {allocated : List Nat} {s s' : Sys}, Aligned a →
      ph.start img.bias < a + pageSize → a + rounds * pageSize = last →
      (0 < rounds → compensation = max a (ph.start img.bias) - a ∧
        bytesRead = max a (ph.start img.bias) - ph.start img.bias) →
      Carried img p (upTo a (layPht img.source img.bias image ph) image)
      (upTo a (givePerm t img.bias perm ph) perm) s →
      carryPages p ph (loadFlags t ph.executable ph.writable) img.source outcome rounds a
      compensation
        bytesRead allocated s = (true, s') →
      Carried img p (upTo last (layPht img.source img.bias image ph) image)
      (upTo last (givePerm t img.bias perm ph) perm) s' := by
  induction rounds with
  | zero =>
    intro a _ _ _ s s' _ _ atEnd _ inv done
    obtain rfl : a = last := by omega
    cases done
    exact inv
  | succ rounds ih =>
    intro a compensation bytesRead _ s s' alignedPage low atEnd position inv done
    obtain ⟨compensated, readSoFar⟩ := position rounds.succ_pos
    rw [Nat.succ_mul] at atEnd
    have below : a < ph.stop img.bias := by
      unfold Aligned pageFloor pageSize at *
      omega
    have touch : ph.touches img.bias a = true := Pht.touches_iff.mpr ⟨loads, below, low⟩
    simp only [carryPages] at done
    split at done
    · cases done
    · rename_i frame fresh mid found
      obtain ⟨here, mapped⟩ :=
        inv.page alignedPage (touched_iff.mpr ⟨ph, member, touch⟩) found
      split at done
      · cases done
      · apply ih _ _ _ _ (mapped.stage loads sizes alignedPage touch compensated readSoFar here)
          done
        · unfold Aligned pageSize at *
          omega
        · omega
        · omega
        · intro more
          unfold Pht.stop at *
          unfold Aligned pageFloor pageSize at *
          omega

/-- The segment has laid its bytes and given its flags to the pages that had none. -/
theorem createELFCarry_spec (loads : ph.loads = true) (sizes : ph.pFilesz ≤ ph.pMemsz)
    (member : ph ∈ img.headers) (inv : Carried img p image perm s)
    (done : createELFCarry t s p img.source img.bias ph outcome = (true, s')) :
    Carried img p (layPht img.source img.bias image ph) (givePerm t img.bias perm ph) s' := by
  -- outside of its pages the segment changes nothing
  have apart : ∀ a, ph.touches img.bias a = false → givePerm t img.bias perm ph a = perm a ∧
      ∀ i < pageSize, layPht img.source img.bias image ph (a + i) = image (a + i) :=
    fun a away =>
      ⟨by simp [givePerm, away], fun i small => layPht_apart image (fun _ => sizes) away small⟩
  have away : ∀ a, Aligned a → a < pageFloor (ph.start img.bias) ∨
      pageFloor (ph.stop img.bias + (pageSize - 1)) ≤ a → ph.touches img.bias a = false := by
    intro a aligned far
    rw [Bool.eq_false_iff]
    intro touch
    have near := (Pht.touches_iff.mp touch).2
    unfold Aligned pageFloor pageSize at *
    omega
  have within : ∀ a b i, Aligned a → Aligned b → i < pageSize → (a + i < b ↔ a < b) := by
    intro a b i aligned alignedB small
    unfold Aligned pageSize at *
    omega
  unfold createELFCarry at done
  dsimp only at done
  split at done
  · cases done
  · have first : Carried img p
        (upTo (pageFloor (ph.start img.bias)) (layPht img.source img.bias image ph) image)
        (upTo (pageFloor (ph.start img.bias)) (givePerm t img.bias perm ph) perm) s := by
      apply inv.congr
      · intro a aligned _ i small
        unfold upTo
        split
        · rename_i below
          exact (apart a
            (away a aligned (.inl ((within a _ i aligned (.pageFloor _) small).mp below)))).2 i
            small
        · rfl
      · intro a aligned _
        unfold upTo
        split
        · rename_i below
          exact (apart a (away a aligned (.inl below))).1
        · rfl
    have all := carryPages_spec loads sizes member rfl _ (Aligned.pageFloor _) ?_ ?_ ?_ first done
    · apply all.congr
      · intro a aligned _ i small
        unfold upTo
        split
        · rfl
        · rename_i above
          rw [within a _ i aligned (.pageFloor _) small, Nat.not_lt] at above
          exact (apart a (away a aligned (.inr above))).2 i small
      · intro a aligned _
        unfold upTo
        split
        · rfl
        · rename_i above
          exact (apart a (away a aligned (.inr (Nat.not_lt.mp above)))).1
    · unfold pageFloor pageSize
      omega
    · unfold Pht.stop pageFloor pageSize
      omega
    · intro _
      unfold pageFloor pageSize
      omega

/-! ## The image -/

theorem carryImage_spec (sizes : SizesOk img.headers) :
    ∀ {segments : List (Pht × Nat)} {image : Nat → UInt8} {perm : Nat → Option PageProps}
      {s s' : Sys},
      (∀ entry ∈ segments, entry.1 ∈ img.headers) → Carried img p image perm s →
      carryImage t p img.source img.bias outcome s segments = (true, s') →
      Carried img p ((segments.map (·.1)).foldl (layPht img.source img.bias) image)
        ((segments.map (·.1)).foldl (givePerm t img.bias) perm) s' := by
  intro segments
  induction segments with
  | nil =>
    intro image perm s s' _ inv done
    cases done
    exact inv
  | cons entry rest ih =>
    obtain ⟨ph, i⟩ := entry
    intro image perm s s' members inv done
    have member : ph ∈ img.headers := members (ph, i) (.head _)
    have others : ∀ entry ∈ rest, entry.1 ∈ img.headers :=
      fun entry here => members entry (.tail _ here)
    simp only [map_cons, foldl_cons]
    simp only [carryImage] at done
    split at done
    · rename_i skips
      have idle : ph.loads = false := by simpa using skips
      apply ih others _ done
      apply inv.congr
      · intro a _ _ i _
        simp [layPht, idle]
      · intro a _ _
        simp [givePerm, Pht.touches, idle]
    · rename_i needed
      have loads : ph.loads = true := by simpa using needed
      split at done
      · cases done
      · rename_i mid carried
        exact ih others (createELFCarry_spec loads (sizes ph member loads) member inv carried) done

/-- The flags of a page are those of the first segment in it. -/
theorem foldl_givePerm (bias : Nat) (headers : List Pht) (perm : Nat → Option PageProps)
    (a : Nat) :
    headers.foldl (givePerm t bias) perm a =
      (perm a).or
      ((headers.find? (·.touches bias a)).map fun ph =>
        loadFlags t ph.executable ph.writable) := by
  induction headers generalizing perm with
  | nil => simp
  | cons ph rest ih =>
    rw [foldl_cons, ih, find?_cons]
    cases touch : ph.touches bias a with
    | false => simp [givePerm, touch]
    | true => cases old : perm a <;> simp [givePerm, touch, old]

/-- An address space without a page of the image. -/
structure CarryStart (img : Image) (p : Nat) (s : Sys) : Prop where
  empty : ∀ a, touched img.headers img.bias a = true → s.pte p a = none
  owned : ∀ f page, s.managed f = some page → s.pool.owned f = true

theorem CarryStart.carried (start : CarryStart img p s) :
    Carried img p (fun _ => 0) (fun _ => none) s := by
  have none : ∀ a, img.leaf p s a = none := by
    intro a
    unfold Image.leaf leafFrame
    split
    · rename_i touch
      simp [start.empty a touch]
    · rfl
  refine ⟨start.owned, ?_, ?_, ?_, ?_, ?_, fun _ _ _ _ _ _ => rfl⟩
  · simp [none]
  · simp [none]
  · simp [none]
  · simp [none]
  · intro a _ touch
    simp [start.empty a touch]

/-- What the eager loader leaves: a page of the image has the bytes of the reference image and
the flags of its first segment. -/
theorem carried_page (sizes : SizesOk img.headers) (start : CarryStart img p s)
    (carried : carryImage t p img.source img.bias outcome s img.headers.zipIdx = (true, s'))
    (aligned : Aligned a) (first : img.headers.find? (·.touches img.bias a) = some ph) :
    ∃ x, s'.pte p a = some x ∧ x.props = loadFlags t ph.executable ph.writable ∧
      ∀ i < pageSize, s'.mem x.frame i = referenceImage img.source img.bias img.headers
      (a + i) := by
  have touch : touched img.headers img.bias a = true :=
    touched_iff.mpr ⟨ph, mem_of_find?_eq_some first, by simpa using find?_some first⟩
  have final :=
    carryImage_spec sizes (fun entry here => fst_mem_of_mem_zipIdx here) start.carried carried
  rw [zipIdx_map_fst] at final
  have props := final.perms a aligned touch
  rw [foldl_givePerm, first] at props
  cases here : s'.pte p a with
  | none => simp [here] at props
  | some x =>
    simp only [here, map_some, none_or, some.injEq] at props
    exact ⟨x, rfl, props, final.shows a x.frame (by simp [Image.leaf, touch, leafFrame, here])⟩

end Carry

/-! ## Both loaders -/

/-- The page has the same bytes and the same permissions in both address spaces: in the first
it is a leaf, in the second an area whose leaf may still be missing. -/
def LoadersAgree (eager : Sys) (q : Nat) (lazy : Sys) (p a : Nat) : Prop :=
  ∃ x v, eager.pte q a = some x ∧ vmaAt (lazy.vmas p) a = some v ∧
    (∀ y, lazy.pte p a = some y →
    ∀ i < pageSize, eager.mem x.frame i = lazy.mem y.frame i) ∧
    ∀ access, allowsAccess x.props access = vmaAllowsAccess v access

theorem loadFlags_agree (t : Target) (x w x' w' : Bool) :
    (∀ access, allowsAccess (loadFlags t x w) access =
      allowsAccess (loadFlags t x' w') access) ↔
      w = w' ∧ (x = x' ∨ t.arch = .x8632) := by
  constructor
  · intro same
    have write := same .write
    have execute := same .execute
    simp only [loadFlags_allows] at write execute
    refine ⟨write, ?_⟩
    by_cases arch : t.arch = .x8632
    · exact .inr arch
    · have apart : (t.arch == .x8632) = false := beq_eq_false_iff_ne.mpr arch
      exact .inl (by simpa only [apart, Bool.or_false] using execute)
  · rintro ⟨rfl, same⟩ access
    simp only [loadFlags_allows]
    rcases same with rfl | arch
    · rfl
    · simp [arch]

/-- The loaders agree on an image exactly if on each of its pages the first segment asks for
all that any of the segments in the page asks for. -/
theorem loaders_agree_iff {t : Target} {img : Image} {stackSize : Nat} {header : ElfHeader}
    {read : Nat → Option Pht}
    (accepted : planELFFileLoads t stackSize header img.fileSize img.bias read = some img.headers)
    (small : img.fileSize ≤ t.maxWord) {p : Nat} {file : VfsFile}
    (fInode : file.fInode = some img.ino) {s s' s'' : Sys} (start : LoadStart img p s)
    {outcome : LoadOutcome}
    (mapped : mapELFFileLoads t s p img.source file img.headers img.bias outcome = (true, s'))
    {faults : List FaultOp} (run : Run (FaultIn t img p) s' faults s'') {q : Nat} {e e' : Sys}
    (clear : CarryStart img q e) {carry : Nat → CarryOutcome}
    (carried : carryImage t q img.source img.bias carry e img.headers.zipIdx = (true, e')) :
    (∀ a, Aligned a → touched img.headers img.bias a = true → LoadersAgree e' q s'' p a) ↔
      ∀ a ph, Aligned a → img.headers.find? (·.touches img.bias a) = some ph →
        ph.writable = pageWritable img.headers img.bias a ∧
          (ph.executable = pageExecutable img.headers img.bias a ∨ t.arch = .x8632) := by
  have ok := ImageOk.of_plan accepted small
  have final := (mapELFFileLoads_spec ok fInode start mapped).1.faults ok run
  have lazyFlags : ∀ a v, Aligned a → touched img.headers img.bias a = true →
      vmaAt (s''.vmas p) a = some v → v.vmFlags = loadFlags t
        (pageExecutable img.headers img.bias a) (pageWritable img.headers img.bias a) := by
    intro a v aligned touch here
    obtain ⟨plan, w, planned, there, fits⟩ := final.areas a aligned touch
    obtain rfl := some.inj (here.symm.trans there)
    rw [fits.flags, (describe_some planned).flags]
  constructor
  · intro agree a ph aligned first
    have touch : touched img.headers img.bias a = true :=
      touched_iff.mpr ⟨ph, mem_of_find?_eq_some first, by simpa using find?_some first⟩
    obtain ⟨x, v, leaf, area, -, same⟩ := agree a aligned touch
    obtain ⟨x', leaf', props, -⟩ := carried_page ok.sizes clear carried aligned first
    obtain rfl := some.inj (leaf.symm.trans leaf')
    simp only [vmaAllowsAccess, props, lazyFlags a v aligned touch area] at same
    exact (loadFlags_agree ..).mp same
  · intro firstHasAll a aligned touch
    obtain ⟨ph, first⟩ : ∃ ph, img.headers.find? (·.touches img.bias a) = some ph := by
      obtain ⟨ph, member, near⟩ := touched_iff.mp touch
      exact isSome_iff_exists.mp (find?_isSome.mpr ⟨ph, member, near⟩)
    obtain ⟨x, leaf, props, bytes⟩ := carried_page ok.sizes clear carried aligned first
    obtain ⟨plan, v, -, area, -⟩ := final.areas a aligned touch
    refine ⟨x, v, leaf, area, ?_, ?_⟩
    · intro y there i small
      rw [bytes i small, final.bytes touch there i small]
    · simp only [vmaAllowsAccess, props, lazyFlags a v aligned touch area]
      exact (loadFlags_agree ..).mpr (firstHasAll a ph aligned first)

/-- Everything works, and the page at `a` gets the frame at `a`. -/
def sampleCarry : CarryOutcome :=
  ⟨true, some, fun _ => true, fun _ => true, fun _ => true, fun _ => true⟩

def sampleCarried (t : Target) (headers : List Pht) : Bool × Sys :=
  carryImage t 0 UInt8.ofNat 0 (fun _ => sampleCarry) (Sys.boot sampleElfInodes) headers.zipIdx

theorem CarryStart.boot (img : Image) (p : Nat) (inodes : Nat → Inode) :
    CarryStart img p (boot inodes) :=
  ⟨fun _ _ => rfl, fun _ _ managed => nomatch managed⟩

theorem loaders_agree_code_and_data :
    LoadersAgree (sampleCarried sampleTarget codeAndData).2 0 codeLoaded 0 0x21000 := by
  have carried :
    carryImage sampleTarget 0 (sampleImage codeAndData).source (sampleImage codeAndData).bias
      (fun _ => sampleCarry) (boot sampleElfInodes) (sampleImage codeAndData).headers.zipIdx =
        (true, (sampleCarried sampleTarget codeAndData).2) :=
    returned (by decide +kernel)
  apply (loaders_agree_iff codeAndData_accepted (by decide +kernel) rfl
    (.boot rfl fun _ _ => rfl) codeAndData_mapped
    codeAndData_faulted (.boot _ _ _) carried).mpr _ 0x21000 (by decide +kernel) (by decide +kernel)
  intro a ph aligned first
  have near := (Pht.touches_iff.mp (by simpa using find?_some first)).2
  have pages : a = 0x20000 ∨ a = 0x21000 ∨ a = 0x22000 := by
    unfold Aligned pageSize at *
    rcases mem_cons.mp (mem_of_find?_eq_some first) with rfl | rest
    · simp only [Pht.stop, Pht.start, sampleImage] at near
      omega
    · obtain rfl := mem_singleton.mp rest
      simp only [Pht.stop, Pht.start, sampleImage] at near
      omega
  have granted : ∀ a ∈ [0x20000, 0x21000, 0x22000],
      (codeAndData.find? (·.touches 0 a)).all fun ph =>
      ph.writable == pageWritable codeAndData 0 a && ph.executable == pageExecutable codeAndData 0
          a := by
    decide +kernel
  have here := granted a (by simpa using pages)
  rw [show codeAndData.find? (·.touches 0 a) = some ph from first] at here
  simp only [all_some, Bool.and_eq_true, beq_iff_eq] at here
  exact ⟨here.1, .inl here.2⟩

/-- Data that begin in the last page of the code. -/
def dataBehindCode : List Pht :=
  [⟨.load, 5, 0, 0x20000, 0x800, 0x800, 0x1000⟩,
  ⟨.load, 6, 0x800, 0x20800, 0x100, 0x100, 0x1000⟩]

/-- The lazy loader lets the process write its data, the eager one does not. -/
theorem loaders_disagree_data_behind_code :
    planELFFileLoads sampleTarget 0x8000 (sampleHeader dataBehindCode) 0x2000 0
      (dataBehindCode[·]?) =
        some dataBehindCode ∧ (sampleMapped sampleTarget dataBehindCode).1 = true ∧
      (sampleCarried sampleTarget dataBehindCode).1 = true ∧
      touched dataBehindCode 0 0x20000 = true ∧
      ∃ x v, (sampleCarried sampleTarget dataBehindCode).2.pte 0 0x20000 = some x ∧
        vmaAt ((sampleMapped sampleTarget dataBehindCode).2.vmas 0) 0x20000 = some v ∧
        allowsAccess x.props .write = false ∧ vmaAllowsAccess v .write = true :=
  ⟨by decide +kernel, by decide +kernel, by decide +kernel, by decide +kernel, _, _, rfl, rfl,
    by decide +kernel, by decide +kernel⟩

end Mecocoa.Elf
