import Mecocoa.Memory.VmaMap

/-! # Effect of each edit on the map of a process

For each edit: a refusal leaves the very list it was given, and a success is the
pointwise change of the attribute map.
-/

namespace Mecocoa.Memory

open Lib List Vma CellMap Option

variable {v : Vma} {vmas : List Vma}

theorem attrsAt_eq (t : Target) (vmas : List Vma) (a : Nat) :
    attrsAt t vmas a = (vmaAt vmas a).map (·.attrs t a) := rfl

theorem attrsAt_inserted {before after}
    (ok : VmasOk (before ++ v :: after)) (a : Nat) : attrsAt t (before ++ v :: after) a =
      if v.covers a then some (v.attrs t a) else attrsAt t (before ++ after) a := by
  unfold attrsAt
  rw [lookup_append, lookup_cons, lookup_append]
  by_cases covered : v.covers a = true
  · rw [if_pos covered, if_pos covered, (lookup_eq_none_iff ..).mpr fun b member => ?_, none_or]
    have below := ok.around.2.1 b member
    simp only [covers, Bool.and_eq_true, Bool.and_eq_false_iff, decide_eq_true_eq,
      decide_eq_false_iff_not] at covered ⊢
    omega
  · rw [if_neg covered, if_neg covered]

theorem attrsAt_unmapped
    (range : address < endAddr)
    (same : ∀ v ∈ vmas, v.holds address endAddr = true → v.fileBacked = true →
      splitFile = v.vfile)
    (a : Nat) : attrsAt t (vmas.flatMap (unmapPieces t address endAddr splitFile)) a =
      if address ≤ a ∧ a < endAddr then none else attrsAt t vmas a := by
  unfold attrsAt
  rw [lookup_flatMap fun v member => unmapPieces_cut range (same v member)]
  by_cases inside : address ≤ a ∧ a < endAddr
  · rw [if_pos inside, if_neg (not_not.mpr inside)]
  · rw [if_neg inside, if_pos inside]

/-! ## Protection -/

/-- What a successful scan knows of the areas: none that meets the range refuses the
protection, and the file objects at the two cuts are those of the areas cut. -/
structure Scanned (flags : PageProps) (address endAddr : Nat) (vmas : List Vma)
    (files : Option VfsFile × Option VfsFile) : Prop where
  allowed : ∀ v ∈ vmas, v.vmStart < endAddr → address < v.vmEnd → v.vmType ≠ .device ∧
    fileRefuses flags v = false
  startFile : ∀ v ∈ vmas, v.Cuts address → files.1 = v.vfile
  endFile : ∀ v ∈ vmas, v.Cuts endAddr → files.2 = v.vfile

/-- What a scan carries along is the file object of the area cut, or as before. -/
def Carried (boundary : Nat) (vmas : List Vma) (before after : Option VfsFile) : Prop :=
  (∀ v ∈ vmas, v.Cuts boundary → after = v.vfile) ∧
  ((∀ v ∈ vmas, ¬ v.Cuts boundary) → after = before)

theorem Carried.of_uncut (uncut : ∀ v ∈ vmas, ¬ v.Cuts boundary) :
    Carried boundary vmas file file :=
  ⟨fun v member cut => absurd cut (uncut v member), fun _ => rfl⟩

theorem Carried.cons {rest before after} (later : ∀ w ∈ rest, v.vmEnd ≤ w.vmStart)
    (carried : Carried boundary rest (if v.vmStart < boundary ∧ boundary < v.vmEnd then v.vfile
      else before) after) :
    Carried boundary (v :: rest) before after := by
  refine ⟨forall_mem_cons.mpr ⟨fun cut => ?_, carried.1⟩, fun none => ?_⟩
  · refine (carried.2 fun w member cut' => ?_).trans (if_pos cut)
    have := later w member
    have := cut.2
    have := cut'.1
    omega
  · exact (carried.2 fun w member => none w (.tail _ member)).trans (if_neg (none v (.head _)))

theorem scanProtected_spec (range : address < endAddr)
    (rest : List Vma) : ∀ {covered : Nat} {files found : Option VfsFile × Option VfsFile},
      VmasOk rest → covered ≤ endAddr →
      (covered = address ∨ ∀ v ∈ rest, covered ≤ v.vmStart) →
      address ≤ covered → scanProtected flags address endAddr covered files rest =
      some found →
      (∀ v ∈ rest, v.vmStart < endAddr → address < v.vmEnd → v.vmType ≠ .device ∧
        fileRefuses flags v = false) ∧
        Carried address rest files.1 found.1 ∧ Carried endAddr rest files.2 found.2 := by
  induction rest with
  | nil =>
    intro covered files found _ _ _ _ done
    obtain ⟨_, ⟨⟩⟩ := ite_none_right_eq_some.mp done
    exact ⟨by simp, .of_uncut (by simp), .of_uncut (by simp)⟩
  | cons v rest ih =>
    intro covered files found ok bounded start low done
    obtain ⟨wf, okRest, later⟩ := VmasOk.cons_iff.mp ok
    have nonempty := wf.nonempty
    simp only [scanProtected] at done
    split at done
    · obtain ⟨_, ⟨⟩⟩ := ite_none_right_eq_some.mp done
      have beyond : ∀ w ∈ v :: rest, endAddr ≤ w.vmStart := by
        intro w member
        have := start.resolve_left (by omega) w member
        omega
      refine ⟨fun w member below => ?_, .of_uncut fun w member cut => ?_,
        .of_uncut fun w member cut => ?_⟩
      · exact absurd (beyond w member) (by omega)
      · exact absurd (beyond w member) (by have := cut.1; omega)
      · exact absurd (beyond w member) (by have := cut.1; omega)
    split at done
    · have first : covered = address := by
        refine start.resolve_right fun beyond => ?_
        have := beyond v (.head _)
        omega
      obtain ⟨allowed, startFile, endFile⟩ := ih okRest bounded (.inl first) low done
      refine ⟨forall_mem_cons.mpr ⟨by omega, allowed⟩, .cons later ?_, .cons later ?_⟩
      · rwa [if_neg (by omega)]
      · rwa [if_neg (by omega)]
    obtain ⟨fine, done⟩ := ite_none_left_eq_some.mp done
    simp only [not_or, not_lt, Bool.not_eq_true] at fine
    have further : ∀ w ∈ rest, min endAddr v.vmEnd ≤ w.vmStart := by
      intro w member
      have := later w member
      omega
    obtain ⟨allowed, startFile, endFile⟩ :=
      ih okRest (Nat.min_le_left _ _) (.inr further) (by omega) done
    exact ⟨forall_mem_cons.mpr ⟨fun _ _ => fine.2, allowed⟩, startFile.cons later,
      endFile.cons later⟩

theorem scanProtected_some (range : address < endAddr) (ok : VmasOk vmas)
    (done : scanProtected flags address endAddr address files vmas = some found) :
    Scanned flags address endAddr vmas found := by
  obtain ⟨allowed, startFile, endFile⟩ :=
    scanProtected_spec range vmas ok (le_of_lt range) (.inl rfl) (le_refl _) done
  exact ⟨allowed, startFile.1, endFile.1⟩

/-- The file offsets of an area do not run past the last word. -/
def Vma.Bounded (t : Target) (v : Vma) : Prop :=
  v.fileBacked = true → v.fileOffset + (v.vmEnd - v.vmStart) ≤ t.maxWord

/-- The file offset of a covered page does not wrap, in either width. -/
theorem Vma.Bounded.offset (bounded : v.Bounded t)
    (backed : v.fileBacked = true) (covered : v.covers a = true) :
    t.wrap (v.fileOffset + (a - v.vmStart)) = v.fileOffset + (a - v.vmStart) ∧
      (v.fileOffset + (a - v.vmStart)) % 2 ^ 64 = v.fileOffset + (a - v.vmStart) := by
  have fits := bounded backed
  have inside := covers_iff.mp covered
  have small := t.maxWord_lt
  exact ⟨Target.wrap_of_le (by omega), Nat.mod_eq_of_lt (by omega)⟩

theorem Vma.Bounded.rightOf
    (bounded : v.Bounded t) (cut : v.Cuts boundary) (backed : v.fileBacked = true) :
    (v.rightOf t boundary file).Bounded t := by
  intro _
  have := bounded backed
  have := cut.1
  have := cut.2
  unfold Vma.rightOf
  dsimp only
  rw [Target.wrap_of_le (by omega)]
  omega

theorem Vma.Bounded.above
    (bounded : v.Bounded t) (cut : v.Cuts boundary) : (v.above t boundary file).Bounded t := by
  unfold Vma.above
  cases backed : v.fileBacked with
  | true => exact bounded.rightOf cut backed
  | false =>
    intro stillBacked
    exact absurd (backed.symm.trans stillBacked) (by simp)

theorem Vma.Bounded.split
    (bounded : v.Bounded t) (cut : v.Cuts boundary) : (v.split t boundary file).Bounded t := by
  unfold Vma.split
  cases backed : v.fileBacked with
  | true =>
    have own : v.vfile.isSome = true := by
      simp only [fileBacked, Bool.and_eq_true] at backed
      exact backed.2
    rw [if_pos own]
    exact bounded.rightOf cut backed
  | false =>
    intro stillBacked
    simp only [fileBacked, Bool.and_eq_false_iff, Bool.and_eq_true] at backed stillBacked
    split at stillBacked
    · rename_i own
      cases backed with
      | inl typed => exact absurd (typed.symm.trans stillBacked.1) (by simp)
      | inr bare => exact absurd (bare.symm.trans own) (by simp)
    · rename_i bare
      exact absurd stillBacked.2 bare

theorem Vma.Bounded.below (bounded : v.Bounded t)
    (low : boundary ≤ v.vmEnd) : ({ v with vmEnd := boundary } : Vma).Bounded t := by
  intro backed
  have := bounded backed
  dsimp only
  omega

theorem Bounded.unmapPieces
    (bounded : v.Bounded t) (range : address < endAddr)
    (member : m ∈ unmapPieces t address endAddr splitFile v) : m.Bounded t := by
  unfold Memory.unmapPieces at member
  split at member
  · simp at member
  split at member
  · rename_i strict
    simp only [mem_cons, not_mem_nil, or_false] at member
    rcases member with rfl | rfl
    · exact bounded.below (by omega)
    · exact bounded.above ⟨by omega, strict.2⟩
  split at member
  · obtain rfl := mem_singleton.mp member
    exact bounded.below (by omega)
  split at member
  · rename_i cut
    obtain rfl := mem_singleton.mp member
    exact bounded.above cut
  · obtain rfl := mem_singleton.mp member
    exact bounded

theorem Bounded.mergeFrom (rest : List Vma) : ∀ left : Vma,
    (∀ v ∈ left :: rest, v.Bounded t) → ∀ v ∈ mergeFrom left rest, v.Bounded t := by
  induction rest with
  | nil => intro left bounded; exact bounded
  | cons right rest ih =>
    intro left bounded
    unfold Memory.mergeFrom
    by_cases joined : mergeable left right = true
    · rw [if_pos joined]
      refine ih _
        (forall_mem_cons.mpr ⟨fun backed => ?_, fun v old => bounded v (.tail _ (.tail _ old))⟩)
      simp [fileBacked, (mergeable_iff.mp joined).1] at backed
    · rw [if_neg joined]
      exact forall_mem_cons.mpr
        ⟨bounded left (.head _), ih right fun w inW => bounded w (.tail _ inW)⟩

theorem Bounded.merged (bounded : ∀ v ∈ vmas, v.Bounded t) :
    ∀ v ∈ mergeAdjacentAnonymousVmas vmas, v.Bounded t := by
  cases vmas with
  | nil => exact bounded
  | cons left rest => exact Bounded.mergeFrom rest left bounded

theorem Vma.split_vfile (same : file = v.vfile) : (v.split t boundary file).vfile = v.vfile := by
  unfold split
  split
  · exact same
  · rfl

theorem attrsAt_split {before after}
    (cut : original.Cuts boundary) (same : clone = original.vfile) (a : Nat) :
    attrsAt t (before ++ { original with vmEnd := boundary } ::
      original.split t boundary clone :: after) a = attrsAt t (before ++ original :: after) a := by
  unfold attrsAt
  simp only [lookup_append, lookup_cons, covers_iff, split_start, split_end]
  congr 1
  have above := cut.1
  have below := cut.2
  by_cases inLeft : original.vmStart ≤ a ∧ a < boundary
  · rw [if_pos inLeft, if_pos ⟨inLeft.1, by omega⟩]
    rfl
  rw [if_neg inLeft]
  by_cases inRight : boundary ≤ a ∧ a < original.vmEnd
  · rw [if_pos inRight, if_pos ⟨by omega, inRight.2⟩,
      attrs_split (fun _ => same) (by omega) inRight.1]
  · rw [if_neg inRight, if_neg (by omega)]

/-- A list that differs from another one in how its areas are cut only. -/
structure Recut (t : Target) (vmas recut : List Vma) : Prop where
  ok : VmasOk recut
  attrs : ∀ a, attrsAt t recut a = attrsAt t vmas a
  bounded : (∀ v ∈ vmas, v.Bounded t) → ∀ v ∈ recut, v.Bounded t

theorem splitProtectedVmaAt_recut {before after}
    (ok : VmasOk (before ++ original :: after))
    (aligned : Aligned boundary) (cut : original.Cuts boundary) (same : clone = original.vfile) :
    Recut t (before ++ original :: after) (before ++ { original with vmEnd := boundary } ::
      original.split t boundary clone :: after) where
  ok := ok.split clone aligned cut
  attrs := attrsAt_split cut same
  bounded := by
    intro bounded v member
    have whole := bounded original (by simp)
    simp only [mem_append, mem_cons] at member
    rcases member with inBefore | rfl | rfl | inAfter
    · exact bounded v (by simp [inBefore])
    · exact whole.below (le_of_lt cut.2)
    · exact whole.split cut
    · exact bounded v (by simp [inAfter])

/-- After a split nothing cuts its boundary, and any other cut is one of the list before. -/
theorem cuts_split {before after} (ok : VmasOk (before ++ original :: after))
    (cut : original.Cuts boundary) (same : clone = original.vfile)
    (member : v ∈ before ++ { original with vmEnd := boundary } ::
      original.split t boundary clone :: after) (cuts : v.Cuts a) :
    a ≠ boundary ∧ ∃ w ∈ before ++ original :: after, w.Cuts a ∧ w.vfile = v.vfile := by
  obtain ⟨-, earlier, later⟩ := ok.around
  obtain ⟨above, below⟩ := cut
  obtain ⟨low, high⟩ := cuts
  simp only [mem_append, mem_cons] at member
  rcases member with inBefore | rfl | rfl | inAfter
  · have := earlier v inBefore
    exact ⟨by omega, v, by simp [inBefore], ⟨low, high⟩, rfl⟩
  · dsimp only at low high
    exact ⟨by omega, original, by simp, ⟨low, by omega⟩, rfl⟩
  · rw [split_start] at low
    rw [split_end] at high
    exact ⟨by omega, original, by simp, ⟨by omega, high⟩, (split_vfile same).symm⟩
  · have := later v inAfter
    exact ⟨by omega, v, by simp [inAfter], ⟨low, high⟩, rfl⟩

/-- Removing the right part and writing the old end takes a split back. -/
theorem undo_split (before after : List Vma) (left right : Vma) (oldEnd : Nat) :
    ((before ++ left :: right :: after).eraseIdx (before.length + 1)).modify before.length
      (fun v => { v with vmEnd := oldEnd }) = before ++ { left with vmEnd := oldEnd } :: after := by
  induction before with
  | nil => rfl
  | cons head before ih => simpa using ih

/-- The first list is the given one, or the undo writes lead back to it. -/
def Undoes (vmas first : List Vma) : Option (Nat × Nat) → Prop
  | none => first = vmas
  | some (index, oldEnd) =>
    (first.eraseIdx (index + 1)).modify index (fun v => { v with vmEnd := oldEnd }) = vmas

theorem splitProtectedEnd_cases
    (high : Aligned endAddr) (recut : Recut t vmas first)
    (uncut : ∀ v ∈ first, ¬ v.Cuts address)
    (same : ∀ v ∈ first, v.Cuts endAddr → endClone = v.vfile)
    (undoes : Undoes vmas first startSplit) :
    splitProtectedEnd t first startSplit endAddr endClone append = (false, vmas) ∨
      ∃ final, splitProtectedEnd t first startSplit endAddr endClone append = (true, final) ∧
        Recut t vmas final ∧ ∀ v ∈ final, ¬ v.Cuts address ∧ ¬ v.Cuts endAddr := by
  unfold splitProtectedEnd
  rcases splitProtectedVmaAt_cases t endClone append recut.ok high with
    refused | ⟨nothing, uncutEnd⟩ | ⟨before, original, after, rfl, cut, -, done⟩
  · rw [refused]
    refine .inl ?_
    cases startSplit with
    | none => exact congrArg _ undoes
    | some info => exact congrArg _ undoes
  · rw [nothing]
    exact .inr ⟨first, rfl, recut, fun v member => ⟨uncut v member, uncutEnd v member⟩⟩
  · rw [done]
    have next := splitProtectedVmaAt_recut (t := t) recut.ok high cut (same original (by simp) cut)
    refine .inr ⟨_, rfl, ⟨next.ok, fun a => (next.attrs a).trans (recut.attrs a),
      fun bounded => next.bounded (recut.bounded bounded)⟩, ?_⟩
    refine fun v member => ⟨fun cuts => ?_, fun cuts => ?_⟩
    · obtain ⟨-, w, there, old, -⟩ :=
        cuts_split recut.ok cut (same original (by simp) cut) member cuts
      exact uncut w there old
    · exact (cuts_split recut.ok cut (same original (by simp) cut) member cuts).1 rfl

theorem splitProtectedRange_cases (ok : VmasOk vmas) (low : Aligned address)
    (high : Aligned endAddr) (startSame : ∀ v ∈ vmas, v.Cuts address → startClone = v.vfile)
    (endSame : ∀ v ∈ vmas, v.Cuts endAddr → endClone = v.vfile) :
    splitProtectedRange t vmas address endAddr startClone endClone append = (false, vmas) ∨
      ∃ final, splitProtectedRange t vmas address endAddr startClone endClone append =
      (true, final) ∧
        Recut t vmas final ∧ ∀ v ∈ final, ¬ v.Cuts address ∧ ¬ v.Cuts endAddr := by
  unfold splitProtectedRange
  rcases splitProtectedVmaAt_cases t startClone (append 0) ok low with
    refused | ⟨nothing, uncut⟩ | ⟨before, original, after, rfl, cut, -, done⟩
  · rw [refused]
    exact .inl rfl
  · rw [nothing]
    exact splitProtectedEnd_cases high ⟨ok, fun _ => rfl, fun bounded => bounded⟩ uncut endSame
      rfl
  · rw [done]
    have same := startSame original (by simp) cut
    have recut := splitProtectedVmaAt_recut (t := t) ok low cut same
    refine splitProtectedEnd_cases high recut ?_ ?_ (undo_split before after _ _ _)
    · exact fun v member cuts => (cuts_split ok cut same member cuts).1 rfl
    · intro v member cuts
      obtain ⟨-, w, there, old, file⟩ := cuts_split ok cut same member cuts
      exact (endSame w there old).trans file

def PageAttrs.protect (flags : PageProps) (attrs : PageAttrs) : PageAttrs :=
  { attrs with flags, reservation := attrs.reservation && flags == .none }

section Protecting

theorem protectInside_range (address endAddr : Nat) (flags : PageProps) (v : Vma) :
    (protectInside address endAddr flags v).vmStart = v.vmStart ∧
    (protectInside address endAddr flags v).vmEnd = v.vmEnd := by
  unfold protectInside
  split <;> exact ⟨rfl, rfl⟩

theorem VmasOk.protected (ok : VmasOk vmas) (address endAddr : Nat) (flags : PageProps) :
    VmasOk (vmas.map (protectInside address endAddr flags)) where
  wellFormed := by
    intro v member
    obtain ⟨w, inVmas, rfl⟩ := mem_map.mp member
    obtain ⟨start, finish⟩ := protectInside_range address endAddr flags w
    have wf := ok.wellFormed w inVmas
    exact ⟨start.symm ▸ wf.startAligned,
      finish.symm ▸ wf.endAligned, by rw [start, finish]; exact wf.nonempty⟩
  sorted := by
    rw [pairwise_map]
    refine ok.sorted.imp ?_
    intro a b order
    rw [(protectInside_range _ _ _ a).2, (protectInside_range _ _ _ b).1]
    exact order

theorem Bounded.protected (bounded : ∀ v ∈ vmas, v.Bounded t) :
    ∀ v ∈ vmas.map (protectInside address endAddr flags), v.Bounded t := by
  intro v member
  obtain ⟨w, inVmas, rfl⟩ := mem_map.mp member
  have old := bounded w inVmas
  unfold protectInside
  split
  · exact old
  · exact old

theorem attrsAt_protected (uncut : ∀ v ∈ vmas, ¬ v.Cuts address ∧ ¬ v.Cuts endAddr)
    (a : Nat) :
    attrsAt t (vmas.map (protectInside address endAddr flags)) a =
      if address ≤ a ∧ a < endAddr then (attrsAt t vmas a).map (PageAttrs.protect flags)
      else attrsAt t vmas a := by
  have still : ∀ v ∈ vmas, (protectInside address endAddr flags v).covers a = v.covers a := by
    intro v _
    unfold covers
    rw [(protectInside_range _ _ _ v).1, (protectInside_range _ _ _ v).2]
  unfold attrsAt
  by_cases inside : address ≤ a ∧ a < endAddr
  · rw [if_pos inside]
    apply lookup_map _ still
    intro v member covered
    rw [covers_iff] at covered
    obtain ⟨noStart, noEnd⟩ := uncut v member
    unfold Cuts at noStart noEnd
    unfold protectInside
    rw [if_pos (by omega)]
    rfl
  · rw [if_neg inside, lookup_map (g := id) _ still, Option.map_id, id]
    intro v member covered
    rw [covers_iff] at covered
    unfold protectInside
    rw [if_neg (by omega)]
    rfl

end Protecting

/-! ## Replacing a reserved span -/

theorem reservedFor_iff : reservedFor replacement v = true ↔
    v.vmStart ≤ replacement.vmStart ∧ replacement.vmEnd ≤ v.vmEnd ∧
      v.vmReservation = true ∧
      v.vmType = .anonymous ∧ v.vmFlags = .none ∧ v.vfile = none := by
  simp [reservedFor, and_assoc]

/-- A list in which the replacement has taken its range from one old area. -/
structure Replaced (t : Target) (vmas : List Vma) (replacement : Vma) (replaced : List Vma) :
    Prop where
  ok : VmasOk replaced
  attrs : ∀ a, attrsAt t replaced a = if replacement.covers a then some (replacement.attrs t a)
    else attrsAt t vmas a
  bounded : (∀ v ∈ vmas, v.Bounded t) → replacement.Bounded t →
    ∀ v ∈ replaced, v.Bounded t

section Replacing

variable {before after : List Vma} {reserved replacement : Vma}

theorem Vma.Bounded.of_anonymous (anonymous : v.vmType = .anonymous) : v.Bounded t := by
  intro backed
  simp [fileBacked, anonymous] at backed

/-- What is left of a span below a boundary, if anything. -/
def Vma.leftPart (v : Vma) (boundary : Nat) : List Vma :=
  if v.vmStart < boundary then [{ v with vmEnd := boundary }] else []

/-- What is left of a span from a boundary on, if anything. -/
def Vma.rightPart (v : Vma) (boundary : Nat) : List Vma :=
  if boundary < v.vmEnd then [{ v with vmStart := boundary }] else []

theorem Vma.mem_leftPart (member : part ∈ v.leftPart boundary) :
    part = { v with vmEnd := boundary } := by
  unfold leftPart at member
  split at member
  · exact mem_singleton.mp member
  · cases member

theorem Vma.mem_rightPart (member : part ∈ v.rightPart boundary) :
    part = { v with vmStart := boundary } := by
  unfold rightPart at member
  split at member
  · exact mem_singleton.mp member
  · cases member

/-- The replacement between what is left of the span on its two sides. -/
theorem replaced_parts (ok : VmasOk (before ++ reserved :: after)) (wf : replacement.WellFormed)
    (anonymous : reserved.vmType = .anonymous) (low : reserved.vmStart ≤ replacement.vmStart)
    (high : replacement.vmEnd ≤ reserved.vmEnd) :
    Replaced t (before ++ reserved :: after) replacement
      (before ++ reserved.leftPart replacement.vmStart ++ replacement ::
        (reserved.rightPart replacement.vmEnd ++ after)) := by
  obtain ⟨wfReserved, earlier, later⟩ := ok.around
  have range := wf.nonempty
  have plain : reserved.fileBacked = false := by simp [fileBacked, anonymous]
  -- As an unmap of the range would leave them.
  have pieces : unmapPieces t replacement.vmStart replacement.vmEnd none reserved =
      reserved.leftPart replacement.vmStart ++ reserved.rightPart replacement.vmEnd := by
    simp only [unmapPieces, above, plain, leftPart, rightPart]
    grind
  have without := ok.replace (unmapPieces_ok t none wfReserved range wf.startAligned wf.endAligned)
    fun m => unmapPieces_inside range
  have placed : VmasOk ((before ++ reserved.leftPart replacement.vmStart) ++ replacement ::
      (reserved.rightPart replacement.vmEnd ++ after)) := by
    refine VmasOk.inserted (by simpa [pieces] using without) wf ?_ ?_
    · intro a member
      cases mem_append.mp member with
      | inl inBefore => exact (earlier a inBefore).trans low
      | inr inLeft => rw [mem_leftPart inLeft]
    · intro b member
      cases mem_append.mp member with
      | inl inRight => rw [mem_rightPart inRight]
      | inr inAfter => exact high.trans (later b inAfter)
  refine ⟨placed, fun a => ?_, fun old new v member => ?_⟩
  · rw [attrsAt_inserted placed]
    by_cases covered : replacement.covers a = true
    · rw [if_pos covered, if_pos covered]
    · have left :=
        attrsAt_unmapped (t := t) range (show ∀ v ∈ [reserved], _ → _ →
          none = v.vfile by simp [plain]) a
      rw [if_neg (mt covers_iff.mpr covered), flatMap_singleton, pieces] at left
      rw [if_neg covered, if_neg covered]
      unfold attrsAt at left ⊢
      rw [append_assoc, ← append_assoc (reserved.leftPart _), lookup_append, lookup_append, left,
        ← lookup_append,
        ← lookup_append]
      rfl
  · simp only [mem_append, mem_cons] at member
    rcases member with (inBefore | inLeft) | rfl | inRight | inAfter
    · exact old v (by simp [inBefore])
    · exact mem_leftPart inLeft ▸ .of_anonymous anonymous
    · exact new
    · exact mem_rightPart inRight ▸ .of_anonymous anonymous
    · exact old v (by simp [inAfter])

end Replacing

theorem replaceReservedVmaRange_inside
    (done : replaceReservedVmaRange mapped vmas replacement append = (true, replaced)) :
    ∃ reserved ∈ vmas, reserved.vmStart ≤ replacement.vmStart ∧
      replacement.vmEnd ≤ reserved.vmEnd := by
  unfold replaceReservedVmaRange at done
  split at done
  · exact absurd (congrArg Prod.fst done) (by simp)
  split at done
  · exact absurd (congrArg Prod.fst done) (by simp)
  rename_i before reserved after found
  obtain ⟨rfl, fits⟩ := span_found found
  simp only [Bool.not_eq_eq_eq_not, Bool.not_false] at fits
  obtain ⟨low, high, -⟩ := reservedFor_iff.mp fits
  exact ⟨reserved, by simp, low, high⟩

theorem replaceReservedVmaRange_cases (t : Target) (mapped : Nat → Bool)
    (replacement : Vma) (append : Nat → Bool) (ok : VmasOk vmas) :
    replaceReservedVmaRange mapped vmas replacement append = (false, vmas) ∨
      ∃ replaced, replaceReservedVmaRange mapped vmas replacement append = (true, replaced) ∧
        replacement.WellFormed ∧ Replaced t vmas replacement replaced ∧
        ∀ a ∈ pagesFrom replacement.vmStart
        ((replacement.vmEnd - replacement.vmStart) / pageSize),
          mapped a = false := by
  unfold replaceReservedVmaRange
  split
  · exact .inl rfl
  rename_i shape
  have wf : replacement.WellFormed := by
    constructor
    · by_contra unaligned
      exact shape (.inr (.inl unaligned))
    · by_contra unaligned
      exact shape (.inr (.inr (.inl unaligned)))
    · omega
  split
  · exact .inl rfl
  rename_i before reserved after found
  obtain ⟨rfl, fits⟩ := span_found found
  simp only [Bool.not_eq_eq_eq_not, Bool.not_false] at fits
  obtain ⟨low, high, -, anonymous, -, -⟩ := reservedFor_iff.mp fits
  obtain ⟨wfReserved, earlier, later⟩ := ok.around
  split
  · exact .inl rfl
  rename_i free
  have unmapped : ∀ a ∈ pagesFrom replacement.vmStart
      ((replacement.vmEnd - replacement.vmStart) / pageSize), mapped a = false := by
    intro a member
    by_contra present
    exact free (any_eq_true.mpr ⟨a, member, by simpa using present⟩)
  have replaced := replaced_parts (t := t) ok wf anonymous low high
  simp only [leftPart, rightPart] at replaced
  split
  · rename_i whole
    rw [if_neg (by omega), if_neg (by omega)] at replaced
    exact .inr ⟨_, rfl, wf, by simpa using replaced, unmapped⟩
  rename_i partly
  split
  · rename_i start
    rw [if_neg (by omega), if_pos (by omega)] at replaced
    simp only [nil_append, append_assoc, cons_append] at replaced
    cases append 0 with
    | false =>
      simp only [insertVmaSorted_refused]
      exact .inl trivial
    | true =>
      refine .inr ⟨_, ?_, wf, replaced, unmapped⟩
      simp only [(VmasOk.insert _ _ replaced.ok).2]
  rename_i notStart
  split
  · rename_i finish
    rw [if_pos (by omega), if_neg (by omega)] at replaced
    simp only [append_assoc, cons_append, nil_append] at replaced
    have placed := (VmasOk.insert (before ++ [{ reserved with vmEnd := replacement.vmStart }]) after
      (by simpa using replaced.ok)).2
    simp only [append_assoc, cons_append, nil_append] at placed
    cases append 0 with
    | false =>
      simp only [insertVmaSorted_refused]
      exact .inl trivial
    | true =>
      refine .inr ⟨_, ?_, wf, replaced, unmapped⟩
      simp only [placed]
  rename_i notEnd
  rw [if_pos (by omega), if_pos (by omega)] at replaced
  simp only [append_assoc, cons_append, nil_append] at replaced
  -- The upper part goes in first, between the lower part and what follows the span.
  obtain ⟨okSplit, second⟩ :=
    VmasOk.insert (before ++ [{ reserved with vmEnd := replacement.vmStart }])
    ({ reserved with vmStart := replacement.vmEnd } :: after) (by simpa using replaced.ok)
  have first := (VmasOk.insert _ _ okSplit).2
  simp only [append_assoc, cons_append, nil_append] at first second
  cases append 0 with
  | false =>
    simp only [insertVmaSorted_refused]
    exact .inl trivial
  | true =>
    simp only [first]
    cases append 1 with
    | false =>
      simp only [insertVmaSorted_refused]
      exact .inl (congrArg _ (undo_split before after _ _ _))
    | true =>
      simp only [second]
      exact .inr ⟨_, rfl, wf, replaced, unmapped⟩

end Mecocoa.Memory
