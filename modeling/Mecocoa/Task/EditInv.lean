import Mecocoa.Memory.UnmapInv
import Mecocoa.Task.FreeRange

/-! # The memory system calls keep the invariant

`sysc_MMAP` places an area where neither an area nor a leaf is, `sysc_SMAP`
changes the protection of areas and of the leaves in them.  Both may pin an
executable image first, which takes write permission from the shared pages of
its file.
-/

namespace Mecocoa.Memory

open Option

variable {v : Vma}

/-- A shared mapping of a file that may be written has its file opened for writing. -/
def ModeOk (attrs : PageAttrs) : Prop :=
  attrs.type = .file → attrs.mode = .shared → attrs.flags.writable = true →
    ∃ file offset, attrs.backing = some (file, offset) ∧ file.fMode ≠ .rdonly

def ModeInv (t : Target) (s : Sys) : Prop :=
  ∀ p a attrs, attrsAt t (s.vmas p) a = some attrs → ModeOk attrs

theorem ModeInv.of_areas (inv : ModeInv t s)
    (areas : ∀ q a, attrsAt t (s'.vmas q) a = attrsAt t (s.vmas q) a ∨
      attrsAt t (s'.vmas q) a = none) :
    ModeInv t s' := by
  intro p a attrs here
  rcases areas p a with same | none
  · exact inv p a attrs (same ▸ here)
  · exact absurd (none.symm.trans here) (by simp)

section Edits

variable {p : Nat}

theorem AliasInv.setVmas (inv : AliasInv gone s) (p : Nat) (vmas : List Vma) :
    AliasInv gone (s.setVmas p vmas) :=
  inv.of_pte (Sys.pte_setVmas s p vmas) rfl

theorem life_setVmas (s : Sys) (p : Nat) (vmas : List Vma) (q : Nat) :
    ((s.setVmas p vmas).procs q).life = (s.procs q).life := by
  rw [procs_setVmas]

/-! ## Protection -/

theorem protectLeaves_pte (s : Sys) (p address endAddr : Nat) (flags : PageProps) (q b : Nat) :
    (protectLeaves s p address endAddr flags).pte q b = if q = p ∧ address ≤ b ∧
      b < endAddr then
        (s.pte q b).map fun e => { e with props := protectProps flags e.props }
      else s.pte q b := by
  unfold protectLeaves Sys.setProc Sys.pte
  by_cases same : q = p
  · subst same
    by_cases inside : address ≤ b ∧ b < endAddr
    · simp [inside]
    · simp [inside]
  · simp [same]

theorem protectLeaves_setVmas (s : Sys) (p address endAddr : Nat) (flags : PageProps)
    (vmas : List Vma) :
    protectLeaves (s.setVmas p vmas) p address endAddr flags =
      (protectLeaves s p address endAddr flags).setVmas p vmas := by
  simp [protectLeaves, Sys.setVmas, Sys.setProc]

theorem Weaker.protectLeaves (s : Sys) (p address endAddr : Nat) (flags : PageProps) :
    Weaker s (protectLeaves s p address endAddr flags) where
  rest := by
    intro q
    unfold SameProc Memory.protectLeaves Sys.setProc
    by_cases same : q = p
    · subst same
      simp
    · simp [same]
  leaf := by
    intro q b
    rw [protectLeaves_pte]
    split
    · cases here : s.pte q b with
      | none => exact .inl rfl
      | some e =>
        refine .inr ⟨e, protectProps flags e.props, rfl, rfl, fun writable => ?_⟩
        simp only [protectProps, Bool.and_eq_true] at writable
        exact writable.2
    · exact .inl rfl

/-- Aliases stay open unless the protection shuts out user mode. -/
theorem AliasInv.protectLeaves (inv : AliasInv [] s)
    (leaf : LeafInv t seen s)
    (opened : flags.userAccess = true ∨ ∀ a, address ≤ a → a < endAddr →
    SharedArea t (s.vmas p) a → s.pte p a = none) :
    AliasInv [] (protectLeaves s p address endAddr flags) := by
  refine ⟨fun pg member l listed stays => ?_, inv.once⟩
  obtain ⟨e, mapped, frame, present, user⟩ := inv.leaf pg member l listed stays
  unfold UserLeaf
  rw [protectLeaves_pte]
  split
  · rename_i inside
    rw [mapped]
    refine ⟨_, rfl, frame, present, ?_⟩
    rcases opened with kept | absent
    · exact kept
    · obtain ⟨attrs, file, area, type, mode, -⟩ :=
        leaf.sharedLeaf l.1 l.2 e mapped pg member frame.symm
      rw [inside.1] at area mapped
      have none := absent l.2 inside.2.1 inside.2.2 ⟨attrs, area, type, mode⟩
      exact absurd (none.symm.trans mapped) (by simp)
  · exact ⟨e, mapped, frame, present, user⟩

/-- What a change of protection does to the attributes of a page. -/
theorem attrsAt_protect_cases
    (cut : ProtectDone t vmas address length flags final) (a : Nat) :
    attrsAt t (mergeAdjacentAnonymousVmas
      (final.map (protectInside address (address + length) flags))) a =
      if address ≤ a ∧
      a < address + length then (attrsAt t vmas a).map (PageAttrs.protect flags)
      else attrsAt t vmas a := by
  rw [attrsAt_merged (cut.recut.ok.protected address (address + length) flags),
    attrsAt_protected cut.uncut, cut.recut.attrs]

theorem ProtectDone.modeOk
    (cut : ProtectDone t vmas address length flags final)
    (inside : address ≤ a ∧ a < address + length) (here : attrsAt t vmas a = some attrs) :
    ModeOk (attrs.protect flags) := by
  obtain ⟨v, found, rfl⟩ := map_eq_some_iff.mp here
  have covered := Vma.covers_iff.mp (List.find?_some (p := fun w : Vma => w.covers a) found)
  have allowed := (cut.allowed v (List.mem_of_find?_eq_some found) (by omega) (by omega)).2
  intro type mode writable
  have isFile : v.vmType = .file := type
  have isShared : v.vmMode = .shared := mode
  have mayWrite : flags.writable = true := writable
  unfold fileRefuses at allowed
  cases backed : v.vfile with
  | none => simp [isFile, backed] at allowed
  | some file =>
    simp only [isFile, backed, isShared, mayWrite, beq_self_eq_true, Bool.true_and, Bool.and_true,
      Bool.or_eq_false_iff, bne_eq_false_iff_eq] at allowed
    refine ⟨file, t.wrap (v.fileOffset + (a - v.vmStart)), ?_, ?_⟩
    · simp [PageAttrs.protect, Vma.attrs, isFile, backed]
    · rw [allowed.2]
      decide

theorem Inv.protectVmaRange (inv : Inv t seen k s) (active : Active s p) (address length : Nat)
    (flags : PageProps) (outcome : ProtectOutcome) :
    ∃ result s', protectVmaRange t s p address length flags outcome = (result, s') ∧
      Inv t seen k s' ∧ FileSame s s' ∧ (∀ q, (s'.procs q).life = (s.procs q).life) ∧
      (ModeInv t s → ModeInv t s') ∧
      ((flags.userAccess = true ∨ ∀ a, address ≤ a → a < address + length →
        SharedArea t (s.vmas p) a → s.pte p a = none) → AliasInv [] s → AliasInv [] s') := by
  have ok := inv.space.areas p
  rcases protectVmaRange_cases t s p address length flags outcome ok with
    refused | ⟨final, cut, done⟩
  · exact ⟨false, s, refused, inv, .refl s, fun _ => rfl, id, fun _ => id⟩
  rw [protectLeaves_setVmas] at done
  have attrs := attrsAt_protect_cases cut
  have weak := Weaker.protectLeaves s p address (address + length) flags
  obtain ⟨inv₁, files₁⟩ := inv.weaken weak rfl rfl rfl rfl rfl rfl
  have pte₁ := protectLeaves_pte s p address (address + length) flags
  have aliases₁ : (flags.userAccess = true ∨ ∀ a, address ≤ a → a < address + length →
      SharedArea t (s.vmas p) a → s.pte p a = none) → AliasInv [] s →
      AliasInv [] (protectLeaves s p address (address + length) flags) :=
    fun opened aliases => aliases.protectLeaves inv.leaf opened
  generalize protectLeaves s p address (address + length) flags = s₁ at *
  have flagged := cut.recut.ok.protected address (address + length) flags
  have active₁ : Active s₁ p := by
    unfold Active
    rw [weak.life]
    exact active
  obtain ⟨inv₂, files₂⟩ := inv₁.setVmas active₁ flagged.merged
    (Bounded.merged (Bounded.protected (cut.recut.bounded (inv.space.bounded p))))
    (by
      intro a found covered
      rw [attrs] at covered
      split at covered
      · obtain ⟨old, here, rfl⟩ := map_eq_some_iff.mp covered
        exact inv.space.plain p a old here
      · exact inv.space.plain p a found covered)
    (by
      intro a inside
      rw [attrs, inv.space.slicesFree p a ((weak.inSlices p a).mp inside)]
      split <;> rfl)
    (by
      intro a e here
      rw [weak.vmas, attrs]
      split
      · rename_i inside
        rw [pte₁, if_pos ⟨rfl, inside⟩] at here
        obtain ⟨e', -, rfl⟩ := map_eq_some_iff.mp here
        cases attrsAt t (s.vmas p) a with
        | none => trivial
        | some old =>
          refine ⟨rfl, rfl, rfl, fun writable => ?_⟩
          simp only [protectProps, Bool.and_eq_true] at writable
          exact writable.1
      · exact weak.vmas p ▸ (inv₁.leafOk here).refits_of_same rfl)
  refine ⟨true, _, done, inv₂, files₁.trans files₂, ?_, ?_, ?_⟩
  · intro q
    rw [life_setVmas, weak.life]
  · intro mode q a found covered
    rw [Sys.vmas_setVmas] at covered
    split at covered
    · rename_i same
      rw [attrs] at covered
      split at covered
      · rename_i inside
        obtain ⟨old, here, rfl⟩ := map_eq_some_iff.mp covered
        exact cut.modeOk inside here
      · exact mode p a found covered
    · rw [weak.vmas] at covered
      exact mode q a found covered
  · exact fun opened aliases => (aliases₁ opened aliases).setVmas p _

/-! ## Pins -/

theorem Kept.pins (s : Sys) (pins : List ExecutableImagePin) : Kept s { s with pins } :=
  .of_procs (.of_shared rfl (fun _ _ => rfl) rfl) rfl fun pg member =>
    .inr ⟨pg, member, rfl, rfl⟩

/-- Pins come and go, and leaves on shared pages lose write permission. -/
structure PinOnly (s s' : Sys) : Prop where
  kept : Kept s s'
  protect : WriteProtected s s'

theorem PinOnly.refl (s : Sys) : PinOnly s s := ⟨.refl s, .refl s⟩

theorem PinOnly.trans (first : PinOnly s mid) (second : PinOnly mid s') : PinOnly s s' :=
  ⟨first.kept.trans second.kept, first.protect.trans second.protect⟩

theorem Inv.repin (inv : Inv t seen k s) (pins : List ExecutableImagePin) :
    Inv t seen k { s with pins } ∧ PinOnly s { s with pins } :=
  ⟨(inv.unpin pins).1, .pins s pins, .of_procs rfl⟩

theorem Inv.pinMappedExecutableImage (inv : Inv t seen k s) (p : Nat) (file : VfsFile)
    (outcome : PinOutcome) :
    ∃ done made s', pinMappedExecutableImage t s p file outcome = (done, made, s') ∧
      Inv t seen k s' ∧ PinOnly s s' := by
  unfold Memory.pinMappedExecutableImage
  cases file.fInode with
  | none => exact ⟨false, false, s, rfl, inv, .refl s⟩
  | some ino =>
    dsimp only
    split
    · exact ⟨false, false, s, rfl, inv, .refl s⟩
    split
    · exact ⟨true, false, s, rfl, inv, .refl s⟩
    have only := ProtectedOnly.prepareSharedFileTruncate t outcome.setup outcome.snapshot s ino
    generalize prepareSharedFileTruncate t outcome.setup outcome.snapshot s ino = result at *
    obtain ⟨prepared, s₁⟩ := result
    obtain ⟨inv₁, files₁⟩ := inv.protectedOnly only
    have kept₁ : PinOnly s s₁ := ⟨.of_protectedOnly files₁ only, only.protect⟩
    cases prepared with
    | false => exact ⟨false, false, s₁, rfl, inv₁, kept₁⟩
    | true =>
      dsimp only
      split
      · exact ⟨false, false, s₁, rfl, inv₁, kept₁⟩
      · obtain ⟨inv₂, kept₂⟩ := inv₁.repin (⟨p, ino, true⟩ :: s₁.pins)
        exact ⟨true, true, _, rfl, inv₂, kept₁.trans kept₂⟩

theorem Inv.unpinCreated (p : Nat) (created : List Nat) : ∀ {s : Sys}, Inv t seen k s →
    Inv t seen k (unpinCreated p s created) ∧ PinOnly s (unpinCreated p s created) := by
  induction created with
  | nil => exact fun inv => ⟨inv, .refl _⟩
  | cons ino created ih =>
    intro s inv
    obtain ⟨inv₁, kept₁⟩ := inv.repin (s.pins.eraseP fun pin =>
      pin.mappedFile && pin.process == p && pin.inode == ino)
    obtain ⟨inv₂, kept₂⟩ := ih inv₁
    exact ⟨inv₂, kept₁.trans kept₂⟩

theorem Inv.pinFiles (p : Nat) (pin : Nat → PinOutcome) (files : List (Option VfsFile)) :
    ∀ {s : Sys} (i : Nat) (created : List Nat), Inv t seen k s →
      Inv t seen k (pinFiles t p pin i s created files).2 ∧
        PinOnly s (pinFiles t p pin i s created files).2 := by
  induction files with
  | nil => exact fun _ _ inv => ⟨inv, .refl _⟩
  | cons file files ih =>
    intro s i created inv
    cases file with
    | none => exact inv.unpinCreated p created
    | some file =>
      obtain ⟨done, made, s₁, pinned, inv₁, kept₁⟩ :=
        inv.pinMappedExecutableImage p file (pin i)
      unfold Memory.pinFiles
      rw [pinned]
      cases done with
      | false =>
        obtain ⟨inv₂, kept₂⟩ := inv₁.unpinCreated p created
        exact ⟨inv₂, kept₁.trans kept₂⟩
      | true => exact ⟨(ih (i + 1) _ inv₁).1, kept₁.trans (ih (i + 1) _ inv₁).2⟩

/-- No leaf on a shared file page loses user mode. -/
def KeepsUserMode (t : Target) (s : Sys) (p address length : Nat) (prot : Prot) : Prop :=
  prot.none = false ∨ ∀ a, address ≤ a → a < address + length →
  SharedArea t (s.vmas p) a → s.pte p a = none

theorem ModeInv.kept (mode : ModeInv t s) (kept : Kept s s') : ModeInv t s' :=
  mode.of_areas fun q a => .inl (by rw [kept.vmas])

theorem Inv.syscSmap (inv : Inv t seen k s) (active : Active s p) (address len : Nat) (prot : Prot)
    (outcome : SmapOutcome) : Inv t seen k (syscSmap t s p address len prot outcome).2 ∧
      FileSame s (syscSmap t s p address len prot outcome).2 ∧
      (∀ q, ((syscSmap t s p address len prot outcome).2.procs q).life = (s.procs q).life) ∧
      (ModeInv t s → ModeInv t (syscSmap t s p address len prot outcome).2) ∧
      (KeepsUserMode t s p address (pageFloor (len + (pageSize - 1))) prot → AliasInv [] s →
        AliasInv [] (syscSmap t s p address len prot outcome).2) := by
  unfold Memory.syscSmap
  split
  · exact ⟨inv, .refl s, fun _ => rfl, id, fun _ => id⟩
  dsimp only
  split
  · exact ⟨inv, .refl s, fun _ => rfl, id, fun _ => id⟩
  obtain ⟨inv₁, pinned⟩ := inv.pinFiles p outcome.pin (filesToPin (s.vmas p) address
    (address + pageFloor (len + (pageSize - 1))) prot) 0 []
  generalize Memory.pinFiles t p outcome.pin 0 s [] (filesToPin (s.vmas p) address
    (address + pageFloor (len + (pageSize - 1))) prot) = result at *
  obtain ⟨created, s₁⟩ := result
  have kept₁ := pinned.kept
  cases created with
  | none =>
    exact ⟨inv₁, kept₁.files, kept₁.life, fun mode => mode.kept kept₁,
      fun _ => kept₁.aliases⟩
  | some created =>
    dsimp only at inv₁ kept₁ pinned ⊢
    obtain ⟨done, s₂, ran, inv₂, files₂, life₂, mode₂, aliases₂⟩ :=
      inv₁.protectVmaRange
      ((kept₁.active p).mpr active) address (pageFloor (len + (pageSize - 1))) (prot.flags t)
      outcome.protect
    have opened : KeepsUserMode t s p address (pageFloor (len + (pageSize - 1))) prot →
        (prot.flags t).userAccess = true ∨ ∀ a, address ≤ a →
          a < address + pageFloor (len + (pageSize - 1)) → SharedArea t (s₁.vmas p) a →
              s₁.pte p a = none := by
      intro keeps
      rcases keeps with some | absent
      · exact .inl (by simp [Prot.flags, some])
      · refine .inr fun a below above area => ?_
        rw [kept₁.vmas] at area
        exact pinned.protect.free (absent a below above area)
    rw [ran]
    cases done with
    | true =>
      exact ⟨inv₂, kept₁.files.trans files₂, fun q => (life₂ q).trans (kept₁.life q),
        fun mode => mode₂ (mode.kept kept₁), fun keeps aliases =>
        aliases₂ (opened keeps) (kept₁.aliases aliases)⟩
    | false =>
      obtain ⟨inv₃, unpinned⟩ := inv₂.unpinCreated p created
      have kept₃ := unpinned.kept
      exact ⟨inv₃, (kept₁.files.trans files₂).trans kept₃.files,
        fun q => (kept₃.life q).trans ((life₂ q).trans (kept₁.life q)),
        fun mode => (mode₂ (mode.kept kept₁)).kept kept₃,
        fun keeps aliases =>
        kept₃.aliases (aliases₂ (opened keeps) (kept₁.aliases aliases))⟩

/-! ## New areas -/

theorem firstCandidate_some (found : firstCandidate t s p = some candidate) :
    (s.procs p).heapbtm ≤ candidate ∧ Aligned candidate := by
  unfold firstCandidate at found
  obtain ⟨_, ⟨⟩⟩ := ite_none_left_eq_some.mp found
  refine ⟨?_, Aligned.pageFloor _⟩
  unfold pageFloor pageSize
  omega

/-- An area appears over pages that have neither a leaf nor a load slice. -/
theorem Inv.placeArea (inv : Inv t seen k s) (active : Active s p)
    (ok : VmasOk vmas) (bounded : ∀ w ∈ vmas, w.Bounded t)
    (attrs : ∀ a, attrsAt t vmas a = if v.covers a then some (v.attrs t a)
      else attrsAt t (s.vmas p) a)
    (plain : v.vmType ≠ .device) (high : v.vmEnd ≤ t.userEnd)
    (free : ∀ a, v.covers a = true → Aligned a → s.pte p a = none)
    (unsliced : ∀ a, v.covers a = true → ¬ InSlices (s.procs p) a) :
    Inv t seen k (s.setVmas p vmas) ∧ FileSame s (s.setVmas p vmas) := by
  refine inv.setVmas active ok bounded ?_ ?_ ?_
  · intro a found covered
    rw [attrs] at covered
    split at covered
    · rename_i inside
      cases covered
      have below := (Vma.covers_iff.mp inside).2
      exact ⟨plain, by omega⟩
    · exact inv.space.plain p a found covered
  · intro a inSlices
    rw [attrs, if_neg fun covered => unsliced a covered inSlices]
    exact inv.space.slicesFree p a inSlices
  · intro a e here
    have outside : ¬ v.covers a = true := by
      intro covered
      have empty := free a covered (inv.leaf.aligned p a e here)
      exact absurd (empty.symm.trans here) (by simp)
    rw [attrs, if_neg outside]
    exact (inv.leafOk here).refits_of_same rfl

/-- The attributes that a placed area has, and those of all other pages. -/
def Placed (t : Target) (s s' : Sys) (p : Nat) (v : Vma) : Prop :=
  ∀ q a, attrsAt t (s'.vmas q) a = if q = p ∧ v.covers a = true then some (v.attrs t a)
    else attrsAt t (s.vmas q) a

theorem Placed.of_setVmas
    (attrs : ∀ a, attrsAt t vmas a = if v.covers a then some (v.attrs t a)
      else attrsAt t (s.vmas p) a) :
    Placed t s (s.setVmas p vmas) p v := by
  intro q a
  rw [Sys.vmas_setVmas]
  by_cases same : q = p
  · subst same
    simp [attrs]
  · simp [same]

theorem Inv.placeVma (inv : Inv t seen k s) (active : Active s p) (fixed : Option Nat)
    (append : Nat → Bool) (bounded : v.fileBacked = true → v.fileOffset + length ≤ t.maxWord)
    (plain : v.vmType ≠ .device)
    (inside : ∀ address, fixed = some address → address + length ≤ t.userEnd)
    (done : placeVma t s p length fixed v append = some (address, s')) :
    Inv t seen k s' ∧ FileSame s s' ∧ (∀ q, (s'.procs q).life = (s.procs q).life) ∧
      (AliasInv [] s → AliasInv [] s') ∧
      ∃ address, Placed t s s' p { v with vmStart := address, vmEnd := address + length } := by
  have ok := inv.space.areas p
  have fits :
      ∀ address, Vma.Bounded t { v with vmStart := address, vmEnd := address + length } := by
    intro address backed
    have := bounded backed
    dsimp only
    omega
  unfold Memory.placeVma at done
  cases fixed with
  | some wanted =>
    dsimp only at done
    rcases replaceReservedVmaRange_cases t (fun a => (s.pte p a).isSome)
      { v with vmStart := wanted, vmEnd := wanted + length } append ok with
      refused | ⟨vmas, replaced, wf, result, unmapped⟩
    · rw [refused] at done
      exact absurd done (by simp)
    rw [replaced] at done
    obtain ⟨rfl, rfl⟩ := Prod.mk.inj (some.inj done)
    obtain ⟨reserved, member, low, high⟩ := replaceReservedVmaRange_inside replaced
    have bounds := result.bounded (inv.space.bounded p) (fits wanted)
    have free : ∀ a, Vma.covers { v with vmStart := wanted, vmEnd := wanted + length } a =
      true →
        Aligned a → s.pte p a = none := by
      intro a covered aligned
      have empty := unmapped a ((mem_pagesFrom_range wf.startAligned wf.endAligned).mpr
        ⟨aligned, Vma.covers_iff.mp covered⟩)
      simpa using empty
    have unsliced : ∀ a, Vma.covers { v with vmStart := wanted, vmEnd := wanted + length } a =
      true →
        ¬ InSlices (s.procs p) a := by
      intro a covered inSlices
      have range := Vma.covers_iff.mp covered
      have old :=
        (ok.vmaAt_iff (a := a)).mpr ⟨member, Vma.covers_iff.mpr ⟨by omega, by omega⟩⟩
      have none := inv.space.slicesFree p a inSlices
      rw [attrsAt_of_vmaAt old] at none
      exact absurd none (by simp)
    obtain ⟨next, files⟩ := inv.placeArea active result.ok bounds result.attrs plain
      (inside wanted rfl) free unsliced
    exact ⟨next, files, life_setVmas s p vmas, fun aliases => aliases.setVmas p vmas, wanted,
      .of_setVmas result.attrs⟩
  | none =>
    cases search : (firstCandidate t s p).bind (findFreeVmaRange t s p length t.userEnd) with
    | none => simp [search] at done
    | some found =>
      rw [search] at done
      dsimp only at done
      obtain ⟨candidate, start, free⟩ := bind_eq_some_iff.mp search
      obtain ⟨above, page⟩ := firstCandidate_some start
      cases inserted : insertVmaSorted (s.vmas p)
          { v with vmStart := found, vmEnd := found + length } (append 0) with
      | none => simp [inserted] at done
      | some vmas =>
        rw [inserted] at done
        obtain ⟨rfl, rfl⟩ := Prod.mk.inj (some.inj done)
        obtain ⟨wf, before, after, split, rfl, left, right⟩ := insertVmaSorted_some ok inserted
        have whole : Aligned length := by simpa using wf.endAligned.sub wf.startAligned
        have least := freeRangeFrom_least (fun a => (s.pte p a).isSome)
          (fun v there => (ok.wellFormed v there).endAligned)
          (by simpa using wf.nonempty) whole t.userEnd page (Nat.le_add_left ..)
        rw [← findFreeVmaRange_eq, free] at least
        obtain ⟨low, place, -⟩ := least
        rw [split] at ok
        have placed := VmasOk.inserted ok wf left right
        have attrs := attrsAt_inserted (t := t) placed
        rw [← split] at attrs
        have bounds :
          ∀ w ∈ before ++ ({ v with vmStart := found, vmEnd := found + length } : Vma) ::
            after, w.Bounded t := by
          intro w member
          have old := inv.space.bounded p w
          rw [split] at old
          rcases List.mem_append.mp member with inLeft | inRight
          · exact old (List.mem_append_left _ inLeft)
          · cases List.mem_cons.mp inRight with
            | inl same => exact same ▸ fits found
            | inr later => exact old (List.mem_append_right _ later)
        obtain ⟨next, files⟩ := inv.placeArea active placed bounds attrs plain place.inside
          (fun a covered aligned => by
            have range := Vma.covers_iff.mp covered
            simpa using place.unmapped a aligned range.1 range.2)
          (fun a covered inSlices => by
            have range := (Vma.covers_iff.mp covered).1
            have below := inv.space.slicesLow p a inSlices
            dsimp only at range
            omega)
        exact ⟨next, files, life_setVmas s p _, fun aliases => aliases.setVmas p _, found,
          .of_setVmas attrs⟩

/-- The descriptor behind a new writable shared mapping was opened for writing. -/
def OpenedForWriting (t : Target) (s : Sys) (p : Nat) (call : MmapCall) : Prop :=
  ∀ plan fd file, call.plan t = some plan → plan.fd = some fd →
    (s.procs p).files[fd]? = some (some file) → plan.mode = .shared →
    plan.flag.writable = true → file.fMode ≠ .rdonly

theorem plannedVma_some (planned : plannedVma s p plan clone = some v) :
    v.vmType ≠ .device ∧ v.vmFlags = plan.flag ∧
      (v.fileBacked = true → v.fileOffset = plan.offset) ∧
      (v.vmType = .file → ∃ fd file, plan.fd = some fd ∧
        (s.procs p).files[fd]? = some (some file) ∧
        v.vfile = some file ∧ v.vmMode = plan.mode) := by
  unfold plannedVma at planned
  split at planned
  · cases planned
    exact ⟨by simp, rfl, by simp [Vma.fileBacked], by simp⟩
  · rename_i fd some
    split at planned
    · rename_i file opened
      obtain ⟨_, ⟨⟩⟩ := ite_none_right_eq_some.mp planned
      exact ⟨by simp, rfl, fun _ => rfl, fun _ => ⟨fd, file, some, opened, rfl, rfl⟩⟩
    · exact absurd planned (by simp)

theorem Inv.pinPlanned (inv : Inv t seen k s) (p : Nat) (plan : MmapPlan) (v : Vma)
    (outcome : PinOutcome) :
    ∃ done made s', pinPlanned t s p plan v outcome = (done, made, s') ∧ Inv t seen k s' ∧
      PinOnly s s' := by
  unfold Memory.pinPlanned
  split
  · exact inv.pinMappedExecutableImage p _ outcome
  · exact ⟨true, false, s, rfl, inv, .refl s⟩

theorem Inv.syscMmap (inv : Inv t seen k s) (active : Active s p) (len : Nat) (call : MmapCall)
    (outcome : MmapOutcome) : Inv t seen k (syscMmap t s p len call outcome).2 ∧
      FileSame s (syscMmap t s p len call outcome).2 ∧
      (∀ q, ((syscMmap t s p len call outcome).2.procs q).life = (s.procs q).life) ∧
      (AliasInv [] s → AliasInv [] (syscMmap t s p len call outcome).2) ∧
      (OpenedForWriting t s p call → ModeInv t s →
        ModeInv t (syscMmap t s p len call outcome).2) := by
  have unchanged : Inv t seen k s ∧ FileSame s s ∧
    (∀ q, (s.procs q).life = (s.procs q).life) ∧
      (AliasInv [] s → AliasInv [] s) ∧
          (OpenedForWriting t s p call → ModeInv t s → ModeInv t s) :=
    ⟨inv, .refl s, fun _ => rfl, id, fun _ => id⟩
  unfold Memory.syscMmap
  cases checked : call.plan t with
  | none => exact unchanged
  | some plan =>
    dsimp only
    split
    · exact unchanged
    rename_i sized
    split
    · exact unchanged
    rename_i offset
    split
    · exact unchanged
    rename_i range
    cases planned : plannedVma s p plan outcome.clone with
    | none => exact unchanged
    | some v =>
      obtain ⟨plain, flags, fileOffset, backing⟩ := plannedVma_some planned
      dsimp only
      obtain ⟨done, made, s₁, pinned, inv₁, only⟩ := inv.pinPlanned p plan v outcome.pin
      have kept₁ := only.kept
      rw [pinned]
      cases done with
      | false =>
        exact ⟨inv₁, kept₁.files, kept₁.life, kept₁.aliases,
          fun _ mode => mode.kept kept₁⟩
      | true =>
        dsimp only
        cases place : Memory.placeVma t s₁ p (pageFloor (len + (pageSize - 1))) plan.fixed v
            outcome.append with
        | none =>
          dsimp only
          split
          · rename_i ino _
            obtain ⟨inv₂, unpinned⟩ := inv₁.repin (s₁.pins.eraseP fun pin =>
              pin.mappedFile && pin.process == p && pin.inode == ino)
            have kept₂ := kept₁.trans unpinned.kept
            exact ⟨inv₂, kept₂.files, kept₂.life, kept₂.aliases,
              fun _ mode => mode.kept kept₂⟩
          · exact ⟨inv₁, kept₁.files, kept₁.life, kept₁.aliases,
              fun _ mode => mode.kept kept₁⟩
        | some result =>
          obtain ⟨address, s₂⟩ := result
          have bounded : v.fileBacked = true → v.fileOffset + pageFloor (len + (pageSize - 1)) ≤
              t.maxWord := by
            intro backed
            rw [fileOffset backed]
            simp only [not_or, not_lt] at sized offset
            have floor : pageFloor (len + (pageSize - 1)) ≤ len + (pageSize - 1) :=
              Nat.div_mul_le_self ..
            omega
          have inside : ∀ address, plan.fixed = some address →
              address + pageFloor (len + (pageSize - 1)) ≤ t.userEnd := by
            intro address fixed
            rw [fixed] at range
            simp only [any_some, Bool.or_eq_true, decide_eq_true_eq, not_or, not_lt,
              not_le] at range
            omega
          obtain ⟨inv₂, files₂, life₂, aliases₂, start, attrs⟩ := inv₁.placeVma
            ((kept₁.active p).mpr active) plan.fixed outcome.append bounded plain inside place
          refine ⟨inv₂, kept₁.files.trans files₂,
            fun q => (life₂ q).trans (kept₁.life q),
            fun aliases => aliases₂ (kept₁.aliases aliases), fun opened mode => ?_⟩
          intro q a found covered
          rw [attrs] at covered
          split at covered
          · cases covered
            intro type shared writable
            have isFile : v.vmType = .file := type
            obtain ⟨fd, file, descriptor, open', backed, same⟩ := backing isFile
            refine ⟨file, t.wrap (v.fileOffset + (a - start)), ?_, ?_⟩
            · simp [Vma.attrs, isFile, backed]
            · exact opened plan fd file checked descriptor open' (same ▸ shared)
                (flags ▸ writable)
          · exact mode.kept kept₁ q a found covered

end Edits

end Mecocoa.Memory
