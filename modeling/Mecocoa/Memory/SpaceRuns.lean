import Mecocoa.Lib.Run
import Mecocoa.Memory.Effects
import Mecocoa.Memory.VmaEdits

/-! # Edits of an address space

Every successful edit of the areas of a process acts on the map from pages to
attributes as the pointwise operation does.  A failed one leaves that map alone,
and puts the page table back up to the write protection that flushing its
shared pages needs.
-/

namespace Mecocoa.Memory

open Sys Prod

/-! ## Taking leaves out and putting them back -/

section Leaves

variable (p : Nat) (decode unmap : Nat → Bool)

theorem restoreLeaves_setPte (taken : List (ReleaseItem × Pte)) (a : Nat) (e : Option Pte)
    (apart : ∀ entry ∈ taken, entry.1.address ≠ a) : ∀ s,
    restoreLeaves p (s.setPte p a e) taken = (restoreLeaves p s taken).setPte p a e := by
  induction taken with
  | nil => intro s; rfl
  | cons entry taken ih =>
    intro s
    have here := apart entry (.head _)
    have next := ih fun other member => apart other (.tail _ member)
    simp only [restoreLeaves]
    split
    · exact next s
    · rw [setPte_comm s p e _ here.symm, next]

/-- The taken leaves were there and come out if the paging library takes them; putting them back
gives the very state before. -/
theorem unmapLeaves_back (items : List ReleaseItem) : ∀ s,
    (∀ q, (unmapLeaves p decode unmap s items).2.1.vmas q = s.vmas q) ∧
    (∀ entry ∈ (unmapLeaves p decode unmap s items).2.2, s.pte p entry.1.address =
      some entry.2) ∧
    ((∀ a e, s.pte p a = some e → e.frame ≠ 0) →
      restoreLeaves p (unmapLeaves p decode unmap s items).2.1
      (unmapLeaves p decode unmap s items).2.2 = s) ∧
    ((∀ a, decode a = true) → (∀ a, unmap a = true) →
      (unmapLeaves p decode unmap s items).1 = true) := by
  induction items with
  | nil => exact fun s => ⟨fun _ => rfl, by simp [unmapLeaves], fun _ => rfl, fun _ _ => rfl⟩
  | cons item items ih =>
    intro s
    unfold unmapLeaves
    split
    · exact ih s
    rename_i e here
    split
    · exact ih s
    split
    · rename_i refused
      exact ⟨fun _ => rfl, by simp, fun _ => rfl,
        fun decodes unmaps => by simp [decodes, unmaps] at refused⟩
    obtain ⟨areas, were, back, succeeds⟩ := ih (s.setPte p item.address none)
    have older : ∀ {a e'}, (s.setPte p item.address none).pte p a = some e' →
        a ≠ item.address ∧ s.pte p a = some e' := by
      intro a e' mapped
      rw [pte_setPte] at mapped
      obtain ⟨other, mapped⟩ := Option.ite_none_left_eq_some.mp mapped
      exact ⟨fun same => other ⟨rfl, same⟩, mapped⟩
    refine ⟨fun q => (areas q).trans (vmas_setPte ..),
        List.forall_mem_cons.mpr ⟨here, fun entry later =>
      (older (were entry later)).2⟩, fun frames => ?_, succeeds⟩
    have rest := back fun a e' mapped => frames a e' (older mapped).2
    have apart := fun entry member => (older (were entry member)).1
    simp only [restoreLeaves]
    rw [if_neg (frames _ e here), restoreLeaves_setPte p _ _ _ apart, rest, setPte_setPte,
      setPte_self here]

end Leaves

/-! ## The commit of an unmap -/

theorem procs_unregisterSharedFileAlias (s : Sys) (identity fileOffset p a : Nat) :
    (unregisterSharedFileAlias s identity fileOffset p a).2.procs = s.procs := by
  unfold unregisterSharedFileAlias
  split <;> rfl

theorem procs_unregisterItems (p : Nat) (taken : List (ReleaseItem × Pte)) : ∀ s : Sys,
    (unregisterItems p s taken).procs = s.procs := by
  induction taken with
  | nil => intro s; rfl
  | cons entry taken ih =>
    intro s
    simp only [unregisterItems]
    rw [ih]
    split
    · rfl
    · exact procs_unregisterSharedFileAlias _ _ _ _ _

theorem unpinReleased_frame (p : Nat) (inodes : List (Option Nat)) : ∀ s : Sys,
    unpinReleased p s inodes = { s with pins := (unpinReleased p s inodes).pins } := by
  induction inodes with
  | nil => intro s; rfl
  | cons ino inodes ih =>
    intro s
    cases ino with
    | none => exact ih s
    | some ino =>
      simp only [unpinReleased]
      split
      · exact ih s
      · exact ih (unpinMappedExecutableImage s p ino)

/-- The file object noted for the split is the one of the area that is split. -/
theorem splitFileVma_same {vmas} (ok : VmasOk vmas)
    (range : address < endAddr) :
    ∀ v ∈ vmas, v.holds address endAddr = true → v.fileBacked = true →
      (splitFileVma address endAddr vmas).bind (·.vfile) = v.vfile := by
  intro v member holds backed
  have strict := Vma.holds_iff.mp holds
  unfold splitFileVma
  cases found : vmas.find? fun v =>
      decide (v.vmStart < address) && decide (endAddr < v.vmEnd) && v.fileBacked with
  | none =>
    have unseen := List.find?_eq_none.mp found v member
    simp [strict, backed] at unseen
  | some w =>
    have inside := List.find?_some found
    simp only [Bool.and_eq_true, decide_eq_true_eq] at inside
    have same := ok.apart.unique (k := address) (List.mem_of_find?_eq_some found) member
      (Vma.covers_iff.mpr (by omega)) (Vma.covers_iff.mpr (by omega))
    rw [same]
    rfl

/-- The state after a committed unmap. -/
def committed (t : Target) (s : Sys) (p address endAddr : Nat) (splitFile : Option VfsFile)
    (items : List ReleaseItem) (outcome : UnmapOutcome) : Sys :=
  let left := unmapLeaves p outcome.decode outcome.unmap s items
  let edited := (s.vmas p).flatMap (unmapPieces t address endAddr splitFile)
  let s' := left.2.1.setVmas p (mergeAdjacentAnonymousVmas edited)
  unpinReleased p (releaseMappings (unregisterItems p s' left.2.2) (left.2.2.map (·.2.frame)))
    (releasedInodes address endAddr (s.vmas p))

theorem commitUnmap_cases
    (splitFile : Option VfsFile) (items : List ReleaseItem) (outcome : UnmapOutcome)
    (ok : VmasOk (s.vmas p)) (range : address < endAddr) (low : Aligned address)
    (high : Aligned endAddr) :
    (∃ last, commitUnmap t s p address endAddr splitFile items outcome = (false, last) ∧
      ((∀ a e, s.pte p a = some e → e.frame ≠ 0) → last = s) ∧
      ¬ ((unmapLeaves p outcome.decode outcome.unmap s items).1 = true ∧
        (outcome.append = true ∨ ∀ v ∈ s.vmas p, v.holds address endAddr = false))) ∨
      (unmapLeaves p outcome.decode outcome.unmap s items).1 = true ∧
        commitUnmap t s p address endAddr splitFile items outcome =
          (true, committed t s p address endAddr splitFile items outcome) := by
  obtain ⟨areas, -, back, -⟩ := unmapLeaves_back p outcome.decode outcome.unmap items s
  replace areas := areas p
  unfold commitUnmap committed
  generalize unmapLeaves p outcome.decode outcome.unmap s items = result at back areas ⊢
  obtain ⟨done, left, taken⟩ := result
  cases done with
  | false => exact .inl ⟨_, rfl, back, fun both => nomatch both.1⟩
  | true =>
    simp only [areas]
    by_cases able : outcome.append = true ∨ ∀ v ∈ s.vmas p, v.holds address endAddr = false
    · rw [unmapVmas_commit range low high (s.vmas p) [] _ (le_refl _) (by simpa using ok) able]
      exact .inr ⟨trivial, rfl⟩
    · simp only [not_or, Bool.not_eq_true, not_forall, Bool.not_eq_false] at able
      obtain ⟨refused, v, member, holds⟩ := able
      rw [refused, unmapVmas_abort range low high (s.vmas p) [] _ (le_refl _) (by simpa using ok)
        ⟨v, member, holds⟩]
      simp only [List.nil_append]
      rw [← areas, setVmas_self]
      refine .inl ⟨_, rfl, back, fun both => ?_⟩
      have none := both.2.resolve_left (by simp) v (areas ▸ member)
      exact absurd (none.symm.trans holds) (by simp)

theorem committed_vmas (t : Target) (s : Sys) (p address endAddr : Nat) (splitFile : Option VfsFile)
    (items : List ReleaseItem) (outcome : UnmapOutcome) :
    (committed t s p address endAddr splitFile items outcome).vmas p = mergeAdjacentAnonymousVmas
      ((s.vmas p).flatMap (unmapPieces t address endAddr splitFile)) := by
  unfold committed
  unfold vmas
  rw [unpinReleased_frame, (RefsOnly.releaseMappings _ _).procs, procs_unregisterItems]
  exact (vmas_setVmas _ _ _ _).trans (if_pos rfl)

/-! ## Device ranges -/

/-- The page lies in one of the ranges. -/
def InRanges (ranges : List (Nat × Nat)) (a : Nat) : Prop :=
  ∃ range ∈ ranges, range.1 ≤ a ∧ a < range.1 + range.2

theorem unmapDevices_effect (t : Target) (p : Nat) (device : Nat → RegistryOutcome)
    (ranges : List (Nat × Nat)) : ∀ s, (unmapDevices t p device s ranges).2.vmas p = s.vmas p ∧
      ∀ a, (unmapDevices t p device s ranges).2.pte p a = s.pte p a ∨
        InRanges ranges a ∧ (unmapDevices t p device s ranges).2.pte p a = none := by
  induction ranges with
  | nil => intro s; exact ⟨rfl, fun _ => .inl rfl⟩
  | cons range ranges ih =>
    intro s
    obtain ⟨first, length⟩ := range
    simp only [unmapDevices]
    split
    · exact ⟨rfl, fun _ => .inl rfl⟩
    · rename_i registry done
      obtain ⟨areas, leaves⟩ := ih (clearLeaves { s with registry } p first length)
      refine ⟨areas.trans (vmas_setProc_same _ (by rfl) _), ?_⟩
      intro a
      rcases leaves a with same | ⟨⟨r, member, inside⟩, gone⟩
      · rw [same]
        by_cases here : first ≤ a ∧ a < first + length
        · exact .inr
            ⟨⟨(first, length), (.head _), here⟩, by simp [clearLeaves, setProc, pte, here]⟩
        · exact .inl (by simp [clearLeaves, setProc, pte, here])
      · exact .inr ⟨⟨r, List.mem_cons_of_mem _ member, inside⟩, gone⟩

/-- Device ranges lie in device areas of the unmapped range. -/
theorem deviceRanges_inside {vmas}
    (inside : InRanges (deviceRanges address endAddr vmas) a) :
    address ≤ a ∧ a < endAddr ∧ ∃ v ∈ vmas, v.covers a = true ∧ v.vmType = .device := by
  obtain ⟨range, member, low, high⟩ := inside
  obtain ⟨v, kept, rfl⟩ := List.mem_map.mp member
  obtain ⟨inVmas, device⟩ := List.mem_filter.mp kept
  simp only [Bool.and_eq_true, beq_iff_eq, decide_eq_true_eq] at device low high
  refine ⟨by omega, by omega, v, inVmas, Vma.covers_iff.mpr (by omega), device.1⟩

/-! ## The whole call -/

section Unmap

variable (t : Target) (s : Sys) (p address length : Nat) (force : Bool) (outcome : UnmapOutcome)

/-- The release plan of the call. -/
def unmapItems : List ReleaseItem := (s.vmas p).flatMap (releaseItems t address (address + length))

/-- The state once every shared page of the plan was written back. -/
def flushedState : Bool × Sys :=
  flushItems t p force outcome.flush s (unmapItems t s p address length)

/-- The state once the device ranges are gone as well. -/
def clearedState : Bool × Sys :=
  unmapDevices t p outcome.device (flushedState t s p address length force outcome).2
    (deviceRanges address (address + length) (s.vmas p))

theorem flushedState_protects :
    WriteProtected s (flushedState t s p address length force outcome).2 :=
  WriteProtected.flushItems t p force outcome.flush _ s

theorem clearedState_vmas : (clearedState t s p address length force outcome).2.vmas p = s.vmas p :=
  (unmapDevices_effect t p outcome.device _ _).1.trans
    ((flushedState_protects t s p address length force outcome).vmas p)

theorem clearedState_frames (frames : ∀ a e, s.pte p a = some e → e.frame ≠ 0) :
    ∀ a e, (clearedState t s p address length force outcome).2.pte p a = some e →
      e.frame ≠ 0 := by
  intro a e mapped
  rcases (unmapDevices_effect t p outcome.device
    (deviceRanges address (address + length) (s.vmas p))
    (flushedState t s p address length force outcome).2).2 a with same | ⟨-, gone⟩
  · obtain ⟨e', old, frame⟩ :=
      ((flushedState_protects t s p address length force outcome).frame_iff p a e.frame).mp
        ⟨e, same ▸ mapped, rfl⟩
    exact frame ▸ frames a e' old
  · exact absurd (gone.symm.trans mapped) (by simp)

/-- A successful call is the commit in the state without the shared and device pages;
a failed one ends in one of the states on the way there. -/
theorem unmapVmaRange_cases (ok : VmasOk (s.vmas p)) :
    (∃ last, unmapVmaRange t s p address length force outcome = (false, last) ∧
      ((∀ a e, s.pte p a = some e → e.frame ≠ 0) →
        last = s ∨ last = (flushedState t s p address length force outcome).2 ∨
        last = (clearedState t s p address length force outcome).2)) ∨
    (0 < length ∧ Aligned address ∧ Aligned (address + length) ∧
      (unmapLeaves p outcome.decode outcome.unmap
        (clearedState t s p address length force outcome).2
        (unmapItems t s p address length)).1 = true ∧
      unmapVmaRange t s p address length force outcome = (true, committed t
        (clearedState t s p address length force outcome).2 p address (address + length)
        ((splitFileVma address (address + length) (s.vmas p)).bind (·.vfile))
        (unmapItems t s p address length) outcome)) := by
  have areas := clearedState_vmas t s p address length force outcome
  have leaves := clearedState_frames t s p address length force outcome
  unfold unmapVmaRange
  by_cases bad : length = 0 ∨ ¬ Aligned address ∨ ¬ Aligned length ∨
    t.maxWord - address < length
  · rw [if_pos bad]
    exact .inl ⟨s, rfl, fun _ => .inl rfl⟩
  rw [if_neg bad]
  simp only [not_or, not_not, not_lt] at bad
  obtain ⟨some, low, aligned, -⟩ := bad
  dsimp only
  split
  · exact .inl ⟨s, rfl, fun _ => .inl rfl⟩
  split
  · exact .inl ⟨s, rfl, fun _ => .inl rfl⟩
  unfold clearedState flushedState unmapItems at *
  generalize flushItems t p force outcome.flush s
    ((s.vmas p).flatMap (releaseItems t address (address + length))) = flushed at *
  obtain ⟨wrote, flushed⟩ := flushed
  cases wrote with
  | false => exact .inl ⟨flushed, rfl, fun _ => .inr (.inl rfl)⟩
  | true =>
    dsimp only
    generalize unmapDevices t p outcome.device flushed
      (deviceRanges address (address + length) (s.vmas p)) = cleared at *
    obtain ⟨gone, cleared⟩ := cleared
    cases gone with
    | false => exact .inl ⟨cleared, rfl, fun _ => .inr (.inr rfl)⟩
    | true =>
      rcases commitUnmap_cases
        ((splitFileVma address (address + length) (s.vmas p)).bind (·.vfile))
        ((s.vmas p).flatMap (releaseItems t address (address + length))) outcome (areas ▸ ok)
        (Nat.lt_add_of_pos_right (Nat.pos_of_ne_zero some)) low (low.add aligned) with
        ⟨last, refused, back, -⟩ | ⟨taken, done⟩
      · exact .inl ⟨last, refused, fun frames => .inr (.inr (back (leaves frames)))⟩
      · exact .inr ⟨Nat.pos_of_ne_zero some, low, low.add aligned, taken, done⟩

end Unmap

/-- What a successful `ProtectVmaRange` has checked and how it cut the areas. -/
structure ProtectDone (t : Target) (vmas : List Vma) (address length : Nat) (flags : PageProps)
    (final : List Vma) : Prop where
  positive : 0 < length
  low : Aligned address
  high : Aligned (address + length)
  plain : flags = flags.access
  paired : flags.present = flags.userAccess
  allowed : ∀ v ∈ vmas, v.vmStart < address + length → address < v.vmEnd →
    v.vmType ≠ .device ∧ fileRefuses flags v = false
  recut : Recut t vmas final
  uncut : ∀ v ∈ final, ¬ v.Cuts address ∧ ¬ v.Cuts (address + length)

theorem protectVmaRange_cases (t : Target) (s : Sys) (p address length : Nat) (flags : PageProps)
    (outcome : ProtectOutcome) (ok : VmasOk (s.vmas p)) :
    protectVmaRange t s p address length flags outcome = (false, s) ∨
      ∃ final, ProtectDone t (s.vmas p) address length flags final ∧
        protectVmaRange t s p address length flags outcome =
          (true, protectLeaves (s.setVmas p (mergeAdjacentAnonymousVmas
            (final.map (protectInside address (address + length) flags)))) p address (address +
            length)
              flags) := by
  unfold protectVmaRange
  by_cases bad : length = 0 ∨ ¬ Aligned address ∨ ¬ Aligned length ∨
    t.maxWord - address < length ∨
      flags ≠ flags.access ∨ flags.present ≠ flags.userAccess
  · rw [if_pos bad]
    exact .inl rfl
  rw [if_neg bad]
  simp only [not_or, not_not, not_lt] at bad
  obtain ⟨some, low, aligned, -, plain, paired⟩ := bad
  have positive := Nat.pos_of_ne_zero some
  have range : address < address + length := Nat.lt_add_of_pos_right positive
  have high := low.add aligned
  split
  · exact .inl rfl
  dsimp only
  cases scan : scanProtected flags address (address + length) address (none, none) (s.vmas p) with
  | none => exact .inl rfl
  | some files =>
    obtain ⟨startFile, endFile⟩ := files
    dsimp only
    split
    · exact .inl rfl
    split
    · exact .inl rfl
    have scanned := scanProtected_some range ok scan
    rcases splitProtectedRange_cases (t := t) ok low high scanned.startFile scanned.endFile
      with refused | ⟨final, done, recut, uncut⟩
    · rw [refused]
      exact .inl (congrArg _ (setVmas_self s p))
    · rw [done]
      exact .inr ⟨final, ⟨positive, low, high, plain, paired, scanned.allowed, recut, uncut⟩,
        rfl⟩

/-! ## Runs of edits -/

/-- The calls that edit the areas of one process, with what their surroundings answer. -/
inductive VmaCall where
  | insertVmaSorted (v : Vma) (append : Bool)
  | replaceReservedVmaRange (replacement : Vma) (append : Nat → Bool)
  | protectVmaRange (address length : Nat) (flags : PageProps) (outcome : ProtectOutcome)
  | unmapVmaRange (address length : Nat) (force : Bool) (outcome : UnmapOutcome)
  | mergeAdjacentAnonymousVmas

namespace VmaCall

def exec (t : Target) (p : Nat) (s : Sys) : VmaCall → Bool × Sys
  | insertVmaSorted v append =>
    match Memory.insertVmaSorted (s.vmas p) v append with
    | some vmas => (true, s.setVmas p vmas)
    | none => (false, s)
  | replaceReservedVmaRange replacement append =>
    match Memory.replaceReservedVmaRange (fun a => (s.pte p a).isSome)
        (s.vmas p) replacement append with
    | (replaced, vmas) => (replaced, s.setVmas p vmas)
  | protectVmaRange address length flags outcome =>
    Memory.protectVmaRange t s p address length flags outcome
  | unmapVmaRange address length force outcome =>
    Memory.unmapVmaRange t s p address length force outcome
  | mergeAdjacentAnonymousVmas => (true, s.setVmas p (Memory.mergeAdjacentAnonymousVmas (s.vmas p)))

/-- A successful call takes the areas of the process from one list to the other.  The
rest of the state is free, so that anything may happen between two calls. -/
def Succeeds (t : Target) (p : Nat) (before : List Vma) (call : VmaCall) (after : List Vma) :
    Prop :=
  ∃ s s', s.vmas p = before ∧ call.exec t p s = (true, s') ∧ s'.vmas p = after

/-- The call on the map from page numbers to attributes. -/
def pointwise (t : Target) (map : Nat → Option PageAttrs) (call : VmaCall) (n : Nat) :
    Option PageAttrs :=
  let a := n * pageSize
  match call with
  | insertVmaSorted v _ => if v.covers a then some (v.attrs t a) else map n
  | replaceReservedVmaRange replacement _ =>
    if replacement.covers a then some (replacement.attrs t a) else map n
  | protectVmaRange address length flags _ =>
    if address ≤ a ∧ a < address + length then (map n).map (PageAttrs.protect flags) else map n
  | unmapVmaRange address length _ _ => if address ≤ a ∧ a < address + length then none
    else map n
  | mergeAdjacentAnonymousVmas => map n

theorem succeeded {t : Target} {call : VmaCall}
    (ok : VmasOk before) (done : call.Succeeds t p before after) :
    VmasOk after ∧ vmaMap t after = call.pointwise t (vmaMap t before) := by
  obtain ⟨s, s', rfl, ran, rfl⟩ := done
  cases call with
  | insertVmaSorted v append =>
    simp only [exec] at ran
    split at ran
    · rename_i vmas inserted
      obtain ⟨-, rfl⟩ := mk.inj ran
      obtain ⟨wf, left, right, split, rfl, low, high⟩ := insertVmaSorted_some ok inserted
      rw [split] at ok
      have placed := VmasOk.inserted ok wf low high
      rw [vmas_setVmas, if_pos rfl]
      refine ⟨placed, funext fun n => ?_⟩
      exact (attrsAt_inserted placed _).trans (by rw [pointwise, vmaMap, split])
    · exact absurd (congrArg fst ran) (by simp)
  | replaceReservedVmaRange replacement append =>
    simp only [exec] at ran
    rcases replaceReservedVmaRange_cases t (fun a => (s.pte p a).isSome) replacement append
      ok with refused | ⟨vmas, done, -, replaced, -⟩
    · rw [refused] at ran
      exact absurd (congrArg fst ran) (by simp)
    · rw [done] at ran
      obtain ⟨-, rfl⟩ := mk.inj ran
      rw [vmas_setVmas, if_pos rfl]
      exact ⟨replaced.ok, funext fun n => replaced.attrs _⟩
  | protectVmaRange address length flags outcome =>
    simp only [exec] at ran
    rcases protectVmaRange_cases t s p address length flags outcome ok with
      refused | ⟨final, cut, done⟩
    · rw [refused] at ran
      exact absurd (congrArg fst ran) (by simp)
    · rw [done] at ran
      obtain ⟨-, rfl⟩ := mk.inj ran
      rw [protectLeaves, vmas_setProc_same _ (by rfl), vmas_setVmas, if_pos rfl]
      have flagged := cut.recut.ok.protected address (address + length) flags
      refine ⟨flagged.merged, funext fun n => ?_⟩
      rw [vmaMap, attrsAt_merged flagged, attrsAt_protected cut.uncut, cut.recut.attrs]
      rfl
  | unmapVmaRange address length force outcome =>
    simp only [exec] at ran
    rcases unmapVmaRange_cases t s p address length force outcome ok with
      ⟨last, refused, -⟩ | ⟨positive, low, high, -, done⟩
    · rw [refused] at ran
      exact absurd (congrArg fst ran) (by simp)
    · rw [done] at ran
      obtain ⟨-, rfl⟩ := mk.inj ran
      rw [committed_vmas, clearedState_vmas]
      have range : address < address + length := Nat.lt_add_of_pos_right positive
      have cut := ok.unmapped t
        ((splitFileVma address (address + length) (s.vmas p)).bind (·.vfile)) range low high
      refine ⟨cut.merged, funext fun n => ?_⟩
      rw [vmaMap, attrsAt_merged cut, attrsAt_unmapped range (splitFileVma_same ok range)]
      rfl
  | mergeAdjacentAnonymousVmas =>
    obtain ⟨-, rfl⟩ := mk.inj ran
    rw [vmas_setVmas, if_pos rfl]
    exact ⟨ok.merged, funext fun n => attrsAt_merged ok _⟩

end VmaCall

/-- The areas of a process denote the map that its edits, applied pointwise, give. -/
theorem vma_list_refines_pointwise {t : Target} {p : Nat} {calls : List VmaCall} {vmas : List Vma}
    (run : Lib.Run (VmaCall.Succeeds t p) [] calls vmas) :
    (∀ v ∈ vmas, v.WellFormed) ∧ (vmas.Pairwise fun a b => a.vmEnd ≤ b.vmStart) ∧
      vmaMap t vmas = calls.foldl (VmaCall.pointwise t) (fun _ => none) := by
  obtain ⟨ok, map⟩ := run.simulates (P := VmasOk) (vmaMap t) (VmaCall.pointwise t)
    (fun _ _ _ ok done => VmaCall.succeeded ok done) VmasOk.nil
  exact ⟨ok.wellFormed, ok.sorted, map⟩

/-- A shared mapping of the four pages from file offset `0x2000` on. -/
def sampleFileVma : Vma :=
  { vmStart := 0x10000, vmEnd := 0x14000, vmFlags := { present := true, userAccess := true },
    vmType := .file, vmMode := .shared, vfile := some ⟨some 7, .rdwr⟩, fileOffset := 0x2000 }

/-- A flush whose backend takes every byte. -/
def sampleFlush : FlushOutcome := ⟨fun _ _ => true, pageSize⟩

def sampleUnmap : UnmapOutcome :=
  ⟨true, true, fun _ => sampleFlush, fun _ => ⟨8, true⟩, fun _ => true, fun _ => true, true⟩

/-- Unmapping the second page splits the area; the file offset of the rest moves along. -/
def splitEdits : List VmaCall :=
  [.insertVmaSorted sampleFileVma true, .unmapVmaRange 0x11000 0x1000 false sampleUnmap]

def splitVmas : List Vma :=
  [{ sampleFileVma with vmEnd := 0x11000 },
  { sampleFileVma with vmStart := 0x12000, fileOffset := 0x4000 }]

def sampleTarget : Target := ⟨.x8664, 1, true⟩

/-- Files of eight pages, one process, and the given areas. -/
def sampleSys (vmas : List Vma) : Sys :=
  (Sys.boot fun _ => ⟨1, 0x8000, true, true, fun _ => 0⟩).setVmas 0 vmas

theorem vma_list_refines_pointwise_split :
    Lib.Run (VmaCall.Succeeds sampleTarget 0) [] splitEdits splitVmas ∧
      (∀ v ∈ splitVmas, v.WellFormed) ∧
      (splitVmas.Pairwise fun a b => a.vmEnd ≤ b.vmStart) ∧
      vmaMap sampleTarget splitVmas = splitEdits.foldl (VmaCall.pointwise sampleTarget)
      (fun _ => none) := by
  have inserted : VmaCall.Succeeds sampleTarget 0 [] (.insertVmaSorted sampleFileVma true)
      [sampleFileVma] :=
    ⟨sampleSys [], _, rfl, rfl, rfl⟩
  have unmapped : VmaCall.Succeeds sampleTarget 0 [sampleFileVma]
      (.unmapVmaRange 0x11000 0x1000 false sampleUnmap) splitVmas :=
    ⟨sampleSys [sampleFileVma], _, rfl, returned (by decide +kernel), by decide +kernel⟩
  have run := Lib.Run.cons inserted (Lib.Run.cons unmapped (Lib.Run.nil splitVmas))
  exact ⟨run, vma_list_refines_pointwise run⟩

/-! ## Failed edits -/

/-- The page has the leaf it had, or that leaf without write permission in a shared file area. -/
def LeafKept (s s' : Sys) (p a : Nat) : Prop :=
  s'.pte p a = s.pte p a ∨ ∃ e v, s.pte p a = some e ∧ vmaAt (s.vmas p) a = some v ∧
  v.vmType = .file ∧
      v.vmMode = .shared ∧ s'.pte p a = some ⟨e.frame, e.props.readOnly⟩

/-- The page belongs to a device area inside the range. -/
def DevicePage (s : Sys) (p address length a : Nat) : Prop :=
  address ≤ a ∧ a < address + length ∧ ∃ v, vmaAt (s.vmas p) a = some v ∧
  v.vmType = .device

theorem clearedState_leaf (t : Target) (address length : Nat) (force : Bool)
    (outcome : UnmapOutcome) (ok : VmasOk (s.vmas p)) (plain : ¬ DevicePage s p address length a) :
    LeafKept s (clearedState t s p address length force outcome).2 p a := by
  rcases (unmapDevices_effect t p outcome.device
    (deviceRanges address (address + length) (s.vmas p))
    (flushedState t s p address length force outcome).2).2 a with same | ⟨inside, -⟩
  · have kept := (flushedState_protects t s p address length force outcome).leaf p a
    unfold LeafKept clearedState
    rw [same]
    exact kept
  · obtain ⟨low, high, v, member, covered, device⟩ := deviceRanges_inside inside
    exact absurd ⟨low, high, v, ok.vmaAt_iff.mpr ⟨member, covered⟩, device⟩ plain

/-- An edit that fails leaves the areas as they were.  The page table is as before too,
except that a failed unmap may have write-protected shared file pages; the device
pages in the range of an unmap are left open. -/
theorem failed_edit_keeps_space {t : Target} {s : Sys} {p : Nat} (areas : VmasOk (s.vmas p))
    (frames : ∀ a e, s.pte p a = some e → e.frame ≠ 0) : (∀ address length force outcome s',
      unmapVmaRange t s p address length force outcome = (false, s') →
      vmaMap t (s'.vmas p) = vmaMap t (s.vmas p) ∧
        ∀ a, ¬ DevicePage s p address length a → LeafKept s s' p a) ∧
        (∀ address length flags outcome s',
      protectVmaRange t s p address length flags outcome = (false, s') →
        vmaMap t (s'.vmas p) = vmaMap t (s.vmas p) ∧ ∀ a, s'.pte p a = s.pte p a) ∧
        (∀ replacement append s',
      (VmaCall.replaceReservedVmaRange replacement append).exec t p s = (false, s') →
        vmaMap t (s'.vmas p) = vmaMap t (s.vmas p) ∧ ∀ a, s'.pte p a = s.pte p a) := by
  refine ⟨?_, ?_, ?_⟩
  · intro address length force outcome s' failed
    rcases unmapVmaRange_cases t s p address length force outcome areas with
      ⟨last, refused, back⟩ | ⟨-, -, -, -, done⟩
    · obtain ⟨-, rfl⟩ := mk.inj (refused.symm.trans failed)
      rcases back frames with rfl | rfl | rfl
      · exact ⟨rfl, fun a _ => .inl rfl⟩
      · have protect := flushedState_protects t s p address length force outcome
        exact ⟨by rw [protect.vmas], fun a _ => protect.leaf p a⟩
      · exact ⟨by rw [clearedState_vmas],
          fun a plain => clearedState_leaf t address length force outcome areas plain⟩
    · exact absurd (congrArg fst (done.symm.trans failed)) (by simp)
  · intro address length flags outcome s' failed
    rcases protectVmaRange_cases t s p address length flags outcome areas with
      refused | ⟨final, -, done⟩
    · obtain ⟨-, rfl⟩ := mk.inj (refused.symm.trans failed)
      exact ⟨rfl, fun a => rfl⟩
    · exact absurd (congrArg fst (done.symm.trans failed)) (by simp)
  · intro replacement append s' failed
    simp only [VmaCall.exec] at failed
    rcases replaceReservedVmaRange_cases t (fun a => (s.pte p a).isSome) replacement append
        areas with
      refused | ⟨vmas, done, -, -, -⟩
    · rw [refused] at failed
      obtain ⟨-, rfl⟩ := mk.inj failed
      rw [setVmas_self]
      exact ⟨rfl, fun a => rfl⟩
    · rw [done] at failed
      exact absurd (congrArg fst failed) (by simp)

/-- The first page of the sample file mapping is resident and dirty. -/
def dirtySys : Sys :=
  { (sampleSys [{ sampleFileVma with
        vmFlags := { present := true, userAccess := true, writable := true } }]).setPte 0 0x10000
      (some ⟨0x5000, { present := true, userAccess := true, writable := true }⟩) with
    managed := Function.update (fun _ => none) 0x5000 (some ⟨.file, 1, 1⟩)
    shared := [{ identity := 7, fileOffset := 0x2000, physicalAddress := 0x5000, dirty := true,
                 dirtyInode := some 7, aliases := [(0, 0x10000)] }] }

/-- The backend takes nothing of the page. -/
def rejectedUnmap : UnmapOutcome :=
  { sampleUnmap with flush := fun _ => ⟨fun _ _ => true, 0⟩ }

theorem dirtySys_areas : VmasOk (dirtySys.vmas 0) := .of_one ⟨by decide, by decide, by decide⟩

theorem dirtySys_pte (a : Nat) : dirtySys.pte 0 a = if a = 0x10000 then
    some ⟨0x5000, { present := true, userAccess := true, writable := true }⟩ else none := by
  by_cases here : a = 0x10000
  · subst here
    rfl
  · simp [dirtySys, sampleSys, pte, setPte, setProc, setVmas, boot, Proc.empty, here]

theorem failed_edit_keeps_space_dirty :
    (∀ a e, dirtySys.pte 0 a = some e → e.frame ≠ 0) ∧ vmaMap sampleTarget
          ((unmapVmaRange sampleTarget dirtySys 0 0x10000 0x1000 false rejectedUnmap).2.vmas 0) =
        vmaMap sampleTarget (dirtySys.vmas 0) ∧
        ∀ a, ¬ DevicePage dirtySys 0 0x10000 0x1000 a → LeafKept dirtySys
        (unmapVmaRange sampleTarget dirtySys 0 0x10000 0x1000 false rejectedUnmap).2 0 a := by
  have frames : ∀ a e, dirtySys.pte 0 a = some e → e.frame ≠ 0 := by
    intro a e mapped
    rw [dirtySys_pte] at mapped
    obtain ⟨_, ⟨⟩⟩ := Option.ite_none_right_eq_some.mp mapped
    decide
  exact ⟨frames,
    (failed_edit_keeps_space dirtySys_areas frames).1 0x10000 0x1000 false rejectedUnmap _
    (returned (by decide +kernel))⟩

/-- An unmap whose flush is rejected fails and leaves the page without write permission. -/
theorem failed_unmap_write_protects :
    (unmapVmaRange sampleTarget dirtySys 0 0x10000 0x1000 false rejectedUnmap).1 = false ∧
      (unmapVmaRange sampleTarget dirtySys 0 0x10000 0x1000 false rejectedUnmap).2.pte 0 0x10000 ≠
        dirtySys.pte 0 0x10000 := by
  exact ⟨by decide +kernel, by decide +kernel⟩

end Mecocoa.Memory
