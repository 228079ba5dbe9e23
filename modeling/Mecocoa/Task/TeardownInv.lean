import Mecocoa.Memory.UnmapInv

/-! # The end of a process keeps the invariant

A process that goes away gives its areas and load slices back and is then
destroyed with whatever leaves it still has.  References of such leaves are
never given back; the invariant counts them as leaked.  None is left over when
the plan of the release gets its memory and the paging library takes every leaf
out.
-/

namespace Mecocoa.Memory

open List Sys

open Lib (holders)
open Function (update_self update_of_ne)

/-- What a whole teardown keeps of every other process, and of its own areas. -/
structure Shrunk (t : Target) (s s' : Sys) : Prop where
  files : FileSame s s'
  aliases : AliasInv [] s → AliasInv [] s'
  life : ∀ q, (s'.procs q).life = (s.procs q).life
  areas : ∀ q a, attrsAt t (s'.vmas q) a = attrsAt t (s.vmas q) a ∨
    attrsAt t (s'.vmas q) a = none

/-- The memory for the release plan is there and the paging library takes leaves out. -/
structure TeardownOutcome.Succeeds (outcome : TeardownOutcome) : Prop where
  plans : outcome.release.plans = true
  decode : ∀ a, outcome.release.decode a = true
  unmap : ∀ a, outcome.release.unmap a = true
  unmapSlice : ∀ a, outcome.unmapSlice a = true

section Teardown

variable {p : Nat} {k : Tokens}

theorem Trimmed.shrunk (trimmed : Trimmed t s s') : Shrunk t s s' :=
  ⟨trimmed.files, trimmed.aliases, trimmed.life, trimmed.areas⟩

/-! ## Releasing areas without a failure -/

theorem flushItems_forced (t : Target) (p : Nat) (flush : Nat → FlushOutcome)
    (items : List ReleaseItem) : ∀ s, (flushItems t p true flush s items).1 = true := by
  induction items with
  | nil => intro s; rfl
  | cons item items ih =>
    intro s
    unfold flushItems
    split
    · exact ih s
    · simp only [Bool.or_true, if_true]
      exact ih _

/-- Unmapping fails for want of memory, by the paging library or where it cannot write back. -/
theorem SpaceInv.unmapVmaRange_succeeds (inv : SpaceInv t s) {length : Nat} (some : length ≠ 0)
    (low : Aligned address) (size : Aligned length) (fits : address + length ≤ t.maxWord)
    (plans : outcome.plans = true)
    (clone : splitFileVma address (address + length) (s.vmas p) = none ∨ outcome.clone = true)
    (flushed : (flushItems t p force outcome.flush s (unmapItems t s p address length)).1 = true)
    (decode : ∀ a, outcome.decode a = true) (unmap : ∀ a, outcome.unmap a = true)
    (split : outcome.append = true ∨ ∀ v ∈ s.vmas p, v.holds address (address + length) =
      false) :
    (unmapVmaRange t s p address length force outcome).1 = true := by
  have kept := WriteProtected.flushItems t p force outcome.flush (unmapItems t s p address length) s
  have cloned :
      ¬ ((splitFileVma address (address + length) (s.vmas p)).isSome ∧
        outcome.clone = false) := by
    rcases clone with none | able
    · simp [none]
    · simp [able]
  unfold unmapVmaRange
  rw [if_neg (by
    simp only [not_or, not_not, not_lt]
    exact ⟨some, low, size, by omega⟩)]
  rw [if_neg (by simp [plans]), if_neg cloned, inv.deviceRanges_nil]
  unfold unmapItems at flushed kept
  generalize flushItems t p force outcome.flush s
    ((s.vmas p).flatMap (releaseItems t address (address + length))) = result at *
  obtain ⟨done, s₁⟩ := result
  subst flushed
  dsimp only [unmapDevices]
  rcases commitUnmap_cases ((splitFileVma address (address + length) (s.vmas p)).bind (·.vfile))
    ((s.vmas p).flatMap (releaseItems t address (address + length))) outcome
    (kept.vmas p ▸ inv.areas p)
    (Nat.lt_add_of_pos_right (Nat.pos_of_ne_zero some)) low
    (low.add size) with ⟨_, -, -, failed⟩ | ⟨-, ran⟩
  · exact absurd ⟨(unmapLeaves_back p _ _ _ _).2.2.2 decode unmap, kept.vmas p ▸ split⟩
      failed
  · rw [ran]

theorem Target.userEnd_le_maxWord (t : Target) : t.userEnd ≤ t.maxWord := by
  unfold Target.userEnd Target.maxWord Target.wordBits
  cases t.arch <;> decide

theorem SpaceInv.vmEnd_le (inv : SpaceInv t s) (member : v ∈ s.vmas p) :
    v.vmEnd ≤ t.maxWord := by
  have wf := (inv.areas p).wellFormed v member
  have nonempty := wf.nonempty
  have covered : v.covers (v.vmEnd - 1) = true := Vma.covers_iff.mpr (by omega)
  have here := (inv.areas p).vmaAt_iff.mpr ⟨member, covered⟩
  have below := (inv.plain p _ _ (attrsAt_of_vmaAt here)).2
  have top := t.userEnd_le_maxWord
  omega

/-- `ReleaseAllVmas` fails for want of memory or by the paging library only. -/
theorem Inv.releaseAllVmas_succeeds (inv : Inv t seen k s)
    (plans : outcome.plans = true) (decode : ∀ a, outcome.decode a = true)
    (unmap : ∀ a, outcome.unmap a = true) : (Memory.releaseAllVmas t s p outcome).1 = true := by
  unfold Memory.releaseAllVmas
  cases areas : s.vmas p with
  | nil => rfl
  | cons v rest =>
    have ok := inv.space.areas p
    have wf : ∀ w ∈ v :: rest, w.WellFormed := fun w member =>
      ok.wellFormed w (areas ▸ member)
    obtain ⟨⟨w₁, member₁, low⟩, ⟨w₂, member₂, high⟩, span⟩ :=
      foldl_bounds v rest
    have nonempty := (wf v (.head _)).nonempty
    have own := span v (.head _)
    have lowAligned := (wf w₁ member₁).startAligned
    have highAligned := (wf w₂ member₂).endAligned
    have ends := inv.space.vmEnd_le (areas ▸ member₂)
    rw [low, high] at own span
    dsimp only
    rw [low, high]
    clear low high
    generalize w₁.vmStart = first at *
    generalize w₂.vmEnd = last at *
    rw [if_neg (by omega)]
    rw [← areas] at span
    have whole : first + (last - first) = last := by omega
    refine inv.space.unmapVmaRange_succeeds (by omega) lowAligned (highAligned.sub lowAligned)
      (by omega) plans (.inl ?_)
      (flushItems_forced t p outcome.flush _ s) decode unmap (.inr fun w member => ?_)
    · refine find?_eq_none.mpr fun w member => ?_
      have inside := span w member
      simp only [Bool.and_eq_true, decide_eq_true_eq, not_and]
      omega
    · have inside := span w member
      rw [Bool.eq_false_iff]
      intro holds
      have strict := Vma.holds_iff.mp holds
      omega

/-! ## Load slices -/

theorem Inv.releaseSlicePages (p : Nat) (unmap : Nat → Bool) (pages : List Nat) :
    ∀ {s : Sys}, Inv t seen k s → (∀ a ∈ pages, attrsAt t (s.vmas p) a = none) →
      ∃ result s', releaseSlicePages p unmap s pages = (result, s') ∧
        Inv t seen k s' ∧ Kept s s' ∧ (∀ b, s.pte p b = none → s'.pte p b = none) ∧
        (result = true → ∀ a ∈ pages, s'.pte p a = none) ∧
        ((∀ a, unmap a = true) → result = true) := by
  induction pages with
  | nil => exact fun {s} inv _ =>
    ⟨true, s, rfl, inv, .refl s, fun _ free => free, by simp, fun _ => rfl⟩
  | cons a rest ih =>
    intro s inv outside
    have outsideLater := fun b member => outside b (.tail _ member)
    unfold Memory.releaseSlicePages
    cases here : s.pte p a with
    | none =>
      obtain ⟨result, s', ran, inv', kept, fewer, gone, sure⟩ := ih inv outsideLater
      exact ⟨result, s', ran, inv', kept, fewer,
        fun done => forall_mem_cons.mpr ⟨fewer a here, gone done⟩, sure⟩
    | some e =>
      dsimp only
      split
      · obtain ⟨taken, files₁⟩ := inv.remove here
        obtain ⟨inv₁, kept₁⟩ := taken.release
        have own : ¬ SharedArea t (s.vmas p) a := by
          rintro ⟨attrs, covered, -⟩
          rw [outside a mem_cons_self] at covered
          exact absurd covered (by simp)
        have kept := (Kept.setPte_unlisted none files₁ fun aliases =>
          inv.leaf.unlisted aliases own).trans kept₁
        have leaf : ∀ b, (releaseManagedPageMapping (s.setPte p a none) e.frame).2.pte p b =
            if b = a then none else s.pte p b := by
          intro b
          rw [(RefsOnly.releaseManagedPageMapping _ _).pte, pte_setPte]
          simp
        generalize (releaseManagedPageMapping (s.setPte p a none) e.frame).2 = s₁ at *
        obtain ⟨result, s', ran, inv', kept', fewer, gone, sure⟩ := ih inv₁ fun b member => by
          rw [kept.vmas]
          exact outsideLater b member
        refine ⟨result, s', ran, inv', kept.trans kept', ?_,
          fun done => forall_mem_cons.mpr ⟨?_, gone done⟩, sure⟩
        · intro b free
          refine fewer b ?_
          rw [leaf]
          split
          · rfl
          · exact free
        · exact fewer a (by rw [leaf, if_pos rfl])
      · rename_i stuck
        obtain ⟨result, s', ran, inv', kept, fewer, -, -⟩ := ih inv outsideLater
        rw [ran]
        exact ⟨false, s', rfl, inv', kept, fewer, by simp, fun all => absurd (all a) stuck⟩

theorem Inv.releaseLoadslices (p : Nat) (unmap : Nat → Bool) (slices : List (Nat × Nat)) :
    ∀ {s : Sys}, Inv t seen k s →
      (∀ slice ∈ slices, slice.2 ≠ 0 → ∀ a ∈ slicePages slice, attrsAt t (s.vmas p) a =
        none) →
      ∃ left s', releaseLoadslices p unmap s slices = (left, s') ∧
        Inv t seen k s' ∧ Kept s s' ∧ (∀ b, s.pte p b = none → s'.pte p b = none) ∧
        (∀ slice ∈ left, slice.2 ≠ 0 → slice ∈ slices) ∧
        (∀ slice ∈ slices, slice.2 ≠ 0 → slice ∈ left ∨ ∀ a ∈ slicePages slice,
          s'.pte p a = none) ∧
        ((∀ a, unmap a = true) → ∀ slice ∈ left, slice.2 = 0) := by
  induction slices with
  | nil => exact fun {s} inv _ =>
    ⟨[], s, rfl, inv, .refl s, fun _ free => free, by simp, by simp, by simp⟩
  | cons slice slices ih =>
    intro s inv outside
    have outsideLater := fun other member => outside other (.tail _ member)
    unfold Memory.releaseLoadslices
    split
    · rename_i empty
      obtain ⟨left, s', ran, inv', kept, fewer, old, gone, sure⟩ := ih inv outsideLater
      rw [ran]
      refine ⟨slice :: left, s', rfl, inv', kept, fewer,
        forall_mem_cons.mpr ⟨absurd empty, ?_⟩,
        forall_mem_cons.mpr ⟨absurd empty, ?_⟩, fun all =>
        forall_mem_cons.mpr ⟨empty, sure all⟩⟩
      · exact fun other later used => mem_cons_of_mem _ (old other later used)
      · exact fun other later used => (gone other later used).imp_left (mem_cons_of_mem _)
    · rename_i used
      obtain ⟨released, s₁, ran₁, inv₁, kept₁, fewer₁, gone₁, sure₁⟩ :=
        inv.releaseSlicePages p unmap (slicePages slice) (outside slice (.head _) used)
      obtain ⟨left, s', ran, inv', kept, fewer, old, gone, sure⟩ :=
          ih inv₁ fun other member nonempty => by
        rw [kept₁.vmas]
        exact outsideLater other member nonempty
      rw [ran₁]
      dsimp only
      rw [ran]
      refine ⟨_, s', rfl, inv', kept₁.trans kept, fun b free => fewer b (fewer₁ b free), ?_,
        ?_, ?_⟩
      · intro other member nonempty
        cases mem_cons.mp member with
        | inl same =>
          split at same
          · rw [same] at nonempty
            exact absurd rfl nonempty
          · exact same ▸ (.head _)
        | inr later => exact mem_cons_of_mem _ (old other later nonempty)
      · refine forall_mem_cons.mpr ⟨fun _ => ?_, fun other later nonempty =>
          (gone other later nonempty).imp_left (mem_cons_of_mem _)⟩
        cases released with
        | false => exact .inl (.head _)
        | true => exact .inr fun a page => fewer a (gone₁ rfl a page)
      · exact fun all => forall_mem_cons.mpr ⟨by rw [sure₁ all]; rfl, sure all⟩

theorem Shrunk.trans (first : Shrunk t s mid) (second : Shrunk t mid s') : Shrunk t s s' where
  files := first.files.trans second.files
  aliases := fun inv => second.aliases (first.aliases inv)
  life := fun q => (second.life q).trans (first.life q)
  areas := by
    intro q a
    rcases second.areas q a with same | none
    · rw [same]
      exact first.areas q a
    · exact .inr none

/-- Slices that were emptied are struck off the process. -/
theorem Inv.setSlices (inv : Inv t seen k s)
    (old : ∀ slice ∈ slices, slice.2 ≠ 0 → slice ∈ (s.procs p).loadSlices)
    (emptied : ∀ slice ∈ (s.procs p).loadSlices, slice.2 ≠ 0 →
      slice ∈ slices ∨ ∀ a ∈ slicePages slice, s.pte p a = none) :
    Inv t seen k (s.setProc p { s.procs p with loadSlices := slices }) ∧
      FileSame s (s.setProc p { s.procs p with loadSlices := slices }) := by
  have older : ∀ a, InSlices { s.procs p with loadSlices := slices } a →
      InSlices (s.procs p) a := by
    rintro a ⟨slice, member, used, page⟩
    exact ⟨slice, old slice member used, used, page⟩
  refine inv.setProc rfl rfl ?_ (fun a inside => inv.space.slicesFree p a (older a inside))
    (fun a inside => inv.space.slicesLow p a (older a inside)) id
  intro a e here
  rcases inv.leaf.homed p a e here with covered | ⟨slice, member, used, page⟩
  · exact .inl covered
  · rcases emptied slice member used with stays | gone
    · exact .inr ⟨slice, stays, used, page⟩
    · exact absurd ((gone a page).symm.trans here) (by simp)

theorem Inv.releaseSpace (inv : Inv t seen k s) (active : Active s p)
    (outcome : TeardownOutcome) :
    Inv t seen k (releaseSpace t s p outcome) ∧ Shrunk t s (releaseSpace t s p outcome) ∧
      (outcome.Succeeds → ∀ a, (releaseSpace t s p outcome).pte p a = none) := by
  obtain ⟨released, s₁, ran₁, inv₁, trimmed, gone⟩ :=
    inv.releaseAllVmas active outcome.release
  have outside : ∀ slice ∈ (s₁.procs p).loadSlices, slice.2 ≠ 0 →
    ∀ a ∈ slicePages slice,
      attrsAt t (s₁.vmas p) a = none :=
    fun slice member used a page => inv₁.space.slicesFree p a ⟨slice, member, used, page⟩
  obtain ⟨left, s₂, ran₂, inv₂, kept, fewer, old, emptied, sure⟩ :=
    inv₁.releaseLoadslices p outcome.unmapSlice (s₁.procs p).loadSlices outside
  have slices : (s₂.procs p).loadSlices = (s₁.procs p).loadSlices := by rw [kept.rest p]
  obtain ⟨inv₃, files₃⟩ := inv₂.setSlices (p := p) (slices ▸ old) (slices ▸ emptied)
  have succeeded : outcome.Succeeds → released = true := by
    intro sound
    have done := inv.releaseAllVmas_succeeds (p := p) sound.plans sound.decode sound.unmap
    rw [ran₁] at done
    exact done
  unfold Memory.releaseSpace
  rw [ran₁]
  dsimp only
  rw [ran₂]
  have pte := pte_setProc_same (s := s₂) (p := p) { s₂.procs p with loadSlices := left } rfl
  have vmas := vmas_setProc_same (s := s₂) (p := p) { s₂.procs p with loadSlices := left } rfl
  have life : ∀ q, ((s₂.setProc p { s₂.procs p with loadSlices := left }).procs q).life =
      (s₂.procs q).life := by
    intro q
    unfold Sys.setProc
    by_cases same : q = p
    · subst same
      simp
    · simp [same]
  generalize here : s₂.setProc p { s₂.procs p with loadSlices := left } = s₃ at *
  have last : Shrunk t s₂ s₃ :=
    ⟨files₃, fun aliases => aliases.of_pte pte (by rw [← here]; rfl), life,
    fun q a => .inl (by rw [vmas])⟩
  refine ⟨inv₃, (trimmed.shrunk.trans (Trimmed.of_kept kept).shrunk).trans last,
    fun sound a => ?_⟩
  cases mapped : s₃.pte p a with
  | none => rfl
  | some e =>
    rcases inv₃.leaf.homed p a e mapped with covered | ⟨slice, member, used, -⟩
    · rw [vmas, kept.vmas] at covered
      exact absurd (gone (succeeded sound) a) covered
    · rw [← here] at member
      unfold Sys.setProc at member
      simp only [update_self] at member
      exact absurd (sure sound.unmapSlice slice member) used

/-! ## Destruction -/

/-- The process is gone with its areas and leaves. -/
theorem Inv.destroyProcess (inv : Inv t seen k s) (p : Nat)
    (others : ∀ q, q ≠ p → seen' q → seen q) :
    Keeps t seen' { k with leaked := fun f => k.leaked f + lost s (destroyProcess s p) f } s
      (destroyProcess s p) := by
  have here : (Memory.destroyProcess s p).procs p = .empty .dead := update_self ..
  have there : ∀ q, q ≠ p → (Memory.destroyProcess s p).procs q = s.procs q :=
    fun q other => update_of_ne other ..
  have leaf : ∀ q a e, (Memory.destroyProcess s p).pte q a = some e → q ≠ p ∧
      s.pte q a = some e := by
    intro q a e mapped
    unfold pte at mapped ⊢
    by_cases same : q = p
    · rw [same, here] at mapped
      exact absurd mapped (by simp [Proc.empty])
    · rw [there q same] at mapped
      exact ⟨same, mapped⟩
  have empty : ProcOk t (.empty .dead) := by
    refine ⟨VmasOk.nil, fun v member => absurd member not_mem_nil, fun a attrs covered => ?_,
      fun _ _ => rfl, ?_,
      fun _ => ⟨rfl, fun _ => rfl⟩⟩
    · exact absurd covered (by simp [Proc.empty, attrsAt_eq, vmaAt])
    · rintro a ⟨slice, member, -⟩
      exact absurd member not_mem_nil
  refine inv.lessen (inv.refs.forget (fun l f mapped => ?_) rfl rfl rfl) rfl rfl rfl rfl
    ((inv.space.setProc (p := p) empty).congr rfl) (fun q a e mapped => ?_) fun q a e mapped => ?_
  · obtain ⟨e, found, rfl⟩ := Option.map_eq_some_iff.mp mapped
    exact leafFrame_eq_some (leaf l.1 l.2 e found).2
  · obtain ⟨other, old⟩ := leaf q a e mapped
    exact ⟨others q other, e, old, rfl, id⟩
  · obtain ⟨other, old⟩ := leaf q a e mapped
    exact (inv.leafOk old).congr (by rw [there q other]; rfl) rfl rfl id

/-- What the end of a process leaves of the rest. -/
structure Ended (t : Target) (p : Nat) (s s' : Sys) : Prop where
  files : FileSame s s'
  life : ∀ q, q ≠ p → (s'.procs q).life = (s.procs q).life
  dead : (s'.procs p).life = .dead
  areas : ∀ q a, attrsAt t (s'.vmas q) a = attrsAt t (s.vmas q) a ∨
    attrsAt t (s'.vmas q) a = none

theorem Shrunk.ended (first : Shrunk t s mid) (second : Ended t p mid s') : Ended t p s s' where
  files := first.files.trans second.files
  life := fun q other => (second.life q other).trans (first.life q)
  dead := second.dead
  areas := by
    intro q a
    rcases second.areas q a with same | none
    · rw [same]
      exact first.areas q a
    · exact .inr none

theorem destroyProcess_other (s : Sys) (other : q ≠ p) :
    (destroyProcess s p).procs q = s.procs q :=
  update_of_ne other ..

theorem destroyProcess_ended (files : FileSame s (destroyProcess s p)) :
    Ended t p s (destroyProcess s p) where
  files := files
  life := fun q other => by rw [destroyProcess_other s other]
  dead := by
    have here : (destroyProcess s p).procs p = .empty .dead := update_self ..
    rw [here]
    rfl
  areas := by
    intro q a
    by_cases same : q = p
    · subst same
      have here : (destroyProcess s q).procs q = .empty .dead := update_self ..
      refine .inr ?_
      unfold vmas
      rw [here]
      rfl
    · unfold vmas
      rw [destroyProcess_other s same]
      exact .inl rfl

/-- Nothing changes for leaves and aliases if the process had no leaf left. -/
theorem destroyProcess_clean (clean : ∀ a, s.pte p a = none) :
    leafFrame (destroyProcess s p) = leafFrame s ∧
      (AliasInv [] s → AliasInv [] (destroyProcess s p)) := by
  have pte : ∀ q a, (destroyProcess s p).pte q a = s.pte q a := by
    intro q a
    by_cases same : q = p
    · subst same
      have here : (destroyProcess s q).procs q = .empty .dead := update_self ..
      rw [clean]
      unfold pte
      rw [here]
      rfl
    · unfold pte
      rw [destroyProcess_other s same]
  refine ⟨?_, fun aliases => aliases.of_pte pte rfl⟩
  funext l
  simp only [leafFrame, pte]

/-- The end of a process after its space was released. -/
theorem Inv.endProcess (inv : Inv t seen k s) (p : Nat)
    (others : ∀ q, q ≠ p → seen' q → seen q) :
    ∃ leaked', Inv t seen' { k with leaked := leaked' } (Memory.destroyProcess s p) ∧
      Ended t p s (Memory.destroyProcess s p) ∧
      ((∀ a, s.pte p a = none) → leaked' = k.leaked) := by
  obtain ⟨last, files⟩ := inv.destroyProcess p others
  refine ⟨_, last, destroyProcess_ended files, fun clean => funext fun f => ?_⟩
  rw [lost_of_same (destroyProcess_clean clean).1, Nat.add_zero]

theorem Inv.exitCleanup (inv : Inv t seen k s) (active : Active s p)
    (outcome : TeardownOutcome) :
    ∃ leaked', Inv t seen { k with leaked := leaked' } (exitCleanup t s p outcome) ∧
      Ended t p s (Memory.exitCleanup t s p outcome) ∧
      (outcome.Succeeds → leaked' = k.leaked ∧
        (AliasInv [] s → AliasInv [] (Memory.exitCleanup t s p outcome))) := by
  obtain ⟨inv₁, shrunk, clean⟩ := inv.releaseSpace active outcome
  unfold Memory.exitCleanup
  have unpinned := inv₁.unpin ((Memory.releaseSpace t s p outcome).pins.filter (·.process != p))
  change Inv t seen _ (unpinExecutableImage (Memory.releaseSpace t s p outcome) p) ∧
    FileSame _ (unpinExecutableImage (Memory.releaseSpace t s p outcome) p) at unpinned
  have shrunk₂ : Shrunk t s (unpinExecutableImage (Memory.releaseSpace t s p outcome) p) :=
    ⟨shrunk.files.trans unpinned.2, fun aliases => (shrunk.aliases aliases).of_leaves
      (fun _ _ leaf => leaf) rfl, shrunk.life, shrunk.areas⟩
  have empty : outcome.Succeeds →
      ∀ a, (unpinExecutableImage (Memory.releaseSpace t s p outcome) p).pte p a = none := clean
  generalize unpinExecutableImage (Memory.releaseSpace t s p outcome) p = s₁ at *
  obtain ⟨leaked', last, ended, kept⟩ := unpinned.1.endProcess p fun _ _ visible => visible
  exact ⟨leaked', last, shrunk₂.ended ended, fun sound => ⟨kept (empty sound), fun aliases =>
    (destroyProcess_clean (empty sound)).2 (shrunk₂.aliases aliases)⟩⟩

end Teardown

end Mecocoa.Memory
