import Mecocoa.File.Aliases

/-! # Faults keep the invariant

A page enters an address space in one of three ways: as a page nobody else
knows, as a read-only leaf on a cached file page, or as a read-only leaf on a
shared file page together with its alias.  Write permission comes later, to a
page that is marked dirty or that this leaf is the only reference to.
-/

namespace Mecocoa.Memory

open Sys Option

/-- No leaf and no table refers to the page. -/
structure Unused (s : Sys) (f : Nat) : Prop where
  unmapped : ∀ l, leafFrame s l ≠ some f
  outside : f ∉ tableFrames s

theorem Unused.congr (unused : Unused s f) (procs : s'.procs = s.procs)
    (cache : s'.cache = s.cache) (shared : s'.shared = s.shared) : Unused s' f where
  unmapped := by
    intro l
    unfold leafFrame pte
    rw [procs]
    exact unused.unmapped l
  outside := by
    unfold tableFrames
    rw [cache, shared]
    exact unused.outside

/-- A read-only leaf may be added: the page is no shared file page and nobody writes it. -/
structure Readable (seen : Nat → Prop) (s : Sys) (f : Nat) : Prop where
  unshared : ∀ pg ∈ s.shared, pg.physicalAddress ≠ f
  unwritten : ∀ q b e, seen q → s.pte q b = some e → e.props.writable = true → e.frame ≠ f

section Faults

variable {s s' : Sys} {k : Tokens}

theorem Unused.readable (unused : Unused s f) : Readable seen s f where
  unshared := fun _ member same => unused.outside (same ▸ mem_tableFrames_shared member)
  unwritten := fun q b _ _ here _ same => unused.unmapped (q, b) (same ▸ leafFrame_eq_some here)

theorem LeafInv.cached_readable (leaf : LeafInv t seen s) (member : e ∈ s.cache) :
    Readable seen s e.physicalAddress where
  unshared := fun _ there => leaf.cache_apart member there
  unwritten := by
    intro q b e' visible here writable same
    rcases leaf.exclusive q b e' visible here writable with ⟨pg, there, frame⟩ |
      ⟨outside, -⟩
    · exact leaf.cache_apart member there (frame.trans same)
    · exact outside (same ▸ mem_tableFrames_cache member)

/-! ## Pages that nobody else knows -/

/-- A page from the allocator becomes a managed page that the caller holds. -/
theorem Inv.adoptFresh (inv : Inv t seen (k.take f) s)
    (source : ManagedPageSource) (nodes : Bool) :
    (∃ s', adoptManagedPage s f source nodes = (false, s') ∧ RefsOnly s s' ∧
      Inv t seen k s') ∨
    ∃ s', adoptManagedPage s f source nodes = (true, s') ∧ RefsOnly s s' ∧
      Inv t seen (k.hold f) s' ∧ Unused s' f := by
  obtain ⟨unmapped, outside⟩ := inv.fresh
  rcases inv.refs.adopt source nodes with ⟨s', refused, same, next⟩ |
    ⟨s', adopted, same, next⟩
  · exact .inl ⟨s', refused, same, (inv.refsOnly same next).1⟩
  · exact .inr ⟨s', adopted, same, (inv.refsOnly same next).1,
      Unused.congr ⟨unmapped, outside⟩ same.procs same.cache same.shared⟩

theorem CacheOnly.copyToFrame (s : Sys) (f first length : Nat) (bytes : Nat → UInt8) :
    CacheOnly s (s.copyToFrame f first length bytes) := ⟨rfl, rfl, rfl, rfl⟩

theorem Inv.zeroPage (inv : Inv t seen k s) (answer : Option Nat)
    (source : ManagedPageSource) (nodes : Bool) :
    (∃ s', zeroPage s answer source nodes = (none, s') ∧ Inv t seen k s' ∧
      FileSame s s' ∧ CacheOnly s s') ∨ ∃ f s', Memory.zeroPage s answer source nodes =
      (some f, s') ∧
      Inv t seen (k.hold f) s' ∧ FileSame s s' ∧ CacheOnly s s' ∧ Unused s' f := by
  unfold Memory.zeroPage
  rcases inv.refs.allocatePage answer with none | ⟨f, s₁, done, same₁, next⟩
  · rw [none]
    exact .inl ⟨s, rfl, inv, .refl s, .refl s⟩
  rw [done]
  dsimp only
  obtain ⟨inv₁, files₁⟩ := inv.refsOnly same₁ next
  obtain ⟨inv₂, files₂⟩ := inv₁.copyToFrame inv₁.fresh.2 0 pageSize fun _ => 0
  have only := (CacheOnly.of_refs same₁).trans (.copyToFrame s₁ f 0 pageSize fun _ => 0)
  change Inv t seen _ (s₁.zeroFrame f) at inv₂
  rcases inv₂.adoptFresh source nodes with ⟨s₂, refused, same₂, inv₃⟩ |
    ⟨s₂, adopted, same₂, inv₃, unused⟩
  all_goals have files := (files₁.trans files₂).trans (Kept.of_refs same₂).files
  · rw [refused]
    exact .inl ⟨s₂, rfl, inv₃, files, only.trans (.of_refs same₂)⟩
  · rw [adopted]
    exact .inr ⟨f, s₂, rfl, inv₃, files, only.trans (.of_refs same₂), unused⟩

theorem Inv.release (inv : Inv t seen (k.hold f) s) :
    Inv t seen k (releaseManagedPageMapping s f).2 ∧
      Kept s (releaseManagedPageMapping s f).2 := by
  obtain ⟨s', released, same, next⟩ := inv.refs.releaseMapping
  rw [released]
  exact ⟨(inv.refsOnly same next).1, .of_refs same⟩

theorem Inv.installPage
    (inv : Inv t seen (k.hold f) s) (free : s.pte p a = none)
    (installed : Keeps t seen k s (s.setPte p a (some ⟨f, props⟩))) (mapped : Bool) :
    Inv t seen k (installPage s p a f props mapped).2 ∧
      Kept s (installPage s p a f props mapped).2 := by
  unfold Memory.installPage
  cases mapped with
  | true => exact ⟨installed.1, .setPte_free free _⟩
  | false => exact inv.release

/-! ## Private file pages -/

theorem Inv.acquireCachedFileMappingPage (inv : Inv t seen k s)
    (ino fileOffset : Nat) (outcome : FillOutcome) :
    ∃ result s', acquireCachedFileMappingPage t s ino fileOffset outcome = (result, s') ∧
      FileSame s s' ∧ CacheOnly s s' ∧ match result with
      | some (some f) => Inv t seen (k.hold f) s' ∧ Readable seen s' f
      | _ => Inv t seen k s' := by
  unfold Memory.acquireCachedFileMappingPage
  split
  · exact ⟨none, s, rfl, .refl s, .refl s, inv⟩
  split
  · split
    · exact ⟨none, s, rfl, .refl s, .refl s, inv⟩
    · exact ⟨some none, s, rfl, .refl s, .refl s, inv⟩
  obtain ⟨result, s₁, got, inv₁, files, only, record⟩ :=
    inv.getCachedPage ino fileOffset outcome
  rw [got]
  cases result with
  | retry | error => exact ⟨none, s₁, rfl, files, only, inv₁⟩
  | ready f =>
    obtain ⟨e, member, frame, -, -⟩ := record
    dsimp only
    rcases inv₁.refs.retainMapping t f with refused | ⟨s₂, done, same, next⟩
    · rw [refused]
      exact ⟨none, s₁, rfl, files, only, inv₁⟩
    · rw [done]
      have inv₂ := (inv₁.refsOnly same next).1
      refine ⟨some (some f), s₂, rfl, files.trans (Kept.of_refs same).files,
        only.trans (.of_refs same), inv₂, ?_⟩
      rw [← frame]
      exact inv₂.leaf.cached_readable (same.cache ▸ member)

theorem Inv.privateFilePage (inv : Inv t seen k s) (ino fileOffset : Nat)
    (outcome : FaultOutcome) :
    ∃ result s', privateFilePage t s ino fileOffset outcome = (result, s') ∧
      FileSame s s' ∧ CacheOnly s s' ∧ match result with
      | some f => Inv t seen (k.hold f) s' ∧ Readable seen s' f
      | none => Inv t seen k s' := by
  unfold Memory.privateFilePage
  obtain ⟨result, s₁, got, files, only, page⟩ :=
    inv.acquireCachedFileMappingPage ino fileOffset outcome.fill
  rw [got]
  cases result with
  | none => exact ⟨none, s₁, rfl, files, only, page⟩
  | some found =>
    cases found with
    | some f => exact ⟨some f, s₁, rfl, files, only, page⟩
    | none =>
      rcases page.zeroPage outcome.page .file outcome.adopted with
        ⟨s₂, refused, inv₂, files₂, only₂⟩ |
        ⟨f, s₂, done, inv₂, files₂, only₂, unused⟩
      · exact ⟨none, s₂, refused, files.trans files₂, only.trans only₂, inv₂⟩
      · exact ⟨some f, s₂, done, files.trans files₂, only.trans only₂, inv₂,
          unused.readable⟩

theorem CacheOnly.pte (only : CacheOnly s s') (p a : Nat) : s'.pte p a = s.pte p a := by
  unfold Sys.pte
  rw [only.procs]

theorem WriteProtected.free (protect : WriteProtected s s') (free : s.pte p a = none) :
    s'.pte p a = none := by
  rcases protect.leaf p a with same | ⟨e, -, was, -⟩
  · exact same.trans free
  · exact absurd (free.symm.trans was) (by simp)

/-- A private area over the page. -/
structure OwnArea (t : Target) (s : Sys) (p a : Nat) : Prop where
  covered : attrsAt t (s.vmas p) a ≠ none
  private' : ¬ SharedArea t (s.vmas p) a

theorem OwnArea.kept (own : OwnArea t s p a) (kept : Kept s s') : OwnArea t s' p a := by
  refine ⟨?_, ?_⟩ <;> rw [kept.vmas]
  · exact own.covered
  · exact own.private'

theorem Inv.mapCachedFileVmaPage (inv : Inv t seen k s)
    (access : VirtualMemoryAccess) (flags : PageProps) (ino fileOffset : Nat)
    (outcome : FaultOutcome) (free : s.pte p a = none) (active : Active s p) (aligned : Aligned a)
    (own : OwnArea t s p a) : Inv t seen k
        (mapCachedFileVmaPage t s p a access flags ino fileOffset outcome).2 ∧
      Kept s (mapCachedFileVmaPage t s p a access flags ino fileOffset outcome).2 := by
  unfold Memory.mapCachedFileVmaPage
  obtain ⟨flushed, s₁, flush, inv₁, files₁, only₁, -⟩ :=
    inv.flushSharedFilePage ino fileOffset outcome.flush
  have kept₁ := Kept.of_flushOnly files₁ only₁
  rw [flush]
  cases flushed with
  | false => exact ⟨inv₁, kept₁⟩
  | true =>
    dsimp only
    obtain ⟨result, s₂, got, files₂, only₂, page⟩ :=
      inv₁.privateFilePage ino fileOffset outcome
    have kept₂ := kept₁.trans (.of_cacheOnly files₂ only₂)
    rw [got]
    cases result with
    | none => exact ⟨page, kept₂⟩
    | some f =>
      obtain ⟨inv₂, readable⟩ := page
      have free₂ : s₂.pte p a = none := by
        rw [only₂.pte]
        exact only₁.protect.free free
      have own₂ := own.kept kept₂
      obtain ⟨last, kept₃⟩ := inv₂.installPage free₂ (inv₂.installReadOnly free₂
        (show (filePageProps flags).writable = false from rfl)
        ((kept₂.active p).mpr active) aligned own₂.covered
        (fun pg member same => absurd same (readable.unshared pg member))
        (fun area => absurd area own₂.private')
        (fun q b e visible here writable same => absurd same
          (readable.unwritten q b e visible here writable))) outcome.mapped
      dsimp only
      generalize Memory.installPage s₂ p a f (filePageProps flags) outcome.mapped = result at *
      obtain ⟨done, s₃⟩ := result
      cases done with
      | false | true => exact ⟨last, kept₂.trans kept₃⟩

/-! ## Shared file pages -/

theorem Inv.acquireSharedFileMappingPage (inv : Inv t seen k s)
    (ino fileOffset : Nat) (outcome : FillOutcome) :
    ∃ result s', acquireSharedFileMappingPage t s ino fileOffset outcome = (result, s') ∧
      FileSame s s' ∧ SharedOnly s s' ∧ SharedResult s' ino fileOffset result ∧
      match result with
      | some f => Inv t seen (k.hold f) s'
      | none => Inv t seen k s' := by
  unfold Memory.acquireSharedFileMappingPage
  split
  · exact ⟨none, s, rfl, .refl s, .refl s, trivial, inv⟩
  obtain ⟨result, s₁, got, inv₁, files, only, record⟩ :=
    inv.getSharedFilePage ino fileOffset outcome
  rw [got]
  cases result with
  | none => exact ⟨none, s₁, rfl, files, only, trivial, inv₁⟩
  | some f =>
    dsimp only
    rcases inv₁.refs.retainMapping t f with refused | ⟨s₂, done, same, next⟩
    · rw [refused]
      exact ⟨none, s₁, rfl, files, only, trivial, inv₁⟩
    · rw [done]
      obtain ⟨pg, member, record⟩ := record
      exact ⟨some f, s₂, rfl, files.trans (Kept.of_refs same).files,
        only.trans (.of_cacheOnly (.of_refs same)),
        ⟨pg, same.shared ▸ member, record⟩, (inv₁.refsOnly same next).1⟩

theorem sharedVmaExpected_iff
    (identity : pg.identity = ino) (offset : pg.fileOffset = fileOffset)
    (expected : sharedVmaExpected s p a flags ino fileOffset = true) :
    aliasVmaMatches s pg p a = true := by
  unfold sharedVmaExpected at expected
  unfold aliasVmaMatches
  cases here : vmaAt (s.vmas p) a with
  | none => simp [here] at expected
  | some v =>
    rw [here] at expected
    simp only [Bool.and_eq_true] at expected ⊢
    rw [identity, offset]
    exact ⟨⟨expected.1.1.1, expected.1.2⟩, expected.2⟩

/-- The leaf on a shared page and its alias appear together. -/
theorem Inv.mapSharedPage (inv : Inv t seen (k.hold f) s)
    (free : s.pte p a = none) (active : Active s p)
    (aligned : Aligned a) (record : SharedResult s ino fileOffset (some f))
    (expected : sharedVmaExpected s p a flags ino fileOffset = true)
    (present : flags.present = true) (user : flags.userAccess = true) : Inv t seen k
        (updateSharedPage (s.setPte p a (some ⟨f, filePageProps flags⟩)) ino fileOffset
          fun pg =>
          { pg with aliases := (p, a) :: pg.aliases }) ∧
      Kept s
      (updateSharedPage (s.setPte p a (some ⟨f, filePageProps flags⟩)) ino fileOffset fun pg =>
          { pg with aliases := (p, a) :: pg.aliases }) := by
  obtain ⟨pg, member, frame, identity, offset⟩ := record
  have home := inv.space.sharedHome_iff.mpr (sharedVmaExpected_iff identity offset expected)
  have covered : attrsAt t (s.vmas p) a ≠ none := by
    obtain ⟨attrs, -, area, -⟩ := home
    rw [area]
    simp
  have shared : SharedFrame s f := ⟨pg, member, frame⟩
  obtain ⟨inv₁, -⟩ :=
    inv.installReadOnly free (show (filePageProps flags).writable = false from rfl)
    active aligned covered
    (fun pg' there same => inv.leaf.page_unique there member (same.trans frame.symm) ▸ home)
    (fun _ => shared) (fun _ _ _ _ _ _ _ => shared)
  have kept₁ := Kept.setPte_free free (some ⟨f, filePageProps flags⟩)
  have leaf : UserLeaf (s.setPte p a (some ⟨f, filePageProps flags⟩)) (p, a) f :=
    ⟨⟨f, filePageProps flags⟩, by rw [pte_setPte, if_pos ⟨rfl, rfl⟩], rfl, present,
    user⟩
  obtain ⟨inv₂, files₂⟩ := inv₁.relist ino fileOffset ((p, a) :: ·)
    fun _ _ _ _ _ _ _ listed => List.mem_cons_of_mem _ listed
  refine ⟨inv₂, kept₁.files.trans files₂, kept₁.rest, fun aliases => ?_⟩
  refine (kept₁.aliases aliases).cons fun pg' there identity' offset' => ?_
  obtain rfl :=
    inv.table.unique there member (identity'.trans identity.symm) (offset'.trans offset.symm)
  refine ⟨fun listed => ?_, frame ▸ leaf⟩
  obtain ⟨e, mapped, -⟩ := aliases.leaf pg' member _ listed List.not_mem_nil
  exact absurd (free.symm.trans mapped) (by simp)

theorem Inv.mapSharedFileVmaPage (inv : Inv t seen k s)
    (access : VirtualMemoryAccess) (flags : PageProps) (fileOffset ino : Nat)
    (outcome : FaultOutcome) (active : Active s p) (aligned : Aligned a)
    (present : flags.present = true) (user : flags.userAccess = true) : Inv t seen k
        (mapSharedFileVmaPage t s p a access flags fileOffset ino outcome).2 ∧
      Kept s (mapSharedFileVmaPage t s p a access flags fileOffset ino outcome).2 := by
  unfold Memory.mapSharedFileVmaPage
  obtain ⟨result, s₁, got, files₁, only₁, record, page⟩ :=
    inv.acquireSharedFileMappingPage ino fileOffset outcome.fill
  have kept₁ := Kept.of_sharedOnly files₁ only₁
  rw [got]
  cases result with
  | none => exact ⟨page, kept₁⟩
  | some f =>
    dsimp only at page ⊢
    have letGo : Inv t seen k (releaseManagedPageMapping s₁ f).2 ∧
        Kept s (releaseManagedPageMapping s₁ f).2 :=
          ⟨page.release.1, kept₁.trans page.release.2⟩
    split
    · rename_i allowed
      simp only [Bool.and_eq_true] at allowed
      split
      · exact letGo
      · rename_i free
        simp only [isSome_iff_ne_none, ne_eq, not_not] at free
        cases outcome.mapped with
        | false => exact letGo
        | true =>
          obtain ⟨last, kept₂⟩ :=
            page.mapSharedPage free ((kept₁.active p).mpr active) aligned record
            allowed.2 present user
          exact ⟨last, kept₁.trans kept₂⟩
    · exact letGo

/-! ## Missing pages -/

theorem ownArea_of_vmaAt (here : vmaAt (s.vmas p) a = some v)
    (own : ¬ (v.vmType = .file ∧ v.vmMode = .shared)) : OwnArea t s p a := by
  have attrs := attrsAt_of_vmaAt (t := t) here
  refine ⟨by rw [attrs]; simp, ?_⟩
  rintro ⟨attrs', area, type, mode⟩
  rw [attrs] at area
  cases area
  exact own ⟨type, mode⟩

theorem Inv.ensureVmaPage (inv : Inv t seen k s)
    (access : VirtualMemoryAccess) (outcome : FaultOutcome) (active : Active s p)
    (aligned : Aligned a) :
    Inv t seen k (ensureVmaPage t s p a access outcome).2 ∧
      Kept s (ensureVmaPage t s p a access outcome).2 := by
  unfold Memory.ensureVmaPage
  cases area : vmaAt (s.vmas p) a with
  | none => exact ⟨inv, .refl s⟩
  | some v =>
    dsimp only
    split
    · exact ⟨inv, .refl s⟩
    rename_i allowed
    simp only [vmaAllowsAccess, allowsAccess, not_or, Bool.not_eq_false,
      Bool.and_eq_true] at allowed
    split
    · exact ⟨inv, .refl s⟩
    rename_i free
    simp only [isSome_iff_ne_none, ne_eq, not_not] at free
    cases type : v.vmType with
    | file =>
      cases v.vfile with
      | none => exact ⟨inv, .refl s⟩
      | some file =>
        dsimp only
        split
        · exact ⟨inv, .refl s⟩
        cases file.fInode with
        | none => exact ⟨inv, .refl s⟩
        | some ino =>
          cases mode : v.vmMode with
          | priv =>
            exact inv.mapCachedFileVmaPage access v.vmFlags ino _ outcome free active aligned
              (ownArea_of_vmaAt area (by simp [mode]))
          | shared =>
            exact inv.mapSharedFileVmaPage access v.vmFlags _ ino outcome active aligned
              allowed.2.1.1 allowed.2.1.2
    | device => exact absurd type allowed.1
    | anonymous =>
      rcases inv.zeroPage outcome.page .anonymous outcome.adopted with
        ⟨s₁, refused, inv₁, files, only⟩ | ⟨f, s₁, done, inv₁, files, only, unused⟩
      · rw [refused]
        exact ⟨inv₁, .of_cacheOnly files only⟩
      · rw [done]
        have kept := Kept.of_cacheOnly files only
        have own : OwnArea t s₁ p a := (ownArea_of_vmaAt area (by simp [type])).kept kept
        have free₁ : s₁.pte p a = none := (only.pte p a).trans free
        have permitted : v.vmFlags.access.writable = true →
            ∀ attrs, attrsAt t (s₁.vmas p) a = some attrs → attrs.flags.writable = true := by
          intro writable attrs covered
          rw [kept.vmas, attrsAt_of_vmaAt area] at covered
          cases covered
          exact writable
        obtain ⟨last, kept'⟩ :=
          inv₁.installPage free₁ (inv₁.installFresh _ free₁ unused.unmapped
          unused.outside ((kept.active p).mpr active) aligned (.inl own.covered) own.private'
          permitted) outcome.mapped
        dsimp only
        generalize Memory.installPage s₁ p a f v.vmFlags.access outcome.mapped = result at *
        obtain ⟨done, s₂⟩ := result
        cases done with
        | false => exact ⟨last, kept.trans kept'⟩
        | true => exact ⟨last, kept.trans kept'⟩

/-! ## Copy on write -/

theorem readPrivateCowPage_some {type : VmaType}
    (found : readPrivateCowPage s p a = some (old, type)) :
    ∃ v, vmaAt (s.vmas p) a = some v ∧ v.vmMode = .priv ∧ v.vmFlags.writable = true ∧
      s.pte p a = some old := by
  unfold readPrivateCowPage at found
  cases area : vmaAt (s.vmas p) a with
  | none => simp [area] at found
  | some v =>
    rw [area] at found
    obtain ⟨allowed, found⟩ := ite_none_left_eq_some.mp found
    simp only [vmaAllowsAccess, allowsAccess, not_or, not_not, Bool.not_eq_false,
      Bool.and_eq_true] at allowed
    cases here : s.pte p a with
    | none => simp [here] at found
    | some e =>
      rw [here] at found
      obtain ⟨_, found⟩ := ite_none_right_eq_some.mp found
      obtain ⟨rfl, rfl⟩ := Prod.mk.inj (some.inj found)
      exact ⟨v, rfl, allowed.1, allowed.2.2.2, rfl⟩

/-- The leaf moves to a page of its own and the old page loses one mapping. -/
theorem Inv.replacePage
    (inv : Inv t seen (k.hold f) s) (props : PageProps) (unused : Unused s f)
    (here : s.pte p a = some old) (own : OwnArea t s p a)
    (permitted : ∀ attrs, attrsAt t (s.vmas p) a = some attrs → attrs.flags.writable = true) :
    Inv t seen k
        (releaseManagedPageMapping (s.setPte p a (some ⟨f, props⟩)) old.frame).2 ∧
      Kept s (releaseManagedPageMapping (s.setPte p a (some ⟨f, props⟩)) old.frame).2 := by
  obtain ⟨taken, files₁⟩ := inv.remove here
  have unused₁ : Unused (s.setPte p a none) f := by
    refine ⟨fun l mapped => ?_, unused.outside⟩
    rw [leafFrame_setPte] at mapped
    by_cases same : l = (p, a)
    · rw [same, Function.update_self] at mapped
      exact absurd mapped (by simp)
    · rw [Function.update_of_ne same] at mapped
      exact unused.unmapped l mapped
  have swapped : Inv t seen ((k.hold old.frame).hold f) (s.setPte p a none) :=
    ⟨taken.refs.perm_held (List.Perm.swap ..), taken.leaf, taken.space, taken.table,
    taken.content⟩
  have active : Active (s.setPte p a none) p := by
    unfold Active
    rw [sameProc_setPte s p a none p]
    exact inv.space.active here
  obtain ⟨placed, files₂⟩ := swapped.installFresh props
    (by rw [pte_setPte, if_pos ⟨rfl, rfl⟩]) unused₁.unmapped unused₁.outside active
    (inv.leaf.aligned p a old here) (.inl (by rw [vmas_setPte]; exact own.covered))
    (by rw [vmas_setPte]; exact own.private') (by rw [vmas_setPte]; exact fun _ => permitted)
  rw [setPte_setPte] at placed files₂
  obtain ⟨last, kept⟩ := placed.release
  refine ⟨last, (Kept.setPte_unlisted _ (files₁.trans files₂) ?_).trans kept⟩
  exact fun aliases => inv.leaf.unlisted aliases own.private'

variable (inv : Inv t seen k s)

include inv

theorem Inv.copyPrivatePage (outcome : FaultOutcome) (here : s.pte p a = some old)
    (own : OwnArea t s p a)
    (permitted : ∀ attrs, attrsAt t (s.vmas p) a = some attrs → attrs.flags.writable = true) :
    Inv t seen k (copyPrivatePage s p a old outcome).2 ∧
      Kept s (copyPrivatePage s p a old outcome).2 := by
  unfold Memory.copyPrivatePage
  rcases inv.refs.allocatePage outcome.copyPage with none | ⟨f, s₁, done, same₁, next⟩
  · rw [none]
    exact ⟨inv, .refl s⟩
  rw [done]
  dsimp only
  have inv₁ := (inv.refsOnly same₁ next).1
  have kept₁ := Kept.of_refs same₁
  split
  · have same := RefsOnly.deallocatePage s₁ f
    exact ⟨(inv₁.refsOnly same inv₁.refs.deallocateRaw).1, kept₁.trans (.of_refs same)⟩
  obtain ⟨inv₂, files₂⟩ := inv₁.copyToFrame inv₁.fresh.2 0 pageSize (s₁.mem old.frame)
  have kept₂ := kept₁.trans (.copyToFrame files₂)
  have procs₂ : (s₁.copyToFrame f 0 pageSize (s₁.mem old.frame)).procs = s.procs :=
    same₁.procs
  generalize s₁.copyToFrame f 0 pageSize (s₁.mem old.frame) = s₂ at *
  rcases inv₂.adoptFresh .anonymous outcome.copyAdopted with
    ⟨s₃, refused, same₃, inv₃⟩ | ⟨s₃, adopted, same₃, inv₃, unused⟩
  · rw [refused]
    exact ⟨inv₃, kept₂.trans (.of_refs same₃)⟩
  rw [adopted]
  dsimp only
  have kept₃ := kept₂.trans (.of_refs same₃)
  split
  · exact ⟨inv₃.release.1, kept₃.trans inv₃.release.2⟩
  · have here₃ : s₃.pte p a = some old := by
      unfold pte
      rw [same₃.procs, procs₂]
      exact here
    obtain ⟨last, kept₄⟩ :=
      inv₃.replacePage old.props.withWrite unused here₃ (own.kept kept₃)
      (by rw [kept₃.vmas]; exact permitted)
    exact ⟨last, kept₃.trans kept₄⟩

omit inv in
/-- The only leaf on an anonymous page that is in no table may be opened for writing. -/
theorem Inv.openAlone (inv : Inv t seen k s)
    (here : s.pte p a = some old) (own : OwnArea t s p a)
    (permitted : ∀ attrs, attrsAt t (s.vmas p) a = some attrs → attrs.flags.writable = true)
    (managed : s.managed old.frame = some page) (alone : page.mappingRefs = 1)
    (uncached : page.cacheRefs = 0) :
    Inv t seen k (s.setPte p a (some ⟨old.frame, old.props.withWrite⟩)) ∧
      Kept s (s.setPte p a (some ⟨old.frame, old.props.withWrite⟩)) := by
  have outside : old.frame ∉ tableFrames s := by
    have count := inv.refs.caching old.frame page managed
    exact List.count_eq_zero.mp (by omega)
  have only : ∀ q b, leafFrame s (q, b) = some old.frame → q = p ∧ b = a := by
    intro q b mapped
    have count := inv.refs.mapping old.frame page managed
    have few : (Lib.holders (leafFrame s) old.frame).ncard ≤ 1 := by omega
    have same := (Set.ncard_le_one (inv.refs.finite _)).mp few _ mapped _ (leafFrame_eq_some here)
    exact Prod.mk.inj same
  have unshared : ∀ pg ∈ s.shared, pg.physicalAddress ≠ old.frame :=
    fun pg member same => outside (same ▸ mem_tableFrames_shared member)
  obtain ⟨next, files⟩ := inv.setLeaf (inv.refs.setProps here old.props.withWrite)
    (inv.space.active here) ⟨inv.leaf.aligned p a old here, .inl own.covered, fun _ => permitted,
      fun pg member same => absurd same (unshared pg member), fun area =>
      absurd area own.private'⟩
    (fun _ _ => .inr ⟨outside, fun q b _ mapped => only q b mapped⟩)
    (fun q b e _ other mapped _ same => absurd (only q b (same ▸ leafFrame_eq_some mapped)) other)
  refine ⟨next, .setPte_unlisted _ files fun aliases => ?_⟩
  exact inv.leaf.unlisted aliases own.private'

theorem Inv.resolvePrivateCowPage (p a : Nat) (outcome : FaultOutcome) :
    Inv t seen k (resolvePrivateCowPage s p a outcome).2 ∧
      Kept s (resolvePrivateCowPage s p a outcome).2 := by
  unfold Memory.resolvePrivateCowPage
  cases found : readPrivateCowPage s p a with
  | none => exact ⟨inv, .refl s⟩
  | some entry =>
    obtain ⟨old, type⟩ := entry
    obtain ⟨v, area, mode, writable, here⟩ := readPrivateCowPage_some found
    have own : OwnArea t s p a := ownArea_of_vmaAt area (by simp [mode])
    have permitted : ∀ attrs, attrsAt t (s.vmas p) a = some attrs →
        attrs.flags.writable = true := by
      intro attrs covered
      rw [attrsAt_of_vmaAt area] at covered
      cases covered
      exact writable
    dsimp only
    cases managed : s.managed old.frame with
    | none => exact ⟨inv, .refl s⟩
    | some page =>
      dsimp only
      split
      · exact ⟨inv, .refl s⟩
      split
      · rename_i alone
        split
        · exact ⟨inv, .refl s⟩
        · exact inv.openAlone here own permitted managed alone.2.1 alone.2.2
      · exact inv.copyPrivatePage outcome here own permitted

theorem Inv.resolveVmaFault (address : Nat)
    (access : VirtualMemoryAccess) (protectionFault : Bool) (outcome : FaultOutcome)
    (active : Active s p) :
    Inv t seen k (resolveVmaFault t s p address access protectionFault outcome).2 ∧
      Kept s (resolveVmaFault t s p address access protectionFault outcome).2 := by
  unfold Memory.resolveVmaFault
  have first : Inv t seen k (if protectionFault then (none, s) else
        Memory.ensureVmaPage t s p (pageFloor address) access outcome).2 ∧
      Kept s (if protectionFault then (none, s) else
        Memory.ensureVmaPage t s p (pageFloor address) access outcome).2 := by
    cases protectionFault with
    | true => exact ⟨inv, .refl s⟩
    | false => exact inv.ensureVmaPage access outcome active (Aligned.pageFloor address)
  dsimp only
  generalize (if protectionFault then (none, s) else
    Memory.ensureVmaPage t s p (pageFloor address) access outcome) = result at *
  obtain ⟨physical, s₁⟩ := result
  obtain ⟨inv₁, kept₁⟩ := first
  split
  · exact ⟨inv₁, kept₁⟩
  obtain ⟨inv₂, kept₂⟩ :=
    inv₁.resolveSharedFileWrite p (pageFloor address) outcome.sharedSetup
  generalize Memory.resolveSharedFileWrite s₁ p (pageFloor address) outcome.sharedSetup =
    result at *
  obtain ⟨opened, s₂⟩ := result
  cases opened with
  | some f => exact ⟨inv₂, kept₁.trans kept₂⟩
  | none =>
    obtain ⟨inv₃, kept₃⟩ := inv₂.resolvePrivateCowPage p (pageFloor address) outcome
    exact ⟨inv₃, (kept₁.trans kept₂).trans kept₃⟩

omit inv

end Faults

end Mecocoa.Memory
