import Mecocoa.Memory.Space

/-! # What an operation leaves alone

Reference counting touches the managed pages and the allocator only, and a
flush changes page tables only by taking write permission from leaves of shared
file areas.  The later invariants use these two facts instead of the bodies of
the operations.
-/

namespace Mecocoa.Memory

/-- Only reference counts and the allocator may differ. -/
structure RefsOnly (s s' : Sys) : Prop where
  procs : s'.procs = s.procs
  mem : s'.mem = s.mem
  cache : s'.cache = s.cache
  shared : s'.shared = s.shared
  inodes : s'.inodes = s.inodes
  pins : s'.pins = s.pins
  registry : s'.registry = s.registry

namespace RefsOnly

theorem refl (s : Sys) : RefsOnly s s := ⟨rfl, rfl, rfl, rfl, rfl, rfl, rfl⟩

theorem trans (first : RefsOnly s mid) (second : RefsOnly mid s') : RefsOnly s s' where
  procs := second.procs.trans first.procs
  mem := second.mem.trans first.mem
  cache := second.cache.trans first.cache
  shared := second.shared.trans first.shared
  inodes := second.inodes.trans first.inodes
  pins := second.pins.trans first.pins
  registry := second.registry.trans first.registry

theorem pte (same : RefsOnly s s') (p a : Nat) : s'.pte p a = s.pte p a := by
  simp only [Sys.pte, same.procs]

theorem vmas (same : RefsOnly s s') (p : Nat) : s'.vmas p = s.vmas p := by
  simp only [Sys.vmas, same.procs]

theorem setManaged (s : Sys) (frame : Nat) (page : Option ManagedPage) :
    RefsOnly s (s.setManaged frame page) := ⟨rfl, rfl, rfl, rfl, rfl, rfl, rfl⟩

theorem deallocatePage (s : Sys) (frame : Nat) : RefsOnly s (deallocatePage s frame) :=
  ⟨rfl, rfl, rfl, rfl, rfl, rfl, rfl⟩

theorem adoptManagedPage (s : Sys) (frame : Nat) (source : ManagedPageSource) (nodes : Bool) :
    RefsOnly s (adoptManagedPage s frame source nodes).2 := by
  unfold Memory.adoptManagedPage
  split
  · exact deallocatePage s frame
  · split
    · exact refl s
    · exact setManaged s frame _

theorem dropManagedPage (s : Sys) (frame : Nat) (page : ManagedPage) :
    RefsOnly s (dropManagedPage s frame page) := by
  unfold Memory.dropManagedPage
  split
  · exact (setManaged s frame none).trans (deallocatePage _ frame)
  · exact setManaged s frame _

theorem releaseManagedPageMapping (s : Sys) (frame : Nat) :
    RefsOnly s (releaseManagedPageMapping s frame).2 := by
  unfold Memory.releaseManagedPageMapping
  split
  · exact refl s
  · split
    · exact refl s
    · exact dropManagedPage s frame _

theorem releaseManagedPageCache (s : Sys) (frame : Nat) :
    RefsOnly s (releaseManagedPageCache s frame).2 := by
  unfold Memory.releaseManagedPageCache
  split
  · exact refl s
  · split
    · exact refl s
    · exact dropManagedPage s frame _

theorem releaseCaches (frames : List Nat) : ∀ s : Sys, RefsOnly s (releaseCaches s frames) := by
  induction frames with
  | nil => exact refl
  | cons frame frames ih =>
    intro s
    exact (releaseManagedPageCache s frame).trans (ih _)

theorem releaseMappings (frames : List Nat) :
    ∀ s : Sys, RefsOnly s (releaseMappings s frames) := by
  induction frames with
  | nil => exact refl
  | cons frame frames ih =>
    intro s
    exact (releaseManagedPageMapping s frame).trans (ih _)

end RefsOnly

/-! ## Page tables under a flush -/

/-- Everything of a process but its leaves. -/
def SameProc (before after : Proc) : Prop := after = { before with paging := after.paging }

/-- The leaves of a state lost write permission at most, and only in shared file areas. -/
structure WriteProtected (s s' : Sys) : Prop where
  rest : ∀ p, SameProc (s.procs p) (s'.procs p)
  leaf : ∀ p a, s'.pte p a = s.pte p a ∨ ∃ e v, s.pte p a = some e ∧
    vmaAt (s.vmas p) a = some v ∧ v.vmType = .file ∧
      v.vmMode = .shared ∧ s'.pte p a = some ⟨e.frame, e.props.readOnly⟩

namespace WriteProtected

theorem of_procs (same : s'.procs = s.procs) : WriteProtected s s' where
  rest := by intro p; rw [same]; rfl
  leaf := by intro p a; simp only [Sys.pte, same, true_or]

theorem refl (s : Sys) : WriteProtected s s := of_procs rfl

theorem vmas (protect : WriteProtected s s') (p : Nat) : s'.vmas p = s.vmas p := by
  unfold Sys.vmas
  rw [protect.rest p]

theorem trans (first : WriteProtected s mid) (second : WriteProtected mid s') :
    WriteProtected s s' where
  rest := by
    intro p
    have one := first.rest p
    have two := second.rest p
    unfold SameProc at one two ⊢
    rw [two, one]
  leaf := by
    intro p a
    rcases second.leaf p a with same | ⟨e, v, mapped, area, file, shared, after⟩
    · rw [same]
      exact first.leaf p a
    rw [first.vmas] at area
    rcases first.leaf p a with same | ⟨e', v', mapped', -, -, -, between⟩
    · exact .inr ⟨e, v, same ▸ mapped, area, file, shared, after⟩
    · rw [between] at mapped
      cases mapped
      exact .inr ⟨e', v, mapped', area, file, shared, after⟩

/-- A leaf is there after the protection just when it was there before, with its frame. -/
theorem frame_iff (protect : WriteProtected s s') (p a frame : Nat) :
    (∃ e, s'.pte p a = some e ∧ e.frame = frame) ↔ ∃ e, s.pte p a = some e ∧
      e.frame = frame := by
  rcases protect.leaf p a with same | ⟨e, -, mapped, -, -, -, after⟩
  · rw [same]
  · rw [after, mapped]
    simp

end WriteProtected

theorem aliasPageMatches_some
    (found : aliasPageMatches s pg p a = some props) :
    aliasVmaMatches s pg p a = true ∧ s.pte p a = some ⟨pg.physicalAddress, props⟩ ∧
      props.present = true ∧ props.userAccess = true := by
  obtain ⟨area, found⟩ := Option.ite_none_left_eq_some.mp found
  split at found
  · exact absurd found (by simp)
  · rename_i e mapped
    obtain ⟨fits, ⟨⟩⟩ := Option.ite_none_right_eq_some.mp found
    simp only [Bool.and_eq_true, beq_iff_eq] at fits
    obtain ⟨⟨present, user⟩, frame⟩ := fits
    refine ⟨by simpa using area, ?_, present, user⟩
    rw [mapped, ← frame]

theorem aliasVmaMatches_iff :
    aliasVmaMatches s pg p a = true ↔ ∃ v file, vmaAt (s.vmas p) a = some v ∧
      v.vmType = .file ∧
      v.vmMode = .shared ∧ v.vfile = some file ∧ file.fInode = some pg.identity ∧
      (v.fileOffset + (a - v.vmStart)) % 2 ^ 64 = pg.fileOffset := by
  unfold aliasVmaMatches
  cases vmaAt (s.vmas p) a with
  | none => simp
  | some v =>
    cases backing : v.vfile with
    | none => simp [backing]
    | some file => simp [backing, and_assoc]

/-- `ProtectSharedFileAliases` changes page tables only. -/
structure ProtectedOnly (s s' : Sys) : Prop where
  protect : WriteProtected s s'
  managed : s'.managed = s.managed
  pool : s'.pool = s.pool
  mem : s'.mem = s.mem
  cache : s'.cache = s.cache
  shared : s'.shared = s.shared
  inodes : s'.inodes = s.inodes
  pins : s'.pins = s.pins
  registry : s'.registry = s.registry

namespace ProtectedOnly

theorem refl (s : Sys) : ProtectedOnly s s :=
  ⟨.refl s, rfl, rfl, rfl, rfl, rfl, rfl, rfl, rfl⟩

theorem trans (first : ProtectedOnly s mid) (second : ProtectedOnly mid s') :
    ProtectedOnly s s' where
  protect := first.protect.trans second.protect
  managed := second.managed.trans first.managed
  pool := second.pool.trans first.pool
  mem := second.mem.trans first.mem
  cache := second.cache.trans first.cache
  shared := second.shared.trans first.shared
  inodes := second.inodes.trans first.inodes
  pins := second.pins.trans first.pins
  registry := second.registry.trans first.registry

/-- One step of the loop: a matching alias loses write permission. -/
theorem setReadOnly
    (found : aliasPageMatches s pg p a = some props) :
    ProtectedOnly s (s.setPte p a (some ⟨pg.physicalAddress, props.readOnly⟩)) := by
  obtain ⟨area, mapped, -, -⟩ := aliasPageMatches_some found
  obtain ⟨v, -, here, file, shared, -⟩ := aliasVmaMatches_iff.mp area
  refine ⟨⟨?_, ?_⟩, rfl, rfl, rfl, rfl, rfl, rfl, rfl, rfl⟩
  · intro q
    unfold SameProc Sys.setPte Sys.setProc
    by_cases same : q = p
    · subst same
      simp
    · simp [same]
  · intro q b
    rw [Sys.pte_setPte]
    by_cases same : q = p ∧ b = a
    · obtain ⟨rfl, rfl⟩ := same
      rw [if_pos ⟨rfl, rfl⟩]
      exact .inr ⟨_, v, mapped, here, file, shared, rfl⟩
    · rw [if_neg same]
      exact .inl rfl

theorem protectAliases (t : Target) (setup : Nat → Nat → Bool) (pg : SharedFilePage)
    (aliases : List (Nat × Nat)) :
    ∀ s, ProtectedOnly s (protectAliases t setup pg s aliases).2 := by
  induction aliases with
  | nil => exact refl
  | cons entry aliases ih =>
    intro s
    obtain ⟨p, a⟩ := entry
    unfold Memory.protectAliases
    split
    · exact refl s
    · rename_i props found
      split
      · split
        · exact refl s
        · exact (setReadOnly found).trans (ih _)
      · exact ih s

end ProtectedOnly

theorem invalidateVersions_frame (s : Sys) (identity version : Nat) :
    RefsOnly { s with cache := (invalidateVersions s identity version).cache }
      (invalidateVersions s identity version) := by
  unfold invalidateVersions
  split
  · exact RefsOnly.refl s
  · have same := RefsOnly.releaseCaches ((s.cache.filter fun e =>
      e.identity == identity && e.contentVersion != version).map (·.physicalAddress))
      { s with cache := s.cache.filter fun e =>
          !(e.identity == identity && e.contentVersion != version) }
    rw [same.cache]
    exact same

theorem procs_advanceContentVersion (s : Sys) (ino : Nat) :
    (advanceContentVersion s ino).procs = s.procs :=
  (invalidateVersions_frame _ _ _).procs

theorem procs_writeBackPage (s : Sys) (pg : SharedFilePage) (accepted : Nat) :
    (writeBackPage s pg accepted).2.procs = s.procs := by
  have step :
      ∀ (s : Sys) (n : Nat), (if n = 0 then s else advanceContentVersion s pg.identity).procs =
        s.procs := by
    intro s n
    split
    · rfl
    · exact procs_advanceContentVersion _ _
  unfold writeBackPage
  dsimp only
  split
  · rfl
  split
  · exact step _ _
  · exact step _ _

theorem WriteProtected.flushSharedFilePage (t : Target) (s : Sys) (identity fileOffset : Nat)
    (outcome : FlushOutcome) :
    WriteProtected s (flushSharedFilePage t s identity fileOffset outcome).2 := by
  unfold Memory.flushSharedFilePage
  split
  · exact refl s
  rename_i pg found
  split
  · exact refl s
  split
  · exact refl s
  have aliases := (ProtectedOnly.protectAliases t outcome.setup pg pg.aliases s).protect
  split
  · rename_i mid refused
    unfold protectSharedFileAliases at refused
    rw [refused] at aliases
    exact aliases
  · rename_i mid done
    unfold protectSharedFileAliases at done
    rw [done] at aliases
    exact aliases.trans (of_procs (procs_writeBackPage _ _ _))

theorem WriteProtected.flushItems (t : Target) (p : Nat) (force : Bool)
    (flush : Nat → FlushOutcome) (items : List ReleaseItem) :
    ∀ s, WriteProtected s (flushItems t p force flush s items).2 := by
  induction items with
  | nil => exact refl
  | cons item items ih =>
    intro s
    unfold Memory.flushItems
    split
    · exact ih s
    · have here := WriteProtected.flushSharedFilePage t s item.sharedIdentity item.fileOffset
        (flush item.address)
      dsimp only
      split
      · exact here.trans (ih _)
      · exact here

end Mecocoa.Memory
