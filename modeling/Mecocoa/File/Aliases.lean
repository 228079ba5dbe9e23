import Mecocoa.File.SharedInv

/-! # Aliases and the leaves they stand for

An alias names a leaf on a shared page.  Every operation below the system calls
keeps aliases and leaves in agreement; what the agreement is good for is that
write permission can be taken from a page whenever its bytes are written back.
-/

namespace Mecocoa.Memory

open List

section Aliases

variable {s s' : Sys}

/-- The leaf maps the page for user mode. -/
def UserLeaf (s : Sys) (l : Nat × Nat) (f : Nat) : Prop :=
  ∃ e, s.pte l.1 l.2 = some e ∧ e.frame = f ∧ e.props.present = true ∧
  e.props.userAccess = true

/-- Every alias stands for a user leaf on its page, except those in `gone`. -/
structure AliasInv (gone : List (Nat × Nat)) (s : Sys) : Prop where
  leaf : ∀ pg ∈ s.shared, ∀ l ∈ pg.aliases, l ∉ gone → UserLeaf s l pg.physicalAddress
  once : ∀ pg ∈ s.shared, pg.aliases.Nodup

theorem AliasInv.of_pages (inv : AliasInv gone s)
    (leaves : ∀ l f, UserLeaf s l f → UserLeaf s' l f)
    (pages : ∀ pg' ∈ s'.shared, pg'.aliases = [] ∨
      ∃ pg ∈ s.shared, pg.physicalAddress = pg'.physicalAddress ∧ pg.aliases = pg'.aliases) :
    AliasInv gone s' where
  leaf := by
    intro pg' member l listed stays
    rcases pages pg' member with none | ⟨pg, here, frame, same⟩
    · exact absurd (none ▸ listed) not_mem_nil
    · exact leaves l _ (frame ▸ inv.leaf pg here l (same ▸ listed) stays)
  once := by
    intro pg' member
    rcases pages pg' member with none | ⟨pg, here, frame, same⟩
    · rw [none]
      exact nodup_nil
    · exact same ▸ inv.once pg here

theorem AliasInv.of_leaves (inv : AliasInv gone s)
    (leaves : ∀ l f, UserLeaf s l f → UserLeaf s' l f) (shared : s'.shared = s.shared) :
    AliasInv gone s' :=
  inv.of_pages leaves fun pg member => .inr ⟨pg, shared ▸ member, rfl, rfl⟩

theorem AliasInv.of_pte (inv : AliasInv gone s) (pte : ∀ q a, s'.pte q a = s.pte q a)
    (shared : s'.shared = s.shared) :
    AliasInv gone s' := by
  refine inv.of_leaves ?_ shared
  rintro l f ⟨e, mapped, rest⟩
  exact ⟨e, (pte ..).trans mapped, rest⟩

/-- What every operation below the system calls keeps: the content of files, all of a
process but its leaves, and the agreement of aliases with leaves. -/
structure Kept (s s' : Sys) : Prop where
  files : FileSame s s'
  rest : ∀ p, SameProc (s.procs p) (s'.procs p)
  aliases : AliasInv [] s → AliasInv [] s'

theorem UserLeaf.of_procs (same : s'.procs = s.procs) (leaf : UserLeaf s l f) :
    UserLeaf s' l f := by
  unfold UserLeaf Sys.pte at leaf ⊢
  rw [same]
  exact leaf

theorem UserLeaf.protect (protect : WriteProtected s s') (leaf : UserLeaf s l f) :
    UserLeaf s' l f := by
  obtain ⟨e, here, frame, present, user⟩ := leaf
  rcases protect.leaf l.1 l.2 with same | ⟨e', -, was, -, -, -, now⟩
  · exact ⟨e, same.trans here, frame, present, user⟩
  · obtain rfl := Option.some.inj (was.symm.trans here)
    exact ⟨_, now, frame, present, user⟩

/-- A leaf keeps its page and stays open to user mode. -/
theorem UserLeaf.setPte (leaf : UserLeaf s l f) (here : s.pte p a = some e)
    (opened : e.props.present = true → e.props.userAccess = true →
    props.present = true ∧ props.userAccess = true) :
    UserLeaf (s.setPte p a (some ⟨e.frame, props⟩)) l f := by
  obtain ⟨e', mapped, frame, present, user⟩ := leaf
  by_cases same : l.1 = p ∧ l.2 = a
  · rw [same.1, same.2, here] at mapped
    cases mapped
    refine ⟨⟨e.frame, props⟩, ?_, frame, opened present user⟩
    rw [Sys.pte_setPte, if_pos same]
  · refine ⟨e', ?_, frame, present, user⟩
    rw [Sys.pte_setPte, if_neg same]
    exact mapped

theorem SameProc.trans (first : SameProc one two) (second : SameProc two three) :
    SameProc one three := by
  unfold SameProc at first second ⊢
  rw [second, first]

theorem SameProc.of_procs (same : s'.procs = s.procs) (p : Nat) :
    SameProc (s.procs p) (s'.procs p) := by
  rw [same]
  rfl

theorem SameProc.setPte (s : Sys) (p a : Nat) (e : Option Pte) (q : Nat) :
    SameProc (s.procs q) ((s.setPte p a e).procs q) := by
  unfold SameProc Sys.setPte Sys.setProc
  by_cases same : q = p
  · subst same
    simp
  · simp [same]

namespace Kept

theorem refl (s : Sys) : Kept s s := ⟨.refl s, fun _ => rfl, id⟩

theorem trans (first : Kept s mid) (second : Kept mid s') : Kept s s' where
  files := first.files.trans second.files
  rest := fun p => (first.rest p).trans (second.rest p)
  aliases := fun inv => second.aliases (first.aliases inv)

theorem vmas (kept : Kept s s') (p : Nat) : s'.vmas p = s.vmas p := by
  unfold Sys.vmas
  rw [kept.rest p]

theorem life (kept : Kept s s') (p : Nat) : (s'.procs p).life = (s.procs p).life := by
  rw [kept.rest p]

theorem active (kept : Kept s s') (p : Nat) : Active s' p ↔ Active s p := by
  unfold Active
  rw [kept.life p]

variable (files : FileSame s s')

include files

theorem of_procs (procs : s'.procs = s.procs) (pages : ∀ pg' ∈ s'.shared, pg'.aliases = [] ∨
      ∃ pg ∈ s.shared, pg.physicalAddress = pg'.physicalAddress ∧ pg.aliases = pg'.aliases) :
    Kept s s' where
  files := files
  rest := .of_procs procs
  aliases := fun inv => inv.of_pages (fun _ _ leaf => leaf.of_procs procs) pages

omit files in
theorem of_refs (same : RefsOnly s s') : Kept s s' :=
  of_procs (.of_shared same.shared (fun _ _ => by rw [same.mem]) same.inodes) same.procs
    fun pg member => .inr ⟨pg, same.shared ▸ member, rfl, rfl⟩

theorem of_cacheOnly (only : CacheOnly s s') : Kept s s' :=
  of_procs files only.procs fun pg member => .inr ⟨pg, only.shared ▸ member, rfl, rfl⟩

theorem of_sharedOnly (only : SharedOnly s s') : Kept s s' := by
  refine of_procs files only.procs fun pg member => ?_
  rcases only.pages pg member with old | ⟨-, none⟩
  · exact .inr ⟨pg, old, rfl, rfl⟩
  · exact .inl none

theorem of_flushOnly (only : FlushOnly s s') : Kept s s' where
  files := files
  rest := only.protect.rest
  aliases := by
    intro inv
    obtain ⟨g, key, aliases, shared⟩ := only.pages
    refine inv.of_pages (fun _ _ leaf => leaf.protect only.protect) ?_
    intro pg' member
    rw [shared] at member
    obtain ⟨pg, here, rfl⟩ := mem_map.mp member
    exact .inr ⟨pg, here, (key pg).2.2.symm, (aliases pg).symm⟩

theorem of_protectedOnly (only : ProtectedOnly s s') : Kept s s' :=
  of_flushOnly files (.of_protected only)

omit files

theorem copyToFrame {first length}
    (files : FileSame s (s.copyToFrame f first length bytes)) :
    Kept s (s.copyToFrame f first length bytes) :=
  of_procs files rfl fun pg member => .inr ⟨pg, member, rfl, rfl⟩

theorem setPte_free (free : s.pte p a = none) (e : Option Pte) : Kept s (s.setPte p a e) where
  files := .of_shared rfl (fun _ _ => rfl) rfl
  rest := .setPte s p a e
  aliases := by
    intro inv
    refine inv.of_leaves ?_ rfl
    rintro l f ⟨e', mapped, frame, present, user⟩
    have other : ¬ (l.1 = p ∧ l.2 = a) := by
      rintro ⟨rfl, rfl⟩
      exact absurd (free.symm.trans mapped) (by simp)
    refine ⟨e', ?_, frame, present, user⟩
    rw [Sys.pte_setPte, if_neg other]
    exact mapped

theorem setPte_unlisted (e : Option Pte) (files : FileSame s (s.setPte p a e))
    (unlisted : AliasInv [] s → ∀ pg ∈ s.shared, (p, a) ∉ pg.aliases) :
    Kept s (s.setPte p a e) where
  files := files
  rest := .setPte s p a e
  aliases := by
    intro inv
    refine ⟨?_, inv.once⟩
    intro pg member l listed _
    have other : ¬ (l.1 = p ∧ l.2 = a) := by
      rintro ⟨rfl, rfl⟩
      exact unlisted inv pg member listed
    obtain ⟨e', mapped, rest⟩ := inv.leaf pg member l listed not_mem_nil
    refine ⟨e', ?_, rest⟩
    rw [Sys.pte_setPte, if_neg other]
    exact mapped

end Kept

/-- Aliases name pages of shared areas only. -/
theorem LeafInv.unlisted (leaf : LeafInv t seen s) (inv : AliasInv [] s)
    (own : ¬ SharedArea t (s.vmas p) a) : ∀ pg ∈ s.shared, (p, a) ∉ pg.aliases := by
  intro pg member listed
  obtain ⟨e, mapped, frame, -, -⟩ := inv.leaf pg member _ listed not_mem_nil
  obtain ⟨attrs, file, area, type, mode, -⟩ := leaf.sharedLeaf p a e mapped pg member frame.symm
  exact own ⟨attrs, area, type, mode⟩

/-! ## Registration -/

theorem registerSharedFileAlias_cases (s : Sys) (ino fileOffset p a frame : Nat) (node : Bool) :
    registerSharedFileAlias s ino fileOffset p a frame node = (false, s) ∨
      ∃ pg props, findSharedPage s ino fileOffset = some pg ∧
        aliasPageMatches s pg p a = some props ∧ (p, a) ∉ pg.aliases ∧
        registerSharedFileAlias s ino fileOffset p a frame node =
          (true, updateSharedPage s ino fileOffset fun pg =>
            { pg with aliases := (p, a) :: pg.aliases }) := by
  unfold registerSharedFileAlias
  split
  · exact .inl rfl
  cases found : findSharedPage s ino fileOffset with
  | none => exact .inl rfl
  | some pg =>
    dsimp only
    split
    · exact .inl rfl
    cases leaf : aliasPageMatches s pg p a with
    | none => exact .inl rfl
    | some props =>
      dsimp only
      split
      · exact .inl rfl
      rename_i fresh
      simp only [Bool.or_eq_true, contains_iff_mem, not_or] at fresh
      exact .inr ⟨pg, props, rfl, leaf, fresh.2, rfl⟩

/-- A change of aliases that keeps those a writable leaf needs. -/
theorem Inv.relist (inv : Inv t seen k s) (identity fileOffset : Nat)
    (f : List (Nat × Nat) → List (Nat × Nat))
    (needed : ∀ pg ∈ s.shared, ∀ p a e, s.pte p a = some e → e.props.writable = true →
      (p, a) ∈ pg.aliases → (p, a) ∈ f pg.aliases) :
    Inv t seen k
      (updateSharedPage s identity fileOffset fun pg => { pg with aliases := f pg.aliases }) ∧
      FileSame s
      (updateSharedPage s identity fileOffset fun pg => { pg with aliases := f pg.aliases }) := by
  refine inv.updatePage identity fileOffset (fun _ => ⟨rfl, rfl, rfl⟩) ?_ ?_ ?_ ?_
  · exact fun pg member _ _ => inv.table.pinned pg member
  · intro p a e here writable pg member _ _ frame
    obtain ⟨dirty, listed⟩ := inv.table.dirty p a e here writable pg member frame
    exact ⟨dirty, needed pg member p a e here writable listed⟩
  · exact fun pg member _ _ => inv.content.clean pg member
  · exact fun pg member _ _ => inv.content.covered pg member

/-- An alias of a user leaf is added to the page that the leaf maps. -/
theorem AliasInv.cons (inv : AliasInv gone s)
    (fresh : ∀ pg ∈ s.shared, pg.identity = identity → pg.fileOffset = fileOffset →
    l ∉ pg.aliases ∧ UserLeaf s l pg.physicalAddress) :
    AliasInv gone (updateSharedPage s identity fileOffset fun pg =>
      { pg with aliases := l :: pg.aliases }) where
  leaf := by
    intro pg' member l' listed stays
    obtain ⟨pg, here, rfl⟩ := mem_map.mp member
    split at listed
    · rename_i key
      rw [if_pos key]
      cases mem_cons.mp listed with
      | inl new => exact new ▸ (fresh pg here key.1 key.2).2
      | inr old => exact inv.leaf pg here l' old stays
    · rename_i key
      rw [if_neg key]
      exact inv.leaf pg here l' listed stays
  once := by
    intro pg' member
    obtain ⟨pg, here, rfl⟩ := mem_map.mp member
    split
    · rename_i key
      exact nodup_cons.mpr ⟨(fresh pg here key.1 key.2).1, inv.once pg here⟩
    · exact inv.once pg here

theorem Inv.registerSharedFileAlias (inv : Inv t seen k s) (ino fileOffset p a frame : Nat)
    (node : Bool) :
    Inv t seen k (registerSharedFileAlias s ino fileOffset p a frame node).2 ∧
      Kept s (registerSharedFileAlias s ino fileOffset p a frame node).2 := by
  rcases registerSharedFileAlias_cases s ino fileOffset p a frame node with
    refused | ⟨pg, props, found, leaf, unlisted, done⟩
  · rw [refused]
    exact ⟨inv, .refl s⟩
  · rw [done]
    obtain ⟨next, files⟩ := inv.relist ino fileOffset ((p, a) :: ·)
      fun _ _ _ _ _ _ _ listed => mem_cons_of_mem _ listed
    obtain ⟨here, identity, offset, -, -⟩ := findSharedPage_some found
    obtain ⟨-, mapped, present, user⟩ := aliasPageMatches_some leaf
    refine ⟨next, files, fun _ => rfl,
      fun aliases => aliases.cons fun pg' member identity' offset' => ?_⟩
    obtain rfl :=
      inv.table.unique member here (identity'.trans identity.symm) (offset'.trans offset.symm)
    exact ⟨unlisted, _, mapped, rfl, present, user⟩

theorem Inv.unregisterSharedFileAlias (inv : Inv t seen k s) (identity fileOffset : Nat)
    (free : s.pte p a = none) :
    Inv t seen k (unregisterSharedFileAlias s identity fileOffset p a).2 ∧
      FileSame s (unregisterSharedFileAlias s identity fileOffset p a).2 := by
  unfold Memory.unregisterSharedFileAlias
  cases findSharedPage s identity fileOffset with
  | none => exact ⟨inv, .refl s⟩
  | some pg =>
    refine inv.relist identity fileOffset (·.erase (p, a)) ?_
    intro pg member q b e here _ listed
    have other : (q, b) ≠ (p, a) := by
      intro same
      obtain ⟨rfl, rfl⟩ := Prod.mk.inj same
      exact absurd (free.symm.trans here) (by simp)
    exact (mem_erase_of_ne other).mpr listed

/-! ## Write permission -/

theorem sharedWriteKey_some (key : sharedWriteKey s p a = some (ino, fileOffset)) :
    ∃ v, vmaAt (s.vmas p) a = some v ∧ v.vmFlags.writable = true := by
  unfold sharedWriteKey at key
  cases here : vmaAt (s.vmas p) a with
  | none => simp [here] at key
  | some v =>
    rw [here] at key
    obtain ⟨area, key⟩ := Option.ite_none_right_eq_some.mp key
    exact ⟨v, rfl, area.2.2⟩

theorem attrsAt_of_vmaAt (here : vmaAt vmas a = some v) :
    attrsAt t vmas a = some (v.attrs t a) := by
  rw [attrsAt_eq, here]
  rfl

/-- The page is marked dirty before its leaf may be written. -/
theorem Inv.resolveSharedFileWrite (inv : Inv t seen k s) (p a : Nat) (setup : Bool) :
    Inv t seen k (resolveSharedFileWrite s p a setup).2 ∧
      Kept s (resolveSharedFileWrite s p a setup).2 := by
  unfold Memory.resolveSharedFileWrite
  cases key : sharedWriteKey s p a with
  | none => exact ⟨inv, .refl s⟩
  | some entry =>
    obtain ⟨ino, fileOffset⟩ := entry
    dsimp only
    cases found : findSharedPage s ino fileOffset with
    | none => exact ⟨inv, .refl s⟩
    | some pg =>
      dsimp only
      split
      · exact ⟨inv, .refl s⟩
      rename_i allowed
      simp only [not_or, Bool.not_eq_false, contains_iff_mem] at allowed
      cases leaf : aliasPageMatches s pg p a with
      | none => exact ⟨inv, .refl s⟩
      | some props =>
        dsimp only
        split
        · exact ⟨inv, .refl s⟩
        obtain ⟨here, identity, offset, -, -⟩ := findSharedPage_some found
        obtain ⟨-, mapped, present, user⟩ := aliasPageMatches_some leaf
        obtain ⟨v, area, writable⟩ := sharedWriteKey_some key
        have attrs := attrsAt_of_vmaAt (t := t) area
        obtain ⟨marked, files⟩ := inv.updatePage ino fileOffset
          (f := fun pg => { pg with dirty := true, dirtyInode := some ino })
          (fun _ => ⟨rfl, rfl, rfl⟩) (fun pg' _ sameIdentity _ _ => by rw [sameIdentity])
          (fun p a e mapped writable pg' member _ _ frame =>
            ⟨rfl, (inv.table.dirty p a e mapped writable pg' member frame).2⟩)
          (fun _ _ _ _ clean => absurd clean (by simp))
          (fun pg' _ identity offset _ => by rw [identity, offset]; omega)
        have listed : { pg with dirty := true, dirtyInode := some ino } ∈
            (updateSharedPage s ino fileOffset fun pg =>
              { pg with dirty := true, dirtyInode := some ino }).shared :=
          mem_map.mpr ⟨pg, here, if_pos ⟨identity, offset⟩⟩
        generalize after : updateSharedPage s ino fileOffset (fun pg =>
          { pg with dirty := true, dirtyInode := some ino }) = s₁ at *
        have procs : s₁.procs = s.procs := by rw [← after]; rfl
        have mapped₁ : s₁.pte p a = some ⟨pg.physicalAddress, props⟩ := by
          unfold Sys.pte
          rw [procs]
          exact mapped
        have vmas₁ : s₁.vmas p = s.vmas p := by
          unfold Sys.vmas
          rw [procs]
        have shared : SharedFrame s₁ pg.physicalAddress := ⟨_, listed, rfl⟩
        obtain ⟨opened, files'⟩ := marked.setLeaf (p := p) (a := a) (f := pg.physicalAddress)
          (marked.refs.setProps mapped₁ props.withWrite) (marked.space.active mapped₁)
          ⟨(marked.leafOk mapped₁).aligned, (marked.leafOk mapped₁).homed,
              fun _ attrs' covered => by
            rw [vmas₁, attrs] at covered
            cases covered
            exact writable, fun pg' member frame => by
            obtain rfl := marked.leaf.page_unique member listed frame
            exact ⟨((marked.leafOk mapped₁).shared _ member frame).1,
              fun _ => ⟨rfl, allowed.2.2⟩⟩, fun _ => shared⟩
          (fun _ _ => .inl shared) (fun _ _ _ _ _ _ _ _ => .inl shared)
        refine ⟨opened, files.trans files', ?_, ?_⟩
        · intro q
          exact (SameProc.of_procs procs q).trans (.setPte _ p a _ q)
        · intro aliases
          refine aliases.of_pages ?_ ?_
          · intro l f leaf
            exact (leaf.of_procs procs).setPte mapped₁ fun _ _ => ⟨present, user⟩
          · intro pg' member
            rw [← after] at member
            obtain ⟨old, inTable, rfl⟩ := mem_map.mp member
            refine .inr ⟨old, inTable, ?_⟩
            split <;> exact ⟨rfl, rfl⟩

theorem ProtectedOnly.protectOffsets (t : Target) (setup : Nat → Nat → Bool) (ino : Nat)
    (offsets : List Nat) : ∀ s, ProtectedOnly s (protectOffsets t setup ino s offsets).2 := by
  induction offsets with
  | nil => exact .refl
  | cons offset offsets ih =>
    intro s
    unfold Memory.protectOffsets protectSharedFileAliases
    cases findSharedPage s ino offset with
    | none => exact ih s
    | some pg =>
      have first := ProtectedOnly.protectAliases t setup pg pg.aliases s
      dsimp only
      generalize Memory.protectAliases t setup pg s pg.aliases = result at *
      obtain ⟨done, s₁⟩ := result
      cases done with
      | false => exact first
      | true => exact first.trans (ih s₁)

theorem ProtectedOnly.prepareSharedFileWrite (t : Target) (setup : Nat → Nat → Bool) (s : Sys)
    (ino position length : Nat) :
    ProtectedOnly s (prepareSharedFileWrite t setup s ino position length).2 := by
  unfold Memory.prepareSharedFileWrite
  split
  · exact .refl s
  split
  · exact .refl s
  · exact .protectOffsets t setup ino _ s

theorem ProtectedOnly.prepareSharedFileTruncate (t : Target) (setup : Nat → Nat → Bool)
    (snapshot : Bool) (s : Sys) (ino : Nat) :
    ProtectedOnly s (prepareSharedFileTruncate t setup snapshot s ino).2 := by
  unfold Memory.prepareSharedFileTruncate
  split
  · exact .refl s
  · exact .protectOffsets t setup ino _ s

end Aliases

end Mecocoa.Memory
