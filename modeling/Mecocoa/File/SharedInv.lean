import Mecocoa.File.CacheInv

/-! # Shared file pages keep the invariant

The state of a shared page changes under its aliases: a write fault marks it
dirty before its leaf may be written, a flush takes write permission from every
alias, hands the bytes to the backend and only then marks it clean.
-/

namespace Mecocoa.Memory

open List Function

section Shared

variable {s s' : Sys}

/-- The change keeps the key and the page of a record. -/
def KeepsKey (g : SharedFilePage → SharedFilePage) : Prop :=
  ∀ pg, (g pg).identity = pg.identity ∧ (g pg).fileOffset = pg.fileOffset ∧
  (g pg).physicalAddress = pg.physicalAddress

theorem tableFrames_mapShared (key : KeepsKey g) (s : Sys) :
    tableFrames { s with shared := s.shared.map g } = tableFrames s := by
  unfold tableFrames
  rw [map_map]
  congr 1
  exact map_congr_left fun pg _ => (key pg).2.2

theorem findSharedPage_mapShared (key : KeepsKey g) (s : Sys)
    (ino fileOffset : Nat) : findSharedPage { s with shared := s.shared.map g } ino fileOffset =
      (findSharedPage s ino fileOffset).map g := by
  unfold findSharedPage
  split
  · rfl
  · rw [find?_map]
    congr 2
    funext pg
    simp only [comp, (key pg).1, (key pg).2.1]

theorem FileSame.mapShared (key : KeepsKey g) (s : Sys) :
    FileSame s { s with shared := s.shared.map g } := by
  intro ino
  refine ⟨rfl, fun offset _ => ?_⟩
  have frame : sharedFrame { s with shared := s.shared.map g } ino (pageFloor offset) =
      sharedFrame s ino (pageFloor offset) := by
    unfold sharedFrame
    rw [findSharedPage_mapShared key]
    cases findSharedPage s ino (pageFloor offset) with
    | none => rfl
    | some pg => exact congrArg some (key pg).2.2
  unfold fileByte
  rw [frame]

theorem TableInv.mapShared (inv : TableInv s) (key : KeepsKey g)
    (pinned : ∀ pg ∈ s.shared, (g pg).dirty = true → (g pg).dirtyInode = some pg.identity)
    (dirty : ∀ p a e, s.pte p a = some e → e.props.writable = true → ∀ pg ∈ s.shared,
    pg.physicalAddress = e.frame → (g pg).dirty = true ∧ (p, a) ∈ (g pg).aliases) :
    TableInv { s with shared := s.shared.map g } where
  keys := by
    rw [pairwise_map]
    refine inv.keys.imp ?_
    intro pg pg' apart
    rw [(key pg).1, (key pg).2.1, (key pg').1, (key pg').2.1]
    exact apart
  shape := by
    intro pg member
    obtain ⟨pg', inTable, rfl⟩ := mem_map.mp member
    rw [(key pg').1, (key pg').2.1]
    exact inv.shape pg' inTable
  pinned := by
    intro pg member
    obtain ⟨pg', inTable, rfl⟩ := mem_map.mp member
    rw [(key pg').1]
    exact pinned pg' inTable
  dirty := by
    intro p a e here writable pg member frame
    obtain ⟨pg', inTable, rfl⟩ := mem_map.mp member
    rw [(key pg').2.2] at frame
    exact dirty p a e here writable pg' inTable frame

theorem LeafInv.mapShared (inv : LeafInv t seen s)
    (key : KeepsKey g) : LeafInv t seen { s with shared := s.shared.map g } := by
  have frames := tableFrames_mapShared key s
  refine ⟨inv.aligned, inv.homed, inv.permitted, frames ▸ inv.tables, ?_, ?_, ?_⟩
  · intro p a e here pg member frame
    obtain ⟨pg', inTable, rfl⟩ := mem_map.mp member
    rw [(key pg').2.2] at frame
    exact (inv.sharedLeaf p a e here pg' inTable frame).congr rfl (key pg').1 (key pg').2.1
  · intro p a e here area
    obtain ⟨pg, member, frame⟩ := inv.sharedArea p a e here area
    exact ⟨g pg, mem_map_of_mem member, (key pg).2.2.trans frame⟩
  · intro p a e visible here writable
    rw [frames]
    refine (inv.exclusive p a e visible here writable).imp_left ?_
    rintro ⟨pg, member, frame⟩
    exact ⟨g pg, mem_map_of_mem member, (key pg).2.2.trans frame⟩

/-- Shared pages change their dirty state and their aliases. -/
theorem Inv.mapShared (inv : Inv t seen k s) (key : KeepsKey g)
    (pinned : ∀ pg ∈ s.shared, (g pg).dirty = true → (g pg).dirtyInode = some pg.identity)
    (dirty : ∀ p a e, s.pte p a = some e → e.props.writable = true → ∀ pg ∈ s.shared,
    pg.physicalAddress = e.frame → (g pg).dirty = true ∧ (p, a) ∈ (g pg).aliases)
    (clean : ∀ pg ∈ s.shared, (g pg).dirty = false →
      HoldsFile s pg.physicalAddress pg.identity pg.fileOffset)
    (covered : ∀ pg ∈ s.shared, (g pg).dirty = true →
      pg.fileOffset < (s.inodes pg.identity).iSize) :
    Inv t seen k { s with shared := s.shared.map g } ∧
      FileSame s { s with shared := s.shared.map g } := by
  refine ⟨⟨inv.refs.congr rfl (tableFrames_mapShared key s ▸ Perm.refl _) rfl rfl,
    inv.leaf.mapShared key, inv.space.congr rfl, inv.table.mapShared key pinned dirty,
    ⟨?_, ?_, inv.content.cached, inv.content.current⟩⟩, .mapShared key s⟩
  · intro pg member notDirty
    obtain ⟨pg', inTable, rfl⟩ := mem_map.mp member
    rw [(key pg').1, (key pg').2.1, (key pg').2.2]
    exact clean pg' inTable notDirty
  · intro pg member dirty
    obtain ⟨pg', inTable, rfl⟩ := mem_map.mp member
    rw [(key pg').1, (key pg').2.1]
    exact covered pg' inTable dirty

/-! ## One page of the table -/

/-- The record at the key changes by `f`. -/
def atKey (identity fileOffset : Nat) (f : SharedFilePage → SharedFilePage)
    (pg : SharedFilePage) : SharedFilePage :=
  if pg.identity = identity ∧ pg.fileOffset = fileOffset then f pg else pg

theorem KeepsKey.atKey (key : KeepsKey f)
    (identity fileOffset : Nat) : KeepsKey (atKey identity fileOffset f) := by
  intro pg
  unfold Memory.atKey
  split
  · exact key pg
  · exact ⟨rfl, rfl, rfl⟩

theorem Inv.updatePage (inv : Inv t seen k s) (identity fileOffset : Nat)
    (key : KeepsKey f)
    (pinned : ∀ pg ∈ s.shared, pg.identity = identity → pg.fileOffset = fileOffset →
      (f pg).dirty = true → (f pg).dirtyInode = some pg.identity)
    (dirty : ∀ p a e, s.pte p a = some e → e.props.writable = true → ∀ pg ∈ s.shared,
      pg.identity = identity → pg.fileOffset = fileOffset → pg.physicalAddress = e.frame →
      (f pg).dirty = true ∧ (p, a) ∈ (f pg).aliases)
    (clean : ∀ pg ∈ s.shared, pg.identity = identity → pg.fileOffset = fileOffset →
      (f pg).dirty = false → HoldsFile s pg.physicalAddress pg.identity pg.fileOffset)
    (covered : ∀ pg ∈ s.shared, pg.identity = identity → pg.fileOffset = fileOffset →
      (f pg).dirty = true → pg.fileOffset < (s.inodes pg.identity).iSize) :
    Inv t seen k (updateSharedPage s identity fileOffset f) ∧
      FileSame s (updateSharedPage s identity fileOffset f) := by
  refine inv.mapShared (key.atKey identity fileOffset) ?_ ?_ ?_ ?_
  · intro pg member
    split
    · rename_i same
      exact pinned pg member same.1 same.2
    · exact inv.table.pinned pg member
  · intro p a e here writable pg member frame
    split
    · rename_i same
      exact dirty p a e here writable pg member same.1 same.2 frame
    · exact inv.table.dirty p a e here writable pg member frame
  · intro pg member
    split
    · rename_i same
      exact clean pg member same.1 same.2
    · exact inv.content.clean pg member
  · intro pg member
    split
    · rename_i same
      exact covered pg member same.1 same.2
    · exact inv.content.covered pg member

/-- Two records never share their physical page. -/
theorem LeafInv.page_unique (inv : LeafInv t seen s) (here : pg ∈ s.shared)
    (there : pg' ∈ s.shared) (same : pg.physicalAddress = pg'.physicalAddress) : pg = pg' := by
  have once := (nodup_append.mp inv.tables).2.1
  exact inj_on_of_nodup_map once here there same

theorem LeafInv.cache_apart (inv : LeafInv t seen s)
    (here : e ∈ s.cache) (there : pg ∈ s.shared) :
    pg.physicalAddress ≠ e.physicalAddress := by
  intro same
  have apart := (nodup_append.mp inv.tables).2.2
  exact apart _ (mem_map_of_mem here) _ (mem_map_of_mem there) same.symm

/-! ## Aliases -/

theorem SpaceInv.sharedHome_iff (inv : SpaceInv t s)  :
    SharedHome t s p a pg ↔ aliasVmaMatches s pg p a = true := by
  rw [aliasVmaMatches_iff]
  unfold SharedHome
  rw [attrsAt_eq]
  cases here : vmaAt (s.vmas p) a with
  | none => simp
  | some v =>
    obtain ⟨member, covered⟩ := (inv.areas p).vmaAt_iff.mp here
    have offset : v.fileBacked = true → _ :=
      fun backed => (inv.bounded p v member).offset backed covered
    simp only [Option.map_some, Option.some.injEq]
    constructor
    · rintro ⟨attrs, file, rfl, type, mode, backing, inode⟩
      have isFile : v.vmType = .file := type
      cases backed : v.vfile with
      | none => simp [Vma.attrs, isFile, backed] at backing
      | some own =>
        simp only [Vma.attrs, isFile, backed, Option.some.injEq, Prod.mk.injEq] at backing
        obtain ⟨rfl, position⟩ := backing
        obtain ⟨wrapped, wide⟩ := offset (by simp [Vma.fileBacked, isFile, backed])
        exact ⟨v, own, rfl, isFile, mode, backed, inode,
          wide.trans (wrapped.symm.trans position)⟩
    · rintro ⟨w, file, rfl, isFile, mode, backed, inode, position⟩
      obtain ⟨wrapped, wide⟩ := offset (by simp [Vma.fileBacked, isFile, backed])
      refine ⟨_, file, rfl, isFile, mode, ?_, inode⟩
      simp only [Vma.attrs, isFile, backed]
      rw [wrapped, ← wide, position]

/-- After `ProtectSharedFileAliases` no alias may write. -/
theorem protectAliases_done (setup : Nat → Nat → Bool) (pg : SharedFilePage)
    (aliases : List (Nat × Nat)) :
    ∀ {s s' : Sys}, protectAliases t setup pg s aliases = (true, s') →
      ∀ l ∈ aliases, ∀ e, s'.pte l.1 l.2 = some e → e.props.writable = false := by
  induction aliases with
  | nil => exact fun _ l member => absurd member not_mem_nil
  | cons entry aliases ih =>
    intro s s' done l member e here
    obtain ⟨p, a⟩ := entry
    have locked : ∀ (mid : Sys) (old : Pte), mid.pte p a = some old →
      old.props.writable = false →
        protectAliases t setup pg mid aliases = (true, s') → l = (p, a) →
            e.props.writable = false := by
      intro mid old before readOnly rest same
      have weak := Weaker.of_protected (ProtectedOnly.protectAliases t setup pg aliases mid).protect
      rw [rest] at weak
      rw [same] at here
      obtain ⟨e', was, -, fewer⟩ := weak.old here
      obtain rfl := Option.some.inj (before.symm.trans was)
      by_contra writable
      exact absurd (fewer (by simpa using writable)) (by simp [readOnly])
    unfold protectAliases at done
    split at done
    · exact absurd (congrArg Prod.fst done) (by simp)
    rename_i props found
    obtain ⟨-, mapped, -, -⟩ := aliasPageMatches_some found
    split at done
    · split at done
      · exact absurd (congrArg Prod.fst done) (by simp)
      · cases mem_cons.mp member with
        | inl same =>
          refine locked _ ⟨pg.physicalAddress, props.readOnly⟩ ?_ rfl done same
          rw [Sys.pte_setPte, if_pos ⟨rfl, rfl⟩]
        | inr later => exact ih done l later e here
    · rename_i readOnly
      cases mem_cons.mp member with
      | inl same => exact locked _ _ mapped (by simpa using readOnly) done same
      | inr later => exact ih done l later e here

/-! ## Writing back -/

/-- Bytes of one page of the file, whose shared page is dirty, reach the backend. -/
theorem StaleInv.write (content : ContentInv s) (table : TableInv s)
    (here : pg ∈ s.shared) (dirty : pg.dirty = true) (length : Nat) (small : length ≤ pageSize)
    (bytes : Nat → UInt8) : StaleInv pg.identity (s.setInode pg.identity
        ((s.inodes pg.identity).write pg.fileOffset length bytes)) ∧
        FileSame s (s.setInode pg.identity
        ((s.inodes pg.identity).write pg.fileOffset length bytes)) := by
  have same : ∀ i, i ≠ pg.identity → (s.setInode pg.identity
      ((s.inodes pg.identity).write pg.fileOffset length bytes)).inodes i = s.inodes i :=
    fun i other => update_of_ne other ..
  have self :
    (s.setInode pg.identity ((s.inodes pg.identity).write pg.fileOffset length bytes)).inodes
      pg.identity = (s.inodes pg.identity).write pg.fileOffset length bytes := update_self ..
  have aligned := (table.shape pg here).2
  refine ⟨⟨?_, ?_, ?_, ?_⟩, ?_⟩
  · intro pg' member clean
    have held := content.clean pg' member clean
    by_cases identity : pg'.identity = pg.identity
    · have apart : pg'.fileOffset ≠ pg.fileOffset := by
        intro offset
        rw [table.unique member here identity offset] at clean
        exact absurd (clean.symm.trans dirty) (by simp)
      have aligned' := (table.shape pg' member).2
      intro i inside below
      rw [identity, self] at below ⊢
      have old := held i inside
      rw [identity] at old
      have outside :
          ¬ (pg.fileOffset ≤ pg'.fileOffset + i ∧
            pg'.fileOffset + i < pg.fileOffset + length) := by
        unfold Aligned pageSize at *
        omega
      simp only [Inode.write, if_neg outside]
      exact old below
    · exact held.congr rfl (same _ identity)
  · intro pg' member stays
    have old := content.covered pg' member stays
    by_cases identity : pg'.identity = pg.identity
    · rw [identity] at old ⊢
      rw [self]
      exact old
    · rw [same _ identity]
      exact old
  · intro e member other
    exact (content.cached e member).congr rfl (same _ other)
  · intro e member
    obtain ⟨some, version⟩ := content.current e member
    refine ⟨some, ?_⟩
    by_cases identity : e.identity = pg.identity
    · rw [version, identity, self]
      rfl
    · rw [version, same _ identity]
  · intro ino
    by_cases identity : ino = pg.identity
    · subst identity
      refine ⟨by rw [self]; rfl, fun offset below => ?_⟩
      unfold fileByte
      cases frame : sharedFrame s pg.identity (pageFloor offset) with
      | some f =>
        have frame' :
          sharedFrame (s.setInode pg.identity ((s.inodes pg.identity).write pg.fileOffset
          length bytes)) pg.identity (pageFloor offset) = some f := frame
        rw [frame']
        rfl
      | none =>
        have frame' :
          sharedFrame (s.setInode pg.identity ((s.inodes pg.identity).write pg.fileOffset
          length bytes)) pg.identity (pageFloor offset) = none := frame
        rw [frame', self]
        have apart : pageFloor offset ≠ pg.fileOffset := by
          intro position
          rw [position, table.sharedFrame_iff.mpr ⟨pg, here, rfl, rfl, rfl⟩] at frame
          exact absurd frame (by simp)
        have outside : ¬ (pg.fileOffset ≤ offset ∧ offset < pg.fileOffset + length) := by
          unfold Aligned pageFloor pageSize at *
          omega
        simp only [Inode.write, if_neg outside]
    · refine ⟨by rw [same _ identity], fun offset below => ?_⟩
      unfold fileByte
      rw [same _ identity]
      rfl

/-- Leaves lost write permission and shared pages their dirty state, at most. -/
structure FlushOnly (s s' : Sys) : Prop where
  protect : WriteProtected s s'
  pins : s'.pins = s.pins
  pages : ∃ g, KeepsKey g ∧ (∀ pg, (g pg).aliases = pg.aliases) ∧ s'.shared = s.shared.map g

namespace FlushOnly

theorem of_protected (only : ProtectedOnly s s') : FlushOnly s s' :=
  ⟨only.protect, only.pins, id, fun _ => ⟨rfl, rfl, rfl⟩,
  fun _ => rfl, by rw [map_id, only.shared]⟩

theorem refl (s : Sys) : FlushOnly s s := of_protected (.refl s)

theorem trans (first : FlushOnly s mid) (second : FlushOnly mid s') : FlushOnly s s' := by
  obtain ⟨g, key, aliases, shared⟩ := first.pages
  obtain ⟨g', key', aliases', shared'⟩ := second.pages
  refine ⟨first.protect.trans second.protect, second.pins.trans first.pins, g' ∘ g, ?_, ?_,
    ?_⟩
  · intro pg
    obtain ⟨identity, offset, frame⟩ := key pg
    obtain ⟨identity', offset', frame'⟩ := key' (g pg)
    exact ⟨identity'.trans identity, offset'.trans offset, frame'.trans frame⟩
  · exact fun pg => (aliases' (g pg)).trans (aliases pg)
  · rw [shared', shared, map_map]

end FlushOnly

/-- No page gets dirty and no file system goes away. -/
def NoneDirtied (s s' : Sys) : Prop :=
  (∀ pg ∈ s'.shared, pg.dirty = true → pg ∈ s.shared) ∧
  ∀ i, (s'.inodes i).filesystem = (s.inodes i).filesystem

theorem NoneDirtied.refl (s : Sys) : NoneDirtied s s := ⟨fun _ member _ => member, fun _ => rfl⟩

theorem Inode.write_zero (inode : Inode) (offset : Nat) (bytes : Nat → UInt8) :
    inode.write offset 0 bytes = inode := by
  unfold Inode.write
  congr 1
  funext i
  exact if_neg (by omega)

variable (inv : Inv t seen k s)

include inv

/-- The bytes of a dirty page reach the backend and the version moves on. -/
theorem Inv.writePage
    (here : pg ∈ s.shared) (dirty : pg.dirty = true) (length : Nat) (small : length ≤ pageSize)
    (bytes : Nat → UInt8)
    (written : s₁ =
      s.setInode pg.identity ((s.inodes pg.identity).write pg.fileOffset length bytes))
    (advanced : s₂ = if length = 0 then s₁ else advanceContentVersion s₁ pg.identity) :
    Inv t seen k s₂ ∧ FileSame s s₂ ∧ s₂.procs = s.procs ∧ s₂.shared = s.shared ∧
      s₂.pins = s.pins ∧ s₂.mem = s.mem ∧
      (s₂.inodes pg.identity).backend =
      ((s.inodes pg.identity).write pg.fileOffset length bytes).backend ∧
      (s₂.inodes pg.identity).iSize = (s.inodes pg.identity).iSize ∧
      ∀ i, (s₂.inodes i).filesystem = (s.inodes i).filesystem := by
  have self :
      s₁.inodes pg.identity = (s.inodes pg.identity).write pg.fileOffset length bytes := by
    rw [written]
    exact update_self ..
  by_cases none : length = 0
  · rw [if_pos none] at advanced
    have unchanged : s₁ = s := by
      rw [written, none, Inode.write_zero]
      unfold Sys.setInode
      rw [update_eq_self]
    rw [advanced, unchanged]
    refine ⟨inv, .refl s, rfl, rfl, rfl, rfl, ?_, rfl, fun _ => rfl⟩
    rw [none, Inode.write_zero]
  · rw [if_neg none] at advanced
    obtain ⟨stale, files⟩ := StaleInv.write inv.content inv.table here dirty length small bytes
    rw [← written] at stale files
    obtain ⟨inv₂, files₂⟩ := Inv.advance (s := s₁) pg.identity
      (inv.refs.congr (by rw [written]; rfl) (by rw [written]; exact Perm.refl _)
        (by rw [written]; rfl) (by rw [written]; rfl))
      (inv.leaf.congr (by rw [written]; rfl) (by rw [written]; rfl) (by rw [written]; rfl))
      (inv.space.congr (by rw [written]; rfl))
      (inv.table.congr (by rw [written]; rfl) (by rw [written]; rfl))
      stale
    obtain ⟨shared, pins, mem, inodes⟩ := advanceContentVersion_keeps s₁ pg.identity
    obtain ⟨backend, size, -⟩ := inodes pg.identity
    rw [advanced]
    refine ⟨inv₂, files.trans files₂, ?_, ?_, ?_, ?_, ?_, ?_,
      fun i => (inodes i).2.2.trans ?_⟩
    · rw [procs_advanceContentVersion, written]
      rfl
    · rw [shared, written]
      rfl
    · rw [pins, written]
      rfl
    · rw [mem, written]
      rfl
    · rw [backend, self]
    · rw [size, self]
      rfl
    · rw [written]
      by_cases own : i = pg.identity
      · simp [Sys.setInode, own, Inode.write]
      · simp [Sys.setInode, own]

theorem Inv.writeBackPage (here : pg ∈ s.shared) (dirty : pg.dirty = true) (accepted : Nat)
    (locked : ∀ p a e, s.pte p a = some e → e.frame = pg.physicalAddress →
      e.props.writable = false) :
    ∃ result s', writeBackPage s pg accepted = (result, s') ∧ Inv t seen k s' ∧
      FileSame s s' ∧ FlushOnly s s' ∧
      NoneDirtied s s' := by
  unfold Memory.writeBackPage
  dsimp only
  split
  · exact ⟨false, s, rfl, inv, .refl s, .refl s, .refl s⟩
  generalize size : min pageSize ((s.inodes pg.identity).iSize - pg.fileOffset) = length
  generalize count : min accepted length = written
  obtain ⟨inv₂, files, procs, shared, pins, mem, backend, iSize, system⟩ :=
    inv.writePage here dirty
    written (by omega) (s.mem pg.physicalAddress) rfl rfl
  generalize (if written = 0 then s.setInode pg.identity ((s.inodes pg.identity).write pg.fileOffset
    written (s.mem pg.physicalAddress)) else advanceContentVersion (s.setInode pg.identity
    ((s.inodes pg.identity).write pg.fileOffset written (s.mem pg.physicalAddress))) pg.identity) =
    s₂ at *
  have only : FlushOnly s s₂ :=
      ⟨.of_procs procs, pins, id, fun _ => ⟨rfl, rfl, rfl⟩, fun _ => rfl, by
    rw [map_id, shared]⟩
  split
  · exact ⟨false, s₂, rfl, inv₂, files, only, fun _ member _ => shared ▸ member, system⟩
  rename_i whole
  simp only [ne_eq, not_not] at whole
  have keeps : KeepsKey (fun pg => { pg with dirty := false, dirtyInode := none }) :=
    fun _ => ⟨rfl, rfl, rfl⟩
  have self : ∀ pg' ∈ s₂.shared, pg'.identity = pg.identity →
      pg'.fileOffset = pg.fileOffset → pg' = pg :=
    fun pg' member identity offset => inv.table.unique (shared ▸ member) here identity offset
  obtain ⟨last, files'⟩ := inv₂.updatePage pg.identity pg.fileOffset keeps
    (fun _ _ _ _ stays => absurd stays (by simp))
    (by
      intro p a e mapped writable pg' member identity offset frame
      rw [self pg' member identity offset] at frame
      have read := locked p a e (by rw [← mapped]; unfold Sys.pte; rw [procs]) frame.symm
      exact absurd (read.symm.trans writable) (by simp))
    (by
      intro pg' member identity offset _ i small below
      obtain rfl := self pg' member identity offset
      rw [iSize] at below
      rw [mem, backend]
      have inside : pg'.fileOffset ≤ pg'.fileOffset + i ∧
      pg'.fileOffset + i < pg'.fileOffset + written := by omega
      simp only [Inode.write, if_pos inside, Nat.add_sub_cancel_left])
    (fun _ _ _ _ stays => absurd stays (by simp))
  refine ⟨true, _, rfl, last, files.trans files', only.trans
    ⟨.of_procs rfl, rfl, _, keeps.atKey pg.identity pg.fileOffset, ?_, rfl⟩,
    fun pg' member stays => ?_, system⟩
  · intro pg'
    unfold atKey
    split <;> rfl
  · obtain ⟨old, there, rfl⟩ := mem_map.mp member
    split at stays
    · cases stays
    · rename_i other
      rw [if_neg other]
      exact shared ▸ there

theorem Inv.flushSharedFilePage (identity fileOffset : Nat) (outcome : FlushOutcome) :
    ∃ result s', flushSharedFilePage t s identity fileOffset outcome = (result, s') ∧
      Inv t seen k s' ∧ FileSame s s' ∧ FlushOnly s s' ∧ NoneDirtied s s' := by
  unfold Memory.flushSharedFilePage
  cases found : findSharedPage s identity fileOffset with
  | none => exact ⟨true, s, rfl, inv, .refl s, .refl s, .refl s⟩
  | some pg =>
    obtain ⟨here, -, -, -, -⟩ := findSharedPage_some found
    dsimp only
    split
    · exact ⟨true, s, rfl, inv, .refl s, .refl s, .refl s⟩
    rename_i dirty
    simp only [Bool.not_eq_true, Bool.not_eq_false'] at dirty
    split
    · exact ⟨false, s, rfl, inv, .refl s, .refl s, .refl s⟩
    unfold protectSharedFileAliases
    have only := ProtectedOnly.protectAliases t outcome.setup pg pg.aliases s
    cases protect : protectAliases t outcome.setup pg s pg.aliases with
    | mk done s₁ =>
      rw [protect] at only
      obtain ⟨inv₁, files₁⟩ := inv.protectedOnly only
      have clean : NoneDirtied s s₁ :=
        ⟨fun _ member _ => only.shared ▸ member, fun i => by rw [only.inodes]⟩
      cases done with
      | false => exact ⟨false, s₁, rfl, inv₁, files₁, .of_protected only, clean⟩
      | true =>
        have done := protectAliases_done outcome.setup pg pg.aliases protect
        have locked : ∀ p a e, s₁.pte p a = some e → e.frame = pg.physicalAddress →
            e.props.writable = false := by
          intro p a e mapped frame
          by_contra writable
          have known := inv₁.table.dirty p a e mapped (by simpa using writable) pg
            (only.shared ▸ here) frame.symm
          exact writable (done (p, a) known.2 e mapped)
        obtain ⟨result, s₂, wrote, inv₂, files₂, only₂, dirtied, system⟩ :=
          inv₁.writeBackPage
          (only.shared ▸ here) dirty outcome.written locked
        exact ⟨result, s₂, wrote, inv₂, files₁.trans files₂,
          (FlushOnly.of_protected only).trans only₂,
          fun pg' member stays => clean.1 pg' (dirtied pg' member stays) stays,
          fun i => (system i).trans (clean.2 i)⟩

omit inv

end Shared

end Mecocoa.Memory
