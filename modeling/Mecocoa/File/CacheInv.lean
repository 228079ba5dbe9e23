import Mecocoa.Memory.Invariant

/-! # The page cache keeps the invariant

Records come and go together with their cache references, an evicted page is
clean, and a new content version drops every cached copy of the file it belongs
to.
-/

namespace Mecocoa.Memory

open List

theorem perm_insertRecord {α : Type} (bucket : α → Nat) (records : List α) (new : α) :
    (insertRecord bucket records new).Perm (new :: records) := by
  refine perm_middle.trans (Perm.cons new ?_)
  rw [takeWhile_append_dropWhile]

theorem detachInactive_spec {α : Type} (inactive : α → Bool) (records : List α) : ∀ limit,
    records.Perm
      ((detachInactive inactive limit records).1 ++ (detachInactive inactive limit records).2) ∧
      (detachInactive inactive limit records).1.Sublist records ∧
      ∀ r ∈ (detachInactive inactive limit records).2, inactive r = true := by
  induction records with
  | nil => intro limit; simp [detachInactive]
  | cons r records ih =>
    intro limit
    cases limit with
    | zero => simp [detachInactive]
    | succ limit =>
      unfold detachInactive
      by_cases idle : inactive r = true
      · obtain ⟨perm, sub, all⟩ := ih limit
        rw [if_pos idle]
        exact ⟨(perm.cons r).trans perm_middle.symm, sub.cons r,
          forall_mem_cons.mpr ⟨idle, all⟩⟩
      · obtain ⟨perm, sub, all⟩ := ih (limit + 1)
        rw [if_neg idle]
        exact ⟨perm.cons r, sub.cons_cons r, all⟩

section Tables

variable {k : Tokens}

theorem Inv.returnCaches (inv : Inv t seen { k with cached := frames ++ k.cached } s) :
    Keeps t seen k s (releaseCaches s frames) :=
  inv.refsOnly (RefsOnly.releaseCaches frames s) (RefInv.releaseCaches frames inv.refs)

/-- Records that leave a table turn into cache references. -/
theorem RefInv.dropFrames (refs : RefInv k s)
    (split : (tableFrames s' ++ frames).Perm (tableFrames s)) (leaves : leafFrame s' = leafFrame s)
    (managed : s'.managed = s.managed) (pool : s'.pool = s.pool) :
    RefInv { k with cached := frames ++ k.cached } s' := by
  refine refs.retable ?_ leaves managed pool
  rw [← append_assoc]
  exact split.append_right k.cached

theorem LeafInv.dropCache (inv : LeafInv t seen s) {kept}
    (sub : kept.Sublist s.cache) : LeafInv t seen { s with cache := kept } := by
  have fewer : (tableFrames { s with cache := kept }).Sublist (tableFrames s) :=
    (sub.map _).append (Sublist.refl _)
  refine ⟨inv.aligned, inv.homed, inv.permitted, inv.tables.sublist fewer, inv.sharedLeaf,
    inv.sharedArea, fun p a e visible here writable => ?_⟩
  exact (inv.exclusive p a e visible here writable).imp_right fun ⟨outside, only⟩ =>
    ⟨fun member => outside (fewer.subset member), only⟩

theorem RefInv.dropCache (refs : RefInv k s)
    {kept removed} (split : s.cache.Perm (kept ++ removed)) :
    RefInv { k with cached := removed.map (·.physicalAddress) ++ k.cached }
      { s with cache := kept } := by
  refine refs.dropFrames ?_ rfl rfl rfl
  have moved := (split.map (·.physicalAddress)).append_right (s.shared.map (·.physicalAddress))
  rw [map_append, append_assoc] at moved
  unfold tableFrames
  rw [append_assoc]
  exact (Perm.append_left _ perm_append_comm).trans moved.symm

theorem Inv.dropCache (inv : Inv t seen k s)
    {kept removed} (split : s.cache.Perm (kept ++ removed))
    (sub : kept.Sublist s.cache) : Keeps t seen k s
      (releaseCaches { s with cache := kept } (removed.map (·.physicalAddress))) := by
  have mid : Inv t seen { k with cached := removed.map (·.physicalAddress) ++ k.cached }
      { s with cache := kept } :=
    ⟨inv.refs.dropCache split, inv.leaf.dropCache sub, inv.space.congr rfl,
      inv.table.congr rfl rfl, ⟨inv.content.clean, inv.content.covered,
        fun e member => inv.content.cached e (sub.subset member),
        fun e member => inv.content.current e (sub.subset member)⟩⟩
  obtain ⟨last, same⟩ := mid.returnCaches
  exact ⟨last, (FileSame.of_shared rfl (fun _ _ => rfl) rfl).trans same⟩

theorem LeafInv.dropShared (inv : LeafInv t seen s) (table : TableInv s)
    (sub : kept.Sublist s.shared)
    (clean : ∀ pg ∈ s.shared, pg ∉ kept → pg.dirty = false)
    (unmapped : ∀ pg ∈ s.shared, pg ∉ kept →
      ∀ l, leafFrame s l ≠ some pg.physicalAddress) :
    LeafInv t seen { s with shared := kept } := by
  have fewer : (tableFrames { s with shared := kept }).Sublist (tableFrames s) :=
    (Sublist.refl _).append (sub.map _)
  refine ⟨inv.aligned, inv.homed, inv.permitted, inv.tables.sublist fewer,
    fun p a e here pg member frame => inv.sharedLeaf p a e here pg (sub.subset member) frame, ?_,
    ?_⟩
  · intro p a e here area
    obtain ⟨pg, member, frame⟩ := inv.sharedArea p a e here area
    by_cases stays : pg ∈ kept
    · exact ⟨pg, stays, frame⟩
    · exact absurd (frame ▸ leafFrame_eq_some here) (unmapped pg member stays (p, a))
  intro p a e visible here writable
  rcases inv.exclusive p a e visible here writable with ⟨pg, member, frame⟩ |
    ⟨outside, only⟩
  · by_cases stays : pg ∈ kept
    · exact .inl ⟨pg, stays, frame⟩
    · have dirty := (table.dirty p a e here writable pg member frame).1
      exact absurd (clean pg member stays) (by simp [dirty])
  · exact .inr ⟨fun member => outside (fewer.subset member), only⟩

theorem TableInv.dropShared (inv : TableInv s)
    (sub : kept.Sublist s.shared) : TableInv { s with shared := kept } where
  keys := inv.keys.sublist sub
  shape := fun pg member => inv.shape pg (sub.subset member)
  pinned := fun pg member => inv.pinned pg (sub.subset member)
  dirty := fun p a e here writable pg member => inv.dirty p a e here writable pg (sub.subset member)

/-- A shared page that holds what the file holds may be in the table or not. -/
theorem FileSame.of_pages (table : TableInv s)
    (table' : TableInv { s with shared := pages })
    (gone : ∀ pg ∈ s.shared, pg ∈ pages ∨
      HoldsFile s pg.physicalAddress pg.identity pg.fileOffset)
    (new : ∀ pg ∈ pages, pg ∈ s.shared ∨
      HoldsFile s pg.physicalAddress pg.identity pg.fileOffset) :
    FileSame s { s with shared := pages } := by
  intro ino
  refine ⟨rfl, fun offset below => ?_⟩
  by_cases common : ∃ pg ∈ s.shared, pg ∈ pages ∧ pg.identity = ino ∧
    pg.fileOffset = pageFloor offset
  · obtain ⟨pg, old, stays, identity, position⟩ := common
    unfold fileByte
    rw [table.sharedFrame_iff.mpr ⟨pg, old, identity, position, rfl⟩,
      table'.sharedFrame_iff.mpr ⟨pg, stays, identity, position, rfl⟩]
  -- Otherwise the byte is that of the backend, before and after.
  have plain : ∀ {l}, TableInv { s with shared := l } →
    (∀ pg ∈ l, pg.identity = ino → pg.fileOffset = pageFloor offset →
      HoldsFile s pg.physicalAddress pg.identity pg.fileOffset) →
      fileByte { s with shared := l } ino offset = (s.inodes ino).backend offset := by
    intro l table holds
    unfold fileByte
    cases found : sharedFrame { s with shared := l } ino (pageFloor offset) with
    | none => rfl
    | some f =>
      obtain ⟨pg, member, rfl, position, rfl⟩ := table.sharedFrame_iff.mp found
      have at_ : pg.fileOffset + offset % pageSize = offset := by
        rw [position]
        exact Nat.div_add_mod' offset pageSize
      have held := holds pg member rfl position (offset % pageSize) (Nat.mod_lt _ (by decide))
      rw [at_] at held
      exact held below
  have before := plain (l := s.shared) table fun pg member identity position =>
    (gone pg member).resolve_left fun stays => common ⟨pg, member, stays, identity, position⟩
  rw [before]
  exact plain table' fun pg member identity position =>
    (new pg member).resolve_left fun old => common ⟨pg, old, member, identity, position⟩

/-- Clean shared pages leave their table and give their references back. -/
theorem Inv.dropShared (inv : Inv t seen k s)
    (split : s.shared.Perm (kept ++ removed))
    (sub : kept.Sublist s.shared) (clean : ∀ pg ∈ removed, pg.dirty = false)
    (unmapped : ∀ pg ∈ removed, ∀ l, leafFrame s l ≠ some pg.physicalAddress) :
    Keeps t seen k s
      (releaseCaches { s with shared := kept } (removed.map (·.physicalAddress))) := by
  have either : ∀ pg ∈ s.shared, pg ∈ kept ∨ pg ∈ removed :=
    fun pg member => mem_append.mp (split.mem_iff.mp member)
  have gone : ∀ pg ∈ s.shared, pg ∉ kept → pg ∈ removed := fun pg member =>
    (either pg member).resolve_left
  have balance : (tableFrames { s with shared := kept } ++ removed.map (·.physicalAddress)).Perm
      (tableFrames s) := by
    have moved := (split.map (·.physicalAddress)).append_left (s.cache.map (·.physicalAddress))
    rw [map_append, ← append_assoc] at moved
    exact moved.symm
  have mid : Inv t seen { k with cached := removed.map (·.physicalAddress) ++ k.cached }
      { s with shared := kept } :=
    ⟨inv.refs.dropFrames balance rfl rfl rfl, inv.leaf.dropShared inv.table sub
        (fun pg member left => clean pg (gone pg member left))
        (fun pg member left => unmapped pg (gone pg member left)), inv.space.congr rfl,
        inv.table.dropShared sub,
      ⟨fun pg member => inv.content.clean pg (sub.subset member),
        fun pg member => inv.content.covered pg (sub.subset member), inv.content.cached,
        inv.content.current⟩⟩
  obtain ⟨last, same⟩ := mid.returnCaches
  refine ⟨last,
    FileSame.trans (.of_pages inv.table mid.table (fun pg member => ?_) fun pg member => ?_) same⟩
  · exact (either pg member).imp_right fun left => inv.content.clean pg member (clean pg left)
  · exact .inl (sub.subset member)

/-! ## Eviction -/

theorem RefInv.unmapped_of_onlyCached (refs : RefInv k s)
    (only : onlyCached s f = true) (l : Nat × Nat) : leafFrame s l ≠ some f := by
  unfold onlyCached at only
  cases managed : s.managed f with
  | none => simp [managed] at only
  | some page =>
    simp only [managed, Bool.and_eq_true, beq_iff_eq] at only
    have count := refs.mapping f page managed
    have empty : (Lib.holders (leafFrame s) f).ncard = 0 := by omega
    rw [Set.ncard_eq_zero (refs.finite f)] at empty
    intro mapped
    exact Set.notMem_empty l (empty ▸ mapped)

theorem detachInactiveReadyPages_frame (s : Sys) (limit : Nat) :
    RefsOnly { s with cache := (detachInactiveReadyPages s limit).2.cache }
      (detachInactiveReadyPages s limit).2 ∧
      (detachInactiveReadyPages s limit).2.cache.Sublist s.cache := by
  unfold detachInactiveReadyPages
  obtain ⟨-, sub, -⟩ :=
    detachInactive_spec (fun e => onlyCached s e.physicalAddress) s.cache limit
  generalize detachInactive (fun e => onlyCached s e.physicalAddress) limit s.cache = result at *
  obtain ⟨kept, removed⟩ := result
  have same := RefsOnly.releaseCaches (removed.map (·.physicalAddress)) { s with cache := kept }
  rw [same.cache]
  exact ⟨same, sub⟩

theorem Inv.detachInactiveReadyPages (inv : Inv t seen k s) (limit : Nat) :
    Keeps t seen k s (detachInactiveReadyPages s limit).2 := by
  unfold Memory.detachInactiveReadyPages
  obtain ⟨split, sub, -⟩ :=
    detachInactive_spec (fun e => onlyCached s e.physicalAddress) s.cache limit
  generalize detachInactive (fun e => onlyCached s e.physicalAddress) limit s.cache = result at *
  obtain ⟨kept, removed⟩ := result
  exact inv.dropCache split sub

theorem detachInactiveSharedPages_frame (s : Sys) (limit : Nat) :
    RefsOnly { s with shared := (detachInactiveSharedPages s limit).2.shared }
      (detachInactiveSharedPages s limit).2 ∧
      (detachInactiveSharedPages s limit).2.shared.Sublist s.shared := by
  unfold detachInactiveSharedPages
  obtain ⟨-, sub, -⟩ := detachInactive_spec
    (fun pg => !pg.dirty && pg.aliases.isEmpty && onlyCached s pg.physicalAddress) s.shared limit
  generalize detachInactive
    (fun pg => !pg.dirty && pg.aliases.isEmpty && onlyCached s pg.physicalAddress) limit s.shared =
    result at *
  obtain ⟨kept, removed⟩ := result
  have same := RefsOnly.releaseCaches (removed.map (·.physicalAddress)) { s with shared := kept }
  rw [same.shared]
  exact ⟨same, sub⟩

theorem Inv.detachInactiveSharedPages (inv : Inv t seen k s) (limit : Nat) :
    Keeps t seen k s (detachInactiveSharedPages s limit).2 := by
  unfold Memory.detachInactiveSharedPages
  obtain ⟨split, sub, idle⟩ := detachInactive_spec
    (fun pg => !pg.dirty && pg.aliases.isEmpty && onlyCached s pg.physicalAddress) s.shared limit
  generalize detachInactive
    (fun pg => !pg.dirty && pg.aliases.isEmpty && onlyCached s pg.physicalAddress) limit s.shared =
    result at *
  obtain ⟨kept, removed⟩ := result
  have inactive : ∀ pg ∈ removed, (pg.dirty = false ∧ pg.aliases.isEmpty) ∧
      onlyCached s pg.physicalAddress := by
    intro pg member
    have inactive := idle pg member
    simp only [Bool.and_eq_true, Bool.not_eq_true'] at inactive
    exact inactive
  exact inv.dropShared split sub (fun pg member => (inactive pg member).1.1)
    fun pg member => inv.refs.unmapped_of_onlyCached (inactive pg member).2

/-! ## Content versions -/

/-- Content as in the invariant, except that cached copies of one file may be stale. -/
structure StaleInv (ino : Nat) (s : Sys) : Prop where
  clean : ∀ pg ∈ s.shared, pg.dirty = false →
    HoldsFile s pg.physicalAddress pg.identity pg.fileOffset
  covered : ∀ pg ∈ s.shared, pg.dirty = true → pg.fileOffset < (s.inodes pg.identity).iSize
  cached : ∀ e ∈ s.cache, e.identity ≠ ino →
    HoldsFile s e.physicalAddress e.identity e.fileOffset
  current : ∀ e ∈ s.cache, e.identity ≠ 0 ∧
    e.contentVersion = (s.inodes e.identity).contentVersion

theorem next_version_ne (v : Nat) : (v + 1) % 2 ^ 64 ≠ v := by omega

theorem inodes_setVersion (s : Sys) (ino version i : Nat) :
    ((s.setInode ino { s.inodes ino with contentVersion := version }).inodes i).backend =
    (s.inodes i).backend ∧
      ((s.setInode ino { s.inodes ino with contentVersion := version }).inodes i).iSize =
      (s.inodes i).iSize ∧
      ((s.setInode ino { s.inodes ino with contentVersion := version }).inodes i).filesystem =
        (s.inodes i).filesystem := by
  unfold Sys.setInode
  by_cases same : i = ino
  · subst same
    simp
  · simp [same]

theorem HoldsFile.setVersion (holds : HoldsFile s f i fileOffset)
    (ino version : Nat) :
    HoldsFile (s.setInode ino { s.inodes ino with contentVersion := version }) f i fileOffset := by
  obtain ⟨backend, size, -⟩ := inodes_setVersion s ino version i
  intro n small below
  rw [backend]
  rw [size] at below
  exact holds n small below

theorem FileSame.setVersion (s : Sys) (ino version : Nat) :
    FileSame s (s.setInode ino { s.inodes ino with contentVersion := version }) := by
  intro i
  obtain ⟨backend, size, -⟩ := inodes_setVersion s ino version i
  refine ⟨size, fun offset _ => ?_⟩
  unfold fileByte
  rw [backend]
  rfl

/-- A new content version drops every stale copy. -/
theorem Inv.advance (ino : Nat) (refs : RefInv k s)
    (leaf : LeafInv t seen s) (space : SpaceInv t s) (table : TableInv s)
    (content : StaleInv ino s) :
    Keeps t seen k s (advanceContentVersion s ino) := by
  have new := next_version_ne (s.inodes ino).contentVersion
  have files := FileSame.setVersion s ino (((s.inodes ino).contentVersion + 1) % 2 ^ 64)
  unfold advanceContentVersion invalidateVersions
  dsimp only
  generalize ((s.inodes ino).contentVersion + 1) % 2 ^ 64 = version at *
  have refs₁ : RefInv k (s.setInode ino { s.inodes ino with contentVersion := version }) :=
    refs.congr rfl (Perm.refl _) rfl rfl
  have leaf₁ : LeafInv t seen (s.setInode ino { s.inodes ino with contentVersion := version }) :=
    leaf.congr rfl rfl rfl
  -- Copies of other files are still current.
  have others : ∀ {kept}, kept.Sublist s.cache → (∀ e ∈ kept, e.identity ≠ ino) →
      ContentInv { s.setInode ino { s.inodes ino with contentVersion := version } with
          cache := kept } := by
    intro kept sub other
    refine ⟨fun pg member clean => (content.clean pg member clean).setVersion ino version,
      fun pg member dirty => ?_, fun e member =>
      (content.cached e (sub.subset member) (other e member)).setVersion ino version,
      fun e member => ?_⟩
    · rw [(inodes_setVersion s ino version pg.identity).2.1]
      exact content.covered pg member dirty
    obtain ⟨named, current⟩ := content.current e (sub.subset member)
    exact ⟨named,
      current.trans
      (congrArg Inode.contentVersion (Function.update_of_ne (other e member) ..).symm)⟩
  split
  · rename_i zero
    exact ⟨⟨refs₁, leaf₁, space.congr rfl, table.congr rfl rfl,
      others (Sublist.refl _) fun e member => zero ▸ (content.current e member).1⟩, files⟩
  · have split :=
      filter_append_perm
        (fun e : FileCacheEntry => !(e.identity == ino && e.contentVersion != version)) s.cache
    simp only [Bool.not_not] at split
    have mid : Inv t seen { k with cached := _ ++ k.cached } { s.setInode ino _ with cache := _ } :=
      ⟨refs₁.dropCache split.symm, leaf₁.dropCache filter_sublist, space.congr rfl,
      table.congr rfl rfl,
        others filter_sublist fun e member same => by
          obtain ⟨inside, keeps⟩ := mem_filter.mp member
          have old := (content.current e inside).2
          simp [same, old, new.symm] at keeps⟩
    obtain ⟨last, same⟩ := mid.returnCaches
    exact ⟨last, files.trans ((FileSame.of_shared rfl (fun _ _ => rfl) rfl).trans same)⟩

theorem advanceContentVersion_keeps (s : Sys) (ino : Nat) :
    (advanceContentVersion s ino).shared = s.shared ∧ (advanceContentVersion s ino).pins =
      s.pins ∧
      (advanceContentVersion s ino).mem = s.mem ∧
      ∀ i, ((advanceContentVersion s ino).inodes i).backend = (s.inodes i).backend ∧
        ((advanceContentVersion s ino).inodes i).iSize = (s.inodes i).iSize ∧
        ((advanceContentVersion s ino).inodes i).filesystem = (s.inodes i).filesystem := by
  have same := invalidateVersions_frame (s.setInode ino { s.inodes ino with
    contentVersion := ((s.inodes ino).contentVersion + 1) % 2 ^ 64 }) ino
    (((s.inodes ino).contentVersion + 1) % 2 ^ 64)
  refine ⟨same.shared, same.pins, same.mem, fun i => ?_⟩
  have inodes := same.inodes
  unfold advanceContentVersion
  rw [inodes]
  exact inodes_setVersion s ino _ i

/-! ## New records -/

/-- Where no leaf maps a page, it may get into a table. -/
theorem LeafInv.addFrame (inv : LeafInv t seen s) (unmapped : ∀ l, leafFrame s l ≠ some f)
    (frames : (tableFrames s').Perm (f :: tableFrames s)) (visible : seen p)
    (here : s.pte p a = some e) (writable : e.props.writable = true) : SharedFrame s e.frame ∨
      e.frame ∉ tableFrames s' ∧ ∀ q b, seen q → leafFrame s (q, b) = some e.frame →
      q = p ∧ b = a := by
  refine (inv.exclusive p a e visible here writable).imp_right fun ⟨free, only⟩ =>
    ⟨fun member => ?_, only⟩
  cases mem_cons.mp (frames.mem_iff.mp member) with
  | inl same => exact unmapped (p, a) (same ▸ leafFrame_eq_some here)
  | inr old => exact free old

theorem Inv.insertCache (inv : Inv t seen (k.keep f) s)
    (frame : e.physicalAddress = f) (unmapped : ∀ l, leafFrame s l ≠ some f)
    (outside : f ∉ tableFrames s) (holds : HoldsFile s f e.identity e.fileOffset)
    (current : e.identity ≠ 0 ∧ e.contentVersion = (s.inodes e.identity).contentVersion) :
    Keeps t seen k s { s with cache := insertRecord cacheBucket s.cache e } := by
  have placed := perm_insertRecord cacheBucket s.cache e
  have frames : (tableFrames { s with cache := insertRecord cacheBucket s.cache e }).Perm
      (f :: tableFrames s) := by
    unfold tableFrames
    rw [← frame]
    exact (placed.map (·.physicalAddress)).append_right _
  have split : ∀ e' ∈ insertRecord cacheBucket s.cache e, e' = e ∨ e' ∈ s.cache :=
    fun e' member => mem_cons.mp (placed.mem_iff.mp member)
  refine ⟨⟨inv.refs.retable ((frames.append_right k.cached).trans perm_middle.symm) rfl rfl rfl,
    ⟨inv.leaf.aligned, inv.leaf.homed, inv.leaf.permitted,
      frames.nodup_iff.mpr (nodup_cons.mpr ⟨outside, inv.leaf.tables⟩), inv.leaf.sharedLeaf,
      inv.leaf.sharedArea, fun p a e visible => inv.leaf.addFrame unmapped frames visible⟩,
    inv.space.congr rfl, inv.table.congr rfl rfl, inv.content.clean, inv.content.covered, ?_, ?_⟩,
    .of_shared rfl (fun _ _ => rfl) rfl⟩
  · intro e' member
    rcases split e' member with rfl | old
    · rw [frame]
      exact holds
    · exact inv.content.cached e' old
  · intro e' member
    rcases split e' member with rfl | old
    · exact current
    · exact inv.content.current e' old

theorem Inv.insertShared (inv : Inv t seen (k.keep f) s)
    (pg : SharedFilePage) (frame : pg.physicalAddress = f)
    (unmapped : ∀ l, leafFrame s l ≠ some f) (outside : f ∉ tableFrames s)
    (shape : pg.identity ≠ 0 ∧ Aligned pg.fileOffset) (clean : pg.dirty = false)
    (absent : findSharedPage s pg.identity pg.fileOffset = none)
    (holds : HoldsFile s f pg.identity pg.fileOffset) :
    Keeps t seen k s { s with shared := insertRecord sharedBucket s.shared pg } := by
  have placed := perm_insertRecord sharedBucket s.shared pg
  have frames : (tableFrames { s with shared := insertRecord sharedBucket s.shared pg }).Perm
      (f :: tableFrames s) := by
    unfold tableFrames
    rw [← frame]
    exact ((placed.map (·.physicalAddress)).append_left _).trans perm_middle
  have split : ∀ pg' ∈ insertRecord sharedBucket s.shared pg, pg' = pg ∨ pg' ∈ s.shared :=
    fun pg' member => mem_cons.mp (placed.mem_iff.mp member)
  have stays : ∀ pg' ∈ s.shared, pg' ∈ insertRecord sharedBucket s.shared pg :=
    fun pg' member => placed.mem_iff.mpr (.tail _ member)
  have fresh :
      ∀ pg' ∈ s.shared, ¬ (pg.identity = pg'.identity ∧ pg.fileOffset = pg'.fileOffset) := by
    intro pg' member same
    have found := inv.table.find member
    rw [← same.1, ← same.2, absent] at found
    exact absurd found (by simp)
  have old : ∀ pg' ∈ insertRecord sharedBucket s.shared pg, pg'.dirty = true →
      pg' ∈ s.shared := by
    intro pg' member dirty
    rcases split pg' member with rfl | old
    · exact absurd (clean.symm.trans dirty) (by simp)
    · exact old
  have table : TableInv { s with shared := insertRecord sharedBucket s.shared pg } := by
    refine ⟨?_, ?_, ?_, ?_⟩
    · refine (placed.pairwise_iff ?_).mpr (pairwise_cons.mpr ⟨fresh, inv.table.keys⟩)
      exact fun apart same => apart ⟨same.1.symm, same.2.symm⟩
    · intro pg' member
      rcases split pg' member with rfl | old
      · exact shape
      · exact inv.table.shape pg' old
    · exact fun pg' member dirty => inv.table.pinned pg' (old pg' member dirty) dirty
    · intro p a e here writable pg' member same
      rcases split pg' member with rfl | old
      · exact absurd ((same.symm.trans frame) ▸ leafFrame_eq_some here) (unmapped (p, a))
      · exact inv.table.dirty p a e here writable pg' old same
  refine ⟨⟨inv.refs.retable ((frames.append_right k.cached).trans perm_middle.symm) rfl rfl rfl,
    ⟨inv.leaf.aligned, inv.leaf.homed, inv.leaf.permitted,
      frames.nodup_iff.mpr (nodup_cons.mpr ⟨outside, inv.leaf.tables⟩), ?_, ?_, ?_⟩,
    inv.space.congr rfl, table, ?_,
    fun pg' member dirty => inv.content.covered pg' (old pg' member dirty) dirty,
    inv.content.cached, inv.content.current⟩, .of_pages inv.table table ?_ ?_⟩
  · intro p a e here pg' member same
    rcases split pg' member with rfl | old
    · exact absurd ((same.symm.trans frame) ▸ leafFrame_eq_some here) (unmapped (p, a))
    · exact inv.leaf.sharedLeaf p a e here pg' old same
  · intro p a e here area
    obtain ⟨pg', member, same⟩ := inv.leaf.sharedArea p a e here area
    exact ⟨pg', stays pg' member, same⟩
  · intro p a e visible here writable
    refine (inv.leaf.addFrame unmapped frames visible here writable).imp_left ?_
    exact fun ⟨pg', member, same⟩ => ⟨pg', stays pg' member, same⟩
  · intro pg' member cleanToo
    rcases split pg' member with rfl | old
    · rw [frame]
      exact holds
    · exact inv.content.clean pg' old cleanToo
  · exact fun pg' member => .inl (stays pg' member)
  · intro pg' member
    rcases split pg' member with rfl | old
    · exact .inr (frame ▸ holds)
    · exact .inl old

/-! ## Filling a page -/

/-- Only the read cache, the counts and pages outside the tables changed. -/
structure CacheOnly (s s' : Sys) : Prop where
  procs : s'.procs = s.procs
  shared : s'.shared = s.shared
  inodes : s'.inodes = s.inodes
  pins : s'.pins = s.pins

namespace CacheOnly

theorem refl (s : Sys) : CacheOnly s s := ⟨rfl, rfl, rfl, rfl⟩

theorem trans (first : CacheOnly s mid) (second : CacheOnly mid s') : CacheOnly s s' :=
  ⟨second.procs.trans first.procs, second.shared.trans first.shared,
  second.inodes.trans first.inodes,
    second.pins.trans first.pins⟩

theorem of_refs (same : RefsOnly s s') : CacheOnly s s' :=
  ⟨same.procs, same.shared, same.inodes, same.pins⟩

theorem detachInactiveReadyPages (s : Sys) (limit : Nat) :
    CacheOnly s (detachInactiveReadyPages s limit).2 := by
  obtain ⟨same, -⟩ := detachInactiveReadyPages_frame s limit
  exact ⟨same.procs, same.shared, same.inodes, same.pins⟩

end CacheOnly

/-- Only the table of shared pages, the counts and pages outside the tables changed; a new
page is clean and has no alias. -/
structure SharedOnly (s s' : Sys) : Prop where
  procs : s'.procs = s.procs
  inodes : s'.inodes = s.inodes
  pins : s'.pins = s.pins
  pages : ∀ pg ∈ s'.shared, pg ∈ s.shared ∨ pg.dirty = false ∧ pg.aliases = []

namespace SharedOnly

theorem refl (s : Sys) : SharedOnly s s := ⟨rfl, rfl, rfl, fun _ member => .inl member⟩

theorem trans (first : SharedOnly s mid) (second : SharedOnly mid s') : SharedOnly s s' where
  procs := second.procs.trans first.procs
  inodes := second.inodes.trans first.inodes
  pins := second.pins.trans first.pins
  pages := by
    intro pg member
    rcases second.pages pg member with old | new
    · exact first.pages pg old
    · exact .inr new

theorem of_cacheOnly (same : CacheOnly s s') : SharedOnly s s' :=
  ⟨same.procs, same.inodes, same.pins, fun _ member => .inl (same.shared ▸ member)⟩

theorem detachInactiveSharedPages (s : Sys) (limit : Nat) :
    SharedOnly s (detachInactiveSharedPages s limit).2 := by
  obtain ⟨same, sub⟩ := detachInactiveSharedPages_frame s limit
  exact ⟨same.procs, same.inodes, same.pins, fun pg member => .inl (sub.subset member)⟩

end SharedOnly

/-- A page from the allocator has no leaf and is in no table. -/
theorem Inv.fresh (inv : Inv t seen (k.take f) s) :
    (∀ l, leafFrame s l ≠ some f) ∧ f ∉ tableFrames s := by
  have unmanaged : ¬ (s.managed f).isSome := fun managed => inv.refs.unraw managed (.head _)
  exact ⟨fun l mapped => unmanaged (inv.refs.leafManaged l f mapped),
    fun member => unmanaged (inv.refs.tableManaged f member)⟩

/-- The invariant holds later on, files are as before, and only what `R` allows has changed. -/
abbrev KeepsBy (t : Target) (seen : Nat → Prop) (k : Tokens) (R : Sys → Sys → Prop)
    (s s' : Sys) : Prop :=
  Inv t seen k s' ∧ FileSame s s' ∧ R s s'

/-- A page for a record, zeroed, after unused records made room for it; and the state when it is
given up again. -/
theorem Inv.newPage (inv : Inv t seen k s) (detach : Sys → Nat → Nat × Sys)
    (step : ∀ {s} limit, Inv t seen k s →
      KeepsBy t seen k R s (detach s limit).2)
    (of : ∀ {s s'}, CacheOnly s s' → R s s')
    (trans : ∀ {s mid s'}, R s mid → R mid s' → R s s') (limit : Nat)
    (outcome : FillOutcome) :
    (∃ s', allocateOrReclaim (detach · 1) (detach s limit).2 outcome = (none, s') ∧
      KeepsBy t seen k R s s') ∨
    ∃ f s', allocateOrReclaim (detach · 1) (detach s limit).2 outcome = (some f, s') ∧
      KeepsBy t seen (k.take f) R s (s'.zeroFrame f) ∧
      KeepsBy t seen k R s (deallocatePage (s'.zeroFrame f) f) := by
  obtain ⟨inv₁, files₁, only₁⟩ := step limit inv
  have given : ∀ {f s₂ s'}, KeepsBy t seen k R s s₂ → RefsOnly s₂ s' →
      RefInv (k.take f) s' → KeepsBy t seen (k.take f) R s (s'.zeroFrame f) ∧
        KeepsBy t seen k R s (deallocatePage (s'.zeroFrame f) f) := by
    intro f s₂ s' ⟨inv₂, files₂, only₂⟩ same next
    obtain ⟨inv₃, files₃⟩ := inv₂.refsOnly same next
    obtain ⟨zeroed, files₄⟩ := inv₃.copyToFrame inv₃.fresh.2 0 pageSize fun _ => 0
    obtain ⟨dropped, files₅⟩ :=
      zeroed.refsOnly (RefsOnly.deallocatePage _ f) zeroed.refs.deallocateRaw
    have files := (files₂.trans files₃).trans files₄
    have only : R s (s'.zeroFrame f) :=
      trans only₂ (trans (of (.of_refs same)) (of ⟨rfl, rfl, rfl, rfl⟩))
    exact ⟨⟨zeroed, files, only⟩, dropped, files.trans files₅,
      trans only (of (.of_refs (.deallocatePage _ f)))⟩
  unfold allocateOrReclaim
  rcases inv₁.refs.allocatePage outcome.page with none | ⟨f, s₂, done, same, next⟩
  · rw [none]
    obtain ⟨inv₂, files₂, only₂⟩ := step 1 inv₁
    dsimp only
    generalize detach (detach s limit).2 1 = result at *
    obtain ⟨count, s₂⟩ := result
    have here : KeepsBy t seen k R s s₂ :=
      ⟨inv₂, files₁.trans files₂, trans only₁ only₂⟩
    cases count with
    | zero => exact .inl ⟨s₂, rfl, here⟩
    | succ count =>
      rcases inv₂.refs.allocatePage outcome.retryPage with none | ⟨f, s₃, done, same, next⟩
      · exact .inl ⟨s₂, none, here⟩
      · exact .inr ⟨f, s₃, done, given here same next⟩
  · rw [done]
    exact .inr ⟨f, s₂, rfl, given ⟨inv₁, files₁, only₁⟩ same next⟩

theorem fillPage_holds (s : Sys) (f ino fileOffset length : Nat)
    (enough : min pageSize ((s.inodes ino).iSize - fileOffset) ≤ length) :
    HoldsFile (fillPage s f ino fileOffset length) f ino fileOffset := by
  intro i small below
  have inside : i < length := by
    have : fileOffset + i < (s.inodes ino).iSize := below
    omega
  simp [fillPage, Sys.zeroFrame, Sys.copyToFrame, inside]

/-- A page in hand is filled and published, or given up. -/
theorem Inv.fillPage (inv : Inv t seen (k.take f) s) {ino fileOffset length}
    (enough : min pageSize ((s.inodes ino).iSize - fileOffset) ≤ length) (adopted : Bool) :
    ∃ result s', publishPage t (fillPage s f ino fileOffset length) f adopted = (result, s') ∧
      FileSame s s' ∧ CacheOnly s s' ∧ if result then Inv t seen (k.keep f) s' ∧
      (∀ l, leafFrame s' l ≠ some f) ∧
        f ∉ tableFrames s' ∧ HoldsFile s' f ino fileOffset
      else Inv t seen k s' := by
  obtain ⟨zeroed, files⟩ := inv.copyToFrame inv.fresh.2 0 pageSize fun _ => 0
  obtain ⟨filled, files'⟩ := zeroed.copyToFrame zeroed.fresh.2 0 length
    fun i => (s.inodes ino).backend (fileOffset + i)
  have holds := fillPage_holds s f ino fileOffset length enough
  change Inv t seen _ (Memory.fillPage s f ino fileOffset length) at filled
  change FileSame _ (Memory.fillPage s f ino fileOffset length) at files'
  have only : CacheOnly s (Memory.fillPage s f ino fileOffset length) := ⟨rfl, rfl, rfl, rfl⟩
  generalize Memory.fillPage s f ino fileOffset length = s₁ at *
  obtain ⟨unmapped, outside⟩ := filled.fresh
  rcases filled.refs.publishPage t adopted with ⟨s₂, refused, same, next⟩ |
    ⟨s₂, done, same, next⟩
  · obtain ⟨last, files₂⟩ := filled.refsOnly same next
    exact ⟨false, s₂, refused, (files.trans files').trans files₂, only.trans (.of_refs same),
      last⟩
  · obtain ⟨last, files₂⟩ := filled.refsOnly same next
    refine ⟨true, s₂, done, (files.trans files').trans files₂, only.trans (.of_refs same),
      last, ?_, ?_, ?_⟩
    · unfold leafFrame Sys.pte
      rw [same.procs]
      exact unmapped
    · unfold tableFrames
      rw [same.cache, same.shared]
      exact outside
    · exact holds.congr (by rw [same.mem]) (by rw [same.inodes])

/-- What `GetCachedPage` gives: the page of a record for the key. -/
def CachedResult (s : Sys) (ino fileOffset : Nat) : FileCachePageResult → Prop
  | .ready f => ∃ e ∈ s.cache, e.physicalAddress = f ∧ e.identity = ino ∧
    e.fileOffset = fileOffset
  | _ => True

theorem Inv.getCachedPage (inv : Inv t seen k s) (ino fileOffset : Nat)
    (outcome : FillOutcome) :
    ∃ result s', getCachedPage t s ino fileOffset outcome = (result, s') ∧
      Inv t seen k s' ∧ FileSame s s' ∧ CacheOnly s s' ∧
      CachedResult s' ino fileOffset result := by
  unfold Memory.getCachedPage
  dsimp only
  split
  · exact ⟨_, s, rfl, inv, .refl s, .refl s, trivial⟩
  rename_i key
  simp only [not_or, not_not] at key
  split
  · rename_i e found
    have match' := find?_some found
    simp only [Bool.and_eq_true, beq_iff_eq] at match'
    exact ⟨_, s, rfl, inv, .refl s, .refl s, e, mem_of_find?_eq_some found, rfl, match'.1.1,
      match'.2⟩
  split
  · exact ⟨_, s, rfl, inv, .refl s, .refl s, trivial⟩
  rcases inv.newPage Memory.detachInactiveReadyPages (R := CacheOnly)
    (fun limit inv =>
    ⟨(inv.detachInactiveReadyPages limit).1, (inv.detachInactiveReadyPages limit).2,
      .detachInactiveReadyPages _ limit⟩) id .trans (s.cache.length +
      1 - retainedPageLimit) outcome with
    ⟨s₂, none, inv₂, files₂, only₂⟩ | ⟨f, s₂, done, ⟨inv₃, files, only⟩,
    dropped⟩
  · rw [none]
    exact ⟨_, s₂, rfl, inv₂, files₂, only₂, trivial⟩
  rw [done]
  dsimp only
  generalize s₂.zeroFrame f = s₃ at *
  obtain ⟨inv', files', only'⟩ := dropped
  split
  · exact ⟨_, _, rfl, inv', files', only', trivial⟩
  split
  · exact ⟨_, _, rfl, inv', files', only', trivial⟩
  obtain ⟨published, s₅, done, files₅, only₅, next⟩ :=
    inv₃.fillPage (le_refl _) outcome.adopted
  rw [done]
  cases published with
  | false => exact ⟨_, s₅, rfl, next, files.trans files₅, only.trans only₅, trivial⟩
  | true =>
    obtain ⟨inv₅, unmapped, outside, holds⟩ := next
    dsimp only
    obtain ⟨inv₆, files₆⟩ :=
      inv₅.detachInactiveReadyPages (s₅.cache.length + 1 - retainedPageLimit)
    obtain ⟨same₆, sub₆⟩ :=
      detachInactiveReadyPages_frame s₅ (s₅.cache.length + 1 - retainedPageLimit)
    generalize (Memory.detachInactiveReadyPages s₅
      (s₅.cache.length + 1 - retainedPageLimit)).2 = s₆ at *
    have only₆ : CacheOnly s₅ s₆ :=
      ⟨same₆.procs, same₆.shared, same₆.inodes, same₆.pins⟩
    have all := (only.trans only₅).trans only₆
    have fewer : (tableFrames s₆).Sublist (tableFrames s₅) := by
      unfold tableFrames
      rw [same₆.shared]
      exact (sub₆.map _).append (Sublist.refl _)
    have leaves : leafFrame s₆ = leafFrame s₅ := by
      unfold leafFrame Sys.pte
      rw [same₆.procs]
    obtain ⟨last, files₇⟩ := inv₆.insertCache
      (e := ⟨ino, (s.inodes ino).contentVersion, fileOffset, f⟩) rfl
      (by rw [leaves]; exact unmapped)
      (fun member => outside (fewer.subset member))
      (holds.congr (by rw [same₆.mem]) (by rw [same₆.inodes]))
      ⟨key.1, by rw [all.inodes]⟩
    refine ⟨_, _, rfl, last, ((files.trans files₅).trans files₆).trans files₇,
      all.trans ⟨rfl, rfl, rfl, rfl⟩, ?_⟩
    exact ⟨_, (perm_insertRecord _ _ _).mem_iff.mpr (.head _), rfl, rfl, rfl⟩

/-- What `GetSharedFilePage` gives: the page of a record for the key. -/
def SharedResult (s : Sys) (ino fileOffset : Nat) : Option Nat → Prop
  | some f => ∃ pg ∈ s.shared, pg.physicalAddress = f ∧ pg.identity = ino ∧
    pg.fileOffset = fileOffset
  | none => True

theorem Inv.getSharedFilePage (inv : Inv t seen k s) (ino fileOffset : Nat)
    (outcome : FillOutcome) :
    ∃ result s', getSharedFilePage t s ino fileOffset outcome = (result, s') ∧
      Inv t seen k s' ∧ FileSame s s' ∧ SharedOnly s s' ∧
      SharedResult s' ino fileOffset result := by
  unfold Memory.getSharedFilePage
  split
  · exact ⟨_, s, rfl, inv, .refl s, .refl s, trivial⟩
  rename_i key
  simp only [not_or, not_not] at key
  cases found : findSharedPage s ino fileOffset with
  | some pg =>
    obtain ⟨member, identity, offset, -, -⟩ := findSharedPage_some found
    exact ⟨_, s, rfl, inv, .refl s, .refl s, pg, member, rfl, identity, offset⟩
  | none =>
    dsimp only
    split
    · exact ⟨_, s, rfl, inv, .refl s, .refl s, trivial⟩
    have absent : ∀ {s'}, (∀ pg ∈ s'.shared, pg ∈ s.shared) →
        findSharedPage s' ino fileOffset = none := by
      intro s' sub
      cases late : findSharedPage s' ino fileOffset with
      | none => rfl
      | some pg =>
        obtain ⟨member, identity, offset, -, -⟩ := findSharedPage_some late
        have old := inv.table.find (sub pg member)
        rw [identity, offset, found] at old
        exact absurd old (by simp)
    rcases inv.newPage Memory.detachInactiveSharedPages
      (R := fun s s' => SharedOnly s s' ∧ ∀ pg ∈ s'.shared, pg ∈ s.shared)
      (fun limit inv =>
      ⟨(inv.detachInactiveSharedPages limit).1, (inv.detachInactiveSharedPages limit).2,
        .detachInactiveSharedPages _ limit, fun pg member =>
        (detachInactiveSharedPages_frame _ limit).2.subset member⟩)
      (fun same => ⟨.of_cacheOnly same, fun pg member => same.shared ▸ member⟩)
      (fun one two => ⟨one.1.trans two.1, fun pg member => one.2 pg (two.2 pg member)⟩)
      (s.shared.length + 1 - retainedPageLimit) outcome with
      ⟨s₂, none, inv₂, files₂, only₂, -⟩ |
      ⟨f, s₂, done, ⟨inv₃, files, only, sub₃⟩, dropped⟩
    · rw [none]
      exact ⟨_, s₂, rfl, inv₂, files₂, only₂, trivial⟩
    rw [done]
    dsimp only
    generalize s₂.zeroFrame f = s₃ at *
    generalize size : (if fileOffset < (s₃.inodes ino).iSize then
      min pageSize ((s₃.inodes ino).iSize - fileOffset) else 0) = length
    have enough : min pageSize ((s₃.inodes ino).iSize - fileOffset) ≤ length := by
      rw [← size]
      split <;> omega
    split
    · obtain ⟨inv', files', only', -⟩ := dropped
      exact ⟨_, _, rfl, inv', files', only', trivial⟩
    obtain ⟨published, s₅, done, files₅, same, next⟩ :=
      inv₃.fillPage enough outcome.adopted
    have only₅ := SharedOnly.of_cacheOnly same
    rw [done]
    cases published with
    | false => exact ⟨_, s₅, rfl, next, files.trans files₅, only.trans only₅, trivial⟩
    | true =>
      obtain ⟨inv₅, unmapped, outside, holds⟩ := next
      obtain ⟨last, files₆⟩ :=
        inv₅.insertShared { identity := ino, fileOffset, physicalAddress := f }
        rfl unmapped outside key rfl (absent fun pg member => sub₃ pg (same.shared ▸ member))
          holds
      refine ⟨_, _, rfl, last, (files.trans files₅).trans files₆,
        (only.trans only₅).trans ⟨rfl, rfl, rfl, ?_⟩, ?_⟩
      · intro pg member
        cases mem_cons.mp ((perm_insertRecord _ _ _).mem_iff.mp member) with
        | inl new => exact .inr (by rw [new]; exact ⟨rfl, rfl⟩)
        | inr old => exact .inl old
      · exact ⟨_, (perm_insertRecord _ _ _).mem_iff.mpr (.head _), rfl, rfl, rfl⟩

end Tables

end Mecocoa.Memory
