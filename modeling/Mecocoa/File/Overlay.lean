import Mecocoa.File.Aliases
import Mecocoa.File.Io

/-! # Changes of a file

A write or a truncation changes a file in three places: in the backend, in the
shared pages of the file and in its size.  `Overlay` says that the places agree
on what changed, which is enough for the invariant and for what readers see.
-/

namespace Mecocoa.Memory

open List Sys

open Function (update update_self update_of_ne)

/-- The file has a new size and new bytes where `changed` says so, in the backend and in its
shared pages alike; a shared page beyond the new size may have become clean. -/
structure Overlay (ino size : Nat) (changed : Nat → Option UInt8) (s s' : Sys) : Prop where
  procs : s'.procs = s.procs
  managed : s'.managed = s.managed
  pool : s'.pool = s.pool
  cache : s'.cache = s.cache
  pages : ∃ g : SharedFilePage → SharedFilePage, s'.shared = s.shared.map g ∧
    ∀ pg, g pg = pg ∨ g pg = { pg with dirty := false, dirtyInode := none } ∧
    pg.identity = ino ∧
      size < (s.inodes ino).iSize ∧ size ≤ pg.fileOffset
  inodes : ∀ i, i ≠ ino → s'.inodes i = s.inodes i
  version : (s'.inodes ino).contentVersion = (s.inodes ino).contentVersion
  size' : (s'.inodes ino).iSize = size
  backend : ∀ n < size, (s'.inodes ino).backend n = (changed n).getD ((s.inodes ino).backend n)
  page : ∀ pg ∈ s.shared, pg.identity = ino → ∀ i < pageSize, pg.fileOffset + i < size →
    s'.mem pg.physicalAddress i = (changed (pg.fileOffset + i)).getD (s.mem pg.physicalAddress i)
  rest : ∀ f, (∀ pg ∈ s.shared, pg.identity = ino → pg.physicalAddress ≠ f) →
    s'.mem f = s.mem f
  below : ∀ n < size, changed n = none → n < (s.inodes ino).iSize
  cut : ∀ pg ∈ s'.shared, pg.identity = ino → pg.dirty = true →
    pg.fileOffset < (s.inodes ino).iSize → pg.fileOffset < size

section Io

variable {s s' : Sys}

theorem pageFloor_add_mod (n : Nat) : pageFloor n + n % pageSize = n := by
  unfold pageFloor pageSize
  omega

/-- No leaf lets a store through to the page. -/
def Locked (s : Sys) (f : Nat) : Prop :=
  ∀ p a e, s.pte p a = some e → e.frame = f → e.props.writable = false

namespace Overlay

theorem keepsKey
    (each : ∀ pg, g pg = pg ∨ g pg = { pg with dirty := false, dirtyInode := none } ∧
      pg.identity = ino ∧ size < (s.inodes ino).iSize ∧ size ≤ pg.fileOffset) :
    KeepsKey g := by
  intro pg
  rcases each pg with same | ⟨clean, -⟩
  · rw [same]
    exact ⟨rfl, rfl, rfl⟩
  · rw [clean]
    exact ⟨rfl, rfl, rfl⟩

variable (laid : Overlay ino size changed s s')

include laid

theorem sharedFrame (i offset : Nat) : sharedFrame s' i offset = sharedFrame s i offset := by
  obtain ⟨g, pages, each⟩ := laid.pages
  have key := keepsKey each
  have found := findSharedPage_mapShared key s i offset
  unfold Memory.sharedFrame
  have same :
      findSharedPage s' i offset = findSharedPage { s with shared := s.shared.map g } i offset := by
    unfold findSharedPage
    rw [pages]
  rw [same, found, Option.map_map]
  congr 1
  funext pg
  exact (key pg).2.2

theorem fileByte (table : TableInv s) (small : n < size) :
    fileByte s' ino n = (changed n).getD (fileByte s ino n) := by
  unfold Memory.fileByte
  rw [laid.sharedFrame]
  cases frame : Memory.sharedFrame s ino (pageFloor n) with
  | none => exact laid.backend n small
  | some f =>
    obtain ⟨pg, member, identity, offset, rfl⟩ := table.sharedFrame_iff.mp frame
    have position : pg.fileOffset + n % pageSize = n := offset ▸ pageFloor_add_mod n
    have here := laid.page pg member identity (n % pageSize) (Nat.mod_lt _ (by decide))
      (position.symm ▸ small)
    rw [position] at here
    exact here

theorem others (leaf : LeafInv t seen s) (table : TableInv s)
    (other : i ≠ ino) : (s'.inodes i).iSize = (s.inodes i).iSize ∧
      ∀ n, Memory.fileByte s' i n = Memory.fileByte s i n := by
  refine ⟨by rw [laid.inodes i other], fun n => ?_⟩
  unfold Memory.fileByte
  rw [laid.sharedFrame, laid.inodes i other]
  cases frame : Memory.sharedFrame s i (pageFloor n) with
  | none => rfl
  | some f =>
    obtain ⟨pg, member, identity, -, rfl⟩ := table.sharedFrame_iff.mp frame
    dsimp only
    rw [laid.rest pg.physicalAddress fun pg' there identity' same => ?_]
    rw [leaf.page_unique there member same, identity] at identity'
    exact other identity'

omit laid

end Overlay

theorem HoldsFile.overlay (laid : Overlay ino size changed s s')
    (here : pg ∈ s.shared) (identity : pg.identity = ino)
    (held : HoldsFile s pg.physicalAddress pg.identity pg.fileOffset) :
    HoldsFile s' pg.physicalAddress pg.identity pg.fileOffset := by
  subst identity
  intro i inside small
  rw [laid.size'] at small
  rw [laid.page pg here rfl i inside small, laid.backend _ small]
  cases new : changed (pg.fileOffset + i) with
  | some b => rfl
  | none => exact held i inside (laid.below _ small new)

theorem Overlay.stale (laid : Overlay ino size changed s s') (inv : Inv t seen k s) :
    StaleInv ino s' := by
  obtain ⟨g, pages, each⟩ := laid.pages
  have key := Overlay.keepsKey each
  refine ⟨?_, ?_, ?_, ?_⟩
  · intro pg' member clean
    rw [pages] at member
    obtain ⟨pg, here, rfl⟩ := mem_map.mp member
    obtain ⟨identity, offset, frame⟩ := key pg
    rw [identity, offset, frame]
    rcases each pg with same | ⟨-, same, -, beyond⟩
    · have held := inv.content.clean pg here (same ▸ clean)
      by_cases own : pg.identity = ino
      · exact held.overlay laid here own
      · refine held.congr ?_ (laid.inodes _ own)
        exact laid.rest _ fun other there identity' frame' =>
          own ((inv.leaf.page_unique here there frame'.symm) ▸ identity')
    · intro i _ small
      rw [same, laid.size'] at small
      omega
  · intro pg' member dirty
    have inTable := member
    rw [pages] at inTable
    obtain ⟨pg, here, rfl⟩ := mem_map.mp inTable
    rcases each pg with same | ⟨cleaned, -⟩
    · rw [same] at member dirty ⊢
      have old := inv.content.covered pg here dirty
      by_cases own : pg.identity = ino
      · rw [own] at old ⊢
        rw [laid.size']
        exact laid.cut pg member own dirty old
      · rw [laid.inodes _ own]
        exact old
    · rw [cleaned] at dirty
      exact absurd dirty (by simp)
  · intro e member other
    rw [laid.cache] at member
    refine (inv.content.cached e member).congr ?_ (laid.inodes _ other)
    exact laid.rest _ fun pg there _ => inv.leaf.cache_apart member there
  · intro e member
    rw [laid.cache] at member
    obtain ⟨named, current⟩ := inv.content.current e member
    refine ⟨named, ?_⟩
    by_cases same : e.identity = ino
    · rw [current, same, laid.version]
    · rw [current, laid.inodes _ same]

/-- The new content is in place and a new version starts.  A file gets shorter only when
its pages beyond the new end are protected. -/
theorem Inv.overlay (inv : Inv t seen k s) (laid : Overlay ino size changed s s')
    (locked : size < (s.inodes ino).iSize → ∀ pg ∈ s.shared, pg.identity = ino →
      size ≤ pg.fileOffset →
      Locked s pg.physicalAddress) : Inv t seen k (advanceContentVersion s' ino) ∧
      FileSame s' (advanceContentVersion s' ino) := by
  obtain ⟨g, pages, each⟩ := laid.pages
  have key := Overlay.keepsKey each
  have procs := laid.procs
  have frames : leafFrame s' = leafFrame s := by
    funext l
    unfold leafFrame pte
    rw [procs]
  have tables : tableFrames s' = tableFrames s := by
    rw [← tableFrames_mapShared key s]
    unfold tableFrames
    rw [pages, laid.cache]
  refine Inv.advance ino (inv.refs.congr frames (tables ▸ Perm.refl _)
      laid.managed laid.pool)
    ((inv.leaf.mapShared key).congr procs laid.cache pages) (inv.space.congr procs)
    ((inv.table.mapShared key ?_ ?_).congr procs pages) (laid.stale inv)
  · intro pg here dirty
    rcases each pg with same | ⟨clean, -⟩
    · rw [same] at dirty ⊢
      exact inv.table.pinned pg here dirty
    · rw [clean] at dirty
      exact absurd dirty (by simp)
  · intro p a e mapped writable pg here frame
    rcases each pg with same | ⟨-, identity, shorter, beyond⟩
    · rw [same]
      exact inv.table.dirty p a e mapped writable pg here frame
    · have closed := locked shorter pg here identity beyond p a e mapped frame.symm
      exact absurd (closed.symm.trans writable) (by simp)

theorem Overlay.aliases (laid : Overlay ino size changed s s') (inv : AliasInv [] s) :
    AliasInv [] s' := by
  obtain ⟨g, pages, each⟩ := laid.pages
  refine inv.of_pages (fun _ _ leaf => leaf.of_procs laid.procs) fun pg' member => ?_
  rw [pages] at member
  obtain ⟨pg, here, rfl⟩ := mem_map.mp member
  refine .inr ⟨pg, here, ?_⟩
  rcases each pg with same | ⟨clean, -⟩
  · rw [same]
    exact ⟨rfl, rfl⟩
  · rw [clean]
    exact ⟨rfl, rfl⟩

/-! ## A new size -/

theorem truncatedBytes_iff (oldSize newSize offset : Nat) (inside : i < pageSize) :
    ((truncatedBytes oldSize newSize offset).1 ≤ i ∧
        i < (truncatedBytes oldSize newSize offset).1 +
        (truncatedBytes oldSize newSize offset).2) ↔
      newSize < oldSize ∧ newSize ≤ offset + i ∨ oldSize < newSize ∧
      oldSize ≤ offset + i ∧ offset + i < newSize := by
  unfold truncatedBytes
  split
  · dsimp only
    omega
  split
  · dsimp only
    omega
  split
  · dsimp only
    omega
  · dsimp only
    omega

theorem Sys.mem_copyToFrame (s : Sys) (f first length : Nat) (bytes : Nat → UInt8) (f' i : Nat) :
    (s.copyToFrame f first length bytes).mem f' i =
      if f' = f ∧ first ≤ i ∧ i < first + length then bytes (i - first) else s.mem f' i := by
  unfold copyToFrame
  by_cases same : f' = f
  · subst same
    simp
  · simp [same]

/-- Only bytes of pages changed. -/
structure MemOnly (s s' : Sys) : Prop where
  eq : s' = { s with mem := s'.mem }

theorem MemOnly.trans (first : MemOnly s mid) (second : MemOnly mid s') : MemOnly s s' := by
  constructor
  rw [second.eq, first.eq]

theorem MemOnly.copyToFrame (s : Sys) (f first length : Nat) (bytes : Nat → UInt8) :
    MemOnly s (s.copyToFrame f first length bytes) := ⟨rfl⟩

theorem clearPages_only (ino oldSize newSize : Nat) (pages : List SharedFilePage) :
    ∀ s, MemOnly s (clearPages ino oldSize newSize s pages) ∧
      ∀ f, (∀ pg ∈ pages, pg.identity = ino → pg.physicalAddress ≠ f) →
        (clearPages ino oldSize newSize s pages).mem f = s.mem f := by
  induction pages with
  | nil => exact fun s => ⟨⟨rfl⟩, fun _ _ => rfl⟩
  | cons pg pages ih =>
    intro s
    unfold clearPages
    dsimp only
    split
    · rename_i same
      refine ⟨(MemOnly.copyToFrame ..).trans (ih _).1, fun f other => ?_⟩
      rw [(ih _).2 f fun pg' member => other pg' (.tail _ member)]
      funext i
      rw [mem_copyToFrame, if_neg fun hit => other pg (.head _) same hit.1.symm]
    · exact ⟨(ih s).1, fun f other => (ih s).2 f fun pg' member => other pg' (.tail _ member)⟩

theorem clearPages_page (ino oldSize newSize : Nat)
    (distinct : (pages.map (·.physicalAddress)).Nodup) (member : pg ∈ pages)
    (identity : pg.identity = ino) (inside : i < pageSize) :
    ∀ s, (clearPages ino oldSize newSize s pages).mem pg.physicalAddress i =
      if newSize < oldSize ∧ newSize ≤ pg.fileOffset + i ∨
        oldSize < newSize ∧ oldSize ≤ pg.fileOffset + i ∧ pg.fileOffset + i < newSize then 0
      else s.mem pg.physicalAddress i := by
  induction pages with
  | nil => exact absurd member not_mem_nil
  | cons head pages ih =>
    intro s
    rw [map_cons, nodup_cons] at distinct
    unfold clearPages
    cases mem_cons.mp member with
    | inl same =>
      subst same
      rw [(clearPages_only ino oldSize newSize pages _).2 _ fun pg' there _ hit =>
        distinct.1 (mem_map.mpr ⟨pg', there, hit⟩), if_pos identity, mem_copyToFrame]
      simp only [true_and, truncatedBytes_iff oldSize newSize pg.fileOffset inside]
    | inr later =>
      have apart : pg.physicalAddress ≠ head.physicalAddress :=
        fun hit => distinct.1 (mem_map.mpr ⟨pg, later, hit⟩)
      rw [ih distinct.2 later]
      congr 1
      split
      · rw [mem_copyToFrame, if_neg fun hit => apart hit.1]
      · rfl

theorem completeTruncate_eq (s : Sys) (ino oldSize newSize : Nat) :
    completeTruncate s ino oldSize newSize = { s with
        mem := (clearPages ino oldSize newSize s s.shared).mem
        shared := s.shared.map fun pg =>
          if pg.identity = ino ∧ newSize < oldSize ∧ newSize ≤ pg.fileOffset then
            { pg with dirty := false, dirtyInode := none }
          else pg } := by
  unfold completeTruncate
  rw [(clearPages_only ino oldSize newSize s.shared s).1.eq]

theorem LeafInv.shared_nodup (inv : LeafInv t seen s) : (s.shared.map (·.physicalAddress)).Nodup :=
  (nodup_append.mp inv.tables).2.1

/-- The backend already has the new size; what entered the file is zero. -/
theorem Overlay.resizeInode (leaf : LeafInv t seen s) (ino newSize : Nat) (inode : Inode)
    (size : inode.iSize = (s.inodes ino).iSize)
    (version : inode.contentVersion = (s.inodes ino).contentVersion)
    (backend : ∀ n < newSize, inode.backend n = if n <
      (s.inodes ino).iSize then (s.inodes ino).backend n else 0) :
    Overlay ino newSize (fun n => if n < (s.inodes ino).iSize then none else some 0) s
      (resizeInode (s.setInode ino inode) ino newSize) := by
  have self : (s.setInode ino inode).inodes ino = inode := update_self ..
  unfold Memory.resizeInode
  rw [self, size, completeTruncate_eq]
  refine ⟨rfl, rfl, rfl, rfl, ⟨_, rfl, fun pg => ?_⟩, fun i other => ?_, ?_, ?_,
    fun n small => ?_,
    fun pg here identity i inside small => ?_, fun f other => ?_, fun n _ unchanged => ?_,
    fun pg here identity dirty old => ?_⟩
  · split
    · rename_i beyond
      exact .inr ⟨rfl, beyond.1, beyond.2⟩
    · exact .inl rfl
  · simp [setInode, other]
  · simp [setInode, version]
  · simp [setInode]
  · simp only [setInode, update_self]
    rw [backend n small]
    split <;> rfl
  · refine (clearPages_page ino (s.inodes ino).iSize newSize leaf.shared_nodup here identity inside
      (s.setInode ino inode)).trans ?_
    by_cases old : pg.fileOffset + i < (s.inodes ino).iSize
    · rw [if_pos old, if_neg (by omega)]
      rfl
    · rw [if_neg old, if_pos (by omega)]
      rfl
  · exact (clearPages_only ino (s.inodes ino).iSize newSize s.shared (s.setInode ino inode)).2 f
      other
  · by_contra beyond
    rw [if_neg beyond] at unchanged
    exact absurd unchanged (by simp)
  · obtain ⟨page, -, rfl⟩ := mem_map.mp here
    split at identity <;> rename_i beyond
    · rw [if_pos beyond] at dirty
      exact absurd dirty (by simp)
    · rw [if_neg beyond] at old ⊢
      simp only [identity, true_and, not_and, not_le] at beyond
      omega

/-! ## New data -/

theorem updateSharedPageBytes_only (s : Sys) (ino position : Nat) (data : List UInt8)
    (chunk : Nat) :
    MemOnly s (updateSharedPageBytes s ino position data chunk) ∧
      ∀ f, (∀ pg ∈ s.shared, pg.identity = ino → pg.physicalAddress ≠ f) →
        (updateSharedPageBytes s ino position data chunk).mem f = s.mem f := by
  unfold updateSharedPageBytes
  cases found : findSharedPage s ino (pageFloor position) with
  | none => exact ⟨⟨rfl⟩, fun _ _ => rfl⟩
  | some pg =>
    obtain ⟨member, identity, -⟩ := findSharedPage_some found
    refine ⟨.copyToFrame .., fun f other => funext fun i => ?_⟩
    rw [mem_copyToFrame, if_neg fun hit => other pg member identity hit.1.symm]

/-- One round, seen from one shared page of the file. -/
theorem updateSharedPageBytes_page (leaf : LeafInv t seen s) (table : TableInv s)
    (here : pg ∈ s.shared) (identity : pg.identity = ino) (inside : i < pageSize)
    (data : List UInt8) (within : chunk ≤ pageSize - (position - pageFloor position)) :
    (updateSharedPageBytes s ino position data chunk).mem pg.physicalAddress i =
      if position ≤ pg.fileOffset + i ∧ pg.fileOffset + i < position + chunk then
        data.getD (pg.fileOffset + i - position) 0 else s.mem pg.physicalAddress i := by
  have aligned := (table.shape pg here).2
  have split := pageFloor_add_mod position
  unfold updateSharedPageBytes
  cases found : findSharedPage s ino (pageFloor position) with
  | none =>
    have apart : pg.fileOffset ≠ pageFloor position := by
      intro same
      rw [← identity, ← same, table.find here] at found
      exact absurd found (by simp)
    rw [if_neg]
    unfold Aligned pageSize at *
    omega
  | some pg' =>
    obtain ⟨member, identity', offset, -⟩ := findSharedPage_some found
    rw [mem_copyToFrame]
    by_cases same : pg.fileOffset = pageFloor position
    · obtain rfl :=
        table.unique member here (identity'.trans identity.symm) (offset.trans same.symm)
      have range :
        (position - pageFloor position ≤ i ∧ i < position - pageFloor position + chunk) ↔
          (position ≤ pg'.fileOffset + i ∧ pg'.fileOffset + i < position + chunk) := by
        omega
      simp only [true_and, range]
      congr 2
      omega
    · have apart : pg.physicalAddress ≠ pg'.physicalAddress := by
        intro frame
        rw [leaf.page_unique here member frame] at same
        exact same offset
      rw [if_neg fun hit => apart hit.1, if_neg]
      unfold Aligned pageSize at *
      omega

theorem updateSharedFilePages_only (ino rounds : Nat) :
    ∀ (s : Sys) (position : Nat) (data : List UInt8),
    MemOnly s (updateSharedFilePages ino rounds s position data) ∧
      ∀ f, (∀ pg ∈ s.shared, pg.identity = ino → pg.physicalAddress ≠ f) →
        (updateSharedFilePages ino rounds s position data).mem f = s.mem f := by
  induction rounds with
  | zero => exact fun s _ _ => ⟨⟨rfl⟩, fun _ _ => rfl⟩
  | succ rounds ih =>
    intro s position data
    cases data with
    | nil => exact ⟨⟨rfl⟩, fun _ _ => rfl⟩
    | cons b data =>
      obtain ⟨first, rest⟩ := updateSharedPageBytes_only s ino position (b :: data) _
      refine ⟨first.trans (ih ..).1, fun f other => ((ih ..).2 f ?_).trans (rest f other)⟩
      rw [first.eq]
      exact other

theorem updateSharedFilePages_page (identity : pg.identity = ino)
    (inside : i < pageSize) (rounds : Nat) : ∀ {s : Sys} (position : Nat) {data : List UInt8},
      LeafInv t seen s → TableInv s → pg ∈ s.shared → data.length ≤ rounds →
      (updateSharedFilePages ino rounds s position data).mem pg.physicalAddress i =
        if position ≤ pg.fileOffset + i ∧ pg.fileOffset + i < position + data.length then
          data.getD (pg.fileOffset + i - position) 0 else s.mem pg.physicalAddress i := by
  induction rounds with
  | zero =>
    intro s position data _ _ _ enough
    rw [if_neg (by omega)]
    rfl
  | succ rounds ih =>
    intro s position data leaf table here enough
    cases data with
    | nil =>
      rw [if_neg (by simp only [length_nil]; omega)]
      rfl
    | cons b data =>
      have small : position % pageSize < pageSize := Nat.mod_lt _ (by decide)
      have split := pageFloor_add_mod position
      unfold updateSharedFilePages
      dsimp only
      have within :=
        Nat.min_le_right (b :: data).length (pageSize - (position - pageFloor position))
      have some : 0 < min (b :: data).length (pageSize - (position - pageFloor position)) := by
        simp only [length_cons]
        omega
      have few := Nat.min_le_left (b :: data).length (pageSize - (position - pageFloor position))
      generalize min (b :: data).length (pageSize - (position - pageFloor position)) = chunk at *
      have round := updateSharedPageBytes_page leaf table here identity inside (b :: data) within
      have only := (updateSharedPageBytes_only s ino position (b :: data) chunk).1
      generalize updateSharedPageBytes s ino position (b :: data) chunk = s₁ at *
      have procs : s₁.procs = s.procs := by rw [only.eq]
      have cache : s₁.cache = s.cache := by rw [only.eq]
      have shared : s₁.shared = s.shared := by rw [only.eq]
      rw [ih (position + chunk) (leaf.congr procs cache shared) (table.congr procs shared)
        (shared ▸ here) (by rw [length_drop]; omega), round, length_drop, getD_eq_getElem?_getD,
        getElem?_drop, ← getD_eq_getElem?_getD]
      generalize b :: data = all at *
      by_cases low : position ≤ pg.fileOffset + i ∧ pg.fileOffset + i < position + chunk
      · rw [if_neg (by omega), if_pos low, if_pos (by omega)]
      · rw [if_neg low]
        by_cases high : position + chunk ≤ pg.fileOffset + i ∧
            pg.fileOffset + i < position + chunk + (all.length - chunk)
        · rw [if_pos high, if_pos (by omega)]
          congr 1
          omega
        · rw [if_neg high, if_neg (by omega)]

/-- A file that does not get shorter keeps the dirty state of its pages. -/
theorem completeTruncate_grow (grows : oldSize ≤ newSize) (s : Sys) (ino : Nat) :
    completeTruncate s ino oldSize newSize =
      { s with mem := (clearPages ino oldSize newSize s s.shared).mem } := by
  rw [completeTruncate_eq]
  congr 1
  exact (map_congr_left fun pg _ => if_neg (by omega)).trans (map_id _)

/-- The state that `Filesys::Write` leaves behind the transfer, before a new version starts. -/
def writtenState (s : Sys) (ino position : Nat) (data : List UInt8) (bytes : Nat) : Sys :=
  let s := s.setInode ino ((s.inodes ino).write position bytes fun i => data.getD i 0)
  let s := if bytes ≠ 0 ∧ (s.inodes ino).iSize < position + bytes then
    completeTruncate s ino (s.inodes ino).iSize (position + bytes) else s
  let s := updateSharedFilePages ino bytes s position (data.take bytes)
  s.setInode ino { s.inodes ino with iSize := max (s.inodes ino).iSize (position + bytes) }

theorem writeData_eq (s : Sys) (ino position : Nat) (data : List UInt8) (fillsGap : Bool)
    (written : Nat) :
    writeData s ino position data fillsGap written = (some (min written data.length),
        if min written data.length ≠ 0 ∨ fillsGap then
          advanceContentVersion (writtenState s ino position data (min written data.length)) ino
        else writtenState s ino position data (min written data.length)) := rfl

/-- The bytes that a write puts at an offset. -/
def writtenBytes (position : Nat) (data : List UInt8) (bytes n : Nat) : Option UInt8 :=
  if position ≤ n ∧ n < position + bytes then some (data.getD (n - position) 0) else none

/-- Room for the data is made first; a page then has the data or what it had. -/
theorem growPages (leaf : LeafInv t seen s) (position bytes : Nat)
    (reached : position ≤ (s.inodes ino).iSize) (inode : Inode)
    (size : inode.iSize = (s.inodes ino).iSize) :
    ∃ mem, (if bytes ≠ 0 ∧ ((s.setInode ino inode).inodes ino).iSize < position + bytes then
        completeTruncate (s.setInode ino inode) ino ((s.setInode ino inode).inodes ino).iSize
          (position + bytes)
      else s.setInode ino inode) = { s.setInode ino inode with mem } ∧
      (∀ pg ∈ s.shared, pg.identity = ino → ∀ i < pageSize,
        ¬ (position ≤ pg.fileOffset + i ∧ pg.fileOffset + i < position + bytes) →
        mem pg.physicalAddress i = s.mem pg.physicalAddress i) ∧
      ∀ f, (∀ pg ∈ s.shared, pg.identity = ino → pg.physicalAddress ≠ f) →
      mem f = s.mem f := by
  have self : (s.setInode ino inode).inodes ino = inode := update_self ..
  rw [self, size]
  split
  · rename_i grows
    refine ⟨_, completeTruncate_grow (Nat.le_of_lt grows.2) _ ino, ?_, ?_⟩
    · intro pg here identity i inside outside
      refine (clearPages_page ino _ _ leaf.shared_nodup here identity inside
        (s.setInode ino inode)).trans ?_
      rw [if_neg (by omega)]
      rfl
    · exact (clearPages_only ino _ _ s.shared (s.setInode ino inode)).2
  · exact ⟨s.mem, rfl, fun _ _ _ _ _ _ => rfl, fun _ _ => rfl⟩

theorem Overlay.written (leaf : LeafInv t seen s) (table : TableInv s)
    (reached : position ≤ (s.inodes ino).iSize) (few : bytes ≤ data.length) :
    Overlay ino (max (s.inodes ino).iSize (position + bytes)) (writtenBytes position data bytes) s
      (writtenState s ino position data bytes) := by
  obtain ⟨mem, grown, kept, other⟩ := growPages leaf position bytes reached
    ((s.inodes ino).write position bytes fun i => data.getD i 0) rfl
  unfold writtenState
  dsimp only
  rw [grown]
  generalize before :
      ({ s.setInode ino ((s.inodes ino).write position bytes fun i => data.getD i 0) with
    mem } : Sys) = s₁
  have procs : s₁.procs = s.procs := by rw [← before]; rfl
  have cache : s₁.cache = s.cache := by rw [← before]; rfl
  have shared : s₁.shared = s.shared := by rw [← before]; rfl
  have inodes : s₁.inodes = update s.inodes ino
      ((s.inodes ino).write position bytes fun i => data.getD i 0) := by rw [← before]; rfl
  have bytes₁ : s₁.mem = mem := by rw [← before]
  have pages : ∀ pg ∈ s.shared, pg.identity = ino → ∀ i < pageSize,
      (updateSharedFilePages ino bytes s₁ position (data.take bytes)).mem pg.physicalAddress i =
        (writtenBytes position data bytes (pg.fileOffset + i)).getD
            (s.mem pg.physicalAddress i) := by
    intro pg here identity i inside
    rw [updateSharedFilePages_page identity inside bytes position (leaf.congr procs cache shared)
      (table.congr procs shared) (shared ▸ here) (by simp), length_take, Nat.min_eq_left few,
      bytes₁]
    unfold writtenBytes
    split
    · rename_i hit
      rw [getD_eq_getElem?_getD, getElem?_take_of_lt (by omega), ← getD_eq_getElem?_getD]
      rfl
    · rename_i miss
      exact kept pg here identity i inside miss
  have elsewhere : ∀ f, (∀ pg ∈ s.shared, pg.identity = ino → pg.physicalAddress ≠ f) →
      (updateSharedFilePages ino bytes s₁ position (data.take bytes)).mem f = s.mem f := by
    intro f apart
    rw [(updateSharedFilePages_only ino bytes s₁ position _).2 f (shared ▸ apart), bytes₁]
    exact other f apart
  have only := (updateSharedFilePages_only ino bytes s₁ position (data.take bytes)).1
  generalize updateSharedFilePages ino bytes s₁ position (data.take bytes) = s₂ at *
  have inode : s₂.inodes ino = (s.inodes ino).write position bytes fun i => data.getD i 0 := by
    rw [only.eq, inodes, update_self]
  rw [inode]
  refine ⟨?_, ?_, ?_, ?_, ⟨id, ?_, fun _ => .inl rfl⟩, fun i apart => ?_, ?_, ?_,
    fun n _ => ?_,
    fun pg here identity i inside _ => ?_, fun f apart => ?_, fun n small unchanged => ?_,
    fun pg _ _ _ old => by omega⟩
  · rw [only.eq, ← procs]
    rfl
  · rw [only.eq, ← before]
    rfl
  · rw [only.eq, ← before]
    rfl
  · rw [only.eq, ← cache]
    rfl
  · rw [map_id, only.eq, ← shared]
    rfl
  · rw [only.eq]
    simp only [setInode, inodes, update_of_ne apart]
  · simp [setInode, Inode.write]
  · simp [setInode, Inode.write]
  · simp only [setInode, update_self, Inode.write, writtenBytes]
    split <;> rfl
  · exact pages pg here identity i inside
  · exact elsewhere f apart
  · unfold writtenBytes at unchanged
    split at unchanged
    · exact absurd unchanged (by simp)
    · omega

/-! ## The gap before the data -/

theorem Inode.write_write_zero (inode : Inode) (offset first second : Nat) :
    (inode.write offset first fun _ => 0).write (offset + first) second (fun _ => 0) =
      inode.write offset (first + second) fun _ => 0 := by
  unfold Inode.write
  congr 1
  funext i
  dsimp only
  by_cases late : offset + first ≤ i ∧ i < offset + first + second
  · rw [if_pos late, if_pos (by omega)]
  · rw [if_neg late]
    by_cases early : offset ≤ i ∧ i < offset + first
    · rw [if_pos early, if_pos (by omega)]
    · rw [if_neg early, if_neg (by omega)]

/-- The loop writes zeros up to the end that it reports, and never past its target.  It reaches the
target where the backend accepts every piece. -/
theorem fillGap_spec (accept : Nat → Nat) (target rounds : Nat) :
    ∀ (inode : Inode) {filledEnd : Nat},
    filledEnd ≤ target → ∃ length, filledEnd + length ≤ target ∧
      fillGap accept target rounds inode filledEnd =
        (filledEnd + length, inode.write filledEnd length fun _ => 0) ∧
      ((∀ n, 256 ≤ accept n) → target - filledEnd ≤ rounds →
        filledEnd + length = target) := by
  induction rounds with
  | zero =>
    intro inode filledEnd reached
    exact ⟨0, reached, by rw [Inode.write_zero]; rfl, fun _ enough => by omega⟩
  | succ rounds ih =>
    intro inode filledEnd reached
    unfold fillGap
    split
    · exact ⟨0, reached, by rw [Inode.write_zero]; rfl, fun _ enough => by omega⟩
    rename_i short
    dsimp only
    have room := Nat.min_le_right (accept filledEnd) (min 256 (target - filledEnd))
    have all : (∀ n, 256 ≤ accept n) →
        min (accept filledEnd) (min 256 (target - filledEnd)) = min 256 (target - filledEnd) :=
      fun willing => Nat.min_eq_right (le_trans (Nat.min_le_left ..) (willing _))
    generalize min (accept filledEnd) (min 256 (target - filledEnd)) = filled at *
    split
    · rename_i refused
      exact ⟨filled, by omega, rfl, fun willing => absurd (all willing) refused⟩
    · obtain ⟨length, fits, ran, done⟩ := ih (inode.write filledEnd filled fun _ => 0)
        (show filledEnd + filled ≤ target by omega)
      refine ⟨filled + length, by omega, ?_, fun willing enough => ?_⟩
      · rw [ran, Inode.write_write_zero, Nat.add_assoc]
      · have := done willing (by have := all willing; omega)
        omega

/-- Zeros reach the backend from the end of the file on. -/
theorem write_zero_backend (inode : Inode) {length size} (reached : size ≤ inode.iSize + length) :
    ∀ n < size, (inode.write inode.iSize length fun _ => 0).backend n =
      if n < inode.iSize then inode.backend n else 0 := by
  intro n small
  simp only [Inode.write]
  by_cases old : n < inode.iSize
  · rw [if_pos old, if_neg (by omega)]
  · rw [if_neg old, if_pos (by omega)]

theorem resizeInode_grow_shared (s : Sys) (ino : Nat)
    (grows : (s.inodes ino).iSize ≤ newSize) : (resizeInode s ino newSize).shared = s.shared := by
  unfold resizeInode
  rw [completeTruncate_grow grows]
  rfl

theorem Overlay.trans
    (first : Overlay ino size₁ changed₁ s mid) (same : mid.shared = s.shared)
    (second : Overlay ino size changed mid s') (same' : s'.shared = mid.shared) :
    Overlay ino size (fun n => (changed n).or (changed₁ n)) s s' where
  procs := second.procs.trans first.procs
  managed := second.managed.trans first.managed
  pool := second.pool.trans first.pool
  cache := second.cache.trans first.cache
  pages := ⟨id, by rw [map_id, same', same], fun _ => .inl rfl⟩
  inodes := fun i other => (second.inodes i other).trans (first.inodes i other)
  version := second.version.trans first.version
  size' := second.size'
  backend := by
    intro n small
    rw [second.backend n small]
    cases new : changed n with
    | some b => rfl
    | none => exact first.backend n (first.size' ▸ second.below n small new)
  page := by
    intro pg here identity i inside small
    rw [second.page pg (same ▸ here) identity i inside small]
    cases new : changed (pg.fileOffset + i) with
    | some b => rfl
    | none => exact first.page pg here identity i inside (first.size' ▸ second.below _ small new)
  rest := fun f other => (second.rest f (same ▸ other)).trans (first.rest f other)
  below := by
    intro n small unchanged
    obtain ⟨late, early⟩ := Option.or_eq_none_iff.mp unchanged
    exact first.below n (first.size' ▸ second.below n small late) early
  cut := by
    intro pg here identity dirty old
    have middle := first.cut pg (same' ▸ here) identity dirty old
    exact second.cut pg here identity dirty (first.size' ▸ middle)

end Io

end Mecocoa.Memory
