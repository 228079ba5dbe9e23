import Mecocoa.Task.Runs

/-! # Dirty shared pages over runs

A page that someone may write to is dirty, and it stays dirty until what the file
covers of it is in the backend.  Writing a page back needs every alias of the page
to be found in its page table as it was registered.
-/

namespace Mecocoa.Memory

open Lib (Run)

section WriteBack

variable {leaked : Nat → Nat}

/-! ## Dirty pages -/

/-- The page is no longer dirty, or no longer there. -/
def Cleaned (s' : Sys) (pg : SharedFilePage) : Prop :=
  ∀ pg' ∈ s'.shared, pg'.identity = pg.identity → pg'.fileOffset = pg.fileOffset →
  pg'.dirty = false

/-- No leaf may write to the page of the file, and the backend has what the file covers of it. -/
structure WrittenBack (t : Target) (s s' : Sys) (pg : SharedFilePage) : Prop where
  protect : ∀ p a e, s'.pte p a = some e →
    sharedPlace t s' p a = some (pg.identity, pg.fileOffset) →
    e.props.writable = false
  bytes : ∀ i < pageSize, pg.fileOffset + i < (s'.inodes pg.identity).iSize →
    (s'.inodes pg.identity).backend (pg.fileOffset + i) = s.mem pg.physicalAddress i

theorem Inv.protect_cleaned (inv : Inv t seen k s') (cleaned : Cleaned s' pg)
    (mapped : s'.pte p a = some e)
    (place : sharedPlace t s' p a = some (pg.identity, pg.fileOffset)) :
    e.props.writable = false := by
  by_contra writable
  have aligned := inv.leaf.aligned p a e mapped
  rw [← aligned.pageFloor_eq] at mapped
  obtain ⟨pg', here, frame, key⟩ := inv.leaf.placed mapped place
  have start : a % pageSize = 0 := aligned
  rw [start, Nat.add_zero] at key
  obtain ⟨identity, offset⟩ := Prod.mk.inj key
  have dirty := (inv.table.dirty p _ e mapped (by simpa using writable) pg' here frame).1
  exact absurd ((cleaned pg' here identity.symm offset.symm).symm.trans dirty) (by simp)

/-- Where files keep their content, a page that became clean went to the backend. -/
theorem Inv.backend_cleaned (inv : Inv t seen k s) (inv' : Inv t seen k' s')
    (same : FileSame s s') (here : pg ∈ s.shared) (cleaned : Cleaned s' pg)
    (inside : i < pageSize) (covered : pg.fileOffset + i < (s'.inodes pg.identity).iSize) :
    (s'.inodes pg.identity).backend (pg.fileOffset + i) = s.mem pg.physicalAddress i := by
  obtain ⟨size, bytes⟩ := same pg.identity
  rw [← inv.fileByte_page here inside, ← bytes _ (size ▸ covered)]
  cases found : findSharedPage s' pg.identity pg.fileOffset with
  | none =>
    refine (fileByte_unshared found ?_).symm
    have aligned := (inv.table.shape pg here).2
    unfold Aligned pageSize at *
    unfold pageFloor pageSize
    omega
  | some pg' =>
    obtain ⟨there, identity, offset, -, -⟩ := findSharedPage_some found
    have held := inv'.content.clean pg' there (cleaned pg' there identity offset) i inside
    rw [← identity, ← offset, inv'.fileByte_page there inside]
    rw [← identity, ← offset] at covered
    exact (held covered).symm

theorem MachineInv.writtenBack (inv : MachineInv t leaked s) (op : Op)
    (here : pg ∈ s.shared) (dirty : pg.dirty = true)
    (cleaned : Cleaned (Memory.exec lib t s op) pg) :
    WrittenBack t s (Memory.exec lib t s op) pg := by
  obtain ⟨leaked', inv', stepped⟩ := inv.exec lib op
  have gone : pg ∉ (Memory.exec lib t s op).shared := fun still =>
    absurd ((cleaned pg still rfl rfl).symm.trans dirty) (by simp)
  have unchanged : FileSame s (Memory.exec lib t s op) →
      WrittenBack t s (Memory.exec lib t s op) pg := fun same =>
    ⟨fun p a e mapped place => inv'.protect_cleaned cleaned mapped place,
      fun i inside covered => inv.backend_cleaned inv' same here cleaned inside covered⟩
  rcases stepped.files with changes | same
  swap
  · exact unchanged same
  cases op with
  | store p address byte =>
    obtain ⟨-, -, shared, -⟩ := inv.storeByte p address byte
    exact absurd (shared.symm ▸ here) gone
  | write ino position data outcome =>
    obtain ⟨-, -, shared, -⟩ := inv.writeFile ino position data outcome
    exact absurd (shared.symm ▸ here) gone
  | truncate ino size outcome =>
    obtain ⟨-, -, stays, failed, done⟩ := inv.truncateInode ino size outcome
    cases result : (truncateInode t s ino size outcome).1 with
    | false => exact unchanged (failed result)
    | true =>
      -- the page lies beyond the new end, and nothing of it is left to be written
      have beyond : pg.identity = ino ∧ size ≤ pg.fileOffset := by
        by_contra inside
        exact gone (stays pg here dirty inside)
      refine ⟨fun p a e mapped place => inv'.protect_cleaned cleaned mapped place,
        fun i _ covered => ?_⟩
      have shorter : ((Memory.exec lib t s (.truncate ino size outcome)).inodes ino).iSize = size :=
        (done result).size'
      rw [beyond.1, shorter] at covered
      omega
  | spawn | openFile | carry | mmap | mprotect | munmap | fault | prefault | fork | exit | load
  | read | flush | reclaimCache | reclaimShared | mapShared | registerAlias | unregisterAlias =>
    exact absurd changes id

/-- The byte that a shared mapping stores is the byte of the file. -/
theorem StoreEffect.stored
    (effect : StoreEffect t p address byte s s') (stores : Stores s p address)
    (place : sharedPlace t s p address = some (ino, n)) (covered : n < (s.inodes ino).iSize) :
    fileByte s' ino n = byte := by
  rw [(effect.shared stores ino n place).bytes n covered, if_pos rfl]
  rfl

/-- Writable shared pages are dirty and pinned, a page stops being dirty only when no leaf may
write to it and what the file covers of it is in the backend, and no store is lost. -/
theorem shared_pages_written_back (run : Run (Steps lib t) (Sys.boot inodes) ops s) :
    (∀ p a e, s.pte p a = some e → e.userWritable = true → ∀ pg ∈ s.shared,
      pg.physicalAddress = e.frame → pg.dirty = true ∧ pg.dirtyInode = some pg.identity) ∧
    (∀ op, ∀ pg ∈ s.shared, pg.dirty = true → Cleaned (exec lib t s op) pg →
      WrittenBack t s (exec lib t s op) pg) ∧
    ∀ p address byte ino n, Stores s p address → sharedPlace t s p address = some (ino, n) →
      n < (s.inodes ino).iSize → ∀ ops' s', Run
      (Steps lib t) (exec lib t s (.store p address byte)) ops' s' →
        (∀ op ∈ ops', ¬ op.changesFile) → fileByte s' ino n = byte := by
  obtain ⟨⟨leaked, inv⟩, -⟩ := machineInv_run run
  refine ⟨fun p a e mapped writable pg here frame => ?_, fun op pg here dirty cleaned =>
    inv.writtenBack op here dirty cleaned,
    fun p address byte ino n stores place covered ops' s' later
      still => ?_⟩
  · simp only [Pte.userWritable, Bool.and_eq_true] at writable
    have dirty := (inv.table.dirty p a e mapped writable.2 pg here frame).1
    exact ⟨dirty, inv.table.pinned pg here dirty⟩
  · obtain ⟨inv', -, -, effect⟩ := inv.storeByte p address byte
    have size : ((exec lib t s (.store p address byte)).inodes ino).iSize = (s.inodes ino).iSize :=
      (effect.shared stores ino n place).size'
    have same := (MachineInv.fileSame_run inv' later still).2
    rw [(same ino).2 n (size.symm ▸ covered)]
    exact effect.stored stores place covered

/-- A process maps a page of a file, shared, and gets write access to it. -/
def touchShared (p page : Nat) : List Op :=
  [.spawn p 0x10000 [], .openFile p ⟨some 7, .rdwr⟩,
    .mmap p 0x1000 (.request 0 readWrite .shared false false (some 0) 0)
    ⟨true, samplePin, fun _ => true⟩,
    .fault p 0x10000 .write false (sampleFault page)]

def touchedPage : SharedFilePage := ⟨7, 0, 0x200000, true, some 7, [(0, 0x10000)]⟩

theorem shared_pages_written_back_touched :
    touchedPage ∈ (sampleRun (touchShared 0 0x200000)).shared ∧
      WrittenBack sampleTarget (sampleRun (touchShared 0 0x200000))
        (exec .plain sampleTarget (sampleRun (touchShared 0 0x200000)) (.flush 7 0 sampleFlush))
        touchedPage := by
  have here : touchedPage ∈ (sampleRun (touchShared 0 0x200000)).shared := by decide +kernel
  have cleaned : ∀ pg ∈ (exec .plain sampleTarget (sampleRun (touchShared 0 0x200000))
      (.flush 7 0 sampleFlush)).shared, pg.dirty = false := by decide +kernel
  obtain ⟨-, written, -⟩ := shared_pages_written_back (sampleRun_run (touchShared 0 0x200000))
  exact ⟨here, written (.flush 7 0 sampleFlush) touchedPage here rfl fun pg there _ _ =>
    cleaned pg there⟩

/-- A truncation drops the dirty state of a page without a write: the byte that was stored never
gets to the backend. -/
theorem truncated_page_not_written :
    let s := sampleRun (touchShared 0 0x200000 ++ [.store 0 0x10000 1])
    let s' := exec .plain sampleTarget s (.truncate 7 0 ⟨true, fun _ _ => true, true⟩)
    Run (Steps .plain sampleTarget) (Sys.boot sampleInodes)
        (touchShared 0 0x200000 ++ [.store 0 0x10000 1]) s ∧
      touchedPage ∈ s.shared ∧ touchedPage.dirty = true ∧
      s.mem touchedPage.physicalAddress 0 = 1 ∧
      (s.inodes 7).backend 0 = 0 ∧ { touchedPage with dirty := false, dirtyInode := none } ∈
      s'.shared ∧
      (s'.inodes 7).backend 0 = 0 := by
  intro s s'
  exact ⟨sampleRun_run _, by decide +kernel, rfl, by decide +kernel, by decide +kernel,
    by decide +kernel, by decide +kernel⟩

/-! ## Write-back succeeds -/

/-- Neither the paging library nor the backend refuses anything. -/
structure FlushOutcome.Accepts (outcome : FlushOutcome) : Prop where
  setup : ∀ p a, outcome.setup p a = true
  written : pageSize ≤ outcome.written

structure UnmapOutcome.Accepts (outcome : UnmapOutcome) : Prop where
  plans : outcome.plans = true
  clone : outcome.clone = true
  flush : ∀ a, (outcome.flush a).Accepts
  decode : ∀ a, outcome.decode a = true
  unmap : ∀ a, outcome.unmap a = true
  append : outcome.append = true

structure WriteOutcome.Accepts (outcome : WriteOutcome) : Prop where
  snapshot : outcome.snapshot = true
  setup : ∀ p a, outcome.setup p a = true
  gap : ∀ n, 256 ≤ outcome.gap n

structure TruncateOutcome.Accepts (outcome : TruncateOutcome) : Prop where
  snapshot : outcome.snapshot = true
  setup : ∀ p a, outcome.setup p a = true
  truncated : outcome.truncated = true

/-- The alias is found in its page table as it was registered. -/
def AliasFound (s : Sys) (pg : SharedFilePage) (l : Nat × Nat) : Prop :=
  aliasVmaMatches s pg l.1 l.2 = true ∧ UserLeaf s l pg.physicalAddress

theorem AliasFound.props (found : AliasFound s pg l) :
    ∃ props, aliasPageMatches s pg l.1 l.2 = some props := by
  obtain ⟨area, e, mapped, frame, present, user⟩ := found
  exact ⟨e.props, by simp [aliasPageMatches, area, mapped, frame, present, user]⟩

theorem protectAliases_succeeds (downgrade : t.cannotDowngrade = false)
    (sets : ∀ p a, setup p a = true) (pg : SharedFilePage) (aliases : List (Nat × Nat)) :
    ∀ s, (∀ l ∈ aliases, AliasFound s pg l) →
      (protectAliases t setup pg s aliases).1 = true := by
  induction aliases with
  | nil => intro s _; rfl
  | cons l aliases ih =>
    intro s found
    obtain ⟨p, a⟩ := l
    obtain ⟨props, matched⟩ := (found (p, a) (.head _)).props
    have later := fun l member => found l (.tail _ member)
    unfold protectAliases
    rw [matched]
    dsimp only
    split
    · rw [if_neg (by simp [downgrade, sets])]
      obtain ⟨-, mapped, present, user⟩ := aliasPageMatches_some matched
      refine ih _ fun l member =>
        ⟨?_, (later l member).2.setPte mapped fun _ _ => ⟨present, user⟩⟩
      have area := (later l member).1
      unfold aliasVmaMatches at area ⊢
      rw [Sys.vmas_setPte]
      exact area
    · exact ih s later

theorem Inv.aliasFound (inv : Inv t seen k s) (aliases : AliasInv [] s)
    (here : pg ∈ s.shared) : ∀ l ∈ pg.aliases, AliasFound s pg l := by
  intro l listed
  have opened := aliases.leaf pg here l listed List.not_mem_nil
  refine ⟨?_, opened⟩
  obtain ⟨e, mapped, frame, -⟩ := opened
  exact inv.space.sharedHome_iff.mp (inv.leaf.sharedLeaf l.1 l.2 e mapped pg here frame.symm)

theorem Inv.flush_succeeds (inv : Inv t seen k s) (aliases : AliasInv [] s)
    (downgrade : t.cannotDowngrade = false)
    (backed : ∀ pg ∈ s.shared, pg.identity = identity → pg.fileOffset = fileOffset →
      pg.dirty = true → (s.inodes pg.identity).filesystem = true) (accepts : outcome.Accepts) :
    (Memory.flushSharedFilePage t s identity fileOffset outcome).1 = true := by
  unfold Memory.flushSharedFilePage
  cases found : findSharedPage s identity fileOffset with
  | none => rfl
  | some pg =>
    obtain ⟨here, rfl, rfl, -, -⟩ := findSharedPage_some found
    dsimp only
    split
    · rfl
    rename_i dirty
    simp only [Bool.not_eq_true, Bool.not_eq_false'] at dirty
    rw [if_neg (by simp [inv.table.pinned pg here dirty])]
    have protect := protectAliases_succeeds downgrade accepts.setup pg pg.aliases s
      (inv.aliasFound aliases here)
    have only := ProtectedOnly.protectAliases t outcome.setup pg pg.aliases s
    unfold protectSharedFileAliases
    generalize protectAliases t outcome.setup pg s pg.aliases = result at *
    obtain ⟨done, s₁⟩ := result
    dsimp only at protect only
    subst protect
    have covered := inv.content.covered pg here dirty
    have filesystem := backed pg here rfl rfl dirty
    have whole :
      min outcome.written (min pageSize ((s₁.inodes pg.identity).iSize - pg.fileOffset)) =
        min pageSize ((s₁.inodes pg.identity).iSize - pg.fileOffset) :=
      Nat.min_eq_right (le_trans (Nat.min_le_left ..) accepts.written)
    unfold Memory.writeBackPage
    dsimp only
    rw [if_neg (by simp [only.inodes, filesystem, covered]), if_neg (by rw [whole]; simp)]

theorem MachineInv.flushItems_succeeds (p : Nat) (downgrade : t.cannotDowngrade = false)
    (accepts : ∀ a, (flush a).Accepts) (items : List ReleaseItem) :
    ∀ {s : Sys}, MachineInv t leaked s → AliasInv [] s →
      (∀ item ∈ items, item.sharedIdentity ≠ 0 →
        ∀ pg ∈ s.shared, pg.identity = item.sharedIdentity →
        pg.fileOffset = item.fileOffset → pg.dirty = true →
        (s.inodes pg.identity).filesystem = true) →
      (flushItems t p false flush s items).1 = true := by
  induction items with
  | nil => intro s _ _ _; rfl
  | cons item items ih =>
    intro s inv aliases backed
    have later := fun i member => backed i (.tail _ member)
    unfold flushItems
    split
    · exact ih inv aliases later
    rename_i shared
    simp only [not_or] at shared
    have done := inv.flush_succeeds aliases downgrade (backed item (.head _) shared.1)
      (accepts item.address)
    obtain ⟨result, s₁, ran, inv₁, files, only, dirty, filesystem⟩ :=
      inv.flushSharedFilePage item.sharedIdentity
      item.fileOffset (flush item.address)
    rw [ran] at done
    subst done
    rw [ran]
    refine ih inv₁ ((Kept.of_flushOnly files only).aliases aliases) ?_
    intro i member some pg there identity offset stillDirty
    exact (filesystem _).trans
      (later i member some pg (dirty pg there stillDirty) identity offset stillDirty)

/-- What the plan of an unmapping writes back is mapped in its range. -/
theorem Inv.planned_home (inv : Inv t seen k s)
    (member : item ∈ unmapItems t s p address length) (shared : item.sharedIdentity ≠ 0)
    (identity : pg.identity = item.sharedIdentity) (offset : pg.fileOffset = item.fileOffset) :
    (address ≤ item.address ∧ item.address < address + length) ∧
      SharedHome t s p item.address pg := by
  obtain ⟨inside, v, here, planned, position⟩ := unmapItems_area (inv.space.areas p) member
  refine ⟨inside, inv.space.sharedHome_iff.mpr (aliasVmaMatches_iff.mpr ?_)⟩
  obtain ⟨inVmas, covered⟩ := (inv.space.areas p).vmaAt_iff.mp here
  rw [planned] at identity shared
  unfold sharedIdentity at identity shared
  by_cases kind : v.vmType = .file ∧ v.vmMode = .shared
  · rw [if_pos kind] at identity shared
    cases backed : v.vfile with
    | none => simp [backed] at shared
    | some file =>
      cases inode : file.fInode with
      | none => simp [backed, inode] at shared
      | some ino =>
        obtain ⟨wrapped, wide⟩ := (inv.space.bounded p v inVmas).offset
          (by simp [Vma.fileBacked, kind.1, backed]) covered
        simp only [backed, Option.bind_some, inode, Option.getD_some] at identity
        exact ⟨v, file, here, kind.1, kind.2,
          backed, by rw [inode, identity], by rw [offset, position, wrapped, wide]⟩
  · rw [if_neg kind] at shared
    exact absurd rfl shared

theorem MachineInv.munmap_succeeds (inv : MachineInv t leaked s) (aliases : AliasInv [] s)
    (downgrade : t.cannotDowngrade = false) (some : length ≠ 0)
    (low : Aligned address) (size : Aligned length) (fits : address + length ≤ t.maxWord)
    (backed : ∀ pg ∈ s.shared, pg.dirty = true →
      (∃ a, address ≤ a ∧ a < address + length ∧ SharedHome t s p a pg) →
      (s.inodes pg.identity).filesystem = true)
    (accepts : outcome.Accepts) : (syscUmap t s p address length outcome).1 = true := by
  have flushed : (flushItems t p false outcome.flush s (unmapItems t s p address length)).1 =
      true := by
    refine MachineInv.flushItems_succeeds p downgrade accepts.flush _ inv aliases ?_
    intro item member shared pg here identity offset dirty
    obtain ⟨inside, home⟩ := inv.planned_home member shared identity offset
    exact backed pg here dirty ⟨item.address, inside.1, inside.2, home⟩
  exact inv.space.unmapVmaRange_succeeds some low size fits accepts.plans
    (.inr accepts.clone) flushed accepts.decode
    accepts.unmap (.inl accepts.append)

/-! ## Preparations -/

theorem Inv.protectOffsets_succeeds (downgrade : t.cannotDowngrade = false)
    (sets : ∀ p a, setup p a = true) (ino : Nat) (offsets : List Nat) :
    ∀ {s : Sys}, Inv t seen k s → AliasInv [] s → (protectOffsets t setup ino s offsets).1 =
      true := by
  induction offsets with
  | nil => intro s _ _; rfl
  | cons offset offsets ih =>
    intro s inv aliases
    unfold protectOffsets
    cases found : findSharedPage s ino offset with
    | none => exact ih inv aliases
    | some pg =>
      obtain ⟨here, -⟩ := findSharedPage_some found
      dsimp only
      have protect :=
        protectAliases_succeeds downgrade sets pg pg.aliases s (inv.aliasFound aliases here)
      have only := ProtectedOnly.protectAliases t setup pg pg.aliases s
      unfold protectSharedFileAliases
      generalize protectAliases t setup pg s pg.aliases = result at *
      obtain ⟨done, s₁⟩ := result
      subst protect
      obtain ⟨inv₁, files⟩ := inv.protectedOnly only
      exact ih inv₁ ((Kept.of_protectedOnly files only).aliases aliases)

variable (inv : Inv t seen k s)

include inv

theorem Inv.truncate_succeeds (aliases : AliasInv [] s)
    (downgrade : t.cannotDowngrade = false) (size : Nat)
    (regular : (s.inodes ino).regular = true) (unpinned : executableFilePinned s ino = false)
    (filesystem : (s.inodes ino).filesystem = true)
    (accepts : outcome.Accepts) : (Memory.truncateInode t s ino size outcome).1 = true := by
  have prepared : (prepareSharedFileTruncate t outcome.setup true s ino).1 = true :=
    inv.protectOffsets_succeeds downgrade accepts.setup ino _ aliases
  unfold Memory.truncateInode
  rw [if_neg (by simp [regular, unpinned, filesystem]), accepts.snapshot, returned prepared]
  dsimp only
  rw [if_neg (by simp [accepts.truncated])]

theorem Inv.write_succeeds (aliases : AliasInv [] s)
    (downgrade : t.cannotDowngrade = false)
    (regular : (s.inodes ino).regular = true) (unpinned : executableFilePinned s ino = false)
    (filesystem : (s.inodes ino).filesystem = true) (fits : position + data.length ≤ t.maxWord)
    (accepts : outcome.Accepts) :
    (Memory.writeFile t s ino position data outcome).1.isSome = true := by
  unfold Memory.writeFile
  rw [if_neg (by simp [regular, unpinned, filesystem])]
  split
  · rfl
  dsimp only
  have first : (if decide ((s.inodes ino).iSize < position) = true then
      prepareSharedFileTruncate t outcome.setup outcome.snapshot s ino
      else (true, s)).1 = true := by
    split
    · rw [accepts.snapshot]
      exact inv.protectOffsets_succeeds downgrade accepts.setup ino _ aliases
    · rfl
  have only : ProtectedOnly s (if decide ((s.inodes ino).iSize < position) = true then
      prepareSharedFileTruncate t outcome.setup outcome.snapshot s ino else (true, s)).2 := by
    split
    · exact .prepareSharedFileTruncate t outcome.setup outcome.snapshot s ino
    · exact .refl s
  generalize (if decide ((s.inodes ino).iSize < position) = true then
      prepareSharedFileTruncate t outcome.setup outcome.snapshot s ino else (true, s)) = result at *
  obtain ⟨done, s₁⟩ := result
  subst first
  obtain ⟨inv₁, files⟩ := inv.protectedOnly only
  have second : (prepareSharedFileWrite t outcome.setup s₁ ino position data.length).1 =
      true := by
    unfold prepareSharedFileWrite
    split
    · rfl
    rw [if_neg (by omega)]
    exact inv₁.protectOffsets_succeeds downgrade accepts.setup ino _
      ((Kept.of_protectedOnly files only).aliases aliases)
  dsimp only
  generalize prepareSharedFileWrite t outcome.setup s₁ ino position data.length = result at *
  obtain ⟨done, s₂⟩ := result
  subst second
  dsimp only
  split
  · rfl
  rename_i gap
  obtain ⟨length, -, filled, done⟩ :=
    fillGap_spec outcome.gap position (position - (s.inodes ino).iSize) (s₂.inodes ino)
    (show (s.inodes ino).iSize ≤ position by
      simp only [Bool.not_eq_true', decide_eq_false_iff_not, not_not] at gap
      omega)
  rw [filled, if_neg (not_not.mpr (done accepts.gap (le_refl _)))]
  rfl

omit inv

/-- What write-back, and the calls that depend on it, owe to a process whose requests are valid. -/
structure WriteBackSucceeds (t : Target) (s : Sys) : Prop where
  flush : ∀ pg ∈ s.shared, pg.dirty = true → (s.inodes pg.identity).filesystem = true →
    ∀ outcome : FlushOutcome, outcome.Accepts →
    (flushSharedFilePage t s pg.identity pg.fileOffset outcome).1 = true
  munmap : ∀ p address length, length ≠ 0 → Aligned address → Aligned length →
    address + length ≤ t.maxWord → (∀ pg ∈ s.shared, pg.dirty = true →
      (∃ a, address ≤ a ∧ a < address + length ∧ SharedHome t s p a pg) →
      (s.inodes pg.identity).filesystem = true) →
    ∀ outcome : UnmapOutcome, outcome.Accepts → (syscUmap t s p address length outcome).1 = true
  write : ∀ ino position data, (s.inodes ino).regular = true →
    executableFilePinned s ino = false →
    (s.inodes ino).filesystem = true → position + data.length ≤ t.maxWord →
    ∀ outcome : WriteOutcome, outcome.Accepts →
    (writeFile t s ino position data outcome).1.isSome = true
  truncate : ∀ ino size, (s.inodes ino).regular = true → executableFilePinned s ino = false →
    (s.inodes ino).filesystem = true → ∀ outcome : TruncateOutcome, outcome.Accepts →
    (truncateInode t s ino size outcome).1 = true

/-- Where leaves on shared pages keep user mode, teardown does not fail and entries can be
downgraded, no protection makes a write-back fail. -/
theorem shared_write_back_succeeds (downgrade : t.cannotDowngrade = false)
    (run : Run (StepsWhen (fun s op => op.KeepsUser t s ∧ op.TearsDown) lib t)
      (Sys.boot inodes) ops s) :
    WriteBackSucceeds t s := by
  have all : (∃ leaked, MachineInv t leaked s) ∧ AliasInv [] s := by
    refine run.preserves (P := fun s => (∃ leaked, MachineInv t leaked s) ∧ AliasInv [] s) ?_
      ⟨⟨_, .boot t inodes⟩, by simp [Sys.boot], by simp [Sys.boot]⟩
    rintro s op s' ⟨⟨leaked, inv⟩, aliases⟩ ⟨⟨keeps, sound⟩, rfl⟩
    obtain ⟨leaked', next, stepped⟩ := inv.exec lib op
    exact ⟨⟨leaked', next⟩, stepped.aliases keeps sound aliases⟩
  obtain ⟨⟨leaked, inv⟩, aliases⟩ := all
  exact
    { flush := by
        intro pg here _ backed outcome accepts
        refine inv.flush_succeeds aliases downgrade ?_ accepts
        intro pg' there identity offset _
        rwa [inv.table.unique there here identity offset]
      munmap := fun p address length some low size fits backed outcome accepts =>
        inv.munmap_succeeds aliases downgrade some low size fits backed accepts
      write := fun ino position data regular unpinned filesystem fits outcome accepts =>
        inv.write_succeeds aliases downgrade regular unpinned filesystem fits accepts
      truncate := fun ino size regular unpinned filesystem outcome accepts =>
        inv.truncate_succeeds aliases downgrade size regular unpinned filesystem accepts }

def sampleProtect (prot : Prot) : Op :=
  .mprotect 0 0x10000 0x1000 prot
    ⟨true, fun _ => samplePin,
    ⟨true, true, true, fun _ => true, fun _ => true, fun _ => true⟩⟩

theorem shared_write_back_succeeds_protected :
    Run (StepsWhen (fun s op => op.KeepsUser sampleTarget s ∧ op.TearsDown) .plain sampleTarget)
        (Sys.boot sampleInodes) (touchShared 0 0x200000 ++ [sampleProtect ⟨true, false, false⟩])
        (sampleRun (touchShared 0 0x200000 ++ [sampleProtect ⟨true, false, false⟩])) ∧
        WriteBackSucceeds sampleTarget
        (sampleRun (touchShared 0 0x200000 ++ [sampleProtect ⟨true, false, false⟩])) := by
  have run :
    Run (StepsWhen (fun s op => op.KeepsUser sampleTarget s ∧ op.TearsDown) .plain sampleTarget)
      (Sys.boot sampleInodes) (touchShared 0 0x200000 ++ [sampleProtect ⟨true, false, false⟩])
      (sampleRun (touchShared 0 0x200000 ++ [sampleProtect ⟨true, false, false⟩])) :=
    .cons ⟨⟨trivial, trivial⟩, rfl⟩
      (.cons ⟨⟨trivial, trivial⟩, rfl⟩ (.cons ⟨⟨trivial, trivial⟩, rfl⟩
      (.cons ⟨⟨trivial, trivial⟩, rfl⟩
      (.cons ⟨⟨.inl rfl, trivial⟩, rfl⟩ (.nil _)))))
  exact ⟨run, shared_write_back_succeeds rfl run⟩

/-- The file covers the page and has a file system to take it. -/
def Backed (s : Sys) (pg : SharedFilePage) : Prop :=
  pg.fileOffset < (s.inodes pg.identity).iSize ∧ (s.inodes pg.identity).filesystem = true

/-- The run ends with a dirty page that its file covers and that is not written back, although
the backend takes everything. -/
def FlushRefused (t : Target) (ops : List Op) : Prop :=
  ∃ s, Run (Steps .plain t) (Sys.boot sampleInodes) ops s ∧
  ∃ pg ∈ s.shared, pg.dirty = true ∧
    Backed s pg ∧ (flushSharedFilePage t s pg.identity pg.fileOffset sampleFlush).1 = false

theorem sampleFlush_accepts : sampleFlush.Accepts := ⟨fun _ _ => rfl, le_refl _⟩

/-- A second core on x86-64, `PROT_NONE`, and a teardown that gets no memory each keep a dirty
page from being written back. -/
theorem shared_flush_refused :
    sampleFlush.Accepts ∧ FlushRefused
      { sampleTarget with cores := 2 } (touchShared 0 0x200000) ∧
      FlushRefused sampleTarget
      (touchShared 0 0x200000 ++ [sampleProtect ⟨false, false, false⟩]) ∧
      FlushRefused sampleTarget
        (touchShared 0 0x200000 ++ touchShared 1 0x300000 ++ [.exit 0 starvedTeardown]) := by
  refine ⟨sampleFlush_accepts,
    ⟨_, Run.foldl (exec .plain { sampleTarget with cores := 2 }) _ _, touchedPage,
    by decide +kernel, rfl, by unfold Backed; decide +kernel, by decide +kernel⟩,
    ⟨_, sampleRun_run _, touchedPage, by decide +kernel, rfl, by unfold Backed; decide +kernel,
      by decide +kernel⟩, ⟨_, sampleRun_run _,
      { touchedPage with aliases := [(1, 0x10000), (0, 0x10000)] }, by decide +kernel, rfl,
      by unfold Backed; decide +kernel, by decide +kernel⟩⟩

end WriteBack

end Mecocoa.Memory
