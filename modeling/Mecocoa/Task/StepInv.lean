import Mecocoa.File.IoInv
import Mecocoa.Task.ForkInv

/-! # One step of the machine

Every operation keeps the invariant.  What else a step keeps depends on it:
only a write, a truncation and a store change files, only a teardown that fails
loses references, only `PROT_NONE` takes user mode from a leaf, and only a
mapping of a file that was not opened for writing lets it be written to.
-/

namespace Mecocoa.Memory

open Option

/-- The whole machine between two operations. -/
abbrev MachineInv (t : Target) (leaked : Nat → Nat) (s : Sys) : Prop :=
  Inv t (fun _ => True) ⟨[], [], [], leaked⟩ s

/-- No child of a fork is under construction. -/
def Settled (s : Sys) : Prop := ∀ p, (s.procs p).life ≠ .building

/-- The operations that may change what a file contains. -/
def Op.changesFile : Op → Prop
  | .store .. | .write .. | .truncate .. => True
  | _ => False

/-- Teardown gets the memory for its plan and the paging library takes leaves out. -/
def Op.TearsDown : Op → Prop
  | .exit _ outcome => outcome.Succeeds
  | .fork _ _ outcome => outcome.teardown.Succeeds
  | _ => True

/-- No leaf on a shared file page loses user mode. -/
def Op.KeepsUser (t : Target) (s : Sys) : Op → Prop
  | .mprotect p address len prot _ =>
    KeepsUserMode t s p address (pageFloor (len + (pageSize - 1))) prot
  | _ => True

/-- The file of a new writable shared mapping was opened for writing. -/
def Op.OpensWritable (t : Target) (s : Sys) : Op → Prop
  | .mmap p _ call _ => OpenedForWriting t s p call
  | _ => True

structure Stepped (t : Target) (op : Op) (leaked leaked' : Nat → Nat) (s s' : Sys) : Prop where
  settled : Settled s → Settled s'
  files : op.changesFile ∨ FileSame s s'
  mode : op.OpensWritable t s → ModeInv t s → ModeInv t s'
  aliases : op.KeepsUser t s → op.TearsDown → AliasInv [] s → AliasInv [] s'
  balance : op.TearsDown → leaked' = leaked

section Step

variable {op : Op}

theorem Settled.of_life (settled : Settled s) (life : ∀ q, (s'.procs q).life = (s.procs q).life) :
    Settled s' := fun q => by
  rw [life q]
  exact settled q

namespace Stepped

theorem of_kept (kept : Kept s s') : Stepped t op leaked leaked s s' where
  settled := fun settled => settled.of_life kept.life
  files := .inr kept.files
  mode := fun _ mode => mode.kept kept
  aliases := fun _ _ => kept.aliases
  balance := fun _ => rfl

theorem refl (s : Sys) : Stepped t op leaked leaked s s := of_kept (.refl s)

theorem of_io (changes : op.changesFile) (kept : IoKept s s') :
    Stepped t op leaked leaked s s' where
  settled := fun settled => settled.of_life fun q => by rw [kept.rest q]
  files := .inl changes
  mode := fun _ mode => mode.of_areas fun q a => .inl (by unfold Sys.vmas; rw [kept.rest q])
  aliases := fun _ _ => kept.aliases
  balance := fun _ => rfl

end Stepped

/-! ## Processes -/

theorem MachineInv.spawn (inv : MachineInv t leaked s) (unborn : (s.procs p).life = .unborn)
    (heapbtm : Nat) (low : ∀ slice ∈ slices, ∀ a ∈ slicePages slice, a < heapbtm) :
    MachineInv t leaked (s.setProc p { Proc.empty .live with heapbtm, loadSlices := slices }) ∧
      Stepped t op leaked leaked s
        (s.setProc p { Proc.empty .live with heapbtm, loadSlices := slices }) := by
  have inactive : ¬ Active s p := by
    unfold Active
    rw [unborn]
    decide
  obtain ⟨born, files, aliases⟩ := inv.bear inactive
    { Proc.empty .live with heapbtm, loadSlices := slices } (.inl rfl) rfl rfl (by
      rintro a ⟨slice, member, -, page⟩
      exact low slice member a page)
  have here : (s.setProc p { Proc.empty .live with heapbtm, loadSlices := slices }).procs p =
      { Proc.empty .live with heapbtm, loadSlices := slices } := Function.update_self ..
  have there : ∀ q, q ≠ p →
    (s.setProc p { Proc.empty .live with heapbtm, loadSlices := slices }).procs q =
      s.procs q := fun q other => Function.update_of_ne other ..
  refine ⟨born, fun settled q => ?_, .inr files, fun _ mode => mode.of_areas fun q a => ?_,
    fun _ _ => aliases, fun _ => rfl⟩
  · by_cases same : q = p
    · rw [same, here]
      simp [Proc.empty]
    · rw [there q same]
      exact settled q
  · unfold Sys.vmas
    by_cases same : q = p
    · rw [same, here]
      exact .inr rfl
    · rw [there q same]
      exact .inl rfl

theorem MachineInv.openFile (inv : MachineInv t leaked s) (p : Nat) (file : VfsFile) :
    MachineInv t leaked
      (s.setProc p { s.procs p with files := (s.procs p).files ++ [some file] }) ∧
      Stepped t op leaked leaked s
        (s.setProc p { s.procs p with files := (s.procs p).files ++ [some file] }) := by
  have opened : MachineInv t leaked
      (s.setProc p { s.procs p with files := (s.procs p).files ++ [some file] }) ∧
      FileSame s (s.setProc p { s.procs p with files := (s.procs p).files ++ [some file] }) :=
    inv.setProc rfl rfl (inv.leaf.homed p) (inv.space.slicesFree p) (inv.space.slicesLow p) id
  have vmas := vmas_setProc_same (s := s) (p := p)
    { s.procs p with files := (s.procs p).files ++ [some file] } rfl
  have pte := pte_setProc_same (s := s) (p := p)
    { s.procs p with files := (s.procs p).files ++ [some file] } rfl
  refine ⟨opened.1, fun settled => settled.of_life fun q => ?_, .inr opened.2,
    fun _ mode => mode.of_areas fun q a => .inl (by rw [vmas]), fun _ _ aliases => ?_, fun _ =>
    rfl⟩
  · by_cases same : q = p
    · simp [Sys.setProc, same]
    · simp [Sys.setProc, same]
  · exact aliases.of_pte pte rfl

theorem aligned_of_mem_slicePages (page : a ∈ slicePages slice) : Aligned a := by
  obtain ⟨i, -, rfl⟩ := mem_pagesFrom.mp page
  exact (Aligned.pageFloor _).add (Nat.mul_mod_left ..)

/-- A page of the image is carried in before the process has any area. -/
theorem Inv.carryPage (inv : Inv t seen k s) (active : Active s p)
    (bare : s.vmas p = []) (free : s.pte p a = none) (inside : InSlices (s.procs p) a)
    (aligned : Aligned a) (props : PageProps) (answer : Option Nat) (nodes mapped : Bool) :
    Inv t seen k (carryPage s p a props answer nodes mapped).2 ∧
      Kept s (carryPage s p a props answer nodes mapped).2 := by
  unfold Memory.carryPage
  rcases inv.zeroPage answer .elf nodes with ⟨s₁, refused, inv₁, files, only⟩ |
    ⟨f, s₁, done, inv₁, files, only, unused⟩
  · rw [refused]
    exact ⟨inv₁, .of_cacheOnly files only⟩
  rw [done]
  have kept := Kept.of_cacheOnly files only
  have bare₁ : s₁.vmas p = [] := (kept.vmas p).trans bare
  have uncovered : attrsAt t (s₁.vmas p) a = none := by rw [bare₁]; rfl
  have free₁ : s₁.pte p a = none := (only.pte p a).trans free
  obtain ⟨last, kept'⟩ :=
    inv₁.installPage free₁ (inv₁.installFresh props free₁ unused.unmapped
    unused.outside ((kept.active p).mpr active) aligned (.inr (only.procs ▸ inside))
    (by rintro ⟨attrs, covered, -⟩; exact absurd (uncovered.symm.trans covered) (by simp))
    (fun _ attrs covered => absurd (uncovered.symm.trans covered) (by simp))) mapped
  exact ⟨last, kept.trans kept'⟩

/-! ## Stores -/

/-- The file and the offset that an address in a shared mapping stands for. -/
def sharedPlace (t : Target) (s : Sys) (p address : Nat) : Option (Nat × Nat) :=
  match attrsAt t (s.vmas p) (pageFloor address) with
  | none => none
  | some attrs =>
    if attrs.type = .file ∧ attrs.mode = .shared then
      attrs.backing.bind fun backing =>
        backing.1.fInode.map fun ino => (ino, backing.2 + address % pageSize)
    else none

/-- The hardware lets a store of the process through. -/
def Stores (s : Sys) (p address : Nat) : Prop :=
  ∃ e, s.pte p (pageFloor address) = some e ∧ e.userWritable = true

theorem SharedHome.place
    (home : SharedHome t s p (pageFloor address) pg) :
    sharedPlace t s p address = some (pg.identity, pg.fileOffset + address % pageSize) := by
  obtain ⟨attrs, file, covered, type, mode, backing, inode⟩ := home
  simp [sharedPlace, covered, type, mode, backing, inode]

theorem sharedPlace_area
    (shared : sharedPlace t s p address = some place) :
    SharedArea t (s.vmas p) (pageFloor address) := by
  unfold sharedPlace at shared
  cases covered : attrsAt t (s.vmas p) (pageFloor address) with
  | none => simp [covered] at shared
  | some attrs =>
    rw [covered] at shared
    obtain ⟨kind, shared⟩ := ite_none_right_eq_some.mp shared
    exact ⟨attrs, covered, kind⟩

/-- A leaf in a shared mapping has the shared page of its place. -/
theorem LeafInv.placed (inv : LeafInv t seen s)
    (mapped : s.pte p (pageFloor address) = some e)
    (shared : sharedPlace t s p address = some place) :
    ∃ pg ∈ s.shared, pg.physicalAddress = e.frame ∧
      place = (pg.identity, pg.fileOffset + address % pageSize) := by
  obtain ⟨pg, here, frame⟩ := inv.sharedArea p _ e mapped (sharedPlace_area shared)
  have home := inv.sharedLeaf p _ e mapped pg here frame
  exact ⟨pg, here, frame, some.inj (shared.symm.trans home.place)⟩

/-- One byte of a shared page is one byte of its file. -/
theorem Inv.fileByte_page (inv : Inv t seen k s) (here : pg ∈ s.shared)
    (inside : i < pageSize) :
    fileByte s pg.identity (pg.fileOffset + i) = s.mem pg.physicalAddress i := by
  obtain ⟨-, aligned⟩ := inv.table.shape pg here
  have floor : pageFloor (pg.fileOffset + i) = pg.fileOffset := by
    unfold Aligned pageSize at *
    unfold pageFloor pageSize
    omega
  have place : (pg.fileOffset + i) % pageSize = i := by
    unfold Aligned pageSize at *
    omega
  rw [fileByte_shared (inv.table.find here) floor, place]

/-- Only this byte of its file changes with a byte of a shared page. -/
theorem Inv.fileByte_store (inv : Inv t seen k s) (here : pg ∈ s.shared) (i : Nat)
    (byte : UInt8) (other : ¬ (ino = pg.identity ∧ n = pg.fileOffset + i)) :
    fileByte (s.copyToFrame pg.physicalAddress i 1 fun _ => byte) ino n = fileByte s ino n := by
  have same : sharedFrame (s.copyToFrame pg.physicalAddress i 1 fun _ => byte) ino (pageFloor n) =
      sharedFrame s ino (pageFloor n) := rfl
  unfold fileByte
  rw [same]
  cases frame : sharedFrame s ino (pageFloor n) with
  | none => rfl
  | some f =>
    obtain ⟨pg', member, identity, offset, rfl⟩ := inv.table.sharedFrame_iff.mp frame
    dsimp only
    rw [Sys.mem_copyToFrame, if_neg]
    rintro ⟨sameFrame, low, high⟩
    obtain rfl := inv.leaf.page_unique member here sameFrame
    have place := pageFloor_add_mod n
    exact other ⟨identity.symm, by omega⟩

/-- A byte stored in a dirty shared page is a byte of its file. -/
theorem Inv.storeShared (inv : Inv t seen k s) (here : pg ∈ s.shared)
    (dirty : pg.dirty = true) (inside : i < pageSize) (byte : UInt8) :
    Inv t seen k (s.copyToFrame pg.physicalAddress i 1 fun _ => byte) ∧
      FileChange pg.identity (s.inodes pg.identity).iSize
        (fun n => if n = pg.fileOffset + i then some byte else none) s
        (s.copyToFrame pg.physicalAddress i 1 fun _ => byte) := by
  have mem : ∀ f, f ≠ pg.physicalAddress →
      (s.copyToFrame pg.physicalAddress i 1 fun _ => byte).mem f = s.mem f :=
    fun f other => Function.update_of_ne other ..
  have table : TableInv (s.copyToFrame pg.physicalAddress i 1 fun _ => byte) :=
    inv.table.congr rfl rfl
  have content : ContentInv (s.copyToFrame pg.physicalAddress i 1 fun _ => byte) := by
    refine ⟨fun pg' member clean => ?_, inv.content.covered, fun e member => ?_,
      inv.content.current⟩
    · refine (inv.content.clean pg' member clean).congr (mem _ fun same => ?_) rfl
      rw [inv.leaf.page_unique member here same, dirty] at clean
      exact absurd clean (by simp)
    · exact (inv.content.cached e member).congr (mem _ (inv.leaf.cache_apart member here).symm) rfl
  have after : Inv t seen k (s.copyToFrame pg.physicalAddress i 1 fun _ => byte) :=
    ⟨inv.refs.congr rfl (List.Perm.refl _) rfl rfl, inv.leaf.congr rfl rfl rfl,
    inv.space.congr rfl, table, content⟩
  refine ⟨after, rfl, fun n small => ?_, fun n small _ => small, fun ino other =>
    ⟨rfl, fun n _ => inv.fileByte_store here i byte fun hit => other hit.1⟩⟩
  by_cases hit : n = pg.fileOffset + i
  · have byteAt : fileByte _ pg.identity (pg.fileOffset + i) = _ := after.fileByte_page here inside
    rw [Sys.mem_copyToFrame, if_pos ⟨rfl, le_refl _, Nat.lt_succ_self _⟩] at byteAt
    simp only [hit, if_true]
    exact byteAt
  · simp only [hit, if_false]
    exact inv.fileByte_store here i byte fun both => hit both.2

/-- A store changes the file that its address stands for, if it stands for one. -/
structure StoreEffect (t : Target) (p address : Nat) (byte : UInt8) (s s' : Sys) : Prop where
  shared : Stores s p address → ∀ ino n, sharedPlace t s p address = some (ino, n) →
    FileChange ino (s.inodes ino).iSize (fun i => if i = n then some byte else none) s s'
  rest : ¬ Stores s p address ∨ sharedPlace t s p address = none → FileSame s s'

theorem IoKept.of_copy (s : Sys) (f first length : Nat) (bytes : Nat → UInt8) :
    IoKept s (s.copyToFrame f first length bytes) :=
  ⟨fun _ => rfl, fun aliases => aliases.of_pte (fun _ _ => rfl) rfl⟩

theorem MachineInv.storeByte (inv : MachineInv t leaked s) (p address : Nat) (byte : UInt8) :
    MachineInv t leaked (storeByte s p address byte) ∧ IoKept s (storeByte s p address byte) ∧
      (storeByte s p address byte).shared = s.shared ∧
      StoreEffect t p address byte s (storeByte s p address byte) := by
  by_cases stores : Stores s p address
  · obtain ⟨e, mapped, opened⟩ := stores
    have ran :
        Memory.storeByte s p address byte = s.copyToFrame e.frame (address % pageSize) 1 fun _ =>
          byte := by
      simp [Memory.storeByte, mapped, opened]
    have writable : e.props.writable = true := by
      simp only [Pte.userWritable, Bool.and_eq_true] at opened
      exact opened.2
    rw [ran]
    rcases inv.leaf.exclusive p _ e trivial mapped writable with ⟨pg, here, frame⟩ |
      ⟨outside, -⟩
    · have home := (inv.leaf.sharedLeaf p _ e mapped pg here frame).place
      have dirty := (inv.table.dirty p _ e mapped writable pg here frame).1
      obtain ⟨inv', change⟩ := inv.storeShared here dirty (Nat.mod_lt address (by decide)) byte
      rw [← frame]
      refine ⟨inv', .of_copy .., rfl, fun _ ino n place => ?_, fun none => ?_⟩
      · obtain ⟨rfl, rfl⟩ := Prod.mk.inj (some.inj (home.symm.trans place))
        exact change
      · rcases none with no | unplaced
        · exact absurd ⟨e, mapped, opened⟩ no
        · exact absurd (unplaced.symm.trans home) (by simp)
    · obtain ⟨inv', same⟩ := inv.copyToFrame outside (address % pageSize) 1 fun _ => byte
      refine ⟨inv', .of_copy .., rfl, fun _ ino n place => ?_, fun _ => same⟩
      obtain ⟨pg, here, frame, -⟩ := inv.leaf.placed mapped place
      exact absurd (frame ▸ mem_tableFrames_shared here) outside
  · have ran : Memory.storeByte s p address byte = s := by
      unfold Memory.storeByte
      cases mapped : s.pte p (pageFloor address) with
      | none => rfl
      | some e => exact if_neg fun opened => stores ⟨e, mapped, opened⟩
    rw [ran]
    exact ⟨inv, (Kept.refl s).io, rfl, fun yes => absurd yes stores, fun _ => .refl s⟩

/-! ## Every step -/

/-- Calls of a process that is not alive do nothing. -/
theorem Stepped.when [Decidable alive]
    (live : alive → ∃ leaked', MachineInv t leaked' after ∧
      Stepped t op leaked leaked' s after)
    (inv : MachineInv t leaked s) :
    ∃ leaked', MachineInv t leaked' (if alive then after else s) ∧
      Stepped t op leaked leaked' s (if alive then after else s) := by
  split
  · rename_i yes
    exact live yes
  · exact ⟨leaked, inv, .refl s⟩

theorem MachineInv.exec (inv : MachineInv t leaked s) (lib : PagingLibrary) (op : Op) :
    ∃ leaked', MachineInv t leaked' (exec lib t s op) ∧
      Stepped t op leaked leaked' s (Memory.exec lib t s op) := by
  cases op with
  | spawn p heapbtm slices =>
    refine Stepped.when (fun can => ⟨leaked, inv.spawn can.1 heapbtm ?_⟩) inv
    intro slice member a page
    have low := List.all_eq_true.mp (List.all_eq_true.mp can.2 slice member) a page
    simpa using low
  | openFile p file => exact Stepped.when (fun _ => ⟨leaked, inv.openFile p file⟩) inv
  | carry p a writable answer nodes mapped =>
    refine Stepped.when (fun can => ?_) inv
    obtain ⟨live, bare, free, inside⟩ := can
    obtain ⟨slice, member, within⟩ := List.any_eq_true.mp inside
    simp only [Bool.and_eq_true, bne_iff_ne, ne_eq, List.contains_iff_mem] at within
    obtain ⟨next, kept⟩ := inv.carryPage (.inl live) bare (isNone_iff_eq_none.mp free)
      ⟨slice, member, within⟩ (aligned_of_mem_slicePages within.2)
      { present := true, userAccess := true, writable } answer nodes mapped
    exact ⟨leaked, next, .of_kept kept⟩
  | mmap p len call outcome =>
    refine Stepped.when (fun live => ?_) inv
    obtain ⟨next, files, life, aliases, mode⟩ := inv.syscMmap (.inl live) len call outcome
    exact ⟨leaked, next, fun settled => settled.of_life life, .inr files, mode,
      fun _ _ => aliases, fun _ => rfl⟩
  | mprotect p address len prot outcome =>
    refine Stepped.when (fun live => ?_) inv
    obtain ⟨next, files, life, mode, aliases⟩ :=
      inv.syscSmap (.inl live) address len prot outcome
    exact ⟨leaked, next, fun settled => settled.of_life life, .inr files, fun _ => mode,
      fun keeps _ => aliases keeps, fun _ => rfl⟩
  | munmap p address len outcome =>
    refine Stepped.when (fun live => ?_) inv
    obtain ⟨_, s', ran, next, trimmed, -⟩ :=
      inv.unmapVmaRange (.inl live) address len false outcome
    rw [syscUmap, ran]
    exact ⟨leaked, next, fun settled => settled.of_life trimmed.life, .inr trimmed.files,
      fun _ mode => mode.of_areas trimmed.areas, fun _ _ => trimmed.aliases, fun _ => rfl⟩
  | fault p address access protectionFault outcome =>
    refine Stepped.when (fun live => ?_) inv
    obtain ⟨next, kept⟩ :=
      inv.resolveVmaFault address access protectionFault outcome (.inl live)
    exact ⟨leaked, next, .of_kept kept⟩
  | prefault p address access outcome =>
    refine Stepped.when (fun live => ?_) inv
    obtain ⟨next, kept⟩ :=
      inv.ensureVmaPage access outcome (.inl live) (Aligned.pageFloor address)
    exact ⟨leaked, next, .of_kept kept⟩
  | fork p c outcome =>
    refine Stepped.when (fun can => ?_) inv
    obtain ⟨leaked', next, forked, sound⟩ := inv.createFork lib can.1 can.2 outcome
    refine ⟨leaked', next, fun settled q => ?_, .inr forked.files, fun _ => forked.mode,
      fun _ succeeds => (sound succeeds).2, fun succeeds => (sound succeeds).1⟩
    by_cases child : q = c
    · exact child ▸ forked.settled
    · exact forked.life q child ▸ settled q
  | exit p outcome =>
    refine Stepped.when (fun live => ?_) inv
    obtain ⟨leaked', next, ended, sound⟩ := inv.exitCleanup (.inl live) outcome
    refine ⟨leaked', next, fun settled q => ?_, .inr ended.files,
      fun _ mode => mode.of_areas ended.areas, fun _ succeeds => (sound succeeds).2, fun succeeds =>
      (sound succeeds).1⟩
    by_cases own : q = p
    · rw [own, ended.dead]
      decide
    · exact ended.life q own ▸ settled q
  | store p address byte =>
    obtain ⟨next, kept, -⟩ := inv.storeByte p address byte
    exact ⟨leaked, next, .of_io trivial kept⟩
  | load p address => exact ⟨leaked, inv, .refl s⟩
  | read ino position count fill =>
    obtain ⟨_, s', ran, next, files, only, -⟩ :=
      inv.readCachedRegularFile ino position count fill
    have done : Memory.exec lib t s (.read ino position count fill) = s' := congrArg Prod.snd ran
    rw [done]
    exact ⟨leaked, next, .of_kept (.of_cacheOnly files only)⟩
  | write ino position data outcome =>
    obtain ⟨next, kept, -⟩ := inv.writeFile ino position data outcome
    exact ⟨leaked, next, .of_io trivial kept⟩
  | truncate ino size outcome =>
    obtain ⟨next, kept, -⟩ := inv.truncateInode ino size outcome
    exact ⟨leaked, next, .of_io trivial kept⟩
  | flush ino fileOffset outcome =>
    obtain ⟨_, s', ran, next, files, only, -⟩ := inv.flushSharedFilePage ino fileOffset outcome
    have done : Memory.exec lib t s (.flush ino fileOffset outcome) = s' := congrArg Prod.snd ran
    rw [done]
    exact ⟨leaked, next, .of_kept (.of_flushOnly files only)⟩
  | reclaimCache limit =>
    obtain ⟨next, files⟩ := inv.detachInactiveReadyPages limit
    exact ⟨leaked, next, .of_kept (.of_cacheOnly files (.detachInactiveReadyPages s limit))⟩
  | reclaimShared limit =>
    obtain ⟨next, files⟩ := inv.detachInactiveSharedPages limit
    exact ⟨leaked, next, .of_kept (.of_sharedOnly files (.detachInactiveSharedPages s limit))⟩
  | mapShared p a access flags fileOffset ino outcome =>
    refine Stepped.when (fun can => ?_) inv
    obtain ⟨live, aligned, allowed⟩ := can
    simp only [allowsAccess, Bool.and_eq_true] at allowed
    obtain ⟨next, kept⟩ :=
      inv.mapSharedFileVmaPage access flags fileOffset ino outcome (.inl live)
      aligned allowed.1.1 allowed.1.2
    exact ⟨leaked, next, .of_kept kept⟩
  | registerAlias ino fileOffset p a frame node =>
    refine Stepped.when (fun _ => ?_) inv
    obtain ⟨next, kept⟩ := inv.registerSharedFileAlias ino fileOffset p a frame node
    exact ⟨leaked, next, .of_kept kept⟩
  | unregisterAlias identity fileOffset p a =>
    refine Stepped.when (fun free => ?_) inv
    obtain ⟨next, files⟩ := inv.unregisterSharedFileAlias identity fileOffset
      (isNone_iff_eq_none.mp free)
    refine ⟨leaked, next, fun settled => settled.of_life fun q => ?_, .inr files,
      fun _ mode => mode.of_areas fun q b => .inl ?_, fun _ _ aliases => ?_, fun _ => rfl⟩
    · rw [procs_unregisterSharedFileAlias]
    · unfold Sys.vmas
      rw [procs_unregisterSharedFileAlias]
    · have unlisted : ∀ pg ∈ s.shared, (p, a) ∉ pg.aliases := by
        intro pg member listed
        obtain ⟨e, mapped, -⟩ := aliases.leaf pg member _ listed (by simp)
        exact absurd ((isNone_iff_eq_none.mp free).symm.trans mapped) (by simp)
      refine AliasInv.strike ⟨fun pg member l listed _ => ?_, aliases.once⟩ inv.table
        fun pg member listed => absurd listed (unlisted pg member)
      exact aliases.leaf pg member l listed (by simp)

end Step

end Mecocoa.Memory
