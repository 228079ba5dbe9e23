import Mecocoa.Memory.RegistryRuns
import Mecocoa.Task.StepInv

/-! # Runs of the machine

What holds in every state that processes can bring the machine to, from a boot
with nothing but files on.
-/

namespace Mecocoa.Memory

open Proc Option List

open Lib (Run holders)

/-- A step that is taken only where it meets a condition. -/
def StepsWhen (ok : Sys → Op → Prop) (lib : PagingLibrary) (t : Target) (s : Sys) (op : Op)
    (s' : Sys) : Prop :=
  ok s op ∧ Steps lib t s op s'

section Runs

variable {leaked : Nat → Nat}

theorem PoolOk.empty : PoolOk ⟨fun _ => false, fun _ => 0, 0, []⟩ where
  issued := by simp
  distinct := by simp
  returnedOnce := nodup_nil
  returnedIssued := by simp
  complete := by simp

theorem MachineInv.boot (t : Target) (inodes : Nat → Inode) :
    MachineInv t (fun _ => 0) (Sys.boot inodes) where
  refs := by
    have bare : ∀ f, holders (leafFrame (Sys.boot inodes)) f = ∅ := fun f => by
      ext l
      simp [holders, leafFrame, Sys.pte, Sys.boot, empty]
    refine ⟨fun f =>
      ⟨by simp [bare], by simp [Sys.boot],
        fun _ => ?_, by simp [Sys.boot], by simp, by simp [Sys.boot]⟩,
      nodup_nil, PoolOk.empty⟩
    simp only [mappings, bare]
    simp [caches, tableFrames, Sys.boot]
  leaf :=
    { aligned := by simp [Sys.pte, Sys.boot, empty]
      homed := by simp [Sys.pte, Sys.boot, empty]
      permitted := by simp [Sys.pte, Sys.boot, empty]
      tables := nodup_nil
      sharedLeaf := by simp [Sys.boot]
      sharedArea := by simp [Sys.pte, Sys.boot, empty]
      exclusive := by simp [Sys.pte, Sys.boot, empty] }
  space :=
    { areas := fun _ => VmasOk.nil
      bounded := by simp [Sys.vmas, Sys.boot, empty]
      plain := fun _ _ _ covered => absurd covered (by simp [Sys.vmas, Sys.boot, empty, attrsAt])
      slicesFree := by simp [InSlices, Sys.boot, empty]
      slicesLow := by simp [InSlices, Sys.boot, empty]
      gone := fun _ _ => ⟨rfl, fun _ => rfl⟩ }
  table :=
    { keys := List.Pairwise.nil
      shape := by simp [Sys.boot]
      pinned := by simp [Sys.boot]
      dirty := by simp [Sys.boot] }
  content := ⟨by simp [Sys.boot], by simp [Sys.boot], by simp [Sys.boot], by simp [Sys.boot]⟩

theorem Settled.boot (inodes : Nat → Inode) : Settled (Sys.boot inodes) := fun _ => by
  simp [Sys.boot, empty]

theorem machineInv_run (run : Run (Steps lib t) (Sys.boot inodes) ops s) :
    (∃ leaked, MachineInv t leaked s) ∧ Settled s := by
  refine run.preserves (P := fun s => (∃ leaked, MachineInv t leaked s) ∧ Settled s) ?_
    ⟨⟨_, .boot t inodes⟩, .boot inodes⟩
  rintro s op s' ⟨⟨leaked, inv⟩, settled⟩ rfl
  obtain ⟨leaked', next, stepped⟩ := inv.exec lib op
  exact ⟨⟨leaked', next⟩, stepped.settled settled⟩

/-- In every reachable state leaves fit areas, and clean pages hold their files. -/
theorem machine_stays_consistent (ops : List Op) :
    let s := ops.foldl (exec lib t) (Sys.boot inodes)
    SpaceInv t s ∧ LeafInv t (fun _ => True) s ∧ TableInv s ∧ ContentInv s ∧ Settled s := by
  obtain ⟨⟨_, inv⟩, settled⟩ :=
    machineInv_run (Run.foldl (exec lib t) (Sys.boot inodes) ops)
  exact ⟨inv.space, inv.leaf, inv.table, inv.content, settled⟩

/-- Along steps that change no file, files stay as they are. -/
theorem MachineInv.fileSame_run (inv : MachineInv t leaked s) (run : Run (Steps lib t) s ops s')
    (still : ∀ op ∈ ops, ¬ op.changesFile) :
    (∃ leaked', MachineInv t leaked' s') ∧ FileSame s s' := by
  refine run.preserves_when (P := fun s' => (∃ leaked', MachineInv t leaked' s') ∧
    FileSame s s')
    (C := fun op => ¬ op.changesFile) ?_ still ⟨⟨leaked, inv⟩, .refl s⟩
  rintro mid op s' quiet ⟨⟨leaked', inv'⟩, same⟩ rfl
  obtain ⟨leaked'', next, stepped⟩ := inv'.exec lib op
  rcases stepped.files with changes | files
  · exact absurd changes quiet
  · exact ⟨⟨leaked'', next⟩, same.trans files⟩

/-- What a read gives is what is in the file. -/
theorem MachineInv.read (inv : MachineInv t leaked s) (ino position count : Nat)
    (fill : Nat → FillOutcome) : ∃ n, n ≤ (s.inodes ino).iSize - position ∧
      (readCachedRegularFile t s ino position count fill).1.getD [] =
      fileBytes s ino position n := by
  obtain ⟨result, s', ran, -, -, -, effect⟩ := inv.readCachedRegularFile ino position count fill
  obtain ⟨n, bound, bytes, -⟩ := effect.bytes
  refine ⟨n, by omega, ?_⟩
  rw [ran]
  exact bytes

/-! ## Private pages -/

/-- A leaf that its process may write to, in a private area. -/
structure PrivateWritable (t : Target) (s : Sys) (p a : Nat) (e : Pte) : Prop where
  mapped : s.pte p a = some e
  writable : e.userWritable = true
  area : ∃ attrs, attrsAt t (s.vmas p) a = some attrs ∧ attrs.mode = .priv

/-- Nobody else has the page of the leaf. -/
structure Unshared (s : Sys) (p a : Nat) (e : Pte) : Prop where
  managed : (s.managed e.frame).isSome
  unique : ∀ q b e', s.pte q b = some e' → e'.frame = e.frame → q = p ∧ b = a
  uncached : ∀ entry ∈ s.cache, entry.physicalAddress ≠ e.frame
  unlisted : ∀ pg ∈ s.shared, pg.physicalAddress ≠ e.frame

theorem MachineInv.unshared (inv : MachineInv t leaked s)
    (leaf : PrivateWritable t s p a e) : Unshared s p a e := by
  obtain ⟨mapped, writable, attrs, covered, mode⟩ := leaf
  have mayWrite : e.props.writable = true := by
    simp only [Pte.userWritable, Bool.and_eq_true] at writable
    exact writable.2
  have own : e.frame ∉ tableFrames s ∧ ∀ q b, True → leafFrame s (q, b) = some e.frame →
      q = p ∧ b = a := by
    rcases inv.leaf.exclusive p a e trivial mapped mayWrite with ⟨pg, here, frame⟩ | exclusive
    · obtain ⟨attrs', -, covered', -, mode', -⟩ :=
        inv.leaf.sharedLeaf p a e mapped pg here frame
      obtain rfl := some.inj (covered.symm.trans covered')
      exact absurd (mode.symm.trans mode') (by decide)
    · exact exclusive
  exact
    { managed := inv.refs.leafManaged (p, a) _ (by simp [leafFrame, mapped])
      unique := fun q b e' here same => own.2 q b trivial (by simp [leafFrame, here, same])
      uncached := fun entry member same => own.1 (same ▸ mem_tableFrames_cache member)
      unlisted := fun pg member same => own.1 (same ▸ mem_tableFrames_shared member) }

/-- A private page that a process can write to is its own: no other leaf and no cache has it,
so that a store there shows neither in another process nor in a file. -/
theorem private_writable_page_unshared (run : Run (Steps lib t) (Sys.boot inodes) ops s) {p a : Nat}
    {e : Pte} (leaf : PrivateWritable t s p a e) :
    Unshared s p a e ∧ ∀ address byte, pageFloor address = a →
      (∀ q address', q ≠ p → loadByte (exec lib t s (.store p address byte)) q address' =
        loadByte s q address') ∧
      ∀ ops' s', Run (Steps lib t) (exec lib t s (.store p address byte)) ops' s' →
        (∀ op ∈ ops', ¬ op.changesFile) → ∀ ino position count fill, ∃ n,
          (readCachedRegularFile t s' ino position count fill).1.getD [] =
            fileBytes s ino position n ∧ n ≤ (s.inodes ino).iSize - position := by
  obtain ⟨⟨leaked, inv⟩, -⟩ := machineInv_run run
  have alone := inv.unshared leaf
  refine ⟨alone, ?_⟩
  rintro address byte rfl
  have stored :
      exec lib t s (.store p address byte) = s.copyToFrame e.frame (address % pageSize) 1 fun _ =>
        byte := by
    simp [exec, storeByte, leaf.mapped, leaf.writable]
  refine ⟨fun q address' other => ?_, fun ops' s' later still ino position count fill => ?_⟩
  · rw [stored]
    unfold loadByte
    have leaves : (s.copyToFrame e.frame (address % pageSize) 1 fun _ => byte).pte q
        (pageFloor address') = s.pte q (pageFloor address') := rfl
    rw [leaves]
    cases here : s.pte q (pageFloor address') with
    | none => rfl
    | some e' =>
      have apart : e'.frame ≠ e.frame := fun same => other (alone.unique q _ e' here same).1
      simp only [Sys.mem_copyToFrame, apart, false_and, if_false]
  · have outside : e.frame ∉ tableFrames s := by
      intro member
      cases mem_append.mp member with
      | inl cached =>
        obtain ⟨entry, here, same⟩ := mem_map.mp cached
        exact alone.uncached entry here same
      | inr listed =>
        obtain ⟨pg, here, same⟩ := mem_map.mp listed
        exact alone.unlisted pg here same
    obtain ⟨inv₁, same₁⟩ := inv.copyToFrame outside (address % pageSize) 1 fun _ => byte
    rw [stored] at later
    obtain ⟨⟨leaked', inv₂⟩, same₂⟩ := MachineInv.fileSame_run inv₁ later still
    have same := same₁.trans same₂
    obtain ⟨n, bound, bytes⟩ := inv₂.read ino position count fill
    have size := (same ino).1
    rw [size] at bound
    refine ⟨n, ?_, bound⟩
    rw [bytes]
    by_cases inside : position ≤ (s.inodes ino).iSize
    · exact same.fileBytes (by omega)
    · have none : n = 0 := by omega
      simp [none, fileBytes]

def sampleInodes : Nat → Inode := fun _ => ⟨1, 0x8000, true, true, fun _ => 0⟩

def samplePin : PinOutcome := ⟨true, fun _ _ => true, true, true⟩

/-- A fault in which every allocation gives the page it is offered. -/
def sampleFault (page : Nat) : FaultOutcome where
  readFile := true
  flush := sampleFlush
  fill := ⟨true, some page, none, true, true⟩
  page := some page
  adopted := true
  aliasNode := true
  mapped := true
  sharedSetup := true
  copyPage := some (page + pageSize)
  copied := true
  copyAdopted := true
  copySetup := true

def readWrite : Prot := ⟨true, true, false⟩

/-- A process maps one anonymous page and touches it. -/
def touchAnonymous : List Op :=
  [.spawn 0 0x10000 [], .mmap 0 0x1000 (.request 0 readWrite .priv false true none 0)
  ⟨true, samplePin, fun _ => true⟩,
    .fault 0 0x10000 .write false (sampleFault 0x200000)]

/-- Where the steps lead from a boot. -/
def sampleRun (ops : List Op) : Sys :=
  ops.foldl (exec PagingLibrary.plain sampleTarget) (Sys.boot sampleInodes)

theorem sampleRun_run (ops : List Op) :
    Run (Steps PagingLibrary.plain sampleTarget) (Sys.boot sampleInodes) ops (sampleRun ops) :=
  Run.foldl (exec PagingLibrary.plain sampleTarget) (Sys.boot sampleInodes) ops

def sampleTeardown : TeardownOutcome := ⟨sampleUnmap, fun _ => true⟩

/-- A fork in which everything succeeds and no page has to be copied. -/
def sampleFork : ForkOutcome where
  task := true
  deviceDecode := fun _ => true
  device := fun _ => ⟨0, true⟩
  clone := fun _ => true
  decode := fun _ => true
  record := fun _ => true
  downgrade := fun _ => true
  map := fun _ => true
  aliasNode := fun _ => true
  page := fun _ => none
  adopted := fun _ => true
  slicePage := fun _ => none
  sliceAdopted := fun _ => true
  sliceMap := fun _ => true
  pins := true
  restore := fun _ => true
  teardown := sampleTeardown

/-- The process forks and writes to its page, which is copied for it. -/
def forkAndWrite : List Op :=
  touchAnonymous ++ [.fork 0 1 sampleFork, .fault 0 0x10000 .write true (sampleFault 0x300000)]

def copiedLeaf : Pte :=
  ⟨0x301000, { present := true, userAccess := true, writable := true, nonexecutable := true }⟩

theorem private_writable_page_unshared_copied :
    ((sampleRun forkAndWrite).pte 1 0x10000).map Pte.frame = some 0x200000 ∧
      PrivateWritable sampleTarget (sampleRun forkAndWrite) 0 0x10000 copiedLeaf ∧
      Unshared (sampleRun forkAndWrite) 0 0x10000 copiedLeaf := by
  have leaf : PrivateWritable sampleTarget (sampleRun forkAndWrite) 0 0x10000 copiedLeaf :=
    ⟨by decide +kernel, by decide, _, rfl, by decide +kernel⟩
  exact ⟨by decide +kernel, leaf,
    (private_writable_page_unshared (sampleRun_run forkAndWrite) leaf).1⟩

/-! ## Reference counts -/

/-- The leaves of live processes on a page. -/
def liveLeaves (s : Sys) (f : Nat) : Set (Nat × Nat) :=
  {l | (s.procs l.1).life = .live ∧ leafFrame s l = some f}

/-- The mapping count of a page is the number of its leaves in live processes, and the
allocator has back, once, just the pages that nothing refers to. -/
structure Counted (s : Sys) : Prop where
  finite : ∀ f, (liveLeaves s f).Finite
  mapping : ∀ f page, s.managed f = some page → page.mappingRefs = (liveLeaves s f).ncard
  kept : ∀ f page, s.managed f = some page → page.mappingRefs ≠ 0 ∨ page.cacheRefs ≠ 0
  outstanding : ∀ f, s.pool.owned f = true ↔ (s.managed f).isSome
  returned : ∀ n < s.pool.next, n ∈ s.pool.returned ↔ ¬ ∃ f, s.pool.owned f = true ∧
    s.pool.serial f = n
  once : s.pool.returned.Nodup

theorem MachineInv.counted (inv : MachineInv t (fun _ => 0) s) (settled : Settled s) :
    Counted s := by
  have live : ∀ f, liveLeaves s f = holders (leafFrame s) f := by
    intro f
    ext l
    refine ⟨fun here => here.2, fun here => ⟨?_, here⟩⟩
    by_contra dead
    have inactive : ¬ Active s l.1 := fun active => active.elim dead (settled l.1)
    have none := (inv.space.gone l.1 inactive).2 l.2
    have mapped : leafFrame s l = some f := here
    simp [leafFrame, none] at mapped
  refine ⟨fun f => live f ▸ inv.refs.finite f, fun f page managed => ?_,
    fun f page managed => ((inv.refs.balanced f).counts page managed).2.2, fun f =>
    ?_, fun n issued => ⟨?_, fun absent => ?_⟩, inv.refs.pool.returnedOnce⟩
  · rw [live, inv.refs.mapping f page managed]
    rfl
  · simpa using inv.refs.owned f
  · rintro back ⟨f, owned, rfl⟩
    exact (inv.refs.pool.issued f owned).2 back
  · exact (inv.refs.pool.complete n issued).resolve_right absent

/-- Counts are right after every operation of a run in which teardown never fails. -/
theorem reference_counts_exact (run : Run (Steps lib t) (Sys.boot inodes) ops s)
    (tearsDown : ∀ op ∈ ops, op.TearsDown) : Counted s := by
  have all : MachineInv t (fun _ => 0) s ∧ Settled s := by
    refine run.preserves_when (P := fun s => MachineInv t (fun _ => 0) s ∧ Settled s)
      (C := Op.TearsDown)
      ?_ tearsDown ⟨.boot t inodes, .boot inodes⟩
    rintro s op s' sound ⟨inv, settled⟩ rfl
    obtain ⟨leaked', next, stepped⟩ := inv.exec lib op
    rw [stepped.balance sound] at next
    exact ⟨next, stepped.settled settled⟩
  exact all.1.counted all.2

theorem sampleTeardown_succeeds : sampleTeardown.Succeeds :=
  ⟨rfl, fun _ => rfl, fun _ => rfl, fun _ => rfl⟩

theorem reference_counts_exact_exit :
    (∀ op ∈ touchAnonymous ++ [.exit 0 sampleTeardown], op.TearsDown) ∧
      Counted (sampleRun (touchAnonymous ++ [.exit 0 sampleTeardown])) := by
  have sound : ∀ op ∈ touchAnonymous ++ [.exit 0 sampleTeardown], op.TearsDown := by
    simp [touchAnonymous, Op.TearsDown, sampleTeardown_succeeds]
  exact ⟨sound, reference_counts_exact (sampleRun_run _) sound⟩

/-- Teardown cannot get the memory for its plan. -/
def starvedTeardown : TeardownOutcome := ⟨{ sampleUnmap with plans := false }, fun _ => true⟩

/-- The page of a process that could not be torn down stays counted and is never returned. -/
theorem reference_counts_starved : let s := sampleRun (touchAnonymous ++ [.exit 0 starvedTeardown])
    Run (Steps PagingLibrary.plain sampleTarget) (Sys.boot sampleInodes)
        (touchAnonymous ++ [.exit 0 starvedTeardown]) s ∧
      s.managed 0x200000 = some ⟨.anonymous, 1, 0⟩ ∧ liveLeaves s 0x200000 = ∅ ∧
      s.pool.owned 0x200000 = true ∧ ¬ Counted s := by
  intro s
  have managed : s.managed 0x200000 = some ⟨.anonymous, 1, 0⟩ := by decide +kernel
  have dead : (s.procs 0).life = .dead := by decide +kernel
  have empty : liveLeaves s 0x200000 = ∅ := by
    refine Set.eq_empty_iff_forall_notMem.mpr ?_
    rintro ⟨q, a⟩ ⟨live, -⟩
    cases q with
    | zero => exact absurd (dead.symm.trans live) (by decide)
    | succ q =>
      have unborn : s.procs (q + 1) = .empty .unborn := rfl
      rw [unborn] at live
      exact absurd live (by decide)
  refine ⟨sampleRun_run _, managed, empty, by decide +kernel, fun counted => ?_⟩
  have count := counted.mapping _ _ managed
  rw [empty] at count
  simp at count

/-! ## Open modes -/

/-- Every writable shared file mapping has its file opened for writing, and a store reaches a
file only through such a mapping. -/
structure WritesOpened (lib : PagingLibrary) (t : Target) (s : Sys) : Prop where
  areas : ModeInv t s
  stores : ∀ p address byte ino n, n < (s.inodes ino).iSize →
    fileByte (exec lib t s (.store p address byte)) ino n ≠ fileByte s ino n →
    ∃ attrs file offset, attrsAt t (s.vmas p) (pageFloor address) = some attrs ∧
      attrs.backing = some (file, offset) ∧ file.fInode = some ino ∧ file.fMode ≠ .rdonly

theorem sharedPlace_some (place : sharedPlace t s p address = some (ino, n)) :
    ∃ attrs file offset, attrsAt t (s.vmas p) (pageFloor address) = some attrs ∧
      attrs.type = .file ∧
      attrs.mode = .shared ∧ attrs.backing = some (file, offset) ∧ file.fInode = some ino := by
  obtain ⟨attrs, covered, type, mode⟩ := sharedPlace_area place
  unfold sharedPlace at place
  simp only [covered, type, mode, and_self, if_true] at place
  obtain ⟨⟨file, offset⟩, backing, found⟩ := bind_eq_some_iff.mp place
  obtain ⟨_, inode, same⟩ := map_eq_some_iff.mp found
  obtain ⟨rfl, -⟩ := Prod.mk.inj same
  exact ⟨attrs, file, offset, covered, type, mode, backing, inode⟩

theorem MachineInv.writesOpened (inv : MachineInv t leaked s) (mode : ModeInv t s) :
    WritesOpened lib t s := by
  refine ⟨mode, fun p address byte ino n small differs => ?_⟩
  obtain ⟨-, -, -, effect⟩ := inv.storeByte p address byte
  have differs' : fileByte (Memory.storeByte s p address byte) ino n ≠ fileByte s ino n := differs
  by_cases stores : Stores s p address
  · cases place : sharedPlace t s p address with
    | none => exact absurd ((effect.rest (.inr place) ino).2 n small) differs'
    | some target =>
      obtain ⟨ino', n'⟩ := target
      have change := effect.shared stores ino' n' place
      obtain ⟨attrs, file, offset, covered, type, shared, backing, inode⟩ :=
        sharedPlace_some place
      by_cases same : ino = ino'
      · subst same
        obtain ⟨e, mapped, opened⟩ := stores
        simp only [Pte.userWritable, Bool.and_eq_true] at opened
        have writable := inv.leaf.permitted p _ e attrs mapped opened.2 covered
        obtain ⟨file', offset', backing', mayWrite⟩ :=
          mode p _ attrs covered type shared writable
        obtain ⟨rfl, rfl⟩ := Prod.mk.inj (some.inj (backing.symm.trans backing'))
        exact ⟨attrs, file, offset, covered, backing, inode, mayWrite⟩
      · exact absurd ((change.others ino same).2 n small) differs'
  · exact absurd ((effect.rest (.inl stores) ino).2 n small) differs'

/-- In a run in which only files opened for writing are mapped shared and writable, every such
mapping is of a file opened for writing. -/
theorem shared_writable_areas_opened_for_writing
    (run : Run (StepsWhen (fun s op => op.OpensWritable t s) lib t) (Sys.boot inodes) ops s) :
    WritesOpened lib t s := by
  have all : (∃ leaked, MachineInv t leaked s) ∧ ModeInv t s := by
    refine run.preserves (P := fun s => (∃ leaked, MachineInv t leaked s) ∧ ModeInv t s) ?_
      ⟨⟨_, .boot t inodes⟩, fun p a attrs covered => absurd covered (by
        simp [Sys.vmas, Sys.boot, empty, attrsAt])⟩
    rintro s op s' ⟨⟨leaked, inv⟩, mode⟩ ⟨opens, rfl⟩
    obtain ⟨leaked', next, stepped⟩ := inv.exec lib op
    exact ⟨⟨leaked', next⟩, stepped.mode opens mode⟩
  obtain ⟨⟨leaked, inv⟩, mode⟩ := all
  exact inv.writesOpened mode

/-- A process opens a file and maps a page of it, shared, to read and write. -/
def mapShared (mode : AccessMode) : List Op :=
  [.spawn 0 0x10000 [], .openFile 0 ⟨some 7, mode⟩,
  .mmap 0 0x1000 (.request 0 readWrite .shared false false (some 0) 0)
      ⟨true, samplePin, fun _ => true⟩]

theorem shared_writable_areas_opened_for_writing_rdwr :
    Run (StepsWhen (fun s op => op.OpensWritable sampleTarget s) .plain sampleTarget)
        (Sys.boot sampleInodes) (mapShared .rdwr) (sampleRun (mapShared .rdwr)) ∧
      WritesOpened .plain sampleTarget (sampleRun (mapShared .rdwr)) := by
  have opens : OpenedForWriting sampleTarget
      (sampleRun [.spawn 0 0x10000 [], .openFile 0 ⟨some 7, .rdwr⟩]) 0
      (.request 0 readWrite .shared false false (some 0) 0) := by
    intro plan fd file planned descriptor found _ _
    obtain rfl := some.inj (planned.symm.trans rfl)
    obtain rfl := some.inj (descriptor.symm.trans rfl)
    obtain rfl := some.inj (some.inj (found.symm.trans rfl))
    decide
  have run : Run (StepsWhen (fun s op => op.OpensWritable sampleTarget s) .plain sampleTarget)
      (Sys.boot sampleInodes) (mapShared .rdwr) (sampleRun (mapShared .rdwr)) :=
    .cons ⟨trivial, rfl⟩ (.cons ⟨trivial, rfl⟩ (.cons ⟨opens, rfl⟩ (.nil _)))
  exact ⟨run, shared_writable_areas_opened_for_writing run⟩

/-- A file opened for reading only is mapped to be written to, and written to. -/
theorem shared_writable_areas_rdonly :
    let s := sampleRun (mapShared .rdonly ++ [.fault 0 0x10000 .write false (sampleFault 0x200000)])
    Run (Steps .plain sampleTarget) (Sys.boot sampleInodes)
        (mapShared .rdonly ++ [.fault 0 0x10000 .write false (sampleFault 0x200000)]) s ∧
      (s.procs 0).files = [some ⟨some 7, .rdonly⟩] ∧
      fileByte (exec .plain sampleTarget s (.store 0 0x10000 1)) 7 0 ≠ fileByte s 7 0 ∧
      ¬ WritesOpened .plain sampleTarget s := by
  intro s
  refine ⟨sampleRun_run _, by decide +kernel, by decide +kernel, fun opened => ?_⟩
  obtain ⟨file, offset, backing, mayWrite⟩ := opened.areas 0 0x10000 _ rfl (by decide +kernel)
    (by decide +kernel) (by decide +kernel)
  have same : (file, offset) = (⟨some 7, .rdonly⟩, 0) :=
    some.inj (backing.symm.trans (by decide +kernel))
  obtain ⟨rfl, -⟩ := Prod.mk.inj same
  exact mayWrite rfl

end Runs

end Mecocoa.Memory
