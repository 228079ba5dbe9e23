import Mecocoa.File.Overlay

/-! # Writing, truncating and reading keep the invariant

Each call is summed up by what it does to the content of files: a write and a
truncation change one file as they report, a read changes none and gives the
bytes that are there.
-/

namespace Mecocoa.Memory

open Memory Nat List

variable {position rounds count : Nat} {read : List UInt8}

section Io

variable {ino size : Nat}

/-! ## Whole calls -/

/-- What a call that changes one file does to the content of files. -/
structure FileChange (ino size : Nat) (changed : Nat → Option UInt8) (s s' : Sys) : Prop where
  size' : (s'.inodes ino).iSize = size
  bytes : ∀ n < size, fileByte s' ino n = (changed n).getD (fileByte s ino n)
  below : ∀ n < size, changed n = none → n < (s.inodes ino).iSize
  others : ∀ i, i ≠ ino → (s'.inodes i).iSize = (s.inodes i).iSize ∧
    ∀ n < (s.inodes i).iSize, fileByte s' i n = fileByte s i n

/-- A process lost nothing but write permission, and the alias lists are still right. -/
structure IoKept (s s' : Sys) : Prop where
  rest : ∀ p, SameProc (s.procs p) (s'.procs p)
  aliases : AliasInv [] s → AliasInv [] s'

theorem Kept.io (kept : Kept s s') : IoKept s s' := ⟨kept.rest, kept.aliases⟩

theorem IoKept.trans (first : IoKept s mid) (second : IoKept mid s') : IoKept s s' :=
  ⟨fun p => (first.rest p).trans (second.rest p), fun inv => second.aliases (first.aliases inv)⟩

namespace FileChange

theorem of_same (same : FileSame s s') (ino : Nat) :
    FileChange ino (s.inodes ino).iSize (fun _ => none) s s' :=
  ⟨(same ino).1, (same ino).2, fun _ small _ => small, fun i _ => same i⟩

theorem before (same : FileSame s mid) (change : FileChange ino size changed mid s') :
    FileChange ino size changed s s' where
  size' := change.size'
  bytes := by
    intro n small
    rw [change.bytes n small]
    cases new : changed n with
    | some b => rfl
    | none => exact (same ino).2 n ((same ino).1 ▸ change.below n small new)
  below := fun n small new => (same ino).1 ▸ change.below n small new
  others := by
    intro i other
    obtain ⟨size, bytes⟩ := change.others i other
    obtain ⟨size', bytes'⟩ := same i
    exact ⟨size.trans size', fun n small => (bytes n (size' ▸ small)).trans (bytes' n small)⟩

theorem after (change : FileChange ino size changed s mid) (same : FileSame mid s') :
    FileChange ino size changed s s' where
  size' := (same ino).1.trans change.size'
  bytes := fun n small =>
    ((same ino).2 n (change.size'.symm ▸ small)).trans (change.bytes n small)
  below := change.below
  others := by
    intro i other
    obtain ⟨size, bytes⟩ := change.others i other
    obtain ⟨size', bytes'⟩ := same i
    exact ⟨size'.trans size, fun n small => (bytes' n (size ▸ small)).trans (bytes n small)⟩

theorem congr (change : FileChange ino size changed s s')
    (same : ∀ n < size, changed' n = changed n) : FileChange ino size changed' s s' :=
  ⟨change.size', fun n small => by rw [same n small]; exact change.bytes n small,
    fun n small new => change.below n small (same n small ▸ new), change.others⟩

end FileChange

theorem Overlay.change (laid : Overlay ino size changed s s') (inv : Inv t seen k s) :
    FileChange ino size changed s s' :=
  ⟨laid.size', fun _ small => laid.fileByte inv.table small, laid.below, fun i other => by
    obtain ⟨size, bytes⟩ := laid.others inv.leaf inv.table other
    exact ⟨size, fun n _ => bytes n⟩⟩

theorem Inv.changeFile (inv : Inv t seen k s) (laid : Overlay ino size changed s s')
    (locked : size < (s.inodes ino).iSize → ∀ pg ∈ s.shared, pg.identity = ino →
      size ≤ pg.fileOffset →
      Locked s pg.physicalAddress) : Inv t seen k (advanceContentVersion s' ino) ∧
      IoKept s (advanceContentVersion s' ino) ∧
      FileChange ino size changed s (advanceContentVersion s' ino) ∧
      (advanceContentVersion s' ino).shared = s'.shared := by
  obtain ⟨inv', same⟩ := inv.overlay laid locked
  obtain ⟨shared, -⟩ := advanceContentVersion_keeps s' ino
  have procs : (advanceContentVersion s' ino).procs = s'.procs :=
    (invalidateVersions_frame _ ino _).procs
  refine ⟨inv', ⟨fun p => .of_procs (procs.trans laid.procs) p, fun aliases => ?_⟩,
    (laid.change inv).after same, shared⟩
  refine (laid.aliases aliases).of_pages (fun _ _ leaf => leaf.of_procs procs) fun pg member => ?_
  exact .inr ⟨pg, shared ▸ member, rfl, rfl⟩

/-- What grew into the file is zero. -/
def zeroFrom (oldSize n : Nat) : Option UInt8 := if n < oldSize then none else some 0

theorem setInode_self (s : Sys) (ino : Nat) : s.setInode ino (s.inodes ino) = s := by
  simp [Sys.setInode]

theorem writtenState_zero (reached : position ≤ (s.inodes ino).iSize) (data : List UInt8) :
    writtenState s ino position data 0 = s := by
  unfold writtenState
  simp only [ne_eq, not_true_eq_false, false_and, if_false, Inode.write_zero, setInode_self,
    updateSharedFilePages, add_zero, max_eq_left reached]
  exact setInode_self s ino

theorem writtenState_shared (data : List UInt8) (bytes : Nat) :
    (writtenState s ino position data bytes).shared = s.shared := by
  unfold writtenState
  dsimp only
  split
  · rename_i grows
    rw [completeTruncate_grow (le_of_lt grows.2), (updateSharedFilePages_only ..).1.eq]
    rfl
  · rw [(updateSharedFilePages_only ..).1.eq]
    rfl

/-- The content a write leaves, told from what it returns. -/
def WriteEffect (ino position : Nat) (data : List UInt8) (s s' : Sys) : Option Nat → Prop
  | some n => n ≤ data.length ∧ (data = [] → FileSame s s') ∧
      (data ≠ [] → FileChange ino (max (s.inodes ino).iSize (position + n))
        (fun i => (writtenBytes position data n i).or (zeroFrom (s.inodes ino).iSize i)) s s')
  | none => ∃ size, (s.inodes ino).iSize ≤ size ∧
    size ≤ max (s.inodes ino).iSize position ∧
      FileChange ino size (zeroFrom (s.inodes ino).iSize) s s'

theorem WriteEffect.refused (same : FileSame s s') (position : Nat) (data : List UInt8) :
    WriteEffect ino position data s s' none := by
  refine ⟨(s.inodes ino).iSize, le_refl _, le_max_left ..,
    (FileChange.of_same same ino).congr ?_⟩
  intro n small
  exact if_pos small

theorem WriteEffect.before
    (same : FileSame s mid) (effect : WriteEffect ino position data mid s' result) :
    WriteEffect ino position data s s' result := by
  have size := (same ino).1
  cases result with
  | some n =>
    obtain ⟨few, nothing, change⟩ := effect
    rw [size] at change
    exact ⟨few, fun empty => same.trans (nothing empty), fun some => (change some).before same⟩
  | none =>
    obtain ⟨size', low, high, change⟩ := effect
    rw [size] at low high change
    exact ⟨size', low, high, change.before same⟩

/-- A write keeps the invariant and the table, and has the effect it reports. -/
structure Writes (t : Target) (seen : Nat → Prop) (k : Tokens) (ino position : Nat)
    (data : List UInt8) (s : Sys) (result : Option Nat × Sys) : Prop where
  inv : Inv t seen k result.2
  kept : IoKept s result.2
  shared : result.2.shared = s.shared
  effect : WriteEffect ino position data s result.2 result.1

/-- Writing `bytes` bytes where the file already reaches, with a new version to follow. -/
theorem Inv.writeHere (inv : Inv t seen k s)
    (reached : position ≤ (s.inodes ino).iSize) (some : data ≠ []) (written : Nat) :
    Writes t seen k ino position data s (writeData s ino position data false written) := by
  rw [writeData_eq]
  have few := min_le_right written data.length
  generalize min written data.length = bytes at *
  have or : ∀ n < max (s.inodes ino).iSize (position + bytes),
      (writtenBytes position data bytes n).or (zeroFrom (s.inodes ino).iSize n) =
          writtenBytes position data bytes n := by
    intro n small
    unfold writtenBytes zeroFrom
    split
    · rfl
    · exact if_pos (by omega)
  split
  · have laid := Overlay.written inv.leaf inv.table reached few
    obtain ⟨last, kept, change, shared⟩ := inv.changeFile laid fun shorter => by omega
    exact ⟨last, kept, shared.trans (writtenState_shared data bytes), few,
      fun empty => absurd empty some,
      fun _ => change.congr or⟩
  · rename_i nothing
    have zero : bytes = 0 := by simpa using nothing
    subst zero
    rw [writtenState_zero reached]
    refine ⟨inv, (Kept.refl s).io, rfl, few, fun empty => absurd empty some, fun _ => ?_⟩
    have change := FileChange.of_same (.refl s) ino
    rw [add_zero, max_eq_left reached] at *
    refine change.congr fun n small => (or n small).trans ?_
    unfold writtenBytes
    rw [if_neg (by omega)]

/-- The gap up to the position is filled and the data follows. -/
theorem Inv.writeBehindGap (inv : Inv t seen k s)
    (gap : (s.inodes ino).iSize < position) (some : data ≠ []) (written : Nat)
    (filled : inode = (s.inodes ino).write (s.inodes ino).iSize
      (position - (s.inodes ino).iSize) fun _ => 0) :
    Writes t seen k ino position data s
      (writeData (resizeInode (s.setInode ino inode) ino position) ino position data true
        written) := by
  rw [writeData_eq]
  have few := min_le_right written data.length
  generalize min written data.length = bytes at *
  rw [if_pos (.inr rfl)]
  have grown := Overlay.resizeInode inv.leaf ino position inode (by rw [filled]; rfl)
    (by rw [filled]; rfl) (by rw [filled]; exact write_zero_backend _ (by omega))
  have same : (resizeInode (s.setInode ino inode) ino position).shared = s.shared :=
    resizeInode_grow_shared _ ino (by simp [Sys.setInode, filled, Inode.write, le_of_lt gap])
  generalize resizeInode (s.setInode ino inode) ino position = s₁ at *
  have wrote := Overlay.written (inv.leaf.congr grown.procs grown.cache same)
    (inv.table.congr grown.procs same) (le_of_eq grown.size'.symm) few
  have laid := grown.trans same wrote (writtenState_shared data bytes)
  obtain ⟨last, kept, change, shared⟩ := inv.changeFile laid fun shorter => by
    rw [grown.size'] at shorter
    omega
  refine ⟨last, kept, (shared.trans (writtenState_shared data bytes)).trans same, few,
    fun empty => absurd empty some,
    fun _ => ?_⟩
  rw [grown.size'] at change
  rw [show max (s.inodes ino).iSize (position + bytes) = max position (position + bytes) by omega]
  exact change

/-- `Filesys::Write` after both preparations. -/
theorem Inv.writePrepared (inv : Inv t seen k s) (ino position : Nat)
    (some : data ≠ []) (outcome : WriteOutcome)
    (ran : result =
      if !decide ((s.inodes ino).iSize < position) then writeData s ino position data false
      outcome.written
      else
        let (filledEnd, inode) := fillGap outcome.gap position (position - (s.inodes ino).iSize)
          (s.inodes ino) (s.inodes ino).iSize
        if filledEnd ≠ position then
          if filledEnd = (s.inodes ino).iSize then (none, s.setInode ino inode)
          else (none, advanceContentVersion (resizeInode (s.setInode ino inode) ino filledEnd) ino)
        else writeData (resizeInode (s.setInode ino inode) ino position) ino position data true
          outcome.written) : Writes t seen k ino position data s result := by
  by_cases gap : (s.inodes ino).iSize < position
  · simp only [gap, decide_true, Bool.not_true, Bool.false_eq_true, if_false] at ran
    obtain ⟨length, fits, filled, -⟩ :=
      fillGap_spec outcome.gap position (position - (s.inodes ino).iSize)
      (s.inodes ino) (le_of_lt gap)
    rw [filled] at ran
    split at ran
    · split at ran
      · rename_i nothing
        have zero : length = 0 := by omega
        subst zero
        rw [Inode.write_zero, setInode_self] at ran
        rw [ran]
        exact ⟨inv, (Kept.refl s).io, rfl, .refused (.refl s) position data⟩
      · have grown := Overlay.resizeInode inv.leaf ino ((s.inodes ino).iSize + length)
          ((s.inodes ino).write (s.inodes ino).iSize length fun _ => 0) rfl rfl
          (write_zero_backend _ (le_refl _))
        obtain ⟨last, kept, change, shared⟩ := inv.changeFile grown fun shorter => by omega
        rw [ran]
        refine ⟨last, kept, shared.trans (resizeInode_grow_shared _ ino (by
          simp [Sys.setInode, Inode.write])), _, le_add_right _ length, by omega, change⟩
    · rename_i reached
      have whole : length = position - (s.inodes ino).iSize := by omega
      rw [ran]
      exact inv.writeBehindGap gap some outcome.written (by rw [← whole])
  · simp only [gap, decide_false, Bool.not_false, if_true] at ran
    rw [ran]
    exact inv.writeHere (Nat.le_of_not_lt gap) some outcome.written

theorem Inv.writeFile (inv : Inv t seen k s) (ino position : Nat)
    (data : List UInt8) (outcome : WriteOutcome) :
    Writes t seen k ino position data s (writeFile t s ino position data outcome) := by
  unfold Memory.writeFile
  split
  · exact ⟨inv, (Kept.refl s).io, rfl, .refused (.refl s) position data⟩
  split
  · rename_i empty
    exact ⟨inv, (Kept.refl s).io, rfl, zero_le _, fun _ => .refl s,
      fun some => absurd empty some⟩
  rename_i some
  dsimp only
  have only₁ : ProtectedOnly s (if decide ((s.inodes ino).iSize < position) = true then
      prepareSharedFileTruncate t outcome.setup outcome.snapshot s ino else (true, s)).2 := by
    split
    · exact .prepareSharedFileTruncate t outcome.setup outcome.snapshot s ino
    · exact .refl s
  generalize (if decide ((s.inodes ino).iSize < position) = true then
      prepareSharedFileTruncate t outcome.setup outcome.snapshot s ino else (true, s)) = first at *
  obtain ⟨prepared₁, s₁⟩ := first
  obtain ⟨inv₁, same₁⟩ := inv.protectedOnly only₁
  have kept₁ := Kept.of_protectedOnly same₁ only₁
  cases prepared₁ with
  | false => exact ⟨inv₁, kept₁.io, only₁.shared, .refused same₁ position data⟩
  | true =>
    dsimp only
    have only₂ :=
      ProtectedOnly.prepareSharedFileWrite t outcome.setup s₁ ino position data.length
    generalize prepareSharedFileWrite t outcome.setup s₁ ino position data.length = second at *
    obtain ⟨prepared₂, s₂⟩ := second
    obtain ⟨inv₂, same₂⟩ := inv₁.protectedOnly only₂
    have kept := kept₁.trans (Kept.of_protectedOnly same₂ only₂)
    have shared₂ : s₂.shared = s.shared := only₂.shared.trans only₁.shared
    have inodes : s₂.inodes = s.inodes := only₂.inodes.trans only₁.inodes
    cases prepared₂ with
    | false => exact ⟨inv₂, kept.io, shared₂, .refused kept.files position data⟩
    | true =>
      dsimp only
      obtain ⟨last, kept', shared, effect⟩ := inv₂.writePrepared ino position some outcome rfl
      rw [inodes] at last kept' shared effect
      rw [inodes]
      exact ⟨last, kept.io.trans kept', shared.trans shared₂, effect.before kept.files⟩

/-! ## Truncation -/

theorem protectOffsets_done (setup : Nat → Nat → Bool) (offsets : List Nat) : ∀ {s s' : Sys},
    protectOffsets t setup ino s offsets = (true, s') → ∀ offset ∈ offsets, ∀ pg,
      findSharedPage s ino offset = some pg → ∀ l ∈ pg.aliases, ∀ e, s'.pte l.1 l.2 =
      some e →
        e.props.writable = false := by
  induction offsets with
  | nil => exact fun _ offset member => absurd member not_mem_nil
  | cons head offsets ih =>
    intro s s' done offset member pg found l listed e here
    unfold protectOffsets protectSharedFileAliases at done
    cases first : findSharedPage s ino head with
    | none =>
      rw [first] at done
      cases mem_cons.mp member with
      | inl same => exact absurd (same ▸ found) (by simp [first])
      | inr later => exact ih done offset later pg found l listed e here
    | some pg' =>
      rw [first] at done
      dsimp only at done
      cases protect : protectAliases t setup pg' s pg'.aliases with
      | mk result s₁ =>
        rw [protect] at done
        cases result with
        | false => exact absurd (congrArg Prod.fst done) (by simp)
        | true =>
          dsimp only at done
          have only := ProtectedOnly.protectAliases t setup pg' pg'.aliases s
          rw [protect] at only
          cases mem_cons.mp member with
          | inl same =>
            obtain rfl := Option.some.inj ((same ▸ found).symm.trans first)
            have weak := Weaker.of_protected
              (ProtectedOnly.protectOffsets t setup ino offsets s₁).protect
            rw [done] at weak
            obtain ⟨e₁, before, -, fewer⟩ := weak.old here
            have closed := protectAliases_done setup pg pg.aliases protect l listed e₁ before
            by_contra writable
            exact absurd (closed.symm.trans (fewer (by simpa using writable))) (by simp)
          | inr later =>
            refine ih done offset later pg ?_ l listed e here
            unfold findSharedPage at found ⊢
            rw [only.shared]
            exact found

/-- After a successful `PrepareSharedFileTruncate` nobody writes to a page of the file. -/
theorem Inv.truncatePrepared (inv : Inv t seen k s)
    (done : prepareSharedFileTruncate t setup snapshot s ino = (true, s')) :
    ∀ pg ∈ s'.shared, pg.identity = ino → Locked s' pg.physicalAddress := by
  have only := ProtectedOnly.prepareSharedFileTruncate t setup snapshot s ino
  rw [done] at only
  obtain ⟨inv', -⟩ := inv.protectedOnly only
  intro pg member identity p a e mapped frame
  by_contra writable
  obtain ⟨-, listed⟩ :=
    inv'.table.dirty p a e mapped (by simpa using writable) pg member frame.symm
  have here : pg ∈ s.shared := only.shared ▸ member
  unfold prepareSharedFileTruncate at done
  split at done
  · exact absurd (congrArg Prod.fst done) (by simp)
  · refine writable
      (protectOffsets_done setup _ done pg.fileOffset ?_ pg ?_ (p, a) listed e mapped)
    · exact mem_map.mpr ⟨pg, mem_filter.mpr ⟨here, by simp [identity]⟩, rfl⟩
    · rw [← identity]
      exact inv.table.find here

theorem Inv.truncateInode (inv : Inv t seen k s) (ino size : Nat)
    (outcome : TruncateOutcome) : Inv t seen k (truncateInode t s ino size outcome).2 ∧
      IoKept s (truncateInode t s ino size outcome).2 ∧
      (∀ pg ∈ s.shared, pg.dirty = true →
        ¬ (pg.identity = ino ∧ size ≤ pg.fileOffset) →
        pg ∈ (truncateInode t s ino size outcome).2.shared) ∧
        ((truncateInode t s ino size outcome).1 = false →
        FileSame s (truncateInode t s ino size outcome).2) ∧
        ((truncateInode t s ino size outcome).1 = true →
        FileChange ino size (zeroFrom (s.inodes ino).iSize) s
          (truncateInode t s ino size outcome).2) := by
  unfold Memory.truncateInode
  split
  · exact ⟨inv, (Kept.refl s).io, fun _ member _ _ => member, fun _ => .refl s, by simp⟩
  have only := ProtectedOnly.prepareSharedFileTruncate t outcome.setup outcome.snapshot s ino
  cases prepare : prepareSharedFileTruncate t outcome.setup outcome.snapshot s ino with
  | mk prepared s₁ =>
    rw [prepare] at only
    obtain ⟨inv₁, same⟩ := inv.protectedOnly only
    have kept := Kept.of_protectedOnly same only
    have failed : Inv t seen k s₁ ∧ IoKept s s₁ ∧
        (∀ pg ∈ s.shared, pg.dirty = true →
        ¬ (pg.identity = ino ∧ size ≤ pg.fileOffset) →
          pg ∈ s₁.shared) ∧ (false = false → FileSame s s₁) ∧
        (false = true → FileChange ino size (zeroFrom (s.inodes ino).iSize) s s₁) :=
      ⟨inv₁, kept.io, fun _ member _ _ => only.shared.symm ▸ member, fun _ => same, by simp⟩
    cases prepared with
    | false => exact failed
    | true =>
      dsimp only
      split
      · exact failed
      · have laid :=
          Overlay.resizeInode inv₁.leaf ino size ((s₁.inodes ino).resize size) rfl rfl
          fun n small => by simp only [Inode.resize, small, true_and]
        obtain ⟨last, kept', change, shared⟩ :=
            inv₁.changeFile laid fun _ pg member identity _ =>
          inv.truncatePrepared prepare pg member identity
        have oldSize : (s.inodes ino).iSize = (s₁.inodes ino).iSize := (same ino).1.symm
        refine ⟨last, kept.io.trans kept', fun pg member _ inside => ?_, by simp, fun _ =>
          oldSize ▸ change.before same⟩
        obtain ⟨g, pages, each⟩ := laid.pages
        rw [shared, pages]
        refine mem_map.mpr ⟨pg, only.shared.symm ▸ member, ?_⟩
        exact (each pg).resolve_right fun beyond => inside ⟨beyond.2.1, beyond.2.2.2⟩

/-! ## Reading -/

/-- The bytes of the file from a position on. -/
def fileBytes (s : Sys) (ino position length : Nat) : List UInt8 :=
  (List.range length).map fun i => fileByte s ino (position + i)

theorem fileBytes_append (s : Sys) (ino position first second : Nat) :
    fileBytes s ino position first ++ fileBytes s ino (position + first) second =
      fileBytes s ino position (first + second) := by
  unfold fileBytes
  rw [range_add, map_append, map_map]
  refine congrArg _ (map_congr_left fun i _ => ?_)
  simp only [Function.comp_apply, add_assoc]

theorem FileSame.fileBytes (same : FileSame s s') {length}
    (inside : position + length ≤ (s.inodes ino).iSize) :
    fileBytes s' ino position length = fileBytes s ino position length :=
  map_congr_left fun i member => (same ino).2 _ (by have := mem_range.mp member; omega)

theorem pageFloor_add (same : position % pageSize + i < pageSize) :
    pageFloor (position + i) = pageFloor position := by
  unfold pageFloor pageSize at *
  omega

/-- A piece of one page, read from a frame that shows the file. -/
theorem pieceOfPage {frame length} (within : length ≤ pageSize - (position - pageFloor position))
    (shows : ∀ n, position ≤ n → n < position + length →
      pageFloor n = pageFloor position →
    s.mem frame (n % pageSize) = fileByte s ino n) :
    ((range length).map fun i => s.mem frame (position - pageFloor position + i)) =
      fileBytes s ino position length := by
  refine map_congr_left fun i member => ?_
  have small := mem_range.mp member
  have split := pageFloor_add_mod position
  have page := pageFloor_add (show position % pageSize + i < pageSize by omega)
  have place := pageFloor_add_mod (position + i)
  rw [← shows (position + i) (by omega) (by omega) page]
  congr 1
  omega

/-- A page of the file that is not in the table of shared pages is read from the backend. -/
theorem fileByte_unshared (absent : findSharedPage s ino offset = none)
    (page : pageFloor n = offset) : fileByte s ino n = (s.inodes ino).backend n := by
  unfold fileByte sharedFrame
  rw [page, absent]
  rfl

theorem fileByte_shared
    (found : findSharedPage s ino offset = some pg) (page : pageFloor n = offset) :
    fileByte s ino n = s.mem pg.physicalAddress (n % pageSize) := by
  unfold fileByte sharedFrame
  rw [page, found]
  rfl

/-- The page at an offset could not be cached, after some rounds of a read. -/
def ReadCut (t : Target) (s : Sys) (ino position count : Nat) (fill : Nat → FillOutcome)
    (read : List UInt8) (offset : Nat) : Prop :=
  ∃ rounds, ∀ f, (getCachedPage t (readLoop t ino fill rounds s position count read).2 ino
    (pageFloor offset) (fill (pageFloor offset))).1 ≠ .ready f

/-- What a read gives: the bytes of the file, short only where a page could not be cached. -/
structure ReadEffect (t : Target) (s : Sys) (ino position count : Nat) (fill : Nat → FillOutcome)
    (read : List UInt8) (rounds : Nat) (result : Option (List UInt8)) : Prop where
  bytes : ∃ n ≤ min count ((s.inodes ino).iSize - position), result.getD [] =
    read ++ fileBytes s ino position n ∧
    (count ≤ rounds → n < min count ((s.inodes ino).iSize - position) →
      ReadCut t s ino position count fill read (position + n))

theorem ReadEffect.piece {fill} {length}
    (same : FileSame s s₁)
    (positive : 0 < length) (few : length ≤ count)
    (inside : position + length ≤ (s.inodes ino).iSize)
    (later : ReadEffect t s₁ ino (position + length) (count - length) fill
    (read ++ fileBytes s ino position length) rounds result)
    (next : ∀ more, readLoop t ino fill (more + 1) s position count read =
    readLoop t ino fill more s₁ (position + length) (count - length)
    (read ++ fileBytes s ino position length)) :
    ReadEffect t s ino position count fill read (rounds + 1) result := by
  obtain ⟨n, bound, bytes, cut⟩ := later.bytes
  have size := (same ino).1
  refine ⟨length + n, by omega, ?_, fun enough short => ?_⟩
  · rw [bytes, append_assoc, same.fileBytes (by omega), fileBytes_append]
  · obtain ⟨more, failed⟩ := cut (by omega) (by omega)
    refine ⟨more + 1, ?_⟩
    rw [next more, ← add_assoc]
    exact failed

/-- A page that cannot be cached ends the read. -/
theorem readLoop_cut
    (stop : ¬ (count = 0 ∨ (s.inodes ino).iSize ≤ position))
    (absent : findSharedPage s ino (pageFloor position) = none)
    (got : getCachedPage t s ino (pageFloor position) (fill (pageFloor position)) = (result, s'))
    (failed : ∀ f, result ≠ .ready f) : readLoop t ino fill (rounds + 1) s position count read =
      (if read = [] then none else some read, s') := by
  unfold readLoop
  dsimp only
  rw [if_neg stop, absent, got]
  cases result with
  | ready f => exact absurd rfl (failed f)
  | retry => rfl
  | error => rfl

theorem readLoop_failed
    (got : getCachedPage t s ino (pageFloor position) (fill (pageFloor position)) = (result, s'))
    (failed : ∀ f, result ≠ .ready f) :
    ReadEffect t s ino position count fill read rounds (if read = [] then none else some read) := by
  refine ⟨0, zero_le _, ?_, fun _ _ => ⟨0, fun f => ?_⟩⟩
  · split
    · rename_i empty
      simp [empty, fileBytes]
    · simp [fileBytes]
  · unfold readLoop
    rw [add_zero, got]
    exact failed f

theorem Inv.readLoop (fill : Nat → FillOutcome) (rounds : Nat) :
    ∀ {s : Sys} (position count : Nat)
    (read : List UInt8), Inv t seen k s →
      ∃ result s', readLoop t ino fill rounds s position count read = (result, s') ∧
        Inv t seen k s' ∧ FileSame s s' ∧ CacheOnly s s' ∧
        ReadEffect t s ino position count fill read rounds result := by
  induction rounds with
  | zero =>
    intro s position count read inv
    refine ⟨some read, s, rfl, inv, .refl s, .refl s, 0, zero_le _, by simp [fileBytes],
      fun enough short => ?_⟩
    omega
  | succ rounds ih =>
    intro s position count read inv
    by_cases stop : count = 0 ∨ (s.inodes ino).iSize ≤ position
    · unfold Memory.readLoop
      rw [if_pos stop]
      exact ⟨some read, s, rfl, inv, .refl s, .refl s, 0, Nat.zero_le _, by simp [fileBytes],
        fun _ short => by omega⟩
    have split := pageFloor_add_mod position
    have less : position % pageSize < pageSize := mod_lt _ (by decide)
    generalize size : min count (min (pageSize - (position - pageFloor position))
      ((s.inodes ino).iSize - position)) = length
    have positive : 0 < length := by omega
    cases found : findSharedPage s ino (pageFloor position) with
    | some pg =>
      have piece : ((range length).map fun i => s.mem pg.physicalAddress
          (position - pageFloor position + i)) = fileBytes s ino position length :=
        pieceOfPage (by omega) fun n _ _ page => (fileByte_shared found page).symm
      have next : ∀ more, Memory.readLoop t ino fill (more + 1) s position count read =
          Memory.readLoop t ino fill more s (position + length) (count - length)
            (read ++ fileBytes s ino position length) := by
        intro more
        rw [← piece]
        conv_lhs => unfold Memory.readLoop
        dsimp only
        rw [if_neg stop, found, size]
      obtain ⟨result, s', ran, inv', same, only, effect⟩ :=
        ih (position + length) (count - length)
        (read ++ fileBytes s ino position length) inv
      exact ⟨result, s', (next rounds).trans ran, inv', same, only,
        effect.piece (.refl s) positive (by omega) (by omega) next⟩
    | none =>
      obtain ⟨result, s₁, got, inv₁, same₁, only₁, record⟩ :=
        inv.getCachedPage ino (pageFloor position) (fill (pageFloor position))
      cases result with
      | ready f =>
        obtain ⟨e, member, rfl, identity, offset⟩ := record
        have size₁ := (same₁ ino).1
        have absent : findSharedPage s₁ ino (pageFloor position) = none := by
          unfold findSharedPage at found ⊢
          rw [only₁.shared]
          exact found
        have piece : ((range length).map fun i => s₁.mem e.physicalAddress
            (position - pageFloor position + i)) = fileBytes s ino position length := by
          rw [← same₁.fileBytes (by omega)]
          refine pieceOfPage (by omega) fun n low high page => ?_
          have place := pageFloor_add_mod n
          have holds := inv₁.content.cached e member (n % pageSize) (mod_lt _ (by decide))
          rw [identity, offset, ← page, place] at holds
          rw [fileByte_unshared absent page]
          exact holds (by omega)
        have next : ∀ more, Memory.readLoop t ino fill (more + 1) s position count read =
            Memory.readLoop t ino fill more s₁ (position + length) (count - length)
              (read ++ fileBytes s ino position length) := by
          intro more
          rw [← piece]
          conv_lhs => unfold Memory.readLoop
          dsimp only
          rw [if_neg stop, found, got, size]
        obtain ⟨result, s', ran, inv', same, only, effect⟩ := ih (position + length)
          (count - length) (read ++ fileBytes s ino position length) inv₁
        exact ⟨result, s', (next rounds).trans ran, inv', same₁.trans same, only₁.trans only,
          effect.piece same₁ positive (by omega) (by omega) next⟩
      | retry | error =>
        exact ⟨_, s₁, readLoop_cut stop found got (by simp), inv₁, same₁, only₁,
          readLoop_failed got (by simp)⟩

theorem Inv.readCachedRegularFile (inv : Inv t seen k s)
    (ino position count : Nat) (fill : Nat → FillOutcome) :
    ∃ result s', readCachedRegularFile t s ino position count fill = (result, s') ∧
      Inv t seen k s' ∧ FileSame s s' ∧ CacheOnly s s' ∧
      ReadEffect t s ino position count fill [] count result :=
  Inv.readLoop fill count position count [] inv

end Io

end Mecocoa.Memory
