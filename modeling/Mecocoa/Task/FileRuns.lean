import Mecocoa.Lib.FlatFile
import Mecocoa.Task.Runs

/-! # A file is a flat array of bytes

The bytes of a file are in its backend, in cached pages and in shared pages.  To
those who write, truncate, read, store and load it is one array: every run of
the machine, seen at one file, is a run of the array.
-/

namespace Mecocoa.Memory

open Memory List

open Lib (Run FlatFile.resize FlatFile.write)

/-- The bytes of a file. -/
def content (s : Sys) (ino : Nat) : List UInt8 :=
  (List.range (s.inodes ino).iSize).map (fileByte s ino)

/-- What an operation tells about one file. -/
inductive FileEvent where
  | quiet
  | resized (size : Nat)
  | wrote (position : Nat) (data : List UInt8)
  | stored (offset : Nat) (byte : UInt8)
  | loaded (offset : Nat) (byte : UInt8)
  | read (position count : Nat) (data : List UInt8)
  deriving DecidableEq, Repr

/-- The array under an event; what a load or a read gives is what the array has. -/
def FlatStep (bytes : List UInt8) : FileEvent → List UInt8 → Prop
  | .quiet, bytes' => bytes' = bytes
  | .resized size, bytes' => bytes' = FlatFile.resize 0 bytes size
  | .wrote position data, bytes' => bytes' = FlatFile.write 0 bytes position data
  | .stored offset byte, bytes' => bytes' = bytes.set offset byte
  | .loaded offset byte, bytes' => bytes' = bytes ∧
    (offset < bytes.length → bytes[offset]? = some byte)
  | .read position count data, bytes' =>
    bytes' = bytes ∧ data = ((bytes.drop position).take count).take data.length

/-- A write by the bytes it reports, or by the zeros it left when it failed. -/
def writeEvent (ino position : Nat) (data : List UInt8) : Option Nat × Sys → FileEvent
  | (some n, _) => if data = [] then .quiet else .wrote position (data.take n)
  | (none, s') => .resized (s'.inodes ino).iSize

/-- A store by the place of its address and the leaf it goes through. -/
def storeEvent (ino : Nat) (byte : UInt8) : Option (Nat × Nat) → Option Pte → FileEvent
  | some (i, offset), some e => if i = ino ∧ e.userWritable then .stored offset byte else .quiet
  | _, _ => .quiet

def loadEvent (ino : Nat) : Option (Nat × Nat) → Option UInt8 → FileEvent
  | some (i, offset), some byte => if i = ino then .loaded offset byte else .quiet
  | _, _ => .quiet

/-- What is seen of a file; loads and stores, where a shared mapping of the file is. -/
def fileEvent (t : Target) (ino : Nat) (s : Sys) : Op → FileEvent
  | .write i position data outcome =>
    if i = ino then writeEvent ino position data (writeFile t s i position data outcome) else .quiet
  | .truncate i size outcome =>
    if i = ino ∧ (truncateInode t s i size outcome).1 then .resized size else .quiet
  | .store p address byte =>
    storeEvent ino byte (sharedPlace t s p address) (s.pte p (pageFloor address))
  | .load p address => loadEvent ino (sharedPlace t s p address) (loadByte s p address)
  | .read i position count fill =>
    if i = ino then .read position count
      ((readCachedRegularFile t s i position count fill).1.getD [])
    else .quiet
  | _ => .quiet

section FileRuns

variable {changed : Nat → Option UInt8}

@[simp] theorem length_content (s : Sys) (ino : Nat) :
    (content s ino).length = (s.inodes ino).iSize := by
  simp [content]

theorem content_getElem? (inside : n < (s.inodes ino).iSize) :
    (content s ino)[n]? = some (fileByte s ino n) := by
  simp [content, getElem?_range inside]

/-- A file is the list that has its size and, place by place, its bytes. -/
theorem FileChange.content (change : FileChange ino size changed s s') {bytes}
    (length : bytes.length = size)
    (each : ∀ n < size, bytes[n]? = some ((changed n).getD (fileByte s ino n))) :
    content s' ino = bytes := by
  refine ext_getElem? fun n => ?_
  by_cases inside : n < size
  · rw [content_getElem? (change.size'.symm ▸ inside), each n inside, change.bytes n inside]
  · rw [getElem?_eq_none (by rw [length_content, change.size']; omega),
      getElem?_eq_none (by omega)]

theorem FileSame.content (same : FileSame s s') (ino : Nat) : content s' ino = content s ino :=
  (FileChange.of_same same ino).content (length_content s ino) fun _ inside =>
  content_getElem? inside

theorem FileChange.others_content (change : FileChange ino size changed s s')
    (apart : other ≠ ino) : Memory.content s' other = Memory.content s other := by
  obtain ⟨sameSize, bytes⟩ := change.others other apart
  unfold Memory.content
  rw [sameSize]
  exact map_congr_left fun n member => bytes n (mem_range.mp member)

theorem content_getD (s : Sys) (ino n : Nat) :
    (content s ino).getD n 0 = (zeroFrom (s.inodes ino).iSize n).getD (fileByte s ino n) := by
  rw [getD_eq_getElem?_getD]
  unfold zeroFrom
  split
  · rename_i inside
    rw [content_getElem? inside]
    rfl
  · rw [getElem?_eq_none (by rw [length_content]; omega)]
    rfl

theorem FileChange.resized (change : FileChange ino size (zeroFrom (s.inodes ino).iSize) s s') :
    Memory.content s' ino = FlatFile.resize 0 (Memory.content s ino) size :=
  change.content (by simp) fun n inside => by
    rw [Lib.FlatFile.getElem?_resize 0 _ inside, content_getD]

theorem FileChange.wrote {position n} (few : n ≤ data.length)
    (change : FileChange ino (max (s.inodes ino).iSize (position + n))
      (fun i => (writtenBytes position data n i).or (zeroFrom (s.inodes ino).iSize i)) s s') :
    Memory.content s' ino = FlatFile.write 0 (Memory.content s ino) position (data.take n) := by
  have length : (data.take n).length = n := by simp [few]
  refine change.content (by simp [length]) fun i inside => ?_
  rw [Lib.FlatFile.getElem?_write 0 _ _ _ (by simpa [length] using inside), length, content_getD]
  unfold writtenBytes
  split
  · rename_i within
    have small : i - position < data.length := by omega
    rw [getElem?_take, if_pos (by omega), getElem?_eq_getElem small, getD_eq_getElem?_getD,
      getElem?_eq_getElem small]
    rfl
  · rfl

theorem FileChange.stored {offset}
    (change : FileChange ino (s.inodes ino).iSize (fun i => if i = offset then some byte
      else none) s s') :
    Memory.content s' ino = (Memory.content s ino).set offset byte := by
  refine change.content (by simp) fun n inside => ?_
  rw [getElem?_set]
  by_cases hit : offset = n
  · simp [hit, inside]
  · rw [if_neg hit, content_getElem? inside, if_neg (Ne.symm hit)]
    rfl

theorem fileBytes_eq (s : Sys) (ino position : Nat) {n count}
    (few : n ≤ min count ((s.inodes ino).iSize - position)) :
    fileBytes s ino position n = (((content s ino).drop position).take count).take n := by
  refine ext_getElem? fun i => ?_
  by_cases inside : i < n
  · rw [getElem?_take, if_pos inside, getElem?_take, if_pos (by omega), getElem?_drop,
      content_getElem? (by omega)]
    simp [fileBytes, getElem?_range inside]
  · rw [getElem?_eq_none (by simp [fileBytes]; omega), getElem?_eq_none (by simp; omega)]

variable (inv : MachineInv t leaked s)

include inv

/-- What a load through a shared mapping gives is what the file has. -/
theorem MachineInv.loaded
    (place : sharedPlace t s p address = some (ino, offset))
    (found : loadByte s p address = some byte) :
    fileByte s ino offset = byte := by
  unfold loadByte at found
  cases mapped : s.pte p (pageFloor address) with
  | none => simp [mapped] at found
  | some e =>
    obtain ⟨pg, here, frame, key⟩ := inv.leaf.placed mapped place
    obtain ⟨rfl, rfl⟩ := Prod.mk.inj key
    rw [inv.fileByte_page here (Nat.mod_lt _ (by decide)), frame]
    simp only [mapped] at found
    obtain ⟨_, found⟩ := Option.ite_none_right_eq_some.mp found
    exact Option.some.inj found

theorem MachineInv.flat_store (p address : Nat) (byte : UInt8) :
    FlatStep (content s ino) (fileEvent t ino s (.store p address byte))
      (content (Memory.storeByte s p address byte) ino) := by
  obtain ⟨-, -, -, effect⟩ := inv.storeByte p address byte
  dsimp only [fileEvent]
  cases place : sharedPlace t s p address with
  | none => exact (effect.rest (.inr place)).content ino
  | some target =>
    obtain ⟨i, offset⟩ := target
    cases mapped : s.pte p (pageFloor address) with
    | none =>
      refine (effect.rest (.inl ?_)).content ino
      rintro ⟨e, here, -⟩
      exact absurd (mapped.symm.trans here) (by simp)
    | some e =>
      dsimp only [storeEvent]
      by_cases writable : e.userWritable = true
      · have change := effect.shared ⟨e, mapped, writable⟩ i offset place
        by_cases own : i = ino
        · subst own
          rw [if_pos ⟨rfl, writable⟩]
          exact change.stored
        · rw [if_neg fun both => own both.1]
          exact change.others_content (Ne.symm own)
      · rw [if_neg fun both => writable both.2]
        refine (effect.rest (.inl ?_)).content ino
        rintro ⟨e', here, opened⟩
        obtain rfl := Option.some.inj (mapped.symm.trans here)
        exact writable opened

theorem MachineInv.flat_write (i position : Nat) (data : List UInt8) (outcome : WriteOutcome) :
    FlatStep (content s ino) (fileEvent t ino s (.write i position data outcome))
      (content (writeFile t s i position data outcome).2 ino) := by
  obtain ⟨-, -, -, effect⟩ := inv.writeFile i position data outcome
  dsimp only [fileEvent]
  generalize writeFile t s i position data outcome = result at *
  obtain ⟨answer, s'⟩ := result
  by_cases own : i = ino
  · subst own
    rw [if_pos rfl]
    cases answer with
    | none =>
      obtain ⟨size, -, -, change⟩ := effect
      change content s' i = FlatFile.resize 0 (content s i) (s'.inodes i).iSize
      rw [change.size']
      exact change.resized
    | some n =>
      dsimp only [writeEvent]
      split
      · rename_i empty
        exact (effect.2.1 empty).content i
      · rename_i some
        exact (effect.2.2 some).wrote effect.1
  · rw [if_neg own]
    cases answer with
    | none =>
      obtain ⟨size, -, -, change⟩ := effect
      exact change.others_content (Ne.symm own)
    | some n =>
      by_cases empty : data = []
      · exact (effect.2.1 empty).content ino
      · exact (effect.2.2 empty).others_content (Ne.symm own)

theorem MachineInv.flat_truncate (i size : Nat) (outcome : TruncateOutcome) :
    FlatStep (content s ino) (fileEvent t ino s (.truncate i size outcome))
      (content (truncateInode t s i size outcome).2 ino) := by
  obtain ⟨-, -, -, failed, done⟩ := inv.truncateInode i size outcome
  dsimp only [fileEvent]
  cases answer : (truncateInode t s i size outcome).1 with
  | false =>
    rw [if_neg (by simp)]
    exact (failed answer).content ino
  | true =>
    by_cases own : i = ino
    · subst own
      rw [if_pos ⟨rfl, rfl⟩]
      exact (done answer).resized
    · rw [if_neg fun both => own both.1]
      exact (done answer).others_content (Ne.symm own)

theorem MachineInv.flat_read (i position count : Nat) (fill : Nat → FillOutcome) :
    FlatStep (content s ino) (fileEvent t ino s (.read i position count fill))
      (content (readCachedRegularFile t s i position count fill).2 ino) := by
  obtain ⟨result, s', ran, -, files, -, effect⟩ :=
    inv.readCachedRegularFile i position count fill
  dsimp only [fileEvent]
  rw [ran]
  by_cases own : i = ino
  · subst own
    rw [if_pos rfl]
    obtain ⟨n, few, bytes, -⟩ := effect.bytes
    refine ⟨files.content i, ?_⟩
    have length : (result.getD []).length = n := by simp [bytes, fileBytes]
    rw [length, bytes, nil_append, fileBytes_eq s i position few]
  · rw [if_neg own]
    exact files.content ino

theorem MachineInv.flat_load (p address : Nat) :
    FlatStep (content s ino) (fileEvent t ino s (.load p address)) (content s ino) := by
  dsimp only [fileEvent]
  cases place : sharedPlace t s p address with
  | none => exact rfl
  | some target =>
    obtain ⟨i, offset⟩ := target
    cases found : loadByte s p address with
    | none => exact rfl
    | some byte =>
      dsimp only [loadEvent]
      by_cases own : i = ino
      · subst own
        rw [if_pos rfl]
        refine ⟨rfl, fun inside => ?_⟩
        rw [length_content] at inside
        rw [content_getElem? inside, inv.loaded place found]
      · rw [if_neg own]
        exact rfl

theorem MachineInv.flat_exec (lib : PagingLibrary) (ino : Nat) (op : Op) :
    FlatStep (content s ino) (fileEvent t ino s op) (content (Memory.exec lib t s op) ino) := by
  obtain ⟨leaked', -, stepped⟩ := inv.exec lib op
  cases op with
  | store p address byte => exact inv.flat_store p address byte
  | write i position data outcome => exact inv.flat_write i position data outcome
  | truncate i size outcome => exact inv.flat_truncate i size outcome
  | read i position count fill => exact inv.flat_read i position count fill
  | load p address => exact inv.flat_load p address
  | spawn | openFile | carry | mmap | mprotect | munmap | fault | prefault | fork | exit | flush
  | reclaimCache | reclaimShared | mapShared | registerAlias | unregisterAlias =>
    rcases stepped.files with changes | same
    · exact absurd changes id
    · exact same.content ino

omit inv

/-- Seen at one file, every run of the machine is a run of a flat array of bytes. -/
theorem file_refines_flat_array (lib : PagingLibrary) (t : Target) (inodes : Nat → Inode)
    (ino : Nat) (ops : List Op) : Run FlatStep (content (Sys.boot inodes) ino)
        (Lib.trace (Memory.exec lib t) (fileEvent t ino) (Sys.boot inodes) ops)
        (content (ops.foldl (Memory.exec lib t) (Sys.boot inodes)) ino) ∧ ∀ position count fill,
        (readCachedRegularFile t (ops.foldl (Memory.exec lib t) (Sys.boot inodes)) ino position
          count
            fill).1.getD [] =
          ((content (ops.foldl (Memory.exec lib t) (Sys.boot inodes)) ino).drop position).take
          count ∨
        ∃ offset,
        ReadCut t (ops.foldl (Memory.exec lib t) (Sys.boot inodes)) ino position count fill []
          offset := by
  constructor
  · refine Run.refines (P := fun s => ∃ leaked, MachineInv t leaked s) (content · ino) ?_ ops
      ⟨_, .boot t inodes⟩
    rintro s op ⟨leaked, inv⟩
    obtain ⟨leaked', next, -⟩ := inv.exec lib op
    exact ⟨⟨leaked', next⟩, inv.flat_exec lib ino op⟩
  · intro position count fill
    obtain ⟨⟨leaked, inv⟩, -⟩ := machineInv_run
      (Run.foldl (exec lib t) (Sys.boot inodes) ops)
    generalize ops.foldl (exec lib t) (Sys.boot inodes) = s at *
    obtain ⟨result, s', ran, -, -, -, effect⟩ :=
      inv.readCachedRegularFile ino position count fill
    rw [ran]
    obtain ⟨n, few, bytes, cut⟩ := effect.bytes
    by_cases short : n < min count ((s.inodes ino).iSize - position)
    · exact .inr ⟨_, cut (le_refl _) short⟩
    · refine .inl ?_
      rw [bytes, nil_append, fileBytes_eq s ino position few, take_of_length_le]
      simp
      omega

end FileRuns

end Mecocoa.Memory
