import Mecocoa.File.CacheInv
import Mecocoa.Lib.Run

/-! # Reading through the cache while others write

`ReadCachedRegularFile` with its two critical sections under `vfs_lock`.  Before each of them other
threads write, truncate and move the position.  A page of the cache holds what the file had when the
page was asked for (`getCachedPage_chunk` for the cache of the machine), no shared mapping is dirty,
and versions do not wrap.
-/

namespace Mecocoa.File

open Lib (Run)
open Memory (pageSize)

/-- What `vfs_lock` guards: the file and the position of the descriptor. -/
structure OpenFile where
  size : Nat
  byte : Nat → UInt8
  version : Nat := 0
  position : Nat := 0

inductive Other where
  | write (size : Nat) (byte : Nat → UInt8)
  | seek (position : Nat)

namespace OpenFile

def after (f : OpenFile) : Other → OpenFile
  | .write size byte => { f with size := size, byte := byte, version := f.version + 1 }
  | .seek position => { f with position := position }

def chunk (f : OpenFile) (n : Nat) : List UInt8 :=
  (List.range n).map fun i => f.byte (f.position + i)

def skip (f : OpenFile) (n : Nat) : OpenFile := { f with position := f.position + n }

end OpenFile

/-- Where a round finds its page. -/
inductive PageSource where
  | shared
  | cached (meanwhile : List Other)
  | retry
  | failed

/-- What others do before a round, and its page. -/
abbrev ReadEvent := List Other × PageSource

structure Reading where
  file : OpenFile
  out : List UInt8 := []
  readVersion : Nat := 0
  expectedPosition : Nat := 0
  answer : Option Int := none
  -- What an observer notes: the file when the first bytes were read, or when the call returned
  -- without any.
  start : OpenFile := file

namespace Reading

def noted (r : Reading) (file : OpenFile) : OpenFile := if r.out = [] then file else r.start

def ret (r : Reading) (file : OpenFile) : Reading :=
  { r with
  file := file, start := r.noted file, answer := some (BitVec.ofNat 32 r.out.length).toInt }

/-- `length` bytes of a page with what `page` had. -/
def take (r : Reading) (file page : OpenFile) (length : Nat) : Reading :=
  { r with
    file := file.skip length
    out := r.out ++ page.chunk length
    readVersion := file.version
    expectedPosition := file.position + length
    start := r.noted file }

/-- A round of the loop of `ReadCachedRegularFile`. -/
def round (count : Nat) (r : Reading) (event : ReadEvent) : Reading :=
  if r.answer.isSome then r
  else if count ≤ r.out.length then r.ret r.file
  else
    let file := event.1.foldl OpenFile.after r.file
    if r.out ≠ [] ∧
        (file.version ≠ r.readVersion ∨ file.position ≠ r.expectedPosition) ∨
        file.size ≤ file.position then
      r.ret file
    else
      let length :=
        min (count - r.out.length)
          (min (pageSize - file.position % pageSize) (file.size - file.position))
      match event.2 with
      | .shared => r.take file file length
      | .retry => { r with file := file }
      | .failed => if r.out = [] then { r with file := file, answer := some (-1) } else r.ret file
      | .cached meanwhile =>
        let now := meanwhile.foldl OpenFile.after file
        if now.version ≠ file.version ∨
          now.position ≠ file.position then { r with file := now }
        else r.take now file (min length (now.size - now.position))

end Reading

/-- A file of the machine with no dirty page, and a position in it. -/
def OpenFile.ofInode (s : Memory.Sys) (ino position : Nat) : OpenFile where
  size := (s.inodes ino).iSize
  byte := (s.inodes ino).backend
  version := (s.inodes ino).contentVersion
  position

/-- The page that `GetCachedPage` gives a round holds the bytes of the file as it was asked for. -/
theorem getCachedPage_chunk (inv : Memory.Inv t seen k s)
    (got : Memory.getCachedPage t s ino (Memory.pageFloor position) outcome = (.ready frame, s'))
    (inside : length ≤ min (pageSize - position % pageSize) ((s.inodes ino).iSize - position)) :
    OpenFile.ofInode s' ino position = .ofInode s ino position ∧
      (OpenFile.ofInode s ino position).chunk length =
        (List.range length).map fun i => s'.mem frame (position % pageSize + i) := by
  obtain ⟨result, s₁, ran, inv', -, only, record⟩ :=
    inv.getCachedPage ino (Memory.pageFloor position) outcome
  obtain ⟨rfl, rfl⟩ := Prod.mk.inj (ran.symm.trans got)
  obtain ⟨e, cached, rfl, identity, offset⟩ := record
  have held := inv'.content.cached e cached
  rw [identity, offset, Memory.HoldsFile, only.inodes] at held
  refine ⟨by rw [OpenFile.ofInode, only.inodes]; rfl, List.map_congr_left fun i member => ?_⟩
  have small := List.mem_range.mp member
  have place : Memory.pageFloor position + (position % pageSize + i) = position + i := by
    unfold Memory.pageFloor pageSize
    omega
  rw [held _ (by omega) (by omega), place]
  rfl

/-- No page fails, and others leave the file alone once the first bytes are read. -/
def Quiet (r : Reading) : ReadEvent → Prop
  | (_, .failed) => False
  | (before, .cached meanwhile) => r.out ≠ [] → before = [] ∧ meanwhile = []
  | (before, _) => r.out ≠ [] → before = []

def QuietStep (count : Nat) (r : Reading) (event : ReadEvent) (r' : Reading) : Prop :=
  Quiet r event ∧ r.round count event = r'

/-- `out` is what lies between `start` and the position. -/
structure Between (count : Nat) (start : OpenFile) (out : List UInt8) (file : OpenFile) : Prop where
  here : file = start.skip out.length
  bytes : out = start.chunk out.length
  bound : out.length ≤ min count (start.size - start.position)

structure Reads (count : Nat) (r : Reading) : Prop where
  going : r.out ≠ [] → Between count r.start r.out r.file ∧ r.readVersion = r.file.version ∧
    r.expectedPosition = r.file.position
  done : ∀ a, r.answer = some a → Between count r.start r.out r.file ∧
    r.out.length = min count (r.start.size - r.start.position) ∧
    a = (BitVec.ofNat 32 r.out.length).toInt

theorem Between.more (between : Between count start out file) (few : length ≤ count - out.length)
    (inside : length ≤ file.size - file.position) :
    Between count start (out ++ file.chunk length) (file.skip length) := by
  obtain ⟨rfl, bytes, bound⟩ := between
  have size : (out ++ (start.skip out.length).chunk length).length =
    out.length + length := by simp [OpenFile.chunk]
  refine ⟨by rw [size]; simp [OpenFile.skip, Nat.add_assoc],
    ?_, by rw [size]; simp only [OpenFile.skip] at inside; omega⟩
  rw [size]
  nth_rewrite 1 [bytes]
  simp [OpenFile.chunk, OpenFile.skip, List.range_add, Nat.add_assoc]

/-- Where the version is the same, so is the file. -/
theorem OpenFile.after_same (others : List Other) :
    ∀ f : OpenFile, f.version ≤ (others.foldl after f).version ∧
    ((others.foldl after f).version = f.version →
      others.foldl after f = { f with position := (others.foldl after f).position }) := by
  induction others with
  | nil => exact fun f => ⟨le_rfl, fun _ => rfl⟩
  | cons other others ih =>
    intro f
    obtain ⟨later, same⟩ := ih (f.after other)
    cases other with
    | write size byte =>
      refine ⟨Nat.le_of_succ_le later, fun still => ?_⟩
      exact absurd (still ▸ later) (Nat.not_succ_le_self _)
    | seek position => exact ⟨later, same⟩

namespace Reads

variable (reads : Reads count r) (same : r.out ≠ [] → file = r.file)

include reads same

theorem between : Between count (r.noted file) r.out file := by
  unfold Reading.noted
  split
  · rename_i none
    rw [none]
    exact ⟨rfl, rfl, Nat.zero_le _⟩
  · rename_i some
    rw [same some]
    exact (reads.going some).1

theorem ret (stop : count ≤ r.out.length ∨ file.size ≤ file.position) : Reads count
    (r.ret file) := by
  have between := reads.between same
  refine ⟨fun some => ⟨between, ?_⟩, ?_⟩
  · rw [Reading.ret, same some]
    exact (reads.going some).2
  · rintro a ⟨⟩
    refine ⟨between, ?_, rfl⟩
    have bound := between.bound
    rw [between.here] at stop
    simp only [OpenFile.skip] at stop
    simp only [Reading.ret]
    omega

theorem take (going : r.answer = none) (few : length ≤ count - r.out.length)
    (inside : length ≤ file.size - file.position) : Reads count (r.take file file length) :=
  ⟨fun _ => ⟨(reads.between same).more few inside, rfl, rfl⟩,
  fun _ answered => nomatch going.symm.trans answered⟩

omit same

theorem round (quiet : Quiet r event) : Reads count (r.round count event) := by
  unfold Reading.round
  split
  · exact reads
  rename_i going
  rw [Option.not_isSome_iff_eq_none] at going
  split
  · rename_i full
    exact reads.ret (fun _ => rfl) (.inl full)
  rename_i more
  dsimp only
  have same : r.out ≠ [] → event.1.foldl OpenFile.after r.file = r.file := by
    intro some
    obtain ⟨before, page⟩ := event
    cases page <;> simp_all [Quiet]
  generalize event.1.foldl OpenFile.after r.file = file at *
  split
  · rename_i stop
    refine reads.ret same (.inr (stop.resolve_left ?_))
    rintro ⟨some, moved⟩
    obtain ⟨-, version, position⟩ := reads.going some
    rw [same some] at moved
    omega
  rename_i inside
  obtain ⟨before, page⟩ := event
  cases page with
  | shared => exact reads.take same going (Nat.min_le_left ..) (by omega)
  | retry =>
    exact ⟨fun some => same some ▸ reads.going some,
      fun _ answered => nomatch going.symm.trans answered⟩
  | failed => exact quiet.elim
  | cached meanwhile =>
    obtain ⟨-, still⟩ := OpenFile.after_same meanwhile file
    have calm : r.out ≠ [] → meanwhile.foldl OpenFile.after file = file := by
      intro some
      rw [(quiet some).2]
      rfl
    dsimp only
    generalize meanwhile.foldl OpenFile.after file = now at *
    split
    · refine ⟨fun some => ?_, fun _ answered => nomatch going.symm.trans answered⟩
      rw [calm some, same some]
      exact reads.going some
    · rename_i unchanged
      obtain rfl : now = file := by
        rw [still (by omega), show now.position = file.position by omega]
      exact reads.take same going (by omega) (Nat.min_le_right ..)

end Reads

/-- Others do nothing, and the page is there. -/
def Calm : ReadEvent → Prop
  | ([], .shared) | ([], .cached []) => True
  | _ => False

/-- A calm round reads something or returns. -/
theorem Reading.round_calm
    (calm : Calm event) (going : (Reading.round count r event).answer = none) :
    r.answer = none ∧ count - (r.round count event).out.length < count - r.out.length := by
  unfold round at going ⊢
  split at going
  · simp_all
  split at going
  · cases going
  dsimp only at going
  split at going
  · cases going
  rename_i running more inside
  have step : ∀ {file : OpenFile} {length}, 0 < length →
      count - (r.take file file length).out.length < count - r.out.length := by
    intro file length some
    simp only [take, OpenFile.chunk, List.length_append, List.length_map, List.length_range]
    omega
  refine ⟨by simpa using running, ?_⟩
  rw [if_neg running, if_neg more]
  dsimp only
  rw [if_neg inside]
  unfold pageSize at *
  match event, calm with
  | ([], .shared), _ => exact step (by simp at *; omega)
  | ([], .cached []), _ =>
    simp only [List.foldl_nil, ne_eq, not_true, or_self, if_false]
    exact step (by simp at *; omega)

theorem Reading.calm_returns (events : List ReadEvent) :
    ∀ {r : Reading}, (∀ e ∈ events, Calm e) →
    r.answer.isSome ∨ count - r.out.length < events.length →
      (events.foldl (Reading.round count) r).answer.isSome := by
  induction events with
  | nil => exact fun _ enough => enough.resolve_right (Nat.not_lt_zero _)
  | cons event events ih =>
    intro r calm enough
    obtain ⟨now, later⟩ := List.forall_mem_cons.mp calm
    apply ih later
    cases answered : (r.round count event).answer with
    | some a => exact .inl rfl
    | none =>
      obtain ⟨running, less⟩ := Reading.round_calm now answered
      simp only [running, List.length_cons] at enough
      exact .inr (by grind)

/-- A call that others leave alone from its first bytes on reads all there is, as it is at that
time, and says so where the number fits; and it returns when others leave it alone for long
enough. -/
theorem cached_read_whole
    (run : Run (QuietStep count) { file := f } events r) :
    (∀ a, r.answer = some a → let n := min count (r.start.size - r.start.position)
      r.out = r.start.chunk n ∧ r.file = r.start.skip n ∧ (n < 2 ^ 31 → a = n)) ∧
    ∀ more : List ReadEvent, (∀ e ∈ more, Calm e) → count < more.length →
      (more.foldl (Reading.round count) r).answer.isSome := by
  have reads : Reads count r := by
    refine run.preserves (P := Reads count) (fun r event r' reads step => ?_) ⟨nofun, nofun⟩
    obtain ⟨quiet, rfl⟩ := step
    exact reads.round quiet
  refine ⟨fun a answered => ?_, fun more calm many => Reading.calm_returns more calm
    (.inr (by omega))⟩
  obtain ⟨between, all, rfl⟩ := reads.done a answered
  rw [← all]
  refine ⟨between.bytes, between.here, fun small => ?_⟩
  rw [BitVec.toInt_ofNat', Int.bmod_eq_of_le] <;> omega

def zeros (size : Nat) : OpenFile := { size, byte := fun _ => 0 }

def letters : OpenFile := { size := 3, byte := fun i => 65 + UInt8.ofNat i, position := 1 }

theorem cached_read_whole_letters : ∃ r, Run (QuietStep 5) { file := letters }
    [([.seek 2], .cached [.seek 1]), ([], .shared), ([], .shared)] r ∧ r.out = [66, 67] ∧
      r.answer = some 2 := by
  have run : Run (QuietStep 5) { file := letters }
      [([.seek 2], .cached [.seek 1]), ([], .shared), ([], .shared)] _ :=
    .cons
      ⟨fun some => absurd rfl some, rfl⟩
      (.cons ⟨fun _ => rfl, rfl⟩ (.cons ⟨fun _ => rfl, rfl⟩ (.nil _)))
  have whole := (cached_read_whole run).1 2 (by decide)
  exact ⟨_, run, whole.1.trans (by decide), by decide⟩

theorem zeros_start {r : Reading}
    (start : r.start = zeros n ∧ (r.out = [] → r.file = zeros n)) :
    (r.round count ([], .shared)).start = zeros n ∧
      ((r.round count ([], .shared)).out = [] →
        (r.round count ([], .shared)).file = zeros n) := by
  have noted : r.noted r.file = zeros n := by
    unfold Reading.noted
    split
    · exact start.2 ‹_›
    · exact start.1
  unfold Reading.round
  dsimp only [List.foldl_nil]
  split
  · exact start
  split
  · exact ⟨noted, start.2⟩
  split
  · exact ⟨noted, start.2⟩
  · refine ⟨noted, fun none => ?_⟩
    obtain ⟨first, empty⟩ := List.append_eq_nil_iff.mp none
    simp only [OpenFile.chunk, List.map_eq_nil_iff, List.range_eq_nil] at empty
    rw [Reading.take, empty]
    exact start.2 first

/-- A calm read of a file of zeros. -/
theorem zeros_read (n : Nat) : ∃ events : List ReadEvent, (∀ e ∈ events, Calm e) ∧
    (events.foldl (Reading.round n) { file := zeros n }).file.position = n ∧
    (events.foldl (Reading.round n) { file := zeros n }).answer =
      some (BitVec.ofNat 32 n).toInt := by
  obtain ⟨events, same, long⟩ : ∃ events : List ReadEvent,
      (∀ e ∈ events, e = ([], .shared)) ∧ n < events.length :=
    ⟨List.replicate (n + 1) _, fun _ => List.eq_of_mem_replicate, by simp⟩
  have calm : ∀ e ∈ events, Calm e := fun e member => same e member ▸ trivial
  have returned : (events.foldl (Reading.round n) { file := zeros n }).answer.isSome :=
    Reading.calm_returns events calm (.inr (by simpa using long))
  have inv :=
    List.foldlRecOn (motive := fun r => Reads n r ∧ r.start = zeros n ∧
      (r.out = [] → r.file = zeros n))
    events (Reading.round n) (b := { file := zeros n }) ⟨⟨nofun, nofun⟩, rfl, fun _ => rfl⟩
        fun r inv e member => by
      rw [same e member]
      exact ⟨inv.1.round fun _ => rfl, zeros_start inv.2⟩
  refine ⟨events, calm, ?_⟩
  generalize events.foldl (Reading.round n) { file := zeros n } = r at *
  obtain ⟨reads, start, -⟩ := inv
  obtain ⟨a, answered⟩ := Option.isSome_iff_exists.mp returned
  obtain ⟨between, all, rfl⟩ := reads.done a answered
  have whole : r.out.length = n := by
    rw [all, start]
    simp [zeros]
  rw [answered, between.here, start, whole]
  exact ⟨Nat.zero_add n, rfl⟩

/-- From 2 GiB on the number of bytes comes out negative. -/
theorem cached_read_negative : ∃ events : List ReadEvent, (∀ e ∈ events, Calm e) ∧
    (events.foldl (Reading.round (2 ^ 31)) { file := zeros (2 ^ 31) }).file.position = 2 ^ 31 ∧
    (events.foldl (Reading.round (2 ^ 31)) { file := zeros (2 ^ 31) }).answer = some (-2 ^ 31) := by
  obtain ⟨events, calm, position, answer⟩ := zeros_read (2 ^ 31)
  exact ⟨events, calm, position, answer.trans (by decide)⟩

end Mecocoa.File
