import Mecocoa.Lib.Run

/-! # The one-block cache of a storage adapter

`StorageAdapter`, for a device that nobody else writes.  What the driver answers is part of a call,
and it may fail at every message.  The transaction mutex makes each call one step.
-/

namespace Mecocoa.Dev

open Lib (Run)
open Function (update)

/-- How `ReadBlock` goes: `torn` is a data message that fails and what it leaves in the target. -/
inductive ReadAnswer where
  | lost
  | refused
  | torn (left : List UInt8)
  | data (bytes : List UInt8)

inductive WriteAnswer where
  | lost
  | refused
  | stored

structure StorageAdapter where
  /-- Bits of a `stduint`. -/
  word : Nat
  blockSize : Nat
  blockCount : Nat
  readable : Bool := true
  writable : Bool := true
  online : Bool := true
  mediaPresent : Bool := true
  /-- Shared with the other units of the controller. -/
  sessionOnline : Bool := true
  cachedBlock : Option Nat := none
  blockBuffer : List UInt8 := []
  -- What an observer notes: the bytes of a block as last written or delivered.
  last : Nat → Option (List UInt8) := fun _ => none

namespace StorageAdapter

def hasMedia (a : StorageAdapter) : Bool := a.sessionOnline && a.online && a.mediaPresent

/-- `own` where the target is the adapter's buffer. -/
def readBlock (a : StorageAdapter) (own : Bool) (block : Nat) :
    ReadAnswer → Option (List UInt8) × StorageAdapter
  | .lost => (none, { a with sessionOnline := false })
  | .refused => (none, a)
  | .torn left =>
    (none, { a with sessionOnline := false, blockBuffer := if own then left else a.blockBuffer })
  | .data bytes => (some bytes, { a with
      blockBuffer := if own then bytes else a.blockBuffer
      last := update a.last block (some bytes) })

def readLoop (a : StorageAdapter) (own : Bool) (block : Nat) :
    List ReadAnswer → Bool × StorageAdapter
  | [] => (true, a)
  | answer :: rest =>
    match a.readBlock own block answer with
    | (none, a) => (false, a)
    | (some bytes, a) => readLoop { a with blockBuffer := bytes, cachedBlock := some block } false
      (block + 1) rest

def writeLoop (a : StorageAdapter) (block : Nat) :
    List (List UInt8 × WriteAnswer) → Bool × StorageAdapter
  | [] => (true, a)
  | (bytes, answer) :: rest =>
    let a := { a with cachedBlock := none }
    match answer with
    | .lost => (false, { a with sessionOnline := false })
    | .refused => (false, a)
    | .stored => writeLoop { a with last := update a.last block (some bytes) } (block + 1) rest

/-- What `Read` and `Write` check first. -/
def inRange (a : StorageAdapter) (block times : Nat) : Bool :=
  decide (times ≠ 0 ∧ block < a.blockCount ∧ times ≤ a.blockCount - block ∧
    times ≤ (2 ^ a.word - 1) / a.blockSize)

def read (a : StorageAdapter) (own : Bool) (block : Nat) (answers : List ReadAnswer) :
    Bool × StorageAdapter :=
  if a.readable && a.inRange block answers.length && a.hasMedia then a.readLoop own block answers
    else (false, a)

def write (a : StorageAdapter) (block : Nat) (blocks : List (List UInt8 × WriteAnswer)) :
    Bool × StorageAdapter :=
  if a.writable && a.inRange block blocks.length && a.hasMedia then a.writeLoop block blocks
    else (false, a)

/-- `operator[]`. -/
def byteAt (a : StorageAdapter) (offset : Nat) (answer : ReadAnswer) :
    Option UInt8 × StorageAdapter :=
  let block := offset / a.blockSize
  if a.blockSize = 0 ∨ a.blockCount ≤ block ∨ a.readable = false ∨
    a.hasMedia = false then (none, a)
  else if a.cachedBlock = some block then (some (a.blockBuffer.getD (offset % a.blockSize) 0), a)
  else
    match a.readBlock true block answer with
    | (none, a) => (none, a)
    | (some _, a) =>
      (some (a.blockBuffer.getD (offset % a.blockSize) 0), { a with cachedBlock := some block })

inductive Event where
  | read (own : Bool) (block : Nat) (answers : List ReadAnswer)
  | write (block : Nat) (blocks : List (List UInt8 × WriteAnswer))
  | byteAt (offset : Nat) (answer : ReadAnswer)
  | driverExited
  /-- `Register` for this unit, or for another one of the controller. -/
  | register (readable writable mediaPresent : Bool)
  | registerOther

def step (a : StorageAdapter) : Event → StorageAdapter
  | .read own block answers => (a.read own block answers).2
  | .write block blocks => (a.write block blocks).2
  | .byteAt offset answer => (a.byteAt offset answer).2
  | .driverExited =>
    { a with sessionOnline := false, online := false, cachedBlock := none, mediaPresent := false }
  | .register readable writable mediaPresent =>
    if a.online then a
    else { a with
      readable, writable, mediaPresent, cachedBlock := none, online := true, sessionOnline := true }
  | .registerOther => { a with sessionOnline := true }

/-- A data message for the buffer fails only while the cache claims no block. -/
def Intact (a : StorageAdapter) : Event → Prop
  | .read true _ (.torn _ :: _) => a.cachedBlock = none
  | .byteAt offset (.torn _) => a.cachedBlock = none ∨ a.cachedBlock = some (offset / a.blockSize)
  | _ => True

/-- The cache holds the block it claims. -/
def Holds (a : StorageAdapter) : Prop :=
  ∀ b, a.cachedBlock = some b → a.last b = some a.blockBuffer

theorem Holds.readLoop (answers : List ReadAnswer) :
    ∀ {a : StorageAdapter} {own block}, Holds a →
    (own = true → ∀ left, answers.head? = some (.torn left) → a.cachedBlock = none) →
    Holds (a.readLoop own block answers).2 := by
  induction answers with
  | nil => exact fun holds _ => holds
  | cons answer rest ih =>
    intro a own block holds intact
    cases answer with
    | lost | refused => exact holds
    | torn left =>
      cases own with
      | false => exact holds
      | true =>
        intro b claimed
        exact nomatch (intact rfl left rfl).symm.trans claimed
    | data bytes =>
      refine ih ?_ nofun
      rintro b ⟨⟩
      exact Function.update_self ..

theorem Holds.writeLoop (blocks : List (List UInt8 × WriteAnswer)) :
    ∀ {a : StorageAdapter} {block}, Holds a →
    Holds (a.writeLoop block blocks).2 := by
  induction blocks with
  | nil => exact id
  | cons entry rest ih =>
    intro a block holds
    obtain ⟨bytes, answer⟩ := entry
    cases answer with
    | lost | refused => exact nofun
    | stored => exact ih nofun

theorem Holds.byteAt (holds : Holds a) (intact : Intact a (.byteAt offset answer)) :
    Holds (a.byteAt offset answer).2 ∧ ∀ x, (a.byteAt offset answer).1 = some x →
      ∃ bytes, (a.byteAt offset answer).2.last (offset / a.blockSize) = some bytes ∧
        x = bytes.getD (offset % a.blockSize) 0 := by
  unfold StorageAdapter.byteAt
  dsimp only
  split
  · exact ⟨holds, nofun⟩
  split
  · rename_i claimed
    refine ⟨holds, ?_⟩
    rintro x ⟨⟩
    exact ⟨_, holds _ claimed, rfl⟩
  rename_i other
  cases answer with
  | lost | refused => exact ⟨holds, nofun⟩
  | torn left =>
    have nothing := intact.resolve_right other
    exact ⟨fun b claimed => (nomatch nothing.symm.trans claimed), nofun⟩
  | data bytes =>
    have delivered : update a.last (offset / a.blockSize) (some bytes) (offset / a.blockSize) =
        some bytes :=
      Function.update_self ..
    refine ⟨?_, ?_⟩
    · rintro b ⟨⟩
      exact delivered
    · rintro x ⟨⟩
      exact ⟨bytes, delivered, rfl⟩

theorem Holds.step (holds : Holds a) (intact : Intact a e) : Holds (a.step e) := by
  cases e with
  | read own block answers =>
    dsimp only [StorageAdapter.step, StorageAdapter.read]
    split
    · refine holds.readLoop answers fun isOwn left first => ?_
      subst isOwn
      obtain ⟨rest, rfl⟩ := List.head?_eq_some_iff.mp first
      exact intact
    · exact holds
  | write block blocks =>
    dsimp only [StorageAdapter.step, StorageAdapter.write]
    split
    · exact holds.writeLoop blocks
    · exact holds
  | byteAt offset answer => exact (holds.byteAt intact).1
  | driverExited => exact nofun
  | register readable writable mediaPresent =>
    dsimp only [StorageAdapter.step]
    split
    · exact holds
    · exact nofun
  | registerOther => exact holds

/-- A byte that `operator[]` returns is the one of its block as last written or delivered, in every
run in which no transfer that fails has overwritten the block of the cache. -/
theorem storage_cache_holds (start : StorageAdapter) (empty : start.cachedBlock = none)
    (run : Run (fun a e a' => Intact a e ∧ a.step e = a') start events a) :
    Holds a ∧ ∀ offset answer x, Intact a (.byteAt offset answer) →
      (a.byteAt offset answer).1 = some x →
      ∃ bytes, (a.byteAt offset answer).2.last (offset / a.blockSize) = some bytes ∧
        x = bytes.getD (offset % a.blockSize) 0 := by
  have holds : Holds a := by
    refine run.preserves (P := Holds) (fun a e a' holds step => ?_) fun b claimed =>
      nomatch empty.symm.trans claimed
    obtain ⟨intact, rfl⟩ := step
    exact holds.step intact
  exact ⟨holds, fun offset answer x intact => (holds.byteAt intact).2 x⟩

def twoBlocks : StorageAdapter := { word := 64, blockSize := 1, blockCount := 2 }

theorem storage_cache_holds_twoBlocks :
    ∃ a, Run (fun a e a' => Intact a e ∧ step a e = a') twoBlocks
    [.byteAt 0 (.data [7]), .byteAt 1 .lost, .registerOther] a ∧
      (a.byteAt 0 .lost).1 = some 7 ∧ Holds a := by
  have run : Run (fun a e a' => Intact a e ∧ step a e = a') twoBlocks
      [.byteAt 0 (.data [7]), .byteAt 1 .lost, .registerOther] _ :=
    .cons ⟨trivial, rfl⟩ (.cons ⟨trivial, rfl⟩ (.cons ⟨trivial, rfl⟩ (.nil _)))
  exact ⟨_, run, by decide, (storage_cache_holds twoBlocks rfl run).1⟩

/-- The data of block 1 fails to come, and the cache still claims block 0; once another unit has
registered, its byte comes out wrong. -/
theorem storage_cache_torn : ∃ a, Run (fun a e a' => step a e = a') twoBlocks
    [.byteAt 0 (.data [7]), .byteAt 1 (.torn [0]), .registerOther] a ∧
      a.cachedBlock = some 0 ∧ a.last 0 = some [7] ∧
      a.blockBuffer = [0] ∧ (a.byteAt 0 .lost).1 = some 0 :=
  ⟨_, Run.foldl step twoBlocks _, by decide⟩

end StorageAdapter

end Mecocoa.Dev
