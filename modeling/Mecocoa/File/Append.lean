import Mecocoa.Lib.FlatFile
import Mecocoa.Lib.Run

/-! # Writers that append

`ProcessBlock::Rdwt` for descriptors with `O_APPEND` on one regular file.  A call takes its
position from the size of the file once, and then hands its bytes over in chunks.  Each chunk
is one `Filesys::Write` under the lock of the file systems; between two of them the calls of
other processes run.
-/

namespace Mecocoa.File

open Function

open Lib (FlatFile.write)

/-- A call under way: its `fd_pos`, an `int`, and the bytes it has yet to hand over. -/
structure AppendCall where
  fdPos : BitVec 32
  rest : List UInt8
  deriving DecidableEq

structure AppendFile (n : Nat) where
  bytes : List UInt8
  call : Fin n → Option AppendCall := fun _ => none
  -- What an observer notes: the chunks that `Filesys::Write` took, in their order.
  taken : List UInt8 := []

def fsbufSize : Nat := 0x4000

inductive AppendEvent (n : Nat) where
  | start (i : Fin n) (data : List UInt8)
  /-- The next chunk, of which the backend takes `accepted` bytes at most. -/
  | chunk (i : Fin n) (accepted : Nat)
  | finish (i : Fin n)

/-- `f_pos`, a `stduint` with `w` bits, is set from `fd_pos`. -/
def fPos (w : Nat) (fdPos : BitVec 32) : Nat := (fdPos.signExtend w).toNat

def AppendFile.step (w : Nat) (s : AppendFile n) : AppendEvent n → AppendFile n
  | .start i data =>
    { s with call := update s.call i (some ⟨BitVec.ofNat 32 s.bytes.length, data⟩) }
  | .chunk i accepted =>
    match s.call i with
    | none => s
    | some c =>
      if c.rest = [] then s
      else
        let data := c.rest.take (min accepted fsbufSize)
        { bytes := FlatFile.write 0 s.bytes (fPos w c.fdPos) data
          call := update s.call i
            (some ⟨c.fdPos + BitVec.ofNat 32 data.length, c.rest.drop data.length⟩)
          taken := s.taken ++ data }
  | .finish i => { s with call := update s.call i none }

/-- A call starts while no other one is under way, and a chunk goes to a file whose size is the
same after it went through `fd_pos`: one below 2 GiB, if a `stduint` has 64 bits. -/
def Alone (w : Nat) (s : AppendFile n) : AppendEvent n → Prop
  | .start i _ => ∀ j, j ≠ i → s.call j = none
  | .chunk i _ => ∀ c ∈ s.call i, c.rest ≠ [] →
    fPos w (BitVec.ofNat 32 s.bytes.length) = s.bytes.length
  | .finish _ => True

/-- At most one call is under way, and it writes at the end of the file. -/
structure Appends (old : List UInt8) (s : AppendFile n) : Prop where
  bytes : s.bytes = old ++ s.taken
  atEnd : ∀ i c, s.call i = some c →
    c.fdPos = BitVec.ofNat 32 s.bytes.length ∧ ∀ j, j ≠ i → s.call j = none

theorem write_end (bytes data : List UInt8) :
    FlatFile.write 0 bytes bytes.length data = bytes ++ data := by
  simp [FlatFile.write, Lib.FlatFile.resize]

theorem Appends.step {s : AppendFile n} (appends : Appends old s) (alone : Alone w s event) :
    Appends old (s.step w event) := by
  obtain ⟨bytes, atEnd⟩ := appends
  cases event with
  | start i data =>
    refine ⟨bytes, fun j c here => ?_⟩
    by_cases same : j = i
    · subst same
      cases (update_self j _ s.call).symm.trans here
      exact ⟨rfl, fun k other => (update_of_ne other ..).trans (alone k other)⟩
    · have := (update_of_ne same ..).symm.trans here
      simp [alone j same] at this
  | chunk i accepted =>
    simp only [AppendFile.step]
    split
    · exact ⟨bytes, atEnd⟩
    rename_i c here
    split
    · exact ⟨bytes, atEnd⟩
    rename_i more
    obtain ⟨fdPos, others⟩ := atEnd i c here
    rw [fdPos, alone c here more, write_end]
    refine ⟨by rw [bytes, List.append_assoc], fun j d there => ?_⟩
    by_cases same : j = i
    · subst same
      cases (update_self j _ s.call).symm.trans there
      refine ⟨?_, fun k other => (update_of_ne other ..).trans (others k other)⟩
      rw [List.length_append, BitVec.ofNat_add]
    · have := (update_of_ne same ..).symm.trans there
      simp [others j same] at this
  | finish i =>
    refine ⟨bytes, fun j c here => ?_⟩
    simp only [AppendFile.step, update_apply] at *
    grind

/-- A step that keeps calls apart. -/
def Serial (w : Nat) (s : AppendFile n) (event : AppendEvent n) (s' : AppendFile n) : Prop :=
  Alone w s event ∧ s.step w event = s'

end Mecocoa.File
