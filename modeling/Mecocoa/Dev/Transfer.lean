import Mecocoa.Lib.Patch

/-! # Byte transfers on a block device

`storage_transfer` reads or writes whole blocks in place, and the ends of a range through a buffer
of one block. Every call of the driver may fail and leave anything in its target.
-/

namespace Mecocoa.Dev

open Lib (patch patch_outside)

/-- How the calls for one block go; a failed one leaves bytes behind. -/
structure BlockAnswer where
  allocates : Bool := true
  read : Option (Nat → UInt8) := none
  write : Option (Nat → UInt8) := none

structure Request where
  blockSize : Nat
  units : Nat
  idx : Nat
  count : Nat
  isWrite : Bool
  answers : Nat → BlockAnswer := fun _ => {}

structure Transfer where
  disk : Nat → UInt8
  buf : Nat → UInt8
  /-- The block buffer is allocated. -/
  bounce : Bool := false
  processed : Nat := 0
  -- What an observer notes: the block whose write failed.
  failed : Option Nat := none

namespace Request

def size (r : Request) : Nat := if r.blockSize = 0 then 1 else r.blockSize

def totalBytes (r : Request) : Nat := r.units * r.size % 2 ^ 64

def wanted (r : Request) : Nat := min r.count (r.totalBytes - r.idx)

/-- One round of the loop, with `error` where it ends the call. -/
def round (r : Request) (t : Transfer) (remaining : Nat) : Except Transfer (Nat × Transfer) :=
  let block := (r.idx + t.processed) / r.size
  let blockOff := (r.idx + t.processed) % r.size
  let chunk := min remaining (r.size - blockOff)
  let answer := r.answers block
  let next := { t with processed := t.processed + chunk }
  let torn left :=
    { t with disk := patch t.disk (block * r.size) r.size left, failed := some block }
  if blockOff = 0 ∧ chunk = r.size then
    if r.isWrite then
      match answer.write with
      | some left => .error (torn left)
      | none => .ok (chunk, { next with
          disk := patch t.disk (block * r.size) r.size fun i => t.buf (t.processed + i) })
    else
      match answer.read with
      | some left => .error { t with buf := patch t.buf t.processed r.size left }
      | none => .ok (chunk, { next with
          buf := patch t.buf t.processed r.size fun i => t.disk (block * r.size + i) })
  else if !t.bounce && !answer.allocates then .error t
  else
    match answer.read with
    | some _ => .error { t with bounce := false }
    | none =>
      let read := fun i => t.disk (block * r.size + i)
      if r.isWrite then
        match answer.write with
        | some left => .error { torn left with bounce := false }
        | none => .ok (chunk, { next with
            bounce := true
            disk := patch t.disk (block * r.size) r.size
              (patch read blockOff chunk fun i => t.buf (t.processed + i)) })
      else .ok (chunk, { next with
        bounce := true
        buf := patch t.buf t.processed chunk fun i => read (blockOff + i) })

/-- The rounds up to the end of the range, or to a failure. -/
def rounds (r : Request) : Nat → Transfer → Nat → Except Transfer Transfer
  | 0, t, _ => .ok { t with bounce := false }
  | fuel + 1, t, remaining =>
    if remaining = 0 then .ok { t with bounce := false }
    else
      match r.round t remaining with
      | .error t => .error t
      | .ok (chunk, t) => rounds r fuel t (remaining - chunk)

/-- `storage_transfer`; the value is converted to a signed word of `bits` bits. -/
def storageTransfer (r : Request) (bits : Nat) (disk buf : Nat → UInt8) : Int × Transfer :=
  if r.count = 0 ∨ r.totalBytes ≤ r.idx then (0, { disk, buf })
  else
    match r.rounds r.wanted { disk, buf } r.wanted with
    | .error t => (if t.processed = 0 then -1 else .bmod t.processed (2 ^ bits), t)
    | .ok t => (.bmod t.processed (2 ^ bits), t)

/-! ## What a transfer has done -/

variable {r : Request} {t t' : Transfer} {disk buf : Nat → UInt8}

theorem size_pos (r : Request) : 0 < r.size := by
  unfold size
  split <;> omega

/-- The first `processed` bytes are transferred, and nothing else has changed but a block whose
write failed. -/
structure Done (r : Request) (disk buf : Nat → UInt8) (t : Transfer) : Prop where
  read : r.isWrite = false → t.disk = disk ∧ t.failed = none ∧
    ∀ i < t.processed, t.buf i = disk (r.idx + i)
  write : r.isWrite = true → t.buf = buf ∧
    ∀ a, t.failed ≠ some (a / r.size) → t.disk a = patch disk r.idx t.processed buf a

/-- A call for the block where the range begins, inside of it, fails. -/
def FirstFails (r : Request) : Prop :=
  let answer := r.answers (r.idx / r.size)
  answer.allocates = false ∨ answer.read ≠ none ∨ r.isWrite = true ∧ answer.write ≠ none

/-- The call for the block as a whole fails. -/
def WholeFails (r : Request) (block : Nat) : Prop :=
  (if r.isWrite then (r.answers block).write else (r.answers block).read) ≠ none

/-- Between two rounds: the next byte begins a block, and the buffer is allocated only for a
range that does not. -/
structure Going (r : Request) (disk buf : Nat → UInt8) (t : Transfer) (remaining : Nat) : Prop
    extends Done r disk buf t where
  sound : t.failed = none
  total : t.processed + remaining = r.wanted
  next : t.processed = 0 ∨ remaining = 0 ∨ (r.idx + t.processed) % r.size = 0
  buffer : t.bounce = true → 0 < t.processed ∧
    (remaining = 0 ∨ r.idx % r.size ≠ 0 ∧ ¬ r.FirstFails)

/-- The range begins with a block, or it fails at once, or no block within it fails as a whole;
else the block buffer is lost. -/
def Frees (r : Request) : Prop := r.idx % r.size = 0 ∨ r.FirstFails ∨ ∀ block,
  r.idx ≤ block * r.size → block * r.size + r.size ≤ r.idx + r.wanted →
    ¬ r.WholeFails block

/-- A failed write, for a range of which `processed` bytes are done. -/
theorem Going.torn (going : Going r disk buf t remaining) (write : r.isWrite = true)
    (left : Nat → UInt8) (bounce : Bool) : Done r disk buf { t with
      disk := patch t.disk ((r.idx + t.processed) / r.size * r.size) r.size left
      failed := some ((r.idx + t.processed) / r.size)
      bounce } := by
  refine ⟨by simp [write], fun _ => ⟨(going.write write).1, fun a other => ?_⟩⟩
  dsimp only at other ⊢
  rw [patch_outside, (going.write write).2 a (by simp [going.sound])]
  rintro ⟨low, high⟩
  exact other (congrArg some (Nat.div_eq_of_lt_le low (by rwa [Nat.succ_mul])).symm)

/-- A round that transferred `chunk` bytes, however it did. -/
theorem Going.advance (going : Going r disk buf t remaining) (few : chunk ≤ remaining)
    (ends : chunk = remaining ∨ (r.idx + t.processed + chunk) % r.size = 0)
    (buffer : bounce = true → 0 < t.processed + chunk ∧
      (chunk = remaining ∨ r.idx % r.size ≠ 0 ∧ ¬ r.FirstFails))
    (read : r.isWrite = false → disk' = t.disk ∧
      ∀ i, buf' i = patch t.buf t.processed chunk (fun i => t.disk (r.idx + t.processed + i)) i)
    (write : r.isWrite = true → buf' = t.buf ∧
      ∀ a, disk' a = patch t.disk (r.idx + t.processed) chunk
      (fun i => t.buf (t.processed + i)) a) :
    Going r disk buf
      { t with disk := disk', buf := buf', bounce, processed := t.processed + chunk }
      (remaining - chunk) := by
  obtain ⟨⟨read₀, write₀⟩, sound, total, next, -⟩ := going
  rw [Nat.add_assoc] at ends
  refine ⟨⟨fun reads => ?_, fun writes => ?_⟩,
    sound, by dsimp only; omega, by dsimp only; omega,
    by grind⟩
  · obtain ⟨same, filled⟩ := read reads
    obtain ⟨rfl, -, done⟩ := read₀ reads
    refine ⟨same, sound, fun i low => ?_⟩
    dsimp only at low ⊢
    rw [filled, patch]
    split
    · rw [Nat.add_assoc, Nat.add_sub_of_le (by omega)]
    · exact done i (by omega)
  · obtain ⟨rfl, filled⟩ := write writes
    obtain ⟨rfl, done⟩ := write₀ writes
    refine ⟨rfl, fun a _ => ?_⟩
    dsimp only
    rw [filled, patch, done a (by simp [sound])]
    unfold patch
    grind

/-- A call that ended early: some call of the driver failed, and there is no block buffer. -/
structure Ended (r : Request) (disk buf : Nat → UInt8) (t : Transfer) : Prop
    extends Done r disk buf t where
  few : t.processed ≤ r.wanted
  freed : t.bounce = false
  fails : ∃ block, r.answers block ≠ {}

def Went (r : Request) (disk buf : Nat → UInt8) (remaining : Nat) :
    Except Transfer (Nat × Transfer) → Prop
  | .error t' => Ended r disk buf t'
  | .ok (chunk, t') => Going r disk buf t' (remaining - chunk) ∧ 0 < chunk

theorem Going.round (going : Going r disk buf t remaining) (more : remaining ≠ 0)
    (frees : r.Frees) :
    Went r disk buf remaining (r.round t remaining) := by
  have pos := r.size_pos
  have place := Nat.div_add_mod' (r.idx + t.processed) r.size
  have inside := Nat.mod_lt (r.idx + t.processed) pos
  have torn := going.torn
  have next := going.next
  have total := going.total
  unfold Request.round
  dsimp only
  generalize here : (r.idx + t.processed) / r.size = block at *
  generalize off : (r.idx + t.processed) % r.size = blockOff at *
  generalize size : min remaining (r.size - blockOff) = chunk
  have few : chunk ≤ remaining := by omega
  have part : t.processed ≤ r.wanted := by omega
  have ends : chunk = remaining ∨ (r.idx + t.processed + chunk) % r.size = 0 := by
    refine (Nat.lt_or_ge (r.size - blockOff) remaining).symm.imp (fun _ => by omega) fun _ => ?_
    rw [show r.idx + t.processed + chunk = (block + 1) * r.size by rw [Nat.add_mul]; omega,
      Nat.mul_mod_left]
  split
  · rename_i whole
    obtain ⟨rfl, rfl⟩ := whole
    rw [Nat.add_zero] at place
    have begun (bounce : t.bounce = true) : r.idx % r.size ≠ 0 ∧ ¬ r.FirstFails :=
      (going.buffer bounce).2.resolve_left more
    -- Where the block buffer is allocated, the range began within a block that did not fail, and
    -- then this one does not fail.
    have fine left (fails : (if r.isWrite then (r.answers block).write
        else (r.answers block).read) = some left) : t.bounce = false := by
      refine Bool.eq_false_iff.mpr fun bounce => ?_
      obtain ⟨unaligned, first⟩ := begun bounce
      rcases frees with aligned | early | all
      · exact unaligned aligned
      · exact first early
      · exact all block (by omega) (by omega) (by simp [WholeFails, fails])
    have keeps (bounce : t.bounce = true) : 0 < t.processed + r.size ∧
        (r.size = remaining ∨ r.idx % r.size ≠ 0 ∧ ¬ r.FirstFails) :=
      ⟨by omega, .inr (begun bounce)⟩
    split
    · rename_i write
      rw [if_pos write] at fine
      split
      · rename_i left fails
        exact ⟨torn write left _, part, fine left fails, block, fun eq => by simp [eq] at fails⟩
      · exact ⟨going.advance few ends keeps (by simp [write]) fun _ =>
          ⟨rfl, fun a => by rw [place]⟩,
          pos⟩
    · rename_i write
      rw [if_neg write] at fine
      have reads := Bool.eq_false_iff.mpr write
      split
      · rename_i left fails
        refine ⟨⟨fun _ => ?_, by simp [reads]⟩, part, fine left fails, block,
          fun eq => by simp [eq] at fails⟩
        obtain ⟨same, -, done⟩ := going.read reads
        refine ⟨same, going.sound, fun i low => ?_⟩
        dsimp only at low ⊢
        rw [patch_outside (by omega), done i low]
      · exact ⟨going.advance few ends keeps (fun _ => ⟨rfl, fun a => by rw [place]⟩)
          (by simp [reads]), pos⟩
  split
  · rename_i none
    exact ⟨going.toDone, part, by simp_all, block, fun eq => by simp [eq] at none⟩
  rename_i allocated
  -- The first round goes through the buffer and so knows that its block did not fail; any other
  -- one that does is the last.
  have buffer (fine : ¬ ((r.answers block).read ≠ none ∨
      r.isWrite = true ∧ (r.answers block).write ≠ none)) (_ : true = true) :
      0 < t.processed + chunk ∧
          (chunk = remaining ∨ r.idx % r.size ≠ 0 ∧ ¬ r.FirstFails) := by
    refine ⟨by omega, ?_⟩
    by_cases first : t.processed = 0
    · have fresh : t.bounce = false := Bool.eq_false_iff.mpr fun bounce => by
        have := (going.buffer bounce).1
        omega
      rw [first, Nat.add_zero] at off here
      refine or_iff_not_imp_left.mpr fun more => ⟨by omega, ?_⟩
      unfold FirstFails
      rw [here]
      rintro (fails | fails)
      · simp [fresh, fails] at allocated
      · exact fine fails
    · omega
  split
  · rename_i fails
    exact ⟨⟨going.read, going.write⟩, part, rfl, block, fun eq => by simp [eq] at fails⟩
  split
  · rename_i write
    split
    · rename_i fails
      exact ⟨torn write _ _, part, rfl, block, fun eq => by simp [eq] at fails⟩
    · refine ⟨going.advance few ends (buffer (by simp_all)) (by simp [write])
        fun _ => ⟨rfl, fun a => ?_⟩, by omega⟩
      unfold patch
      grind
  · rename_i write
    refine ⟨going.advance few ends (buffer (by simp_all)) (fun _ => ⟨rfl, fun a => ?_⟩)
      (by simp [write]), by omega⟩
    rw [← place]
    simp only [Nat.add_assoc]

theorem Going.finish (going : Going r disk buf t 0) :
    Done r disk buf { t with bounce := false } ∧ t.processed = r.wanted :=
  ⟨⟨going.read, going.write⟩, going.total⟩

theorem Going.rounds (going : Going r disk buf t remaining) (frees : r.Frees) (fuel : Nat)
    (enough : remaining ≤ fuel) :
    (∀ t', r.rounds fuel t remaining = .error t' → Ended r disk buf t') ∧
      ∀ t', r.rounds fuel t remaining = .ok t' →
        (Done r disk buf t' ∧ t'.processed = r.wanted) ∧ t'.bounce = false := by
  induction fuel generalizing t remaining with
  | zero =>
    obtain rfl : remaining = 0 := by omega
    refine ⟨nofun, fun t' eq => ?_⟩
    cases eq
    exact ⟨going.finish, rfl⟩
  | succ fuel ih =>
    unfold Request.rounds
    split
    · rename_i none
      subst none
      refine ⟨nofun, fun t' eq => ?_⟩
      cases eq
      exact ⟨going.finish, rfl⟩
    rename_i more
    have went := going.round more frees
    generalize r.round t remaining = result at went
    cases result with
    | error t' => exact ⟨fun t' eq => by cases eq; exact went, nofun⟩
    | ok next => exact ih went.1 (by have := went.2; omega)

/-! ## The buffer that is lost -/

/-- A range that begins inside of a block which does not fail goes through the buffer first. -/
theorem round_first (unaligned : r.idx % r.size ≠ 0) (fine : ¬ r.FirstFails)
    (fresh : t.processed = 0) (more : r.size - r.idx % r.size < remaining) :
    ∃ t', r.round t remaining = .ok (r.size - r.idx % r.size, t') ∧
      t'.processed = r.size - r.idx % r.size ∧ t'.bounce = true := by
  obtain ⟨allocates, read, write⟩ : (r.answers (r.idx / r.size)).allocates = true ∧
      (r.answers (r.idx / r.size)).read = none ∧
      (r.isWrite = true → (r.answers (r.idx / r.size)).write = none) := by
    simpa [FirstFails, not_or] using fine
  have chunk : min remaining (r.size - r.idx % r.size) = r.size - r.idx % r.size := by omega
  unfold Request.round
  simp only [fresh, Nat.add_zero, chunk, unaligned, false_and, if_false, allocates, Bool.not_true,
    Bool.and_false, Bool.false_eq_true, read, Nat.zero_add]
  split
  · rename_i writes
    rw [write writes]
    exact ⟨_, rfl, rfl, rfl⟩
  · exact ⟨_, rfl, rfl, rfl⟩

/-- A whole block leaves the buffer as it is, and if it fails the call ends with it. -/
theorem round_whole (aligned : (r.idx + t.processed) % r.size = 0) (whole : r.size ≤ remaining)
    (bounce : t.bounce = true) :
    (∃ t', r.round t remaining = .error t' ∧ t'.bounce = true) ∨
      (∃ t', r.round t remaining = .ok (r.size, t') ∧ t'.processed = t.processed + r.size ∧
        t'.bounce = true) ∧ ¬ r.WholeFails ((r.idx + t.processed) / r.size) := by
  have chunk : min remaining r.size = r.size := by omega
  unfold Request.round WholeFails
  simp only [aligned, Nat.sub_zero, chunk, true_and, if_true]
  cases r.isWrite with
  | true =>
    cases (r.answers ((r.idx + t.processed) / r.size)).write <;> simp [bounce]
  | false =>
    cases (r.answers ((r.idx + t.processed) / r.size)).read <;> simp [bounce]

/-- With the buffer allocated, the blocks up to one that fails are whole. -/
theorem rounds_lost (fuel : Nat) (enough : remaining ≤ fuel) (bounce : t.bounce = true)
    (aligned : (r.idx + t.processed) % r.size = 0)
    (ahead : r.idx + t.processed ≤ block * r.size)
    (whole : block * r.size + r.size ≤ r.idx + t.processed + remaining)
    (fails : r.WholeFails block) :
    ∃ t', r.rounds fuel t remaining = .error t' ∧ t'.bounce = true := by
  have pos := r.size_pos
  induction fuel generalizing t remaining with
  | zero => omega
  | succ fuel ih =>
    unfold Request.rounds
    rw [if_neg (by omega)]
    rcases round_whole aligned (show r.size ≤ remaining by omega) bounce with
      ⟨t', ran, lost⟩ | ⟨⟨t', ran, on, kept⟩, fine⟩
    · exact ⟨t', by rw [ran], lost⟩
    rw [ran]
    -- The block that fails is not this one.
    have place := Nat.div_add_mod' (r.idx + t.processed) r.size
    have other : (r.idx + t.processed) / r.size ≠ block := fun same => fine (same ▸ fails)
    have further : ((r.idx + t.processed) / r.size + 1) * r.size ≤ block * r.size :=
      Nat.mul_le_mul_right _ (lt_of_le_of_ne (Nat.div_le_of_le_mul (by rwa [Nat.mul_comm])) other)
    rw [Nat.succ_mul] at further
    refine ih (by omega) kept ?_ (by omega) (by omega)
    rw [on, ← Nat.add_assoc, Nat.add_mod_right, aligned]

/-! ## The whole call -/

/-- The value tells how many bytes were transferred, all of them if no call of the driver fails,
nothing else is done, and the buffer is freed. -/
structure Exact (r : Request) (disk buf : Nat → UInt8) (value : Int) (t : Transfer) : Prop
    extends Done r disk buf t where
  few : t.processed ≤ r.wanted
  value : value = if t.processed = 0 ∧ r.wanted ≠ 0 then -1 else (t.processed : Int)
  all : (∀ block, r.answers block = {}) → t.processed = r.wanted
  freed : t.bounce = false

theorem storageTransfer_freed (r : Request) (bits : Nat) (disk buf : Nat → UInt8)
    (freed : (r.storageTransfer bits disk buf).2.bounce = false) : r.Frees := by
  by_contra lost
  simp only [Frees, not_or, not_forall, not_not] at lost
  obtain ⟨unaligned, fine, block, low, high, fails⟩ := lost
  have pos := r.size_pos
  have inside := Nat.mod_lt r.idx pos
  have place := Nat.div_add_mod' r.idx r.size
  have later : r.idx + (r.size - r.idx % r.size) ≤ block * r.size := by
    have : r.idx / r.size < block := by
      by_contra early
      have := Nat.mul_le_mul_right r.size (Nat.not_lt.mp early)
      omega
    have := Nat.mul_le_mul_right r.size this
    rw [Nat.succ_mul] at this
    omega
  obtain ⟨t₁, first, on, bounce⟩ :=
    round_first (t := { disk, buf }) unaligned fine rfl
      (show r.size - r.idx % r.size < r.wanted by omega)
  have aligned : (r.idx + t₁.processed) % r.size = 0 := by
    rw [on, show r.idx + (r.size - r.idx % r.size) = (r.idx / r.size + 1) * r.size by
      rw [Nat.succ_mul]; omega, Nat.mul_mod_left]
  obtain ⟨t', ran, lost⟩ : ∃ t', r.rounds r.wanted { disk, buf } r.wanted = .error t' ∧
      t'.bounce = true := by
    obtain ⟨fuel, is⟩ : ∃ fuel, r.wanted = fuel + 1 := ⟨r.wanted - 1, by omega⟩
    rw [is, Request.rounds, if_neg (by omega), ← is, first]
    exact rounds_lost fuel (by omega) bounce aligned (by omega) (by omega) fails
  unfold storageTransfer at freed
  rw [if_neg (by unfold wanted at high; omega), ran] at freed
  simp [lost] at freed

/-- A device of four blocks of two bytes, of which the second one fails. -/
def secondFails (idx count : Nat) (isWrite : Bool) : Request :=
  { blockSize := 2, units := 4, idx, count, isWrite,
    answers := fun block =>
      if block = 1 then { read := some fun _ => 0, write := some fun _ => 0 } else {} }

end Request

end Mecocoa.Dev
