import Mecocoa.Lib.LinkedQueues

/-! # The scheduler

Thread states, run queues and the current thread of every core.  The scheduler lock
makes each function here one step, so that a run interleaves them in any order.
`none` as the result of a step means that it does not return: the links of a queue
run in a circle, or the core waits for a lock that it holds itself.
-/

namespace Mecocoa.Sched

open Lib (LinkedQueues)
open Lib.LinkedQueues (firstFrom chainFrom)
open Function (update)

inductive ThreadState where
  | running | ready | pended | uninit | exited | hanging | invalid
  deriving DecidableEq, Repr

abbrev BlockReason := BitVec 32

structure Thread where
  state : ThreadState := .uninit
  priority : Int := 0
  timeSlice : Nat := 0
  isExpired : Bool := false
  justSchedule : Bool := false
  ringCoreid : Option Nat := none
  isDetached : Bool := false
  blockReason : BlockReason := 0
  pendingWake : BlockReason := 0
  deriving DecidableEq

/-- `priority_queues` and `expired_queues`. -/
inductive QueueArray where
  | priority | expired
  deriving DecidableEq, Repr

instance : Fintype QueueArray := ⟨{.priority, .expired}, fun array => by cases array <;> decide⟩

abbrev QueueKey := QueueArray × Fin 32

/-- `n` threads on `c` cores. -/
structure Taskman (n c : Nat) where
  threads : Fin n → Thread
  queues : LinkedQueues QueueKey (Fin n)
  bitmap : QueueArray → BitVec 32
  current : Fin c → Fin n
  idle : Fin c → Fin n
  switchingOut : Fin c → Option (Fin n)

variable {n c : Nat}

/-- Nothing queued. -/
def Taskman.start (threads : Fin n → Thread) (current idle : Fin c → Fin n) : Taskman n c :=
  { threads, current, idle, queues := .empty, bitmap := fun _ => 0, switchingOut := fun _ => none }

def Taskman.setThread (s : Taskman n c) (t : Fin n) (th : Thread) : Taskman n c :=
  { s with threads := update s.threads t th }

def Taskman.setState (s : Taskman n c) (t : Fin n) (state : ThreadState) : Taskman n c :=
  s.setThread t { s.threads t with state }

/-! ## Run queues -/

def queueIndex (priority : Int) : Fin 32 :=
  if priority + 16 < 0 then 0
  else if 31 < priority + 16 then 31
  else Fin.ofNat 32 (priority + 16).toNat

def queueBit (i : Fin 32) : BitVec 32 := 1#32 <<< i.val

/-- Link a thread behind the last one of its queue. -/
def linkLast (array : QueueArray) (mark : Thread → Thread) (s : Taskman n c) (pb : Fin n) :
    Taskman n c :=
  let idx := queueIndex (s.threads pb).priority
  { s with
    threads := update s.threads pb (mark (s.threads pb))
    queues := s.queues.pushBack (array, idx) pb
    bitmap := update s.bitmap array (s.bitmap array ||| queueBit idx) }

/-- The body that `EnqueueReady` and `EnqueueExpired` share. -/
def enqueue (array : QueueArray) (mark : Thread → Thread) (s : Taskman n c) (pb : Fin n) :
    Taskman n c :=
  let idx := queueIndex (s.threads pb).priority
  if (s.threads pb).state ≠ .ready ∧ (s.threads pb).state ≠ .running then s
  else if s.queues.next pb ≠ none ∨ s.queues.prev pb ≠ none ∨
    s.queues.head (array, idx) = some pb then s
  else linkLast array mark s pb

def enqueueReady : Taskman n c → Fin n → Taskman n c := enqueue .priority id

def enqueueExpired : Taskman n c → Fin n → Taskman n c :=
  enqueue .expired fun th => { th with isExpired := true }

/-- The queue at whose head or tail `DequeueReady` finds the thread. -/
def foundIn (s : Taskman n c) (idx : Fin 32) (pb : Fin n) : Option QueueArray :=
  if s.queues.head (.priority, idx) = some pb then some .priority
  else if s.queues.head (.expired, idx) = some pb then some .expired
  else if s.queues.tail (.priority, idx) = some pb then some .priority
  else if s.queues.tail (.expired, idx) = some pb then some .expired
  else none

def dequeueReady (s : Taskman n c) (pb : Fin n) : Taskman n c :=
  let idx := queueIndex (s.threads pb).priority
  match foundIn s idx pb with
  | none => { s with queues := s.queues.unlink pb }
  | some array =>
    let queues := s.queues.detach (array, idx) pb
    { s with
      queues
      bitmap := if queues.head (array, idx) = none then
          update s.bitmap array (s.bitmap array &&& ~~~queueBit idx)
        else s.bitmap }

/-! ## The choice of the next thread -/

def upperMask : BitVec 32 := 0xFFFF0000#32

/-- The queues of A-type threads. -/
def upperHalf : List (Fin 32) := (List.finRange 32).drop 16

/-- One pass of the loop of the epoch swap. -/
def swapQueue (s : Taskman n c) (i : Fin 32) : Option (Taskman n c) :=
  let queues := s.queues.move (.expired, i) (.priority, i)
  (chainFrom queues.next (Fintype.card (Fin n)) (queues.head (.priority, i))).map fun nodes =>
    { s with
      queues
      threads := fun t => if nodes.contains t then { s.threads t with isExpired := false }
      else s.threads t }

/-- Whether `PickNext` begins a new epoch. -/
def SwapDue (s : Taskman n c) : Prop :=
  s.bitmap .priority &&& upperMask = 0 ∧ s.bitmap .expired &&& upperMask ≠ 0

instance (s : Taskman n c) : Decidable (SwapDue s) := by
  unfold SwapDue
  infer_instance

def epochSwap (s : Taskman n c) : Option (Taskman n c) :=
  if SwapDue s then
    (upperHalf.foldlM swapQueue s).map fun s =>
      { s with bitmap := fun
          | .priority => s.bitmap .priority ||| (s.bitmap .expired &&& upperMask)
          | .expired => s.bitmap .expired &&& ~~~upperMask }
  else some s

/-- The bits in the order in which the loop over `__builtin_ctz` takes them. -/
def setBits (bitmap : BitVec 32) : List (Fin 32) :=
  (List.finRange 32).filter fun i => bitmap.getLsbD i.val

/-- The first thread with the property in the queues, in order. -/
def scanQueues (s : Taskman n c) (array : QueueArray) (p : Fin n → Bool) :
    List (Fin 32) → Option (Option (Fin n))
  | [] => some none
  | i :: rest =>
    match firstFrom s.queues.next p (Fintype.card (Fin n)) (s.queues.head (array, i)) with
    | none => none
    | some (some t) => some (some t)
    | some none => scanQueues s array p rest

/-- A queued thread that no core has. -/
def eligible (s : Taskman n c) (core : Fin c) (t : Fin n) : Bool :=
  !(s.threads t).justSchedule && (s.threads t).state ≠ .running &&
    !decide (∃ other, other ≠ core ∧ s.current other = t)

/-- `runnable_here`; only the 32-bit x86 build has an affinity. -/
def runnableHere (affinity : Bool) (s : Taskman n c) (core : Fin c) (t : Fin n) : Bool :=
  !affinity || (s.threads t).ringCoreid = none || (s.threads t).ringCoreid = some core.val

/-- The core that still switches away from the thread no longer holds it. -/
def releaseSwitching (s : Taskman n c) (t : Fin n) : Taskman n c :=
  match (List.finRange c).find? fun core => s.switchingOut core = some t with
  | none => s
  | some core => { s with switchingOut := update s.switchingOut core none }

def picked (s : Taskman n c) (choice : Option (Fin n)) : Option (Fin n) × Taskman n c :=
  match choice with
  | none => (none, s)
  | some t => (some t, releaseSwitching s t)

/-- `PickNext` after the swap. -/
def pickFrom (affinity : Bool) (core : Fin c) (s : Taskman n c) :
    Option (Option (Fin n) × Taskman n c) :=
  let ready := fun t => eligible s core t && runnableHere affinity s core t
  let elsewhere := fun t => eligible s core t && !runnableHere affinity s core t
  let active := setBits (s.bitmap .priority)
  (scanQueues s .priority ready active).bind fun
    | some t => some (picked s (some t))
    | none =>
      -- The scan was complete, so the flag is whether it passed such a thread.
      (scanQueues s .priority elsewhere active).bind fun skipped =>
        if skipped.isSome ∧ s.bitmap .expired &&& upperMask ≠ 0 then
          (scanQueues s .expired ready (setBits (s.bitmap .expired &&& upperMask))).map (picked s)
        else some (none, s)

def pickNext (affinity : Bool) (core : Fin c) (s : Taskman n c) :
    Option (Option (Fin n) × Taskman n c) :=
  (epochSwap s).bind (pickFrom affinity core)

/-! ## Sleeping and waking -/

def block (s : Taskman n c) (t : Fin n) (reason : BlockReason) : Taskman n c :=
  let s := dequeueReady s t
  let th := s.threads t
  if th.pendingWake &&& reason ≠ 0 then
    s.setThread t { th with
      pendingWake := th.pendingWake &&& ~~~reason
      blockReason := th.blockReason &&& ~~~reason }
  else s.setThread t { th with state := .pended, blockReason := th.blockReason ||| reason }

/-- `UnblockThreadLocked`. -/
def unblock (s : Taskman n c) (t : Fin n) (reason : BlockReason) : Taskman n c :=
  let th := { s.threads t with blockReason := (s.threads t).blockReason &&& ~~~reason }
  if th.blockReason = 0 then
    if th.state = .running then s.setThread t { th with pendingWake := th.pendingWake ||| reason }
    else if th.state = .ready then s.setThread t th
    else
      let s := s.setThread t { th with state := .ready }
      if th.isExpired then enqueueExpired s t else enqueueReady s t
  else s.setThread t th

/-! ## Switching -/

/-- The time slice that a thread gets when it has used up one. -/
def nextSlice (priority : Int) : Nat := ((3 - priority / 4) % 256).toNat

/-- The branch of `ifContinueProcess` for a running thread whose slice is used up. -/
def expireSlice (s : Taskman n c) (t : Fin n) : Taskman n c :=
  let s := (dequeueReady s t).setState t .ready
  if 0 ≤ (s.threads t).priority then
    let s := enqueueExpired s t
    s.setThread t { s.threads t with timeSlice := nextSlice (s.threads t).priority }
  else
    let s := enqueueReady s t
    s.setThread t { s.threads t with timeSlice := 4 }

def ifContinueProcess (s : Taskman n c) (t : Fin n) : Bool × Taskman n c :=
  if (s.threads t).state = .running then
    if 0 < (s.threads t).timeSlice then
      (true, s.setThread t { s.threads t with timeSlice := (s.threads t).timeSlice - 1 })
    else (false, expireSlice s t)
  else (false, s)

/-- `SettleSwitchingOutThread`.  `DestroyThread` would wait for the scheduler lock, which this
core holds. -/
def settleSwitchingOut (s : Taskman n c) (core : Fin c) : Option (Taskman n c) :=
  match s.switchingOut core with
  | none => some s
  | some t =>
    if (s.threads t).state = .hanging ∧ (s.threads t).isDetached then none
    else some { s.setThread t { s.threads t with justSchedule := false } with
      switchingOut := update s.switchingOut core none }

/-- What `Schedule(true)` does with the thread that gives the core up. -/
def giveUp (s : Taskman n c) (core : Fin c) : Taskman n c :=
  let old := s.current core
  let state := (s.threads old).state
  if state = .pended ∨ state = .hanging ∨ state = .invalid then s
  else if old ≠ s.idle core then
    let s := (dequeueReady s old).setState old .ready
    if state = .running ∨ state = .ready then enqueueExpired s old else s
  else s.setState old .ready

/-- The states of both threads at a switch. -/
def switchStates (s : Taskman n c) (old new : Fin n) : Taskman n c :=
  let s := if (s.threads new).state = .uninit then s.setState new .ready else s
  if (s.threads old).state = .running ∧ (s.threads new).state = .ready then
    (s.setState old .ready).setState new .running
  else if (s.threads new).state = .ready then s.setState new .running
  else s

/-- The end of `Schedule` and `SleepAndRelease`. -/
def switchTo (s : Taskman n c) (core : Fin c) (old new : Fin n) : Taskman n c :=
  { s.setThread old { s.threads old with justSchedule := true } with
    current := update s.current core new
    switchingOut := update s.switchingOut core (some old) }

/-- `Schedule` once the next thread is chosen. -/
def scheduleTo (s : Taskman n c) (core : Fin c) (old new : Fin n) : Taskman n c :=
  if new = old then
    let s := if (s.threads old).state = .ready then s.setState old .running else s
    dequeueReady s old
  else
    let s := if new ≠ s.idle core then dequeueReady s new else s
    switchTo (switchStates s old new) core old new

def scheduleChoice (s : Taskman n c) (core : Fin c) (choice : Option (Fin n)) : Fin n :=
  let old := s.current core
  match choice with
  | some new => new
  | none =>
    if (s.threads old).state = .running ∨ (s.threads old).state = .ready then old else s.idle core

/-- `PickNext` and the switch to what it finds. -/
def reschedule (affinity : Bool) (core : Fin c) (s : Taskman n c) : Option (Taskman n c) :=
  (pickNext affinity core s).map fun (choice, s) =>
    scheduleTo s core (s.current core) (scheduleChoice s core choice)

/-- `Schedule`; the idle threads are there. -/
def schedule (affinity : Bool) (s : Taskman n c) (core : Fin c) (omitSlice : Bool) :
    Option (Taskman n c) :=
  (settleSwitchingOut s core).bind fun s =>
    let old := s.current core
    if omitSlice then reschedule affinity core (giveUp s core)
    else if old = s.idle core then
      if s.bitmap .priority = 0 ∧ s.bitmap .expired = 0 then some s
        else reschedule affinity core s
    else
      match ifContinueProcess s old with
      | (true, s) => some s
      | (false, s) => reschedule affinity core s

/-- `SleepAndRelease`, without the lock that it releases. -/
def sleepAndRelease (affinity : Bool) (s : Taskman n c) (core : Fin c) : Option (Taskman n c) :=
  (settleSwitchingOut s core).bind fun s =>
    let old := s.current core
    (pickNext affinity core (dequeueReady s old)).map fun (choice, s) =>
      let new := choice.getD (s.idle core)
      let s := if new ≠ s.idle core then dequeueReady s new else s
      switchTo (s.setState new .running) core old new

def appendThread (s : Taskman n c) (t : Fin n) : Taskman n c := enqueueReady (s.setState t .ready) t

def hangThread (s : Taskman n c) (t : Fin n) : Taskman n c :=
  let s := dequeueReady s t
  s.setThread t { s.threads t with state := .hanging, blockReason := 0 }

/-- `ExitThread` of a thread that is not the main one, after its joiner is woken. -/
def exitThread (affinity : Bool) (s : Taskman n c) (core : Fin c) : Option (Taskman n c) :=
  schedule affinity (hangThread s (s.current core)) core true

end Mecocoa.Sched
