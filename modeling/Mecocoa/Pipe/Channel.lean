import Mecocoa.Sched.Wakeups

/-! # Pipes

`ReadPipe`, `WritePipe` and `ClosePipe` on the channels of pipes.  The lock of a channel
makes each critical section one step; between two of them a thread is in one of the
stages below, and everything else may happen.  A thread that wakes a list walks it by the
links in the threads, which it does not hold a lock for.  `none` as the result of a step
means that it is not possible, or that it does not return.

The ring buffer is a bounded first-in first-out queue of `capacity` bytes.
-/

namespace Mecocoa.Pipe

open Lib (Chains)
open Lib.LinkedQueues (firstFrom setLink)
open Sched (BlockReason blockedThread wokenThread)
open Function (update)

def brSendPipe : BlockReason := 0b1000000
def brRecvPipe : BlockReason := 0b10000000

def pipeWaitMask : BlockReason := brSendPipe ||| brRecvPipe

/-- The ends of a pipe; `read_wait_head` is the list of the readers. -/
inductive Side where
  | reader | writer
  deriving DecidableEq, Repr

namespace Side

/-- What a thread at this end waits with. -/
def reason : Side → BlockReason
  | .reader => brRecvPipe
  | .writer => brSendPipe

def other : Side → Side
  | .reader => .writer
  | .writer => .reader

end Side

structure Channel where
  buffer : List UInt8
  readerCount : Nat
  writerCount : Nat
  deriving DecidableEq

namespace Channel

/-- As `CreatePipe` leaves it. -/
def fresh : Channel := ⟨[], 1, 1⟩

def count (chan : Channel) : Side → Nat
  | .reader => chan.readerCount
  | .writer => chan.writerCount

def setCount (chan : Channel) (side : Side) (count : Nat) : Channel :=
  match side with
  | .reader => { chan with readerCount := count }
  | .writer => { chan with writerCount := count }

end Channel

/-- What a call transfers: a read has `dst` so far, a write has sent `written` bytes of `src`. -/
inductive Transfer where
  | read (count : Nat) (dst : List UInt8)
  | write (src : List UInt8) (written : Nat)
  deriving DecidableEq

def Transfer.side : Transfer → Side
  | .read .. => .reader
  | .write .. => .writer

structure Job (m : Nat) where
  id : Nat
  chan : Fin m
  transfer : Transfer
  deriving DecidableEq

namespace Job

variable {m : Nat}

def side (job : Job m) : Side := job.transfer.side

def reason (job : Job m) : BlockReason := job.side.reason

end Job

/-- What a thread in `ReadPipe` or `WritePipe` does next. -/
inductive Stage (n : Nat) where
  | enter | added | cancel | block | check | look | cancelBlocked | unblockSelf | sleep | woken
  | wake (head : Option (Fin n))
  deriving DecidableEq

inductive Call (m n : Nat) where
  | none
  | io (job : Job m) (stage : Stage n)
  | close (side : Side) (head : Option (Fin n))
  deriving DecidableEq

inductive Outcome where
  | read (bytes : List UInt8)
  | wrote (count : Nat)
  | interrupted
  | broken
  deriving DecidableEq

/-- What `bytes ? bytes : -4` comes to. -/
def Transfer.interrupted : Transfer → Outcome
  | .read _ dst => if dst = [] then .interrupted else .read dst
  | .write _ written => if written = 0 then .interrupted else .wrote written

/-- A signal on its way in `wakeup_thread_for_signal`. -/
inductive Signaller (n : Nat) where
  | cancel (t : Fin n)
  | unblock (t : Fin n)
  deriving DecidableEq

/-- `pipe_wait_prev`, `pipe_wait_next` and `pipe_wait_channel` of the threads, and the heads. -/
structure Waiters (m n : Nat) where
  lists : Chains (Fin m × Side) (Fin n)
  prev : Fin n → Option (Fin n)
  channel : Fin n → Option (Fin m)

namespace Waiters

variable {m n : Nat}

def empty : Waiters m n := ⟨.empty, fun _ => none, fun _ => none⟩

def pipeClearWaiter (w : Waiters m n) (t : Fin n) : Waiters m n where
  lists := w.lists.setNext t none
  prev := update w.prev t none
  channel := update w.channel t none

def pipeAddWaiter (w : Waiters m n) (key : Fin m × Side) (t : Fin n) : Waiters m n :=
  let head := w.lists.head key
  let w := w.pipeClearWaiter t
  { lists :=
      { head := update w.lists.head key (some t)
        next := update w.lists.next t head }
    prev := setLink w.prev head (some t)
    channel := update w.channel t (some key.1) }

/-- Take a member that was found out of its list. -/
def unlinkWaiter (w : Waiters m n) (key : Fin m × Side) (t : Fin n) : Waiters m n :=
  let lists := match w.prev t with
    | some before => w.lists.setNext before (w.lists.next t)
    | none => { w.lists with head := update w.lists.head key (w.lists.next t) }
  { w with lists, prev := setLink w.prev (lists.next t) (w.prev t) }.pipeClearWaiter t

def pipeRemoveWaiter (w : Waiters m n) (key : Fin m × Side) (t : Fin n) : Option (Waiters m n) :=
  (firstFrom w.lists.next (· = t) n (w.lists.head key)).map fun
    | none => w
    | some _ => w.unlinkWaiter key t

/-- The loop of `PipeTakeWaitList`.  Links that run in a circle lead it back to the start. -/
def takeLoop : Nat → Waiters m n → Option (Fin n) → Option (Fin n) →
    Option (Waiters m n × Option (Fin n))
  | _, w, none, wakeHead => some (w, wakeHead)
  | 0, _, some _, _ => none
  | fuel + 1, w, some t, wakeHead =>
    let rest := w.lists.next t
    let w := w.pipeClearWaiter t
    takeLoop fuel { w with lists := w.lists.setNext t wakeHead } rest (some t)

/-- `PipeTakeWaitList`; gives the head of the list to wake. -/
def pipeTakeWaitList (w : Waiters m n) (key : Fin m × Side) :
    Option (Waiters m n × Option (Fin n)) :=
  (takeLoop (2 * n + 1) w (w.lists.head key) none).map fun r =>
  ({ r.1 with lists := r.1.lists.clear key }, r.2)

end Waiters

/-- `n` threads and `m` pipes. -/
structure Pipes (m n : Nat) where
  capacity : Nat
  control : Fin n → Sched.Thread
  onCpu : Fin n → Bool
  signalled : Fin n → Bool
  call : Fin n → Call m n
  channels : Fin m → Channel
  waiters : Waiters m n
  signallers : List (Signaller n)
  nextId : Nat
  -- What an observer notes: the bytes that entered and left the channels, each with the call
  -- that it was, and what the calls returned.
  accepted : Fin m → List (Nat × UInt8)
  taken : Fin m → List (Nat × UInt8)
  returned : List (Job m × Outcome)

variable {m n : Nat}

/-- Fresh pipes, and no thread in a call. -/
def Pipes.start (capacity : Nat) (control : Fin n → Sched.Thread) (onCpu : Fin n → Bool) :
    Pipes m n where
  capacity := capacity
  control := control
  onCpu := onCpu
  signalled := fun _ => false
  call := fun _ => .none
  channels := fun _ => .fresh
  waiters := .empty
  signallers := []
  nextId := 0
  accepted := fun _ => []
  taken := fun _ => []
  returned := []

namespace Pipes

def block (s : Pipes m n) (t : Fin n) (reason : BlockReason) : Pipes m n :=
  { s with control := update s.control t (blockedThread (s.control t) reason) }

def unblock (s : Pipes m n) (t : Fin n) (reason : BlockReason) : Pipes m n :=
  { s with control := update s.control t (wokenThread (s.control t) reason) }

/-- The thread gives up its core. -/
def yieldCpu (s : Pipes m n) (t : Fin n) : Pipes m n :=
  { s with
    onCpu := update s.onCpu t false
    control := update s.control t
      { s.control t with state := if (s.control t).state = .running then .ready
      else (s.control t).state } }

def setCall (s : Pipes m n) (t : Fin n) (call : Call m n) : Pipes m n :=
  { s with call := update s.call t call }

def setChannel (s : Pipes m n) (c : Fin m) (chan : Channel) : Pipes m n :=
  { s with channels := update s.channels c chan }

def ret (s : Pipes m n) (t : Fin n) (job : Job m) (outcome : Outcome) : Pipes m n :=
  { s with call := update s.call t .none, returned := s.returned ++ [(job, outcome)] }

/-- Link the thread into the list of its end and let go of the lock. -/
def addWaiter (s : Pipes m n) (t : Fin n) (job : Job m) : Pipes m n :=
  { s with waiters := s.waiters.pipeAddWaiter (job.chan, job.side) t }.setCall t (.io job .added)

/-- Detach the list of an end and let go of the lock. -/
def takeWaiters (s : Pipes m n) (key : Fin m × Side) (call : Option (Fin n) → Call m n)
    (t : Fin n) :
    Option (Pipes m n) :=
  (s.waiters.pipeTakeWaitList key).map fun r => { s with waiters := r.1 }.setCall t (call r.2)

/-- Bytes leave the channel for the buffer of a read. -/
def takeBytes (s : Pipes m n) (c : Fin m) (id k : Nat) : Pipes m n :=
  let chan := s.channels c
  { s with
    channels := update s.channels c { chan with buffer := chan.buffer.drop k }
    taken := update s.taken c (s.taken c ++ (chan.buffer.take k).map (id, ·)) }

/-- Bytes of a write enter the channel. -/
def putBytes (s : Pipes m n) (c : Fin m) (id : Nat) (bytes : List UInt8) : Pipes m n :=
  let chan := s.channels c
  { s with
    channels := update s.channels c { chan with buffer := chan.buffer ++ bytes }
    accepted := update s.accepted c (s.accepted c ++ bytes.map (id, ·)) }

/-- One round of the loop of `ReadPipe`, up to the release of the lock. -/
def readSection (s : Pipes m n) (t : Fin n) (job : Job m) (count : Nat) (dst : List UInt8) :
    Option (Pipes m n) :=
  let chan := s.channels job.chan
  if dst.length < count then
    if chan.buffer = [] then
      if chan.writerCount = 0 then some (s.ret t job (.read dst)) else some (s.addWaiter t job)
    else
      let k := count - dst.length
      let job' := { job with transfer := .read count (dst ++ chan.buffer.take k) }
      (s.takeBytes job.chan job.id k).takeWaiters (job.chan, .writer) (.io job' <| .wake ·) t
  else some (s.ret t job (.read dst))

/-- One round of the loop of `WritePipe`, up to the release of the lock.  The `SIGPIPE` of a write
to a broken pipe is a signal like others. -/
def writeSection (s : Pipes m n) (t : Fin n) (job : Job m) (src : List UInt8) (written : Nat) :
    Option (Pipes m n) :=
  let chan := s.channels job.chan
  if written < src.length then
    if chan.readerCount = 0 then some (s.ret t job .broken)
    else if s.capacity ≤ chan.buffer.length then some (s.addWaiter t job)
    else
      let bytes := (src.drop written).take (s.capacity - chan.buffer.length)
      let job' := { job with transfer := .write src (written + bytes.length) }
      (s.putBytes job.chan job.id bytes).takeWaiters (job.chan, .reader) (.io job' <| .wake ·) t
  else some (s.ret t job (.wrote written))

/-- The channel of the call that the thread is in. -/
def pipeIoChannel (s : Pipes m n) (t : Fin n) : Option (Fin m) :=
  match s.call t with
  | .io job _ => some job.chan
  | _ => none

def cancelPipeWait (s : Pipes m n) (t : Fin n) : Option (Pipes m n) :=
  match (s.waiters.channel t).or (s.pipeIoChannel t) with
  | none => some s
  | some c =>
    (s.waiters.pipeRemoveWaiter (c, .reader) t).bind fun w =>
      (w.pipeRemoveWaiter (c, .writer) t).map fun waiters => { s with waiters }

/-- One pass of the loop of `PipeWakeList`. -/
def wakeFirst (s : Pipes m n) (first : Fin n) (reason : BlockReason) : Pipes m n :=
  let w := s.waiters
  { s with waiters := { w with lists := w.lists.setNext first none } }.unblock first reason

/-- The next step of a thread in `ReadPipe` or `WritePipe`. -/
def ioStep (s : Pipes m n) (t : Fin n) (job : Job m) : Stage n → Option (Pipes m n)
  | .enter =>
    match job.transfer with
    | .read count dst => s.readSection t job count dst
    | .write src written => s.writeSection t job src written
  | .added => some (s.setCall t (.io job (if s.signalled t then .cancel else .block)))
  | .cancel => (s.cancelPipeWait t).map fun s => s.ret t job job.transfer.interrupted
  | .block => some ((s.block t job.reason).setCall t (.io job .check))
  | .check => some (s.setCall t (.io job (if (s.control t).state = .pended then .look else .enter)))
  | .look => some (s.setCall t (.io job (if s.signalled t then .cancelBlocked else .sleep)))
  | .cancelBlocked => (s.cancelPipeWait t).map fun s => s.setCall t (.io job .unblockSelf)
  | .unblockSelf => some ((s.unblock t job.reason).ret t job job.transfer.interrupted)
  | .sleep => some ((s.yieldCpu t).setCall t (.io job .woken))
  | .woken =>
    if s.signalled t then some (s.ret t job job.transfer.interrupted)
    else some (s.setCall t (.io job .enter))
  | .wake none => some (s.setCall t (.io job .enter))
  | .wake (some first) =>
    let rest := s.waiters.lists.next first
    some ((s.wakeFirst first job.side.other.reason).setCall t (.io job (.wake rest)))

/-- The next step of a thread in a call. -/
def callStep (s : Pipes m n) (t : Fin n) : Option (Pipes m n) :=
  match s.call t with
  | .none => none
  | .io job stage => s.ioStep t job stage
  | .close _ none => some (s.setCall t .none)
  | .close side (some first) =>
    let rest := s.waiters.lists.next first
    some ((s.wakeFirst first side.other.reason).setCall t (.close side rest))

/-- The critical section of `ClosePipe`.  The last end of a kind wakes those at the other. -/
def closePipe (s : Pipes m n) (t : Fin n) (c : Fin m) (side : Side) : Option (Pipes m n) :=
  let left := (s.channels c).count side - 1
  let s := s.setChannel c ((s.channels c).setCount side left)
  if left = 0 then s.takeWaiters (c, side.other) (.close side) t
    else some (s.setCall t (.close side none))

/-- The next step of a signal. -/
def signalStep (s : Pipes m n) (i : Nat) : Option (Pipes m n) :=
  s.signallers[i]?.bind fun
    | .cancel t => (s.cancelPipeWait t).map fun s =>
      { s with signallers := s.signallers.set i (.unblock t) }
    | .unblock t =>
      some ({ s with signallers := s.signallers.eraseIdx i }.unblock t (s.control t).blockReason)

/-- The thread is running and may begin a call. -/
def mayCall (s : Pipes m n) (t : Fin n) : Bool := s.onCpu t && s.call t = .none

/-- The thread enters `ReadPipe` or `WritePipe`. -/
def beginCall (s : Pipes m n) (t : Fin n) (c : Fin m) (transfer : Transfer) : Pipes m n :=
  { s with call := update s.call t (.io ⟨s.nextId, c, transfer⟩ .enter), nextId := s.nextId +
  1 }

end Pipes

inductive Event (m n : Nat) where
  | readPipe (t : Fin n) (c : Fin m) (count : Nat)
  | writePipe (t : Fin n) (c : Fin m) (src : List UInt8)
  | closePipe (t : Fin n) (c : Fin m) (side : Side)
  | clone (c : Fin m) (side : Side)
  | step (t : Fin n)
  | preempt (t : Fin n)
  | resume (t : Fin n)
  | pend (t : Fin n) (reason : BlockReason)
  | unblock (t : Fin n) (reason : BlockReason)
  | signal (t : Fin n)
  | handled (t : Fin n)
  | wakeup (t : Fin n)
  | signalStep (i : Nat)
  | die (t : Fin n)

/-- One step of the system. -/
def Event.exec (s : Pipes m n) : Event m n → Option (Pipes m n)
  | .readPipe t c count => if s.mayCall t then some (s.beginCall t c (.read count [])) else none
  | .writePipe t c src => if s.mayCall t then some (s.beginCall t c (.write src 0)) else none
  | .closePipe t c side =>
    if s.mayCall t ∧ 0 < (s.channels c).count side then s.closePipe t c side else none
  -- `FileDescriptor_Clone` of an open end.
  | .clone c side =>
    if 0 < (s.channels c).count side then
      some (s.setChannel c ((s.channels c).setCount side ((s.channels c).count side + 1)))
    else none
  | .step t => if s.onCpu t then s.callStep t else none
  | .preempt t => if s.onCpu t then some (s.yieldCpu t) else none
  | .resume t =>
    if s.onCpu t = false ∧ (s.control t).state = .ready then
      some { s with
        onCpu := update s.onCpu t true
        control := update s.control t { s.control t with state := .running } }
    else none
  -- Waits that have nothing to do with pipes.
  | .pend t reason =>
    if s.mayCall t ∧ reason &&& pipeWaitMask = 0 then some ((s.block t reason).yieldCpu t)
      else none
  | .unblock t reason => if reason &&& pipeWaitMask = 0 then some (s.unblock t reason) else none
  | .signal t => some { s with signalled := update s.signalled t true }
  | .handled t => if s.mayCall t then some { s with signalled := update s.signalled t false }
    else none
  | .wakeup t =>
    if (s.control t).state = .pended ∧ (s.control t).blockReason &&& pipeWaitMask ≠ 0 then
      some { s with signallers := s.signallers ++ [.cancel t] }
    else none
  | .signalStep i => s.signalStep i
  -- `_Exit_Cleanup` takes the threads of a process out of their waits before it destroys them,
  -- with the links in them.
  | .die t =>
    (s.cancelPipeWait t).map fun s =>
      { s with
        waiters := s.waiters.pipeClearWaiter t
        call := update s.call t .none
        onCpu := update s.onCpu t false
        control := update s.control t { s.control t with state := .invalid, blockReason := 0 } }

end Mecocoa.Pipe
