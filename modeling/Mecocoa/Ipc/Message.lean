import Mecocoa.Sched.Wakeups

/-! # Message passing

`msg_send`, `msg_recv` and what takes a thread out of them: signals, the exit of threads
and processes, and the replacement of a program by `Exet`.  The comm lock makes every
critical section one step.  Between two of them a thread is in one of the stages below,
and everything else may happen.  `none` as the result of a step means that it is not
possible, or that it does not return.
-/

namespace Mecocoa.Ipc

open Lib (Chains)
open Lib.LinkedQueues (firstFrom chainFrom)
open Sched (BlockReason blockedThread wokenThread)
open Function (update)

def brSendMsg : BlockReason := 0b10
def brRecvMsg : BlockReason := 0b100
def brExiting : BlockReason := 0b10000

def limitThreadAmsg : Nat := 64

inductive ProcState where
  | active | expiring | hanging | invalid
  deriving DecidableEq

/-- A message with a number of its own; `src` is the `tid` of its sender. -/
structure Message (n : Nat) where
  id : Nat
  src : Fin n
  dst : Fin n
  isAsync : Bool
  deriving DecidableEq

/-- `unsolved_msg`: a null pointer, the buffer of a receive, the message of a send, or `-1`. -/
inductive Unsolved (n : Nat) where
  | null
  | buffer
  | message (m : Message n)
  | dead
  deriving DecidableEq

/-- From whom a thread receives: `ANYPROC`, `INTRUPT` or one thread. -/
inductive Source (n : Nat) where
  | any
  | intrupt
  | thread (t : Fin n)
  deriving DecidableEq

/-- The message that a call is given: a null pointer, or one that `MccaMemCopyP` can use or not. -/
inductive Buffer where
  | null | unmapped | mapped
  deriving DecidableEq

/-- What a thread that waits to send does next. -/
inductive SendStage where
  | block | check | sleep | woken | self | look | signal
  deriving DecidableEq

/-- What a thread that waits to receive does next. -/
inductive RecvStage where
  | block | check | sleep | woken | self | look | signal | sync | async
  deriving DecidableEq

/-- What a receive goes on with when it has woken the senders that it dropped. -/
inductive After (n : Nat) where
  | done
  | wake (fo : Fin n)
  | block
  | async
  deriving DecidableEq

inductive Call (n : Nat) where
  | none
  | send (stage : SendStage) (m : Message n)
  | sendWake (m : Message n)
  | recv (stage : RecvStage) (foo : Source n)
  | drop (foo : Source n) (dropped : Option (Fin n)) (after : After n)
  deriving DecidableEq

/-- Wakes to be done outside the comm lock: the senders linked from `dropped`, a list, and a
thread that is woken whatever it waits for. -/
structure Waker (n : Nat) where
  dropped : Option (Fin n) := none
  wakes : List (Fin n × BlockReason) := []
  signalled : Option (Fin n) := none
  deriving DecidableEq

/-- A message taken by one receive of a thread. -/
structure Copy (n : Nat) where
  message : Message n
  taker : Fin n
  call : Nat
  deriving DecidableEq

/-- `n` threads of `p` processes. -/
structure Comm (n p : Nat) where
  control : Fin n → Sched.Thread
  onCpu : Fin n → Bool
  call : Fin n → Call n
  unsolved : Fin n → Unsolved n
  sendTo : Fin n → Option (Fin n)
  recvFrom : Fin n → Option (Source n)
  waitRupt : Fin n → Nat
  queues : Chains (Fin n) (Fin n)
  waiters : Fin n → List (Fin n)
  async : Fin n → List (Message n)
  signalled : Fin n → Bool
  process : Fin n → Fin p
  isMain : Fin n → Bool
  isSystem : Fin n → Bool
  procState : Fin p → ProcState
  wakers : List (Waker n)
  nextId : Nat
  recvCalls : Fin n → Nat
  -- The buffers of the sends and of the receives, by their numbers, are mapped.
  sendMapped : Nat → Bool
  recvMapped : Fin n → Nat → Bool
  -- What an observer notes: asynchronous messages accepted, sends that returned 0, and copies.
  sent : List (Message n)
  returned : List (Message n)
  copied : List (Copy n)

variable {n p : Nat}

/-- The message is from this source. -/
def Source.picks : Source n → Message n → Bool
  | .any, _ => true
  | .intrupt, _ => false
  | .thread fo, m => m.src = fo

/-- All processes active, no thread in a call. -/
def Comm.start (control : Fin n → Sched.Thread) (onCpu : Fin n → Bool)
    (process : Fin n → Fin p) (isMain isSystem : Fin n → Bool) : Comm n p where
  control := control
  onCpu := onCpu
  call := fun _ => .none
  unsolved := fun _ => .null
  sendTo := fun _ => none
  recvFrom := fun _ => none
  waitRupt := fun _ => 0
  queues := .empty
  waiters := fun _ => []
  async := fun _ => []
  signalled := fun _ => false
  process := process
  isMain := isMain
  isSystem := isSystem
  procState := fun _ => .active
  wakers := []
  nextId := 0
  recvCalls := fun _ => 0
  sendMapped := fun _ => true
  recvMapped := fun _ _ => true
  sent := []
  returned := []
  copied := []

/-- `msg_send_will_deadlock`: follow the sends that wait, from `crt` on. -/
def willDeadlockFrom (sendTo : Fin n → Option (Fin n)) (unsolved : Fin n → Unsolved n)
    (fo : Fin n) :
    Nat → Fin n → Option Bool
  | 0, _ => none
  | fuel + 1, crt =>
    match sendTo crt with
    | none => some false
    | some target =>
      if unsolved crt = .null then some false
      else if target = fo then some true
      else willDeadlockFrom sendTo unsolved fo fuel target

namespace Comm

def block (s : Comm n p) (t : Fin n) (reason : BlockReason) : Comm n p :=
  { s with control := update s.control t (blockedThread (s.control t) reason) }

def unblock (s : Comm n p) (t : Fin n) (reason : BlockReason) : Comm n p :=
  { s with control := update s.control t (wokenThread (s.control t) reason) }

/-- The thread gives up its core. -/
def yieldCpu (s : Comm n p) (t : Fin n) : Comm n p :=
  { s with
    onCpu := update s.onCpu t false
    control := update s.control t
      { s.control t with state := if (s.control t).state = .running then .ready
      else (s.control t).state } }

def setCall (s : Comm n p) (t : Fin n) (call : Call n) : Comm n p :=
  { s with call := update s.call t call }

/-- The reason is among those that the thread is blocked for. -/
def blockedFor (s : Comm n p) (t : Fin n) (reason : BlockReason) : Bool :=
  (s.control t).blockReason &&& reason ≠ 0

def gone (s : Comm n p) (t : Fin n) : Bool :=
  (s.control t).state = .invalid ∨ (s.control t).state = .exited ∨
  (s.control t).state = .hanging

def canCommThread (s : Comm n p) (t : Fin n) : Bool :=
  !s.gone t && !s.blockedFor t brExiting && s.procState (s.process t) = .active

def canUseSyncMsgState (s : Comm n p) (t : Fin n) : Bool :=
  s.canCommThread t && s.unsolved t ≠ .null

def unlinkWaitEntry (s : Comm n p) (t : Fin n) : Comm n p :=
  match s.recvFrom t with
  | some (.thread peer) => { s with waiters := update s.waiters peer ((s.waiters peer).erase t) }
  | _ => s

/-- The receiver no longer waits. -/
def disarm (s : Comm n p) (t : Fin n) (unsolved : Unsolved n) : Comm n p :=
  let s := s.unlinkWaitEntry t
  { s with unsolved := update s.unsolved t unsolved, recvFrom := update s.recvFrom t none }

/-- The receiver takes a message.  The code does not look whether `MccaMemCopyP` has copied it. -/
def copyTo (s : Comm n p) (taker : Fin n) (message : Message n) : Comm n p :=
  { s with copied := s.copied ++ [⟨message, taker, s.recvCalls taker⟩] }

/-- The message was copied from its buffer into that of the receive. -/
def arrived (s : Comm n p) (c : Copy n) : Bool :=
  s.sendMapped c.message.id && s.recvMapped c.taker c.call

/-! ## Sending -/

def msgSendWillDeadlock (s : Comm n p) (fo target : Fin n) : Option Bool :=
  willDeadlockFrom s.sendTo s.unsolved fo (n + 1) target

/-- The receiver waits for a message of this sender. -/
def armedFor (s : Comm n p) (receiver fo : Fin n) : Bool :=
  s.unsolved receiver ≠ .null ∧
  (s.recvFrom receiver = some (.thread fo) ∨ s.recvFrom receiver = some .any)

/-- Copy the message to a receiver that waits for it. -/
def deliver (s : Comm n p) (m : Message n) : Comm n p :=
  let s := (s.copyTo m.dst m).disarm m.dst .null
  { s with
    call := update s.call m.src (.sendWake m)
    sent := if m.isAsync then s.sent ++ [m] else s.sent
    nextId := s.nextId + 1 }

def post (s : Comm n p) (m : Message n) : Comm n p :=
  { s with
    async := update s.async m.dst (s.async m.dst ++ [m])
    sent := s.sent ++ [m]
    returned := s.returned ++ [m]
    nextId := s.nextId + 1 }

/-- The sender goes to the end of the queue of its target. -/
def queueSend (s : Comm n p) (m : Message n) (hasMsg : Bool) : Option (Comm n p) :=
  (s.queues.push n m.dst m.src).map fun queues =>
    { s with
      queues
      sendTo := update s.sendTo m.src (some m.dst)
      unsolved := update s.unsolved m.src (if hasMsg then .message m else .null)
      call := update s.call m.src (.send .block m)
      nextId := s.nextId + 1 }

/-- The critical section of `msg_send`.  `target` is the thread that the id stands for; `hasMsg` is
false for a null pointer, `alloc` if there is no memory for an asynchronous message. -/
def msgSend (s : Comm n p) (fo : Fin n) (target : Option (Fin n)) (isAsync hasMsg alloc : Bool) :
    Option (Comm n p) :=
  match target with
  | none => some s
  | some target =>
    if s.canCommThread fo = false ∨ s.canCommThread target = false then some s
    else
      let m : Message n := ⟨s.nextId, fo, target, isAsync⟩
      (if isAsync then some false else s.msgSendWillDeadlock fo target).bind fun deadlock =>
        if deadlock then some s
        else if s.armedFor target fo then some (s.deliver m)
        else if isAsync then
          if limitThreadAmsg ≤ (s.async target).length ∨ alloc = false then some s
            else some (s.post m)
        else if s.signalled fo then some s
        else s.queueSend m hasMsg

/-- A send that ends with `-4`. -/
def giveUpSend (s : Comm n p) (t : Fin n) (m : Message n) : Option (Comm n p) :=
  (if s.sendTo t = some m.dst then s.queues.unlink n m.dst t else some s.queues).map fun queues =>
    { s with
      queues := queues.setNext t none
      sendTo := update s.sendTo t none
      unsolved := update s.unsolved t .null
      call := update s.call t .none }

def returnSend (s : Comm n p) (t : Fin n) (m : Message n) : Comm n p :=
  { s with call := update s.call t .none, returned := s.returned ++ [m] }

/-- The loop of a send that waits. -/
def sendStep (s : Comm n p) (t : Fin n) (m : Message n) : SendStage → Option (Comm n p)
  | .block => some ((s.block t brSendMsg).setCall t (.send .check m))
  | .check =>
    if s.unsolved t = .null ∧ s.sendTo t = none then some (s.setCall t (.send .self m))
    else some (s.setCall t (.send .sleep m))
  | .sleep => some ((s.yieldCpu t).setCall t (.send .woken m))
  | .woken =>
    if s.unsolved t = .dead then s.giveUpSend t m else some (s.setCall t (.send .look m))
  | .self => some ((s.unblock t brSendMsg).setCall t (.send .look m))
  | .look =>
    if s.unsolved t = .null then some (s.returnSend t m) else some (s.setCall t (.send .signal m))
  | .signal =>
    if s.signalled t then s.giveUpSend t m else some (s.setCall t (.send .block m))

/-! ## Receiving -/

/-- `DropQueuedSender`, and the link of the dropped sender to those dropped before.  The sender
of a stale entry is told so by `-1`. -/
def dropQueuedSender (s : Comm n p) (receiver sender : Fin n) (dropped : Option (Fin n))
    (stale : Bool) :
    Option (Comm n p × Option (Fin n)) :=
  (s.queues.unlink n receiver sender).map fun queues =>
    let mark := if stale ∧ s.gone sender = false then .dead else .null
    let s' := { s with
      queues := queues.setNext sender (if s.gone sender then none else dropped)
      sendTo := update s.sendTo sender none
      unsolved := if s.blockedFor sender brSendMsg then update s.unsolved sender mark
      else s.unsolved }
    (s', if s.gone sender then dropped else some sender)

/-- Drop unusable senders from the front of the queue. -/
def dropUnusable (receiver : Fin n) :
    Nat → Comm n p → Option (Fin n) → Option (Comm n p × Option (Fin n))
  | 0, _, _ => none
  | fuel + 1, s, dropped =>
    match s.queues.head receiver with
    | none => some (s, dropped)
    | some sender =>
      if s.canUseSyncMsgState sender then some (s, dropped)
      else (s.dropQueuedSender receiver sender dropped false).bind fun r =>
        dropUnusable receiver fuel r.1 r.2

/-- The sender to take a message from, after unusable ones are dropped. -/
def selectSender (s : Comm n p) (receiver : Fin n) :
    Source n → Option (Comm n p × Option (Fin n) × Option (Fin n))
  | .any => (dropUnusable receiver (n + 1) s none).map fun r => (r.1, r.2, r.1.queues.head receiver)
  | .intrupt => some (s, none, none)
  | .thread fo =>
    if s.sendTo fo ≠ some receiver then some (s, none, none)
    else
      (firstFrom s.queues.next (· = fo) n (s.queues.head receiver)).bind fun found =>
        if found = none then some (s, none, none)
        else if s.canUseSyncMsgState fo then some (s, none, some fo)
        else (s.dropQueuedSender receiver fo none true).map fun r => (r.1, r.2, none)

/-- Take the message of a queued sender. -/
def takeSender (s : Comm n p) (receiver fo : Fin n) : Option (Comm n p) :=
  (s.queues.unlink n receiver fo).map fun queues =>
    let s := match s.unsolved fo with
      | .message m => s.copyTo receiver m
      | _ => s
    { s with
      queues := queues.setNext fo none
      unsolved := update s.unsolved fo .null
      sendTo := update s.sendTo fo none }

/-- Take the first asynchronous message that is from the source. -/
def takeAsync (s : Comm n p) (receiver : Fin n) (foo : Source n) : Option (Comm n p) :=
  ((s.async receiver).find? foo.picks).map fun m =>
    { s.copyTo receiver m with
      async := update s.async receiver ((s.async receiver).eraseP foo.picks) }

def arm (s : Comm n p) (receiver : Fin n) (foo : Source n) : Comm n p :=
  { s with
    waiters := match foo with
      | .thread fo => update s.waiters fo (receiver :: s.waiters fo)
      | _ => s.waiters
    unsolved := update s.unsolved receiver .buffer
    recvFrom := update s.recvFrom receiver (some foo) }

/-- The receive gets a number. -/
def beginRecv (s : Comm n p) (receiver : Fin n) : Comm n p :=
  { s with recvCalls := update s.recvCalls receiver (s.recvCalls receiver + 1) }

/-- The thread that a source names must be one to communicate with. -/
def canReceiveFrom (s : Comm n p) : Source n → Bool
  | .thread fo => s.canCommThread fo
  | _ => true

/-- The critical section of `msg_recv`.  `hasMsg` is false for a null pointer. -/
def msgRecv (s : Comm n p) (receiver : Fin n) (foo : Source n) (hasMsg : Bool) :
    Option (Comm n p) :=
  if s.canCommThread receiver = false ∨ s.canReceiveFrom foo = false then some s
  else if s.waitRupt receiver ≠ 0 ∧ (foo = .any ∨ foo = .intrupt) then
    some { s with waitRupt := update s.waitRupt receiver 0 }
  else
    (s.selectSender receiver foo).bind fun r =>
      let s := r.1.beginRecv receiver
      match r.2.2 with
      | some fo => (s.takeSender receiver fo).map (·.setCall receiver (.drop foo r.2.1 (.wake fo)))
      | none =>
        match s.takeAsync receiver foo with
        | some s => some (s.setCall receiver (.drop foo r.2.1 .done))
        | none =>
          if hasMsg = false ∨
            s.signalled receiver then some (s.setCall receiver (.drop foo r.2.1 .done))
          else some ((s.arm receiver foo).setCall receiver (.drop foo r.2.1 .block))

/-- Wake the senders that were dropped, then go on. -/
def dropStep (s : Comm n p) (t : Fin n) (foo : Source n) (dropped : Option (Fin n))
    (after : After n) : Comm n p :=
  match dropped with
  | some sender =>
    let rest := s.queues.next sender
    ({ s with queues := s.queues.setNext sender none }.unblock sender brSendMsg).setCall t
    (.drop foo rest after)
  | none =>
    match after with
    | .done => s.setCall t .none
    | .wake fo => (s.unblock fo brSendMsg).setCall t .none
    | .block => s.setCall t (.recv .block foo)
    | .async => s.setCall t (.recv .async foo)

/-- The loop of a receive that waits. -/
def recvStep (s : Comm n p) (t : Fin n) (foo : Source n) : RecvStage → Option (Comm n p)
  | .block => some ((s.block t brRecvMsg).setCall t (.recv .check foo))
  | .check =>
    if s.unsolved t = .null then some (s.setCall t (.recv .self foo))
    else some (s.setCall t (.recv .sleep foo))
  | .sleep => some ((s.yieldCpu t).setCall t (.recv .woken foo))
  | .woken =>
    if s.unsolved t = .dead then some ((s.disarm t .null).setCall t .none)
    else some (s.setCall t (.recv .look foo))
  | .self =>
    -- `UnblockThread` wakes only for a reason that the thread is blocked for.
    if (s.control t).state = .exited ∨ (s.control t).state = .invalid ∨
        s.blockedFor t brRecvMsg = false then
      some (s.setCall t (.recv .look foo))
    else some ((s.unblock t brRecvMsg).setCall t (.recv .look foo))
  | .look =>
    if s.unsolved t = .null then some (s.setCall t .none)
      else some (s.setCall t (.recv .signal foo))
  | .signal =>
    if s.signalled t then some ((s.disarm t .null).setCall t .none)
    else some (s.setCall t (.recv .sync foo))
  | .sync =>
    (s.selectSender t foo).bind fun r =>
      match r.2.2 with
      | some fo =>
        (r.1.takeSender t fo).map fun s => (s.disarm t .null).setCall t (.drop foo r.2.1 (.wake fo))
      | none => some (r.1.setCall t (.drop foo r.2.1 .async))
  | .async =>
    match s.takeAsync t foo with
    | some s => some ((s.disarm t .null).setCall t .none)
    | none => some (s.setCall t (.recv .block foo))

/-- The next step of a thread in a call. -/
def callStep (s : Comm n p) (t : Fin n) : Option (Comm n p) :=
  match s.call t with
  | .none => none
  | .send stage m => s.sendStep t m stage
  | .sendWake m => some ((s.unblock m.dst brRecvMsg).returnSend t m)
  | .recv stage foo => s.recvStep t foo stage
  | .drop foo dropped after => some (s.dropStep t foo dropped after)

/-! ## Interrupts -/

def ruptProc (s : Comm n p) (t : Fin n) (ruptNo : Nat) : Comm n p :=
  if s.blockedFor t brRecvMsg ∧ s.unsolved t ≠ .null ∧
      (s.recvFrom t = some .any ∨ s.recvFrom t = some .intrupt) then
    { s with
      waitRupt := update s.waitRupt t 0
      unsolved := update s.unsolved t .null
      recvFrom := update s.recvFrom t none
      wakers := s.wakers ++ [{ wakes := [(t, brRecvMsg)] }] }
  else { s with waitRupt := update s.waitRupt t ruptNo }

/-! ## Cleaning up -/

/-- The receivers that wait for a thread that dies. -/
def orphans (s : Comm n p) (t : Fin n) : List (Fin n) :=
  (s.waiters t).filter fun w =>
    s.recvFrom w = some (.thread t) ∧ s.unsolved w ≠ .null ∧ s.blockedFor w brRecvMsg

def dropWaiters (s : Comm n p) (t : Fin n) : Comm n p :=
  { s with
    recvFrom := fun w => if (s.orphans t).contains w then none else s.recvFrom w
    unsolved := fun w => if (s.orphans t).contains w then .dead else s.unsolved w
    waiters := update s.waiters t [] }

/-- Link the dropped senders to each other, the last one first. -/
def linkDropped (queues : Chains (Fin n) (Fin n)) (senders : List (Fin n)) :
    Chains (Fin n) (Fin n) × Option (Fin n) :=
  senders.foldl (fun acc sender => (acc.1.setNext sender acc.2, some sender)) (queues, none)

def dropSenders (s : Comm n p) (t : Fin n) (senders : List (Fin n)) : Comm n p :=
  { s with
    queues := (linkDropped s.queues senders).1.clear t
    sendTo := fun w => if senders.contains w then none else s.sendTo w
    unsolved := fun w => if senders.contains w ∧ s.blockedFor w brSendMsg then .null
    else s.unsolved w }

/-- Take a sender out of the queue that it waits in. -/
def withdraw (s : Comm n p) (t target : Fin n) (unsolved : Unsolved n) : Option (Comm n p) :=
  (s.queues.unlink n target t).map fun queues =>
    { s with
      queues := queues.setNext t none
      sendTo := update s.sendTo t none
      unsolved := update s.unsolved t unsolved }

/-- The sender leaves the queue that it waits in, if any. -/
def leaveQueue (s : Comm n p) (t : Fin n) : Option (Comm n p) :=
  match s.sendTo t with
  | some target => s.withdraw t target .dead
  | none => some s

def msgCleanupThread (s : Comm n p) (t : Fin n) (dying : Bool) : Option (Comm n p) :=
  (chainFrom s.queues.next n (s.queues.head t)).bind fun senders =>
    let waker : Waker n :=
      { dropped := (linkDropped s.queues senders).2
        wakes := if dying then (s.orphans t).reverse.map (·, brRecvMsg) else []
        signalled := if dying then none else some t }
    let s := if dying then s.dropWaiters t else s
    ((s.dropSenders t senders).leaveQueue t).map fun s =>
      let s := if s.blockedFor t brRecvMsg then s.disarm t .dead else s
      { s with async := update s.async t [], wakers := s.wakers ++ [waker] }

/-- One wake of the `i`-th party that has some to do. -/
def wakeStep (s : Comm n p) (i : Nat) : Option (Comm n p) :=
  s.wakers[i]?.map fun w =>
    match w.dropped, w.wakes, w.signalled with
    | some sender, _, _ =>
      { s with
        queues := s.queues.setNext sender none
        wakers :=
        s.wakers.set i { w with dropped := s.queues.next sender } }.unblock sender brSendMsg
    | none, (t, reason) :: wakes, _ =>
      { s with wakers := s.wakers.set i { w with wakes } }.unblock t reason
    | none, [], some t =>
      { s with wakers := s.wakers.eraseIdx i }.unblock t (s.control t).blockReason
    | none, [], none => { s with wakers := s.wakers.eraseIdx i }

/-! ## Exit and image replacement -/

/-- `Exit` of process `q` takes a system task out of its send to `q`. -/
def severSend (s : Comm n p) (t : Fin n) (q : Fin p) : Option (Comm n p) :=
  match s.sendTo t with
  | some target =>
    if s.blockedFor t brSendMsg ∧ s.process target = q then
      (s.withdraw t target .null).map fun s =>
      { s with wakers := s.wakers ++ [{ wakes := [(t, brSendMsg)] }] }
    else some s
  | none => some s

/-- `Exit` of process `q` takes a system task out of its receive from `q`. -/
def severRecv (s : Comm n p) (t : Fin n) (q : Fin p) : Comm n p :=
  match s.recvFrom t with
  | some (.thread fo) =>
    if s.blockedFor t brRecvMsg ∧ s.process fo = q then
      let s := s.disarm t .null
      { s with wakers := s.wakers ++ [{ wakes := [(t, brRecvMsg)] }] }
    else s
  | _ => s

/-- `Exit` lets go the senders in the queue of the main thread. -/
def exitSenders (s : Comm n p) (t : Fin n) : Option (Comm n p) :=
  (chainFrom s.queues.next n (s.queues.head t)).map fun senders =>
    { s with
      queues := (senders.foldl (fun queues sender => queues.setNext sender none) s.queues).clear t
      sendTo := fun w => if senders.contains w then none else s.sendTo w
      unsolved := fun w => if senders.contains w then .null else s.unsolved w
      wakers := s.wakers ++ [{ wakes := senders.map (·, brSendMsg) }] }

/-- What `Exet` does to the main thread. -/
def exet (s : Comm n p) (t : Fin n) : Comm n p :=
  let s := s.disarm t .null
  { s with
    sendTo := update s.sendTo t none
    queues := (s.queues.clear t).setNext t none
    control := update s.control t { s.control t with state := .ready, blockReason := 0 }
    onCpu := update s.onCpu t false
    call := update s.call t .none }

end Comm

/-! ## Steps -/

inductive Event (n p : Nat) where
  | send (fo : Fin n) (target : Option (Fin n)) (isAsync : Bool) (buffer : Buffer) (alloc : Bool)
  | recv (receiver : Fin n) (foo : Source n) (buffer : Buffer)
  | step (t : Fin n)
  | preempt (t : Fin n)
  | resume (t : Fin n)
  | pend (t : Fin n) (reason : BlockReason)
  | unblock (t : Fin n) (reason : BlockReason)
  | rupt (t : Fin n) (ruptNo : Nat)
  | signal (t : Fin n)
  | cleanup (t : Fin n) (dying : Bool)
  | wake (i : Nat)
  | exitThread (t : Fin n)
  | expire (q : Fin p)
  | severSend (t : Fin n) (q : Fin p)
  | severRecv (t : Fin n) (q : Fin p)
  | exitSenders (t : Fin n)
  | zombie (q : Fin p)
  | invalidate (q : Fin p)
  | exet (t : Fin n)

/-- The thread is running and may begin a call. -/
def Comm.mayCall (s : Comm n p) (t : Fin n) : Bool := s.onCpu t && s.call t = .none

/-- The buffer that the message with this number was sent from. -/
def Comm.sentFrom (s : Comm n p) (id : Nat) (buffer : Buffer) : Comm n p :=
  { s with sendMapped := update s.sendMapped id (buffer = .mapped) }

/-- The buffer of a receive of the thread. -/
def Comm.recvInto (s : Comm n p) (t : Fin n) (call : Nat) (buffer : Buffer) : Comm n p :=
  { s with
    recvMapped := update s.recvMapped t (update (s.recvMapped t) call (buffer = .mapped)) }

def Event.exec (s : Comm n p) : Event n p → Option (Comm n p)
  | .send fo target isAsync buffer alloc =>
    if s.mayCall fo then
      (s.msgSend fo target isAsync (buffer ≠ .null) alloc).map (·.sentFrom s.nextId buffer)
    else none
  | .recv receiver foo buffer =>
    if s.mayCall receiver then
      (s.msgRecv receiver foo (buffer ≠ .null)).map
        (·.recvInto receiver (s.recvCalls receiver + 1) buffer)
    else none
  | .step t => if s.onCpu t then s.callStep t else none
  | .preempt t => if s.onCpu t then some (s.yieldCpu t) else none
  | .resume t =>
    if s.onCpu t = false ∧ (s.control t).state = .ready then
      some { s with
        onCpu := update s.onCpu t true
        control := update s.control t { s.control t with state := .running } }
    else none
  -- A wait outside of message passing; `ExitCurrent` waits for `BR_Exiting`.
  | .pend t reason =>
    if s.mayCall t ∧ reason &&& (brSendMsg ||| brRecvMsg) =
      0 then some ((s.block t reason).yieldCpu t) else none
  | .unblock t reason => some (s.unblock t reason)
  | .rupt t ruptNo => some (s.ruptProc t ruptNo)
  | .signal t => some { s with signalled := update s.signalled t true }
  | .cleanup t dying =>
    if dying ∧ s.procState (s.process t) ≠ .invalid then none else s.msgCleanupThread t dying
  | .wake i => s.wakeStep i
  | .exitThread t =>
    if s.mayCall t ∧ s.isMain t = false then
      some { s with
        control := update s.control t { s.control t with state := .hanging, blockReason := 0 }
        onCpu := update s.onCpu t false }
    else none
  | .expire q =>
    if s.procState q = .active then some { s with procState := update s.procState q .expiring }
      else none
  | .severSend t q => if s.isSystem t ∧ s.procState q = .expiring then s.severSend t q else none
  | .severRecv t q => if s.isSystem t ∧ s.procState q = .expiring then some (s.severRecv t q)
    else none
  | .exitSenders t =>
    if s.isMain t ∧ s.procState (s.process t) = .expiring then s.exitSenders t else none
  | .zombie q =>
    if s.procState q = .expiring then some { s with procState := update s.procState q .hanging }
      else none
  | .invalidate q =>
    if s.procState q = .expiring ∨ s.procState q = .hanging then
      some { s with procState := update s.procState q .invalid }
    else none
  | .exet t => if s.isMain t then some (s.exet t) else none

end Mecocoa.Ipc
