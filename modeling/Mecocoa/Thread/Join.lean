import Mecocoa.Sched.Wakeups

/-! # Exit, join and detach

`ExitThread`, `JoinThread` and `DetachThread` of the threads of one process.  A thread is in
one of the stages below between two sections under the scheduler lock or two accesses to
the block of another thread, and everything else may happen there.  `none` as the result
of a step means that it is not possible, or that it does not return.
-/

namespace Mecocoa.Thread

open Sched (BlockReason wokenThread)
open Function (update)

def brLock : BlockReason := 0b100000

/-- `ExitThread`: the joiner is taken from the queue and woken before the thread is `Hanging`. -/
inductive ExitStage (n : Nat) where
  | dequeue
  | wake (joiner : Option (Fin n))
  | hang (joiner : Option (Fin n))
  | leave
  deriving DecidableEq

inductive JoinStage where
  | locate | test | lock | sleep | woken | copy
  | destroy (code : Option Nat)
  deriving DecidableEq

inductive DetachStage where
  | locate | mark | test | destroy
  deriving DecidableEq

inductive Call (n : Nat) where
  | none
  | exit (stage : ExitStage n)
  | join (target : Fin n) (stage : JoinStage)
  | detach (target : Fin n) (stage : DetachStage)
  deriving DecidableEq

/-- What a call returns.  A successful join comes with the exit code if it was copied out. -/
inductive Result where
  | joined (code : Option Nat)
  | failed (error : Int)
  | detached
  deriving DecidableEq

structure Return (n : Nat) where
  caller : Fin n
  target : Fin n
  usrStatus : Option Bool
  result : Result
  deriving DecidableEq

/-- `n` threads of a process.  A thread is on a core, or is switched out of one by the next
thread that runs there. -/
structure Threads (n : Nat) where
  main : Fin n
  control : Fin n → Sched.Thread
  onCpu : Fin n → Bool
  switchingOut : Fin n → Bool
  exitStatus : Fin n → Nat
  joinWaitQueue : Fin n → List (Fin n)
  call : Fin n → Call n
  -- Where the thread's last `JoinThread` wants the exit code: nowhere, or at an address that
  -- is mapped or not.
  usrStatus : Fin n → Option Bool
  -- What an observer notes: the code that a thread exits with, how often its block was
  -- destroyed, and what the calls returned.
  exited : Fin n → Option Nat
  destroyed : Fin n → Nat
  returned : List (Return n)

namespace Threads

variable {n : Nat}

/-- Threads in no call, some of them on cores. -/
def start (main : Fin n) (onCpu : Fin n → Bool) : Threads n where
  main := main
  control := fun t => { state := if onCpu t then .running else .ready }
  onCpu := onCpu
  switchingOut := fun _ => false
  exitStatus := fun _ => 0
  joinWaitQueue := fun _ => []
  call := fun _ => .none
  usrStatus := fun _ => none
  exited := fun _ => none
  destroyed := fun _ => 0
  returned := []

def setCall (s : Threads n) (t : Fin n) (call : Call n) : Threads n :=
  { s with call := update s.call t call }

def setControl (s : Threads n) (t : Fin n) (th : Sched.Thread) : Threads n :=
  { s with control := update s.control t th }

def ret (s : Threads n) (t target : Fin n) (result : Result) : Threads n :=
  { s with
    call := update s.call t .none
    returned := s.returned ++ [⟨t, target, s.usrStatus t, result⟩] }

/-- The thread gives up its core, which is what `Schedule` does with a thread in any state. -/
def switchOut (s : Threads n) (t : Fin n) : Threads n :=
  { s with
    onCpu := update s.onCpu t false
    switchingOut := update s.switchingOut t true
    control := update s.control t
      { s.control t with
        state := if (s.control t).state = .running then .ready else (s.control t).state } }

def hanging (s : Threads n) (t : Fin n) : Prop := (s.control t).state = .hanging

/-- What `DestroyThread` waits for to end. -/
def active (s : Threads n) (t : Fin n) : Prop :=
  (s.control t).state = .running ∨ s.onCpu t = true ∨ s.switchingOut t = true

instance (s : Threads n) (t : Fin n) : Decidable (s.hanging t) :=
  inferInstanceAs (Decidable (_ = _))

instance (s : Threads n) (t : Fin n) : Decidable (s.active t) :=
  inferInstanceAs (Decidable (_ ∨ _))

/-- `DestroyThread`, in which a thread gives up its core until the target is not active. -/
def destroyThread (s : Threads n) (t target : Fin n) (result : Result) : Threads n :=
  if s.active target then s.switchOut t
  else
    { s with destroyed := update s.destroyed target (s.destroyed target + 1) }.ret t target result

def exitStep (s : Threads n) (t : Fin n) : ExitStage n → Threads n
  | .dequeue =>
    match s.joinWaitQueue t with
    | [] => s.setCall t (.exit (.wake none))
    | joiner :: rest =>
      { s with joinWaitQueue := update s.joinWaitQueue t rest }.setCall t
        (.exit (.wake (some joiner)))
  | .wake none => s.setCall t (.exit (.hang none))
  | .wake (some joiner) =>
    (s.setControl joiner (wokenThread (s.control joiner) brLock)).setCall t
      (.exit (.hang (some joiner)))
  | .hang _ =>
    (s.setControl t { s.control t with state := .hanging, blockReason := 0 }).setCall t
      (.exit .leave)
  | .leave => s.switchOut t

/-- `copy_exit_status`, which does not look whether `MccaMemCopyP` has copied. -/
def copyExitStatus (s : Threads n) (t target : Fin n) : Option Nat :=
  if s.usrStatus t = some true then some (s.exitStatus target) else none

def joinStep (s : Threads n) (t target : Fin n) : JoinStage → Threads n
  | .locate =>
    if s.destroyed target ≠ 0 then s.ret t target (.failed (-1))
    else if (s.control target).isDetached then s.ret t target (.failed (-2))
    else s.setCall t (.join target .test)
  | .test => s.setCall t (.join target (if s.hanging target then .copy else .lock))
  | .lock =>
    if s.hanging target then s.setCall t (.join target .copy)
    else if s.joinWaitQueue target ≠ [] then s.ret t target (.failed (-3))
    else
      let th := s.control t
      { s.setControl t { th with state := .pended, blockReason := th.blockReason ||| brLock } with
        joinWaitQueue := update s.joinWaitQueue target [t] }.setCall t (.join target .sleep)
  | .sleep => (s.switchOut t).setCall t (.join target .woken)
  -- The thread that comes back does not look whether the target is `Hanging`.
  | .woken =>
    if s.destroyed target ≠ 0 then s.ret t target (.failed (-1))
    else s.setCall t (.join target .copy)
  | .copy => s.setCall t (.join target (.destroy (s.copyExitStatus t target)))
  | .destroy code => s.destroyThread t target (.joined code)

def detach (s : Threads n) (target : Fin n) : Threads n :=
  s.setControl target { s.control target with isDetached := true }

def detachStep (s : Threads n) (t target : Fin n) : DetachStage → Threads n
  | .locate =>
    if s.destroyed target ≠ 0 ∨ target = s.main then s.ret t target (.failed (-1))
    else if target = t then (s.detach t).ret t target .detached
    else s.setCall t (.detach target .mark)
  | .mark =>
    if s.joinWaitQueue target ≠ [] then s.ret t target (.failed (-2))
    else (s.detach target).setCall t (.detach target .test)
  | .test =>
    if s.hanging target then s.setCall t (.detach target .destroy)
    else s.ret t target .detached
  | .destroy => s.destroyThread t target .detached

/-- The next step of a thread in a call. -/
def callStep (s : Threads n) (t : Fin n) : Option (Threads n) :=
  match s.call t with
  | .none => none
  | .exit stage => some (s.exitStep t stage)
  | .join target stage => some (s.joinStep t target stage)
  | .detach target stage => some (s.detachStep t target stage)

/-- The thread may begin a call. -/
def mayCall (s : Threads n) (t : Fin n) : Bool :=
  s.onCpu t && s.call t = .none && (s.control t).state = .running

end Threads

inductive Event (n : Nat) where
  | exitThread (t : Fin n) (code : Nat)
  | joinThread (t target : Fin n) (usrStatus : Option Bool)
  | detachThread (t target : Fin n)
  | step (t : Fin n)
  | preempt (t : Fin n)
  | resume (t : Fin n)
  | settle (t : Fin n)

def Event.exec {n : Nat} (s : Threads n) : Event n → Option (Threads n)
  -- The exit of the main thread is the exit of the process.
  | .exitThread t code =>
    if s.mayCall t ∧ t ≠ s.main then
      some ({ s with
        exitStatus := update s.exitStatus t code
        exited := update s.exited t (some code) }.setCall t (.exit .dequeue))
    else none
  | .joinThread t target usrStatus =>
    if s.mayCall t then
      let s := { s with usrStatus := update s.usrStatus t usrStatus }
      some (if target = t then s.ret t target (.failed (-1))
        else s.setCall t (.join target .locate))
    else none
  | .detachThread t target =>
    if s.mayCall t then some (s.setCall t (.detach target .locate)) else none
  | .step t => if s.onCpu t then s.callStep t else none
  | .preempt t => if s.onCpu t then some (s.switchOut t) else none
  | .resume t =>
    if s.onCpu t = false ∧ s.switchingOut t = false ∧ (s.control t).state = .ready ∧
        s.destroyed t = 0 then
      some { s.setControl t { s.control t with state := .running } with
        onCpu := update s.onCpu t true }
    else none
  -- `SettleSwitchingOutThread` destroys a detached thread while the core still counts it as
  -- switched out, so that `DestroyThread` waits for ever.
  | .settle t =>
    if s.switchingOut t ∧ ¬ (s.hanging t ∧ (s.control t).isDetached) then
      some { s with switchingOut := update s.switchingOut t false }
    else none

end Mecocoa.Thread
