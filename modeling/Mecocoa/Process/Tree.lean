import Mecocoa.Lib.Run

/-! # The process tree, exit and wait

`Taskman::Append`, `_Exit_Cleanup`, `Taskman::Exit`, `Taskman::Wait` and the `WAIT` system
call.  Exit, wait and fork are requests to one service thread (`serv_task_loop`), which
serves one after the other; a step of the model is one request served, or one step of a
main thread towards or back from the service.
-/

namespace Mecocoa.Process

open Function (update)

/-- `ProcessBlock::State`. -/
inductive ProcState where
  | active
  | expiring
  /-- Exited, kept for the parent's wait. -/
  | hanging
  | invalid
  deriving Repr, DecidableEq

/-- The tasks whose numbers the code compares with. -/
structure SystemTasks (n : Nat) where
  kernel : Fin n
  init : Fin n
  devsman : Fin n
  init_ne : init ≠ kernel
  deriving DecidableEq

/-- The process a wait is for, `none` being any child. -/
abbrev Target (n : Nat) := Option (Fin n)

/-- What the service answers to a wait: a child and its status, or that there is none. -/
abbrev Reply (n : Nat) := Option (Fin n × Int)

structure Procs (n : Nat) where
  /-- `Taskman::chain`, oldest first. -/
  chain : List (Fin n)
  /-- Process numbers already handed out; none is handed out twice. -/
  born : Fin n → Bool
  state : Fin n → ProcState
  parentId : Fin n → Fin n
  /-- `child_list_head` and the `sibling_next` links behind it. -/
  children : Fin n → List (Fin n)
  exitStatus : Fin n → Int
  /-- The main thread is between sending `WAIT` and returning from the receive. -/
  inCall : Fin n → Bool
  /-- A `WAIT` sent whose service has not ended. -/
  request : Fin n → Option (Target n)
  /-- `BR_Waiting` on the main thread, with `wait_for_pid`. -/
  waiting : Fin n → Option (Target n)
  /-- Answers handed to the main thread that no receive has returned yet. -/
  mail : Fin n → List (Reply n)
  /-- Parent, child and status of the waits that returned a child. -/
  told : List (Fin n × Fin n × Int)
  /-- The parent a process had when it exited, and its status. -/
  ended : Fin n → Option (Fin n × Int)
  deriving DecidableEq

namespace Procs

variable {n : Nat}

/-- Take `c` off its parent's list, if the parent is in the chain. -/
def unlink (c : Fin n) (s : Procs n) : Procs n :=
  if s.parentId c ∈ s.chain then
    { s with children := update s.children (s.parentId c) ((s.children (s.parentId c)).erase c) }
  else s

/-- Hand an orphan to the init task. -/
def reparent (ids : SystemTasks n) (c : Fin n) (s : Procs n) : Procs n :=
  { s with
    parentId := update s.parentId c ids.init
    children :=
      if ids.init ∈ s.chain then update s.children ids.init (c :: s.children ids.init)
      else s.children }

def setState (c : Fin n) (state : ProcState) (s : Procs n) : Procs n :=
  { s with state := update s.state c state }

/-- `chain.Remove` and the end of the process's threads, with what was sent to them. -/
def drop (c : Fin n) (s : Procs n) : Procs n :=
  { s with
    chain := s.chain.erase c
    inCall := update s.inCall c false
    request := update s.request c none
    waiting := update s.waiting c none
    mail := update s.mail c [] }

/-- `_Exit_Cleanup`, with the loop over the children given. -/
def exitCleanup (reap : Fin n → Procs n → Option (Procs n)) (c : Fin n) (s : Procs n) :
    Option (Procs n) :=
  if s.state c = .invalid then some s
  else (reap c ((s.setState c .invalid).unlink c)).map (drop c)

/-- The loop over the children of a process that ends: exited children are cleaned up, the
others are handed to the init task.  `none` if the loop has not ended by then. -/
def reapChildren (ids : SystemTasks n) : Nat → Fin n → Procs n → Option (Procs n)
  | 0, _, _ => none
  | fuel + 1, p, s =>
    match s.children p with
    | [] => some s
    | child :: rest =>
      let s := { s with children := update s.children p rest }
      if s.state child = .hanging then
        (exitCleanup (reapChildren ids fuel) child s).bind (reapChildren ids fuel p)
      else reapChildren ids fuel p (s.reparent ids child)

/-- Rounds enough for the children of a process and of each exited child. -/
def rounds (n : Nat) : Nat := 2 * n + 2

def cleanup (ids : SystemTasks n) (c : Fin n) (s : Procs n) : Option (Procs n) :=
  exitCleanup (reapChildren ids (rounds n)) c s

end Procs

variable {n : Nat}

def Accepts (target : Target n) (c : Fin n) : Prop := target = none ∨ target = some c

instance (target : Target n) (c : Fin n) : Decidable (Accepts target c) :=
  inferInstanceAs (Decidable (_ ∨ _))

/-- `parent_is_nonwait_kernel_owner`. -/
def NonwaitOwner (ids : SystemTasks n) (parent c : Fin n) : Prop :=
  (parent = ids.kernel ∧ c ≠ ids.init) ∨ parent = ids.init

instance (ids : SystemTasks n) (parent c : Fin n) : Decidable (NonwaitOwner ids parent c) :=
  inferInstanceAs (Decidable (_ ∨ _))

namespace Procs

def append (parent c : Fin n) (s : Procs n) : Procs n :=
  { s with
    chain := s.chain ++ [c]
    born := update s.born c true
    state := update s.state c .active
    parentId := update s.parentId c parent
    children :=
      if parent ∈ s.chain then update s.children parent (c :: s.children parent)
      else s.children }

/-- `DeliverWaitResultAtomically` where it succeeds, and the wakeup of the parent. -/
def deliverWaitResult (parent c : Fin n) (status : Int) (s : Procs n) : Procs n :=
  { s with
    mail := update s.mail parent (s.mail parent ++ [some (c, status)])
    waiting := update s.waiting parent none }

/-- The last part of `Taskman::Exit`: notify the parent or stay behind. -/
def settle (ids : SystemTasks n) (p parent : Fin n) (status : Int) (delivered : Bool)
    (s : Procs n) :
    Option (Procs n) :=
  if (parent ∈ s.chain ∧ s.state parent = .active) ∧ parent = ids.devsman then s.cleanup ids p
  else if (parent ∈ s.chain ∧ s.state parent = .active) ∧
      (s.waiting parent).any (fun target => Accepts target p) then
    if delivered then (s.deliverWaitResult parent p status).cleanup ids p
    else some (s.setState p .hanging)
  else if NonwaitOwner ids parent p then s.cleanup ids p
  else if ¬ (parent ∈ s.chain ∧ s.state parent = .active) then s.cleanup ids p
  else some (s.setState p .hanging)

/-- `p` is marked as terminating, with its status. -/
def expiring (p : Fin n) (status : Int) (s : Procs n) : Procs n :=
  { s with
    state := update s.state p .expiring
    exitStatus := update s.exitStatus p status
    ended := update s.ended p (some (s.parentId p, status)) }

/-- `Taskman::Exit`; `delivered` is the answer of `DeliverWaitResultAtomically` if it is asked. -/
def exit (ids : SystemTasks n) (p : Fin n) (status : Int) (delivered : Bool) (s : Procs n) :
    Option (Procs n) :=
  if p ∈ s.chain ∧ s.state p = .active then
    (reapChildren ids (rounds n) p (s.expiring p status)).bind
    (settle ids p (s.parentId p) status delivered)
  else some s

/-- `syssend_async` to the main thread of `p`, which may fail. -/
def post (p : Fin n) (reply : Reply n) (sent : Bool) (s : Procs n) : Procs n :=
  if sent then { s with mail := update s.mail p (s.mail p ++ [reply]) } else s

/-- A child of `p` that the wait counts. -/
def Counts (ids : SystemTasks n) (p : Fin n) (target : Target n) (s : Procs n) (c : Fin n) : Prop :=
  c ≠ ids.kernel ∧ s.parentId c = p ∧ Accepts target c

instance (ids : SystemTasks n) (p : Fin n) (target : Target n) (s : Procs n) :
    DecidablePred (Counts ids p target s) :=
  fun _ => inferInstanceAs (Decidable (_ ∧ _ ∧ _))

/-- The first exited child that the wait counts. -/
def firstHanging (ids : SystemTasks n) (p : Fin n) (target : Target n) (s : Procs n) :
    Option (Fin n) :=
  s.chain.find? fun c => Counts ids p target s c ∧ s.state c = .hanging

def wait (ids : SystemTasks n) (p : Fin n) (target : Target n) (sent : Bool) (s : Procs n) :
    Option (Procs n) :=
  match firstHanging ids p target s with
  | some c => (s.cleanup ids c).map (post p (some (c, s.exitStatus c)) sent)
  | none =>
    if ∃ c ∈ s.chain, Counts ids p target s c then
      some { s with waiting := update s.waiting p (some target) }
    else some (post p none sent s)

end Procs

inductive ProcEvent (n : Nat) where
  | append (parent c : Fin n)
  /-- The main thread of `p` sends `WAIT`. -/
  | callWait (p : Fin n) (target : Target n)
  /-- The service takes that request. -/
  | serveWait (p : Fin n) (sent : Bool)
  /-- The service takes a `WAIT` that another thread of `p` sent. -/
  | serveAside (p : Fin n) (target : Target n) (sent : Bool)
  | exit (p : Fin n) (status : Int) (delivered : Bool)
  /-- The receive of the main thread of `p` returns the oldest answer. -/
  | takeReply (p : Fin n)
  deriving DecidableEq

open Procs in
/-- One step; `none` where the step is not possible or the service does not return. -/
def ProcEvent.exec (ids : SystemTasks n) (s : Procs n) : ProcEvent n → Option (Procs n)
  | .append parent c => if s.born parent ∧ ¬ s.born c then some (s.append parent c) else none
  | .callWait p target =>
    if p ∈ s.chain ∧ s.inCall p = false ∧ s.waiting p = none then
      some { s with
        inCall := update s.inCall p true
        request := update s.request p (some target) }
    else none
  | .serveWait p sent =>
    match s.request p with
    | some target =>
      (wait ids p target sent s).map fun s => { s with request := update s.request p none }
    | none => none
  | .serveAside p target sent => if p ∈ s.chain then wait ids p target sent s else none
  | .exit p status delivered => if p = ids.kernel then some s else s.exit ids p status delivered
  | .takeReply p =>
    match s.mail p with
    | reply :: rest =>
      if s.inCall p ∧ s.waiting p = none then
        some { s with
          inCall := update s.inCall p false
          mail := update s.mail p rest
          told := s.told ++ (reply.map (fun r => (p, r.1, r.2))).toList }
      else none
    | [] => none

end Mecocoa.Process
