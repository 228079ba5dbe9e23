import Mecocoa.Thread.Join

/-! # Threads that exit, join and detach

The conditions that the source leaves open, the invariant of the runs that meet them, and
what becomes of the block of a thread.
-/

namespace Mecocoa.Thread

open Threads List
open Lib (Run)
open Sched (wokenThread)
open Option (ite_none_right_eq_some)
open Function (update update_apply)

/-- The thread whose block the call has in hand. -/
def Call.uses : Call n → Option (Fin n)
  | .join target stage => if stage = .locate then Option.none else some target
  | .detach target stage => if stage = .locate then Option.none else some target
  | _ => Option.none

/-- The thread that the call is about to detach and, if it is at its end, to destroy. -/
def Call.detaches : Call n → Option (Fin n)
  | .detach target stage => if stage = .locate then Option.none else some target
  | _ => Option.none

/-- The thread that the call has found at its end, or sleeps on until then, to destroy it. -/
def Call.reaps : Call n → Option (Fin n)
  | .join target stage =>
    if stage = .locate ∨ stage = .test ∨ stage = .lock then Option.none else some target
  | _ => Option.none

/-- A successful join of the thread. -/
def Return.joins (r : Return n) (t : Fin n) : Bool :=
  match r.result with
  | .joined _ => r.target = t
  | _ => false

namespace Threads

/-- What the code does not make sure of. -/
def Careful (s : Threads n) : Event n → Prop
  | .exitThread t _ => (s.control t).isDetached = false
  | .joinThread _ _ usrStatus => usrStatus ≠ some false
  | .preempt t => ∀ joiner, s.call t ≠ .exit (.hang (some joiner))
  | .step t =>
    match s.call t with
    | .join target .lock =>
      ∀ joiner, s.call target ≠ .exit (.wake joiner) ∧ s.call target ≠ .exit (.hang joiner)
    | .detach target .mark =>
      match s.call target with
      | .exit _ => s.hanging target ∧ ¬ s.active target
      | _ => True
    | .join target (.destroy _) | .detach target .destroy =>
      ¬ s.active target → ∀ u ≠ t, (s.call u).uses ≠ some target
    | _ => True
  | _ => True

/-! ## The invariant -/

/-- The thread is in a join that has queued it. -/
def Waits (s : Threads n) (t target : Fin n) : Prop :=
  s.call t = .join target .sleep ∨ s.call t = .join target .woken

/-- The thread is at its end, or is about to be and has woken the joiner. -/
def Ends (s : Threads n) (t joiner : Fin n) : Prop :=
  s.call t = .exit .leave ∨ s.call t = .exit (.hang (some joiner))

/-- Somebody answers for the block of the thread, or has destroyed it. -/
def Taken (s : Threads n) (t : Fin n) : Prop :=
  s.destroyed t ≠ 0 ∨ (s.control t).isDetached = true ∨ ∃ u, (s.call u).reaps = some t

end Threads

/-- What the threads in calls rely on. -/
structure Stages (s : Threads n) : Prop where
  -- The state of a thread and the stage of its call.
  hanging : ∀ t, (s.control t).state = .hanging ↔ s.call t = .exit .leave
  calm : ∀ t, (s.control t).state ≠ .pended → (s.control t).blockReason = 0
  asleep : ∀ t, (s.control t).state = .pended →
    (s.control t).blockReason = brLock ∧ ∃ target, s.Waits t target
  running : ∀ t, s.onCpu t = true → (s.control t).state = .running ∨
    (∃ target, s.call t = .join target .sleep) ∨ s.call t = .exit .leave
  -- A thread that exits.
  noted : ∀ t stage, s.call t = .exit stage → s.exited t = some (s.exitStatus t)
  looked : ∀ t stage, s.call t = .exit stage → stage ≠ .dequeue → s.joinWaitQueue t = []
  wakes : ∀ t u, s.call t = .exit (.wake (some u)) →
    (s.control u).state = .pended ∧ s.Waits u t
  hangs : ∀ t u, s.call t = .exit (.hang (some u)) →
    s.onCpu t = true ∧ (s.control t).state = .running
  -- A thread that joins another.
  asked : ∀ u, s.usrStatus u ≠ some false
  queue : ∀ t, s.joinWaitQueue t = [] ∨
    ∃ u, s.joinWaitQueue t = [u] ∧ (s.control u).state = .pended ∧ s.Waits u t
  waits : ∀ u t, s.Waits u t → if (s.control u).state = .pended then
    s.joinWaitQueue t = [u] ∨ s.call t = .exit (.wake (some u)) else s.Ends t u
  copies : ∀ u t, s.call u = .join t .copy → s.Ends t u
  destroys : ∀ u t code, s.call u = .join t (.destroy code) →
    s.Ends t u ∧ (s.usrStatus u = none ∨ code = s.exited t)

/-- What becomes of the block of a thread, and what the calls return. -/
structure Blocks (s : Threads n) : Prop where
  detached : ∀ t stage, (s.control t).isDetached = true → s.call t = .exit stage →
    stage = .leave ∧ ¬ s.active t
  tests : ∀ u t, s.call u = .detach t .test → (s.control t).isDetached = true
  frees : ∀ u t, s.call u = .detach t .destroy →
    (s.control t).isDetached = true ∧ s.call t = .exit .leave
  gone : ∀ t, s.destroyed t ≠ 0 → s.destroyed t = 1 ∧ s.call t = .exit .leave ∧
    ¬ s.active t ∧
    ∀ u, (s.call u).uses ≠ some t
  owned : ∀ t, s.call t = .exit .leave → (s.control t).isDetached = true →
    s.destroyed t = 0 →
    ∃ u, (s.call u).detaches = some t
  taken : ∀ r ∈ s.returned, r.caller ≠ r.target → r.target ≠ s.main → s.Taken r.target
  joins : ∀ r ∈ s.returned, ∀ code, r.result = .joined code →
    s.destroyed r.target = 1 ∧ (r.usrStatus = none ∨ code = s.exited r.target)
  once : ∀ t, (s.returned.filter (·.joins t)).length ≤ s.destroyed t

variable {s : Threads n}

attribute [local grind] Call.uses Call.detaches Call.reaps Return.joins

namespace Stages

theorem start (main : Fin n) (onCpu : Fin n → Bool) : Stages (Threads.start main onCpu) := by
  constructor <;> simp [Threads.start, Waits] <;> grind

-- Each step changes the call, the state or the queue of one or two threads.
variable (inv : Stages s)

include inv

theorem exitThread (may : s.mayCall t = true) (code : Nat) :
    Stages ({ s with
      exitStatus := update s.exitStatus t code
      exited := update s.exited t (some code) }.setCall t (.exit .dequeue)) := by
  cases inv
  constructor
  all_goals simp only [setCall, mayCall, Waits, Ends, update_apply] at *
  all_goals first | assumption | grind

theorem dequeueNil (inCall : s.call t = .exit .dequeue) (nil : s.joinWaitQueue t = []) :
    Stages (s.setCall t (.exit (.wake none))) := by
  cases inv
  constructor
  all_goals simp only [setCall, Waits, Ends, update_apply] at *
  all_goals first | assumption | grind

/-- The queue holds one joiner, which sleeps until it is woken. -/
theorem dequeueCons (inCall : s.call t = .exit .dequeue)
    (cons : s.joinWaitQueue t = joiner :: rest) :
    Stages ({ s with joinWaitQueue := update s.joinWaitQueue t rest }.setCall t
      (.exit (.wake (some joiner)))) := by
  cases inv
  constructor
  all_goals simp only [setCall, Waits, Ends, update_apply] at *
  all_goals first | assumption | grind

theorem wakeNone (inCall : s.call t = .exit (.wake none)) :
    Stages (s.setCall t (.exit (.hang none))) := by
  cases inv
  constructor
  all_goals simp only [setCall, Waits, Ends, update_apply] at *
  all_goals first | assumption | grind

/-- The joiner is woken before the thread is at its end. -/
theorem wakeSome (on : s.onCpu t = true) (inCall : s.call t = .exit (.wake (some joiner))) :
    Stages ((s.setControl joiner { s.control joiner with
      state := .ready, blockReason := 0 }).setCall t (.exit (.hang (some joiner)))) := by
  cases inv
  constructor
  all_goals simp only [setCall, setControl, Waits, Ends, update_apply] at *
  all_goals first | assumption | grind

theorem hang (on : s.onCpu t = true) (inCall : s.call t = .exit (.hang joiner)) :
    Stages ((s.setControl t { s.control t with
      state := .hanging, blockReason := 0 }).setCall t (.exit .leave)) := by
  cases inv
  constructor
  all_goals simp only [setCall, setControl, Waits, Ends, update_apply] at *
  all_goals first | assumption | grind

theorem switchOut (on : s.onCpu t = true)
    (steady : ∀ joiner, s.call t ≠ .exit (.hang (some joiner))) :
    Stages (s.switchOut t) := by
  cases inv
  constructor
  all_goals simp only [Threads.switchOut, Waits, Ends, update_apply] at *
  all_goals first | assumption | grind

theorem resume (ready : (s.control t).state = .ready) :
    Stages { s.setControl t { s.control t with state := .running } with
      onCpu := update s.onCpu t true } := by
  cases inv
  constructor
  all_goals simp only [setControl, Waits, Ends, update_apply] at *
  all_goals first | assumption | grind

theorem sleeps (on : s.onCpu t = true) (inCall : s.call t = .join target .sleep) :
    Stages ((s.switchOut t).setCall t (.join target .woken)) := by
  cases inv
  constructor
  all_goals simp only [setCall, Threads.switchOut, Waits, Ends, update_apply] at *
  all_goals first | assumption | grind

/-- The thread queues itself for a target that has not looked at its queue yet. -/
theorem enqueue (on : s.onCpu t = true) (inCall : s.call t = .join target .lock)
    (early : ∀ stage, s.call target = .exit stage → stage = .dequeue)
    (nil : s.joinWaitQueue target = []) :
    Stages ({ s.setControl t { s.control t with state := .pended, blockReason := brLock } with
      joinWaitQueue := update s.joinWaitQueue target [t] }.setCall t (.join target .sleep)) := by
  cases inv
  constructor
  all_goals simp only [setCall, setControl, Waits, Ends, update_apply] at *
  all_goals first | assumption | grind

theorem asks {status : Option Bool} (may : s.mayCall t = true) (mapped : status ≠ some false) :
    Stages { s with usrStatus := update s.usrStatus t status } := by
  cases inv
  constructor
  all_goals simp only [mayCall, Waits, Ends, update_apply] at *
  all_goals first | assumption | grind

/-- A thread that runs goes on in a call on another, or returns from it. -/
theorem moves {c : Call n} {control : Fin n → Sched.Thread}
    (running : (s.control t).state = .running) (goesOn : ∀ stage, s.call t ≠ .exit stage)
    (same : ∀ u, (control u).state = (s.control u).state ∧
      (control u).blockReason = (s.control u).blockReason)
    (runs : (∀ stage, c ≠ .exit stage) ∧ ∀ x, c ≠ .join x .sleep ∧ c ≠ .join x .woken)
    (copies : ∀ x, c = .join x .copy → s.Ends x t)
    (destroys : ∀ x code, c = .join x (.destroy code) →
      s.Ends x t ∧ (s.usrStatus t = none ∨ code = s.exited x))
    (destroyed : Fin n → Nat) (returned : List (Return n)) :
    Stages { s with
      control := control, call := update s.call t c
      destroyed := destroyed, returned := returned } := by
  cases inv
  constructor
  all_goals simp only [Waits, Ends, update_apply] at *
  all_goals first | assumption | grind

end Stages

namespace Blocks

theorem start (main : Fin n) (onCpu : Fin n → Bool) : Blocks (Threads.start main onCpu) := by
  constructor <;> simp [Threads.start]

variable (inv : Blocks s) (stages : Stages s)

include inv stages

theorem exitThread (may : s.mayCall t = true) (code : Nat)
    (attached : (s.control t).isDetached = false) :
    Blocks ({ s with
      exitStatus := update s.exitStatus t code
      exited := update s.exited t (some code) }.setCall t (.exit .dequeue)) := by
  obtain ⟨hanging, -, -, running, -, -, -, hangs, -, queue, -, -, destroys⟩ := stages
  cases inv
  constructor
  all_goals simp only [setCall, mayCall, Taken, Threads.active, update_apply] at *
  all_goals first | assumption | grind

theorem dequeueNil (inCall : s.call t = .exit .dequeue) :
    Blocks (s.setCall t (.exit (.wake none))) := by
  obtain ⟨hanging, -, -, running, -, -, -, hangs, -, queue, -, -, destroys⟩ := stages
  cases inv
  constructor
  all_goals simp only [setCall, Taken, Threads.active, update_apply] at *
  all_goals first | assumption | grind

theorem dequeueCons (inCall : s.call t = .exit .dequeue) (rest : List (Fin n)) :
    Blocks ({ s with joinWaitQueue := update s.joinWaitQueue t rest }.setCall t
      (.exit (.wake (some joiner)))) := by
  obtain ⟨hanging, -, -, running, -, -, -, hangs, -, queue, -, -, destroys⟩ := stages
  cases inv
  constructor
  all_goals simp only [setCall, Taken, Threads.active, update_apply] at *
  all_goals first | assumption | grind

theorem wakeNone (inCall : s.call t = .exit (.wake none)) :
    Blocks (s.setCall t (.exit (.hang none))) := by
  obtain ⟨hanging, -, -, running, -, -, -, hangs, -, queue, -, -, destroys⟩ := stages
  cases inv
  constructor
  all_goals simp only [setCall, Taken, Threads.active, update_apply] at *
  all_goals first | assumption | grind

theorem wakeSome (on : s.onCpu t = true) (inCall : s.call t = .exit (.wake (some joiner))) :
    Blocks ((s.setControl joiner { s.control joiner with
      state := .ready, blockReason := 0 }).setCall t (.exit (.hang (some joiner)))) := by
  obtain ⟨hanging, -, -, running, -, -, -, hangs, -, queue, -, -, destroys⟩ := stages
  cases inv
  constructor
  all_goals simp only [setCall, setControl, Taken, Threads.active, update_apply] at *
  all_goals first | assumption | grind

theorem hang (on : s.onCpu t = true) (inCall : s.call t = .exit (.hang joiner)) :
    Blocks ((s.setControl t { s.control t with
      state := .hanging, blockReason := 0 }).setCall t (.exit .leave)) := by
  obtain ⟨hanging, -, -, running, -, -, -, hangs, -, queue, -, -, destroys⟩ := stages
  cases inv
  constructor
  all_goals simp only [setCall, setControl, Taken, Threads.active, update_apply] at *
  all_goals first | assumption | grind

theorem switchOut (on : s.onCpu t = true) : Blocks (s.switchOut t) := by
  obtain ⟨hanging, -, -, running, -, -, -, hangs, -, queue, -, -, destroys⟩ := stages
  cases inv
  constructor
  all_goals simp only [Threads.switchOut, Taken, Threads.active, update_apply] at *
  all_goals first | assumption | grind

theorem resume (ready : (s.control t).state = .ready) (alive : s.destroyed t = 0) :
    Blocks { s.setControl t { s.control t with state := .running } with
      onCpu := update s.onCpu t true } := by
  obtain ⟨hanging, -, -, running, -, -, -, hangs, -, queue, -, -, destroys⟩ := stages
  cases inv
  constructor
  all_goals simp only [setControl, Taken, Threads.active, update_apply] at *
  all_goals first | assumption | grind

theorem settle (t : Fin n) :
    Blocks { s with switchingOut := update s.switchingOut t false } := by
  obtain ⟨hanging, -, -, running, -, -, -, hangs, -, queue, -, -, destroys⟩ := stages
  cases inv
  constructor
  all_goals simp only [Taken, Threads.active] at *
  all_goals first | assumption | grind

theorem sleeps (on : s.onCpu t = true) (inCall : s.call t = .join target .sleep) :
    Blocks ((s.switchOut t).setCall t (.join target .woken)) := by
  obtain ⟨hanging, -, -, running, -, -, -, hangs, -, queue, -, -, destroys⟩ := stages
  cases inv
  constructor
  all_goals simp only [setCall, Threads.switchOut, Taken, Threads.active, update_apply] at *
  all_goals first | assumption | grind

theorem enqueue (on : s.onCpu t = true) (inCall : s.call t = .join target .lock) :
    Blocks ({ s.setControl t { s.control t with state := .pended, blockReason := brLock } with
      joinWaitQueue := update s.joinWaitQueue target [t] }.setCall t (.join target .sleep)) := by
  obtain ⟨hanging, -, -, running, -, -, -, hangs, -, queue, -, -, destroys⟩ := stages
  cases inv
  constructor
  all_goals simp only [setCall, setControl, Taken, Threads.active, update_apply] at *
  all_goals first | assumption | grind

omit stages in
theorem asks (status : Option Bool) :
    Blocks { s with usrStatus := update s.usrStatus t status } := by
  cases inv
  constructor <;> assumption

/-- A thread that runs goes on in a call on another, or returns from it without success. -/
theorem moves {c : Call n} {results : List (Return n)}
    (running : (s.control t).state = .running) (goesOn : ∀ stage, s.call t ≠ .exit stage)
    (runs : ∀ stage, c ≠ .exit stage) (alive : ∀ x, c.uses = some x → s.destroyed x = 0)
    (tests : ∀ x, c = .detach x .test → (s.control x).isDetached = true)
    (frees : ∀ x, c = .detach x .destroy → (s.control x).isDetached = true ∧ s.hanging x)
    (detaches : ∀ x, (s.call t).detaches = some x → c.detaches = some x ∨ ¬ s.hanging x)
    (reaps : ∀ x, (s.call t).reaps = some x → c.reaps = some x ∨ s.destroyed x ≠ 0)
    (fails : ∀ r ∈ results, ∀ code, r.result ≠ .joined code)
    (taken : ∀ r ∈ results, r.caller ≠ r.target → r.target ≠ s.main →
      s.Taken r.target) :
    Blocks { s with
      call := update s.call t c, returned := s.returned ++ results } := by
  have none : ∀ x, results.filter (·.joins x) = [] := by
    intro x
    refine filter_eq_nil_iff.mpr fun r there => ?_
    have := fails r there
    grind
  obtain ⟨hanging, -, -, running, -, -, -, hangs, -, queue, -, -, destroys⟩ := stages
  cases inv
  constructor
  all_goals simp only [Taken, Threads.active, Threads.hanging, update_apply, filter_append, none,
    append_nil] at *
  all_goals first | assumption | grind

theorem mark (on : s.onCpu t = true) (inCall : s.call t = .detach target .mark)
    (careful : ∀ stage, s.call target = .exit stage → s.hanging target ∧ ¬ s.active target) :
    Blocks ((s.detach target).setCall t (.detach target .test)) := by
  obtain ⟨hanging, -, -, running, -, -, -, hangs, -, queue, -, -, destroys⟩ := stages
  cases inv
  constructor
  all_goals simp only [setCall, setControl, Threads.detach, Taken, Threads.active,
    Threads.hanging, update_apply] at *
  all_goals first | assumption | grind

theorem detachSelf (on : s.onCpu t = true) (inCall : s.call t = .detach t .locate) :
    Blocks ((s.detach t).ret t t .detached) := by
  obtain ⟨hanging, -, -, running, -, -, -, hangs, -, queue, -, -, destroys⟩ := stages
  cases inv
  constructor
  all_goals simp only [ret, setControl, Threads.detach, Taken, Threads.active, update_apply] at *
  all_goals first | assumption | grind

/-- Whoever destroys the block is the only one to have it in hand. -/
theorem destroys (inCall : s.call t = .join target (.destroy code) ∧ result = .joined code ∨
      s.call t = .detach target .destroy ∧ result = .detached)
    (inactive : ¬ s.active target) (alone : ∀ u ≠ t, (s.call u).uses ≠ some target) :
    Blocks ({ s with
      destroyed := update s.destroyed target (s.destroyed target + 1) }.ret t target result) := by
  have left : s.call target = .exit .leave := by
    have := stages.destroys t target
    have := stages.hangs target
    have := inv.frees t target
    grind [Ends, Threads.active]
  have alive : s.destroyed target = 0 := by
    by_contra some
    have := (inv.gone target some).2.2.2 t
    grind
  have before : ∀ x, (s.returned.filter (·.joins x)).length ≤ s.destroyed x := inv.once
  have added : ∀ x, (filter (·.joins x) [Return.mk t target (s.usrStatus t) result]).length ≤
      if x = target then 1 else 0 := by
    intro x
    grind
  obtain ⟨-, -, -, -, -, -, -, hangs, -, -, -, -, destroys⟩ := stages
  obtain ⟨detached, tests, frees, gone, owned, taken, joins, -⟩ := inv
  constructor
  case once =>
    intro x
    have := before x
    have := added x
    simp only [ret, update_apply, filter_append, length_append]
    grind
  all_goals clear before added
  all_goals simp only [ret, Taken, Ends, Threads.active, update_apply] at *
  all_goals first | assumption | grind

end Blocks

/-! ## Runs -/

theorem Threads.detach_state (s : Threads n) (target u : Fin n) :
    ((s.detach target).control u).state = (s.control u).state ∧
      ((s.detach target).control u).blockReason = (s.control u).blockReason := by
  simp only [Threads.detach, setControl, update_apply]
  split <;> simp_all

structure ReapInv (s : Threads n) : Prop where
  stages : Stages s
  blocks : Blocks s

namespace ReapInv

variable (inv : ReapInv s)

include inv

/-- A thread with the core in a call on another has not lost it. -/
theorem running (on : s.onCpu t = true) (awake : ∀ target, s.call t ≠ .join target .sleep)
    (goesOn : ∀ stage, s.call t ≠ .exit stage) : (s.control t).state = .running := by
  rcases inv.stages.running t on with running | ⟨target, asleep⟩ | left
  · exact running
  · exact absurd asleep (awake target)
  · exact absurd left (goesOn _)

theorem target_alive (uses : (s.call t).uses = some target) : s.destroyed target = 0 := by
  by_contra some
  exact (inv.blocks.gone target some).2.2.2 t uses

/-- The thread goes on in its call on another thread. -/
theorem setCall {c : Call n} (running : (s.control t).state = .running)
    (goesOn : ∀ stage, s.call t ≠ .exit stage)
    (runs : (∀ stage, c ≠ .exit stage) ∧ ∀ x, c ≠ .join x .sleep ∧ c ≠ .join x .woken)
    (copies : ∀ x, c = .join x .copy → s.Ends x t)
    (destroys : ∀ x code, c = .join x (.destroy code) →
      s.Ends x t ∧ (s.usrStatus t = none ∨ code = s.exited x))
    (alive : ∀ x, c.uses = some x → s.destroyed x = 0)
    (tests : ∀ x, c = .detach x .test → (s.control x).isDetached = true)
    (frees : ∀ x, c = .detach x .destroy → (s.control x).isDetached = true ∧ s.hanging x)
    (detaches : ∀ x, (s.call t).detaches = some x → c.detaches = some x ∨ ¬ s.hanging x)
    (reaps : ∀ x, (s.call t).reaps = some x → c.reaps = some x ∨ s.destroyed x ≠ 0) :
    ReapInv (s.setCall t c) := by
  refine ⟨inv.stages.moves running goesOn (fun _ => ⟨rfl, rfl⟩) runs copies destroys _ _,
    ?_⟩
  have blocks := inv.blocks.moves inv.stages running goesOn runs.1 alive tests frees detaches
    reaps (fun r there => absurd there not_mem_nil) (fun r there => absurd there not_mem_nil)
  rwa [append_nil] at blocks

/-- The call returns without success, and somebody answers for the block. -/
theorem ret (running : (s.control t).state = .running)
    (goesOn : ∀ stage, s.call t ≠ .exit stage)
    (detaches : ∀ x, (s.call t).detaches = some x → ¬ s.hanging x)
    (reaps : ∀ x, (s.call t).reaps = some x → s.destroyed x ≠ 0)
    (fails : ∀ code, result ≠ .joined code)
    (taken : t ≠ target → target ≠ s.main → s.Taken target) :
    ReapInv (s.ret t target result) := by
  refine ⟨inv.stages.moves running goesOn (fun _ => ⟨rfl, rfl⟩) (by simp) (by simp)
    (by simp) _ _,
    ?_⟩
  refine inv.blocks.moves inv.stages running goesOn (by simp) (by simp [Call.uses]) (by simp)
    (by simp) (fun x is => .inr (detaches x is)) (fun x is => .inr (reaps x is)) ?_ ?_
  · simpa using fails
  · simpa using taken

theorem switchOut (on : s.onCpu t = true)
    (steady : ∀ joiner, s.call t ≠ .exit (.hang (some joiner))) : ReapInv (s.switchOut t) :=
  ⟨inv.stages.switchOut on steady, inv.blocks.switchOut inv.stages on⟩

theorem destroyThread (code : Option Nat) (on : s.onCpu t = true)
    (inCall : s.call t = .join target (.destroy code) ∧ result = .joined code ∨
      s.call t = .detach target .destroy ∧ result = .detached)
    (alone : ¬ s.active target → ∀ u ≠ t, (s.call u).uses ≠ some target) :
    ReapInv (s.destroyThread t target result) := by
  have running : (s.control t).state = .running := inv.running on (by grind) (by grind)
  unfold Threads.destroyThread
  split
  · exact inv.switchOut on (by grind)
  · rename_i inactive
    exact ⟨inv.stages.moves running (by grind) (fun _ => ⟨rfl, rfl⟩) (by simp) (by simp)
      (by simp) _ _, inv.blocks.destroys inv.stages inCall inactive (alone inactive)⟩

theorem exitStep (on : s.onCpu t = true) (inCall : s.call t = .exit stage) :
    ReapInv (s.exitStep t stage) := by
  obtain ⟨stages, blocks⟩ := inv
  rcases stage with _ | ⟨_ | joiner⟩ | joiner | _
  · simp only [Threads.exitStep]
    split
    · rename_i nil
      exact ⟨stages.dequeueNil inCall nil, blocks.dequeueNil stages inCall⟩
    · rename_i joiner rest cons
      exact ⟨stages.dequeueCons inCall cons, blocks.dequeueCons stages inCall rest⟩
  · exact ⟨stages.wakeNone inCall, blocks.wakeNone stages inCall⟩
  · obtain ⟨down, -⟩ := stages.wakes t joiner inCall
    obtain ⟨reason, -⟩ := stages.asleep joiner down
    have woken : wokenThread (s.control joiner) brLock =
        { s.control joiner with state := .ready, blockReason := 0 } := by
      unfold wokenThread
      simp [reason, down]
    simp only [Threads.exitStep, woken]
    exact ⟨stages.wakeSome on inCall, blocks.wakeSome stages on inCall⟩
  · exact ⟨stages.hang on inCall, blocks.hang stages on inCall⟩
  · exact switchOut ⟨stages, blocks⟩ on (by simp [inCall])

theorem joinStep (on : s.onCpu t = true) (inCall : s.call t = .join target stage)
    (careful : s.Careful (.step t)) : ReapInv (s.joinStep t target stage) := by
  have goesOn : ∀ stage, s.call t ≠ .exit stage := by simp [inCall]
  have running : stage ≠ .sleep → (s.control t).state = .running := fun awake =>
    inv.running on (by simpa [inCall] using awake) goesOn
  have alive : stage ≠ .locate → s.destroyed target = 0 := fun late =>
    inv.target_alive (t := t) (by simp [inCall, Call.uses, late])
  have ended : s.hanging target → s.Ends target t := fun hanging =>
    .inl ((inv.stages.hanging target).mp hanging)
  have queued : s.joinWaitQueue target ≠ [] → s.Taken target := by
    have := inv.stages.queue target
    grind [Taken, Waits, Call.reaps]
  unfold Threads.joinStep
  cases stage with
  | locate =>
    dsimp only
    split
    · rename_i gone
      exact inv.ret (running (by simp)) goesOn (by simp [inCall, Call.detaches])
        (by simp [inCall, Call.reaps]) (by simp) (fun _ _ => .inl gone)
    split
    · rename_i detached
      exact inv.ret (running (by simp)) goesOn (by simp [inCall, Call.detaches])
        (by simp [inCall, Call.reaps]) (by simp) (fun _ _ => .inr (.inl detached))
    · rename_i present _
      refine inv.setCall (running (by simp)) goesOn (by simp) (by simp) (by simp) ?_ (by simp)
        (by simp) (by simp [inCall, Call.detaches]) (by simp [inCall, Call.reaps])
      simpa [Call.uses] using present
  | test =>
    dsimp only
    refine inv.setCall (running (by simp)) goesOn ?_ ?_ ?_ ?_ (by simp) (by simp)
      (by simp [inCall, Call.detaches]) (by simp [inCall, Call.reaps])
    all_goals split
    all_goals simp_all [Call.uses]
  | lock =>
    dsimp only
    simp only [Careful, inCall] at careful
    split
    · rename_i hanging
      exact inv.setCall (running (by simp)) goesOn (by simp) (by simpa using ended hanging)
        (by simp) (by simpa [Call.uses] using alive (by simp)) (by simp) (by simp)
        (by simp [inCall, Call.detaches]) (by simp [inCall, Call.reaps])
    split
    · rename_i some
      exact inv.ret (running (by simp)) goesOn (by simp [inCall, Call.detaches])
        (by simp [inCall, Call.reaps]) (by simp) (fun _ _ => queued some)
    · rename_i more nil
      have early : ∀ stage, s.call target = .exit stage → stage = .dequeue := by
        have := (inv.stages.hanging target).mpr
        rintro (_ | joiner | joiner | _) <;> grind [Threads.hanging]
      have calm : (s.control t).blockReason ||| brLock = brLock := by
        rw [inv.stages.calm t (by simp [running])]
        rfl
      simp only [not_not] at nil
      simp only [calm]
      exact ⟨inv.stages.enqueue on inCall early nil, inv.blocks.enqueue inv.stages on inCall⟩
  | sleep => exact ⟨inv.stages.sleeps on inCall, inv.blocks.sleeps inv.stages on inCall⟩
  | woken =>
    have up : (s.control t).state ≠ .pended := by simp [running]
    have ended := inv.stages.waits t target (.inr inCall)
    dsimp only
    split
    · exact absurd (alive (by simp)) (by assumption)
    · refine inv.setCall (running (by simp)) goesOn (by simp) ?_ (by simp) ?_ (by simp) (by simp)
        (by simp [inCall, Call.detaches]) (by simp [inCall, Call.reaps])
      · simpa [up] using ended
      · simpa [Call.uses] using alive (by simp)
  | copy =>
    have ended := inv.stages.copies t target inCall
    refine inv.setCall (running (by simp)) goesOn (by simp) (by simp) ?_ ?_ (by simp) (by simp)
      (by simp [inCall, Call.detaches]) (by simp [inCall, Call.reaps])
    · have noted : s.exited target = some (s.exitStatus target) := by
        rcases ended with left | hangs <;> exact inv.stages.noted target _ (by assumption)
      have asked := inv.stages.asked t
      rcases status : s.usrStatus t with _ | _ | _ <;> simp_all [copyExitStatus]
    · simpa [Call.uses] using alive (by simp)
  | destroy code =>
    simp only [Careful, inCall] at careful
    exact inv.destroyThread _ on (.inl ⟨inCall, rfl⟩) careful

theorem detachStep (on : s.onCpu t = true) (inCall : s.call t = .detach target stage)
    (careful : s.Careful (.step t)) : ReapInv (s.detachStep t target stage) := by
  have goesOn : ∀ stage, s.call t ≠ .exit stage := by simp [inCall]
  have running := inv.running on (by simp [inCall]) goesOn
  have alive : stage ≠ .locate → s.destroyed target = 0 := fun late =>
    inv.target_alive (t := t) (by simp [inCall, Call.uses, late])
  unfold Threads.detachStep
  cases stage with
  | locate =>
    dsimp only
    split
    · rename_i gone
      exact inv.ret running goesOn (by simp [inCall, Call.detaches])
        (by simp [inCall, Call.reaps]) (by simp) (fun _ other => .inl (gone.resolve_right other))
    split
    · rename_i same
      subst same
      exact ⟨inv.stages.moves (c := .none) running goesOn (s.detach_state target)
        (by simp) (by simp) (by simp) _ _, inv.blocks.detachSelf inv.stages on inCall⟩
    · rename_i present _
      refine inv.setCall running goesOn (by simp) (by simp) (by simp) ?_ (by simp)
        (by simp) (by simp [inCall, Call.detaches]) (by simp [inCall, Call.reaps])
      simp only [not_or, not_not] at present
      simpa [Call.uses] using present.1
  | mark =>
    dsimp only
    split
    · rename_i some
      have := inv.stages.queue target
      have := inv.stages.looked target .leave
      have := inv.stages.hanging target
      refine inv.ret running goesOn ?_ (by simp [inCall, Call.reaps]) (by simp) ?_
      · grind [Call.detaches, Threads.hanging]
      · grind [Taken, Waits, Call.reaps]
    · refine ⟨inv.stages.moves running goesOn (s.detach_state target) (by simp) (by simp)
        (by simp) _ _, inv.blocks.mark inv.stages on inCall ?_⟩
      intro stage exits
      simpa [Careful, inCall, exits] using careful
  | test =>
    have detached := inv.blocks.tests t target inCall
    dsimp only
    split
    · rename_i hanging
      refine inv.setCall running goesOn (by simp) (by simp) (by simp) ?_ (by simp) ?_ ?_
        (by simp [inCall, Call.reaps])
      · simpa [Call.uses] using alive (by simp)
      · simpa using ⟨detached, hanging⟩
      · simp [inCall, Call.detaches]
    · rename_i more
      exact inv.ret running goesOn (by simpa [inCall, Call.detaches] using more)
        (by simp [inCall, Call.reaps]) (by simp) (fun _ _ => .inr (.inl detached))
  | destroy =>
    simp only [Careful, inCall] at careful
    exact inv.destroyThread none on (.inr ⟨inCall, rfl⟩) careful

theorem step (careful : s.Careful e) (ran : e.exec s = some s') : ReapInv s' := by
  obtain ⟨stages, blocks⟩ := inv
  cases e with
  | exitThread t code =>
    obtain ⟨⟨may, -⟩, ⟨⟩⟩ := ite_none_right_eq_some.mp ran
    exact ⟨stages.exitThread may code, blocks.exitThread stages may code careful⟩
  | joinThread t target usrStatus =>
    obtain ⟨may, ⟨⟩⟩ := ite_none_right_eq_some.mp ran
    have asks : ReapInv { s with usrStatus := update s.usrStatus t usrStatus } :=
      ⟨stages.asks may careful, blocks.asks usrStatus⟩
    simp only [mayCall, Bool.and_eq_true, decide_eq_true_eq] at may
    obtain ⟨⟨-, idle⟩, running⟩ := may
    split
    · rename_i same
      exact asks.ret running (by simp [idle]) (by simp [idle, Call.detaches])
        (by simp [idle, Call.reaps]) (by simp) (fun other => absurd same.symm other)
    · exact asks.setCall running (by simp [idle]) (by simp) (by simp) (by simp)
        (by simp [Call.uses]) (by simp) (by simp) (by simp [idle, Call.detaches])
        (by simp [idle, Call.reaps])
  | detachThread t target =>
    obtain ⟨may, ⟨⟩⟩ := ite_none_right_eq_some.mp ran
    simp only [mayCall, Bool.and_eq_true, decide_eq_true_eq] at may
    obtain ⟨⟨-, idle⟩, running⟩ := may
    exact setCall ⟨stages, blocks⟩ running (by simp [idle]) (by simp) (by simp) (by simp)
      (by simp [Call.uses]) (by simp) (by simp) (by simp [idle, Call.detaches])
      (by simp [idle, Call.reaps])
  | step t =>
    obtain ⟨on, is⟩ := ite_none_right_eq_some.mp ran
    unfold callStep at is
    cases inCall : s.call t <;> rw [inCall] at is <;> cases is
    · exact exitStep ⟨stages, blocks⟩ on inCall
    · exact joinStep ⟨stages, blocks⟩ on inCall careful
    · exact detachStep ⟨stages, blocks⟩ on inCall careful
  | preempt t =>
    obtain ⟨on, ⟨⟩⟩ := ite_none_right_eq_some.mp ran
    exact switchOut ⟨stages, blocks⟩ on careful
  | resume t =>
    obtain ⟨⟨-, -, ready, alive⟩, ⟨⟩⟩ := ite_none_right_eq_some.mp ran
    exact ⟨stages.resume ready, blocks.resume stages ready alive⟩
  | settle t =>
    obtain ⟨-, ⟨⟩⟩ := ite_none_right_eq_some.mp ran
    refine ⟨?_, blocks.settle stages t⟩
    cases stages
    constructor <;> assumption

end ReapInv

theorem Call.uses_of_detaches {c : Call n} (is : c.detaches = some t) : c.uses = some t := by
  cases c <;> simp_all [Call.detaches, Call.uses]

theorem Call.uses_of_reaps {c : Call n} (is : c.reaps = some t) : c.uses = some t := by
  cases c <;> simp_all [Call.reaps, Call.uses]

instance (s : Threads n) (e : Event n) : Decidable (s.Careful e) := by
  unfold Threads.Careful
  split
  · infer_instance
  · infer_instance
  · infer_instance
  · split
    · infer_instance
    · split <;> infer_instance
    all_goals infer_instance
  · infer_instance

/-- A joiner that comes first, and its thread. -/
def joinFirst (j t : Fin n) (usrStatus : Option Bool) : List (Event n) :=
  [.joinThread j t usrStatus, .step j, .step j, .step j, .step j, .settle j, .exitThread t 5,
    .step t, .step t, .step t, .step t, .settle t, .resume j, .step j, .step j, .step j]

/-- A thread that exits with no joiner. -/
def exitAlone (t : Fin n) : List (Event n) :=
  [.exitThread t 5, .step t, .step t, .step t, .step t]

/-- Two joiners find the thread at its end. -/
def twoJoiners (j other t : Fin n) : List (Event n) :=
  exitAlone t ++ [.settle t, .joinThread j t none, .joinThread other t none, .step j, .step other,
    .step j, .step other, .step j, .step other, .step j, .step other]

/-- The thread loses its core when it has woken its joiner. -/
def preemptedExit (j t : Fin n) : List (Event n) :=
  [.joinThread j t none, .step j, .step j, .step j, .step j, .settle j, .exitThread t 5, .step t,
    .step t, .preempt t, .settle t, .resume j, .step j, .step j, .step j]

/-- The joiner queues up after the thread has looked. -/
def lateJoiner (j t : Fin n) : List (Event n) :=
  [.exitThread t 5, .step t, .joinThread j t none, .step j, .step j, .step j, .step j, .settle j,
    .step t, .step t, .step t, .settle t]

/-- A thread is detached, and exits. -/
def detachedExit (d t : Fin n) : List (Event n) :=
  [.detachThread d t, .step d, .step d, .step d] ++ exitAlone t

end Mecocoa.Thread
