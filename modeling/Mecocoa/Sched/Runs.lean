import Mecocoa.Sched.Queues

/-! # Runs of the scheduler

Whatever the cores do, a queued thread is ready and stands in the queue for its
priority.  So each thread that is put into a queue is in none, and the run queues
stay well formed.
-/

namespace Mecocoa.Sched

open Option (ite_none_left_eq_some)
open Taskman

open Lib (LinkedQueues Run)
open Lib.LinkedQueues (Represents)
open Function (Injective update update_self update_of_ne update_apply)

variable {s s' : Taskman n c} {t : Fin n}

def IsIdle (s : Taskman n c) (t : Fin n) : Prop := ∃ core, s.idle core = t

instance (s : Taskman n c) (t : Fin n) : Decidable (IsIdle s t) := by
  unfold IsIdle
  infer_instance

/-- With `epochs`, B-type threads are in no expired queue as well. -/
structure SchedInv (epochs : Prop) (s : Taskman n c) (q : QueueKey → List (Fin n)) : Prop where
  queues : QueuesOk s q
  place : ∀ array i t, t ∈ q (array, i) →
    i = queueIndex (s.threads t).priority ∧ (s.threads t).state = .ready ∧ ¬ IsIdle s t ∧
      (epochs → array = .expired → 0 ≤ (s.threads t).priority)
  marks : epochs → ∀ t, (s.threads t).isExpired = true → 0 ≤ (s.threads t).priority

/-- What scheduling leaves of a thread: it never ends or begins a wait. -/
structure Steady (th th' : Thread) : Prop where
  reason : th'.blockReason = th.blockReason
  wake : th'.pendingWake = th.pendingWake
  state : th'.state = th.state ∨ th.state ≠ .pended ∧
    (th'.state = .ready ∨ th'.state = .running)

structure Moves (s s' : Taskman n c) : Prop where
  threads : ∀ t, Steady (s.threads t) (s'.threads t)
  idle : s'.idle = s.idle

theorem Steady.refl (th : Thread) : Steady th th := ⟨rfl, rfl, .inl rfl⟩

theorem Steady.trans (first : Steady a b) (second : Steady b d) : Steady a d := by
  refine ⟨second.reason.trans first.reason, second.wake.trans first.wake, ?_⟩
  have before := first.state
  have after := second.state
  grind

theorem Moves.refl (s : Taskman n c) : Moves s s := ⟨fun _ => .refl _, rfl⟩

theorem Moves.trans (first : Moves s₁ s₂) (second : Moves s₂ s₃) : Moves s₁ s₃ :=
  ⟨fun t => (first.threads t).trans (second.threads t), second.idle.trans first.idle⟩

theorem Moves.setThread (steady : Steady (s.threads t) th) : Moves s (s.setThread t th) := by
  refine ⟨fun x => ?_, rfl⟩
  by_cases same : x = t
  · subst same
    simpa [setThread] using steady
  · simpa [Taskman.setThread, same] using Steady.refl _

/-! ## Frames -/

@[simp] theorem setThread_threads_self (s : Taskman n c) (t : Fin n) (th : Thread) :
    (s.setThread t th).threads t = th := update_self ..

theorem setThread_threads_other (s : Taskman n c) (th : Thread) (other : x ≠ t) :
    (s.setThread t th).threads x = s.threads x := update_of_ne other ..

theorem dequeueReady_frame (s : Taskman n c) (t : Fin n) :
    (dequeueReady s t).threads = s.threads ∧ (dequeueReady s t).current = s.current ∧
      (dequeueReady s t).idle = s.idle := by
  unfold dequeueReady
  dsimp only
  split <;> exact ⟨rfl, rfl, rfl⟩

@[simp] theorem dequeueReady_threads (s : Taskman n c) (t : Fin n) :
    (dequeueReady s t).threads = s.threads := (dequeueReady_frame s t).1

@[simp] theorem dequeueReady_current (s : Taskman n c) (t : Fin n) :
    (dequeueReady s t).current = s.current := (dequeueReady_frame s t).2.1

@[simp] theorem dequeueReady_idle (s : Taskman n c) (t : Fin n) :
    (dequeueReady s t).idle = s.idle := (dequeueReady_frame s t).2.2

theorem Moves.dequeueReady (s : Taskman n c) (t : Fin n) : Moves s (dequeueReady s t) :=
  ⟨fun x => by rw [dequeueReady_threads]; exact .refl _, dequeueReady_idle s t⟩

theorem Moves.dequeue_setState (awake : (s.threads t).state ≠ .pended) {state}
    (up : state = .ready ∨ state = .running) :
    Moves s ((Sched.dequeueReady s t).setState t state) := by
  refine (Moves.dequeueReady s t).trans (.setThread ⟨rfl, rfl, .inr ⟨?_, up⟩⟩)
  rwa [dequeueReady_threads]

section Enqueue

variable (array : QueueArray) (mark : Thread → Thread)

theorem enqueue_frame (s : Taskman n c) (t : Fin n) :
    (enqueue array mark s t).current = s.current ∧ (enqueue array mark s t).idle = s.idle ∧
      ∀ x, (enqueue array mark s t).threads x = s.threads x ∨
        x = t ∧ (enqueue array mark s t).threads x = mark (s.threads t) := by
  unfold enqueue
  dsimp only
  split
  · exact ⟨rfl, rfl, fun _ => .inl rfl⟩
  split
  · exact ⟨rfl, rfl, fun _ => .inl rfl⟩
  · refine ⟨rfl, rfl, fun x => ?_⟩
    by_cases same : x = t
    · subst same
      exact .inr ⟨rfl, update_self ..⟩
    · exact .inl (update_of_ne same ..)

theorem Moves.enqueue (marks : ∀ th, Steady th (mark th)) (s : Taskman n c) (t : Fin n) :
    Moves s (enqueue array mark s t) := by
  obtain ⟨-, idle, threads⟩ := enqueue_frame array mark s t
  refine ⟨fun x => ?_, idle⟩
  cases threads x with
  | inl same => rw [same]; exact .refl _
  | inr marked => rw [marked.2, marked.1]; exact marks _

end Enqueue

theorem steady_expired (th : Thread) : Steady th { th with isExpired := true } :=
  ⟨rfl, rfl, .inl rfl⟩

theorem Moves.enqueueExpired (s : Taskman n c) (t : Fin n) : Moves s (enqueueExpired s t) :=
  .enqueue _ _ steady_expired s t

theorem Moves.enqueueReady (s : Taskman n c) (t : Fin n) : Moves s (enqueueReady s t) :=
  .enqueue _ _ .refl s t

/-! ## One thread -/

theorem queueIndex_upper (aType : 0 ≤ priority) : 16 ≤ (queueIndex priority).val := by
  unfold queueIndex
  split
  · omega
  split
  · decide
  · simp only [Fin.ofNat]
    omega

variable (inv : SchedInv epochs s q)

include inv

/-- Queues that hold no more than before, of threads of which scheduling sees the same. -/
theorem SchedInv.of_mem (queues : QueuesOk s' q') (idle : s'.idle = s.idle)
    (within : ∀ {array i x}, x ∈ q' (array, i) →
      (∃ array', x ∈ q (array', i)) ∧ (array = .expired → x ∈ q (.expired, i)))
    (same : ∀ x, (s'.threads x).priority = (s.threads x).priority ∧
      (s'.threads x).state = (s.threads x).state ∧
      ((s'.threads x).isExpired = true → (s.threads x).isExpired = true)) :
    SchedInv epochs s' q' := by
  refine ⟨queues, fun array i x member => ?_, fun up x expired => ?_⟩
  · obtain ⟨array', before⟩ := (within member).1
    obtain ⟨index, ready, notIdle, -⟩ := inv.place array' i x before
    unfold IsIdle
    rw [(same x).1, (same x).2.1, idle]
    exact ⟨index, ready, notIdle,
      fun up is => (inv.place _ i x ((within member).2 is)).2.2.2 up rfl⟩
  · rw [(same x).1]
    exact inv.marks up x ((same x).2.2 expired)

theorem SchedInv.dequeue (t : Fin n) :
    ∃ q', SchedInv epochs (dequeueReady s t) q' ∧ ∀ k, t ∉ q' k := by
  by_cases free : ∀ k, t ∉ q k
  · rw [inv.queues.dequeue_free free]
    exact ⟨q, inv, free⟩
  simp only [not_forall, not_not] at free
  obtain ⟨⟨array, i⟩, member⟩ := free
  have index := (inv.place array i t member).1
  have within : ∀ {k x}, x ∈ update q (array, i) ((q (array, i)).erase t) k → x ∈ q k ∧
      x ≠ t := by
    intro k x there
    by_cases same : k = (array, i)
    · subst same
      rw [update_self] at there
      exact ⟨List.mem_of_mem_erase there, fun eq =>
        ((inv.queues.rep.nodup _).mem_erase_iff.mp there).1 eq⟩
    · rw [update_of_ne same] at there
      exact ⟨there, fun eq => same (inv.queues.rep.apart _ _ t (eq ▸ there) member)⟩
  refine ⟨_, inv.of_mem (inv.queues.dequeue member (.inl index.symm)) (dequeueReady_idle s t)
    (fun there => ?_)
    fun x => by simp, fun k there => (within there).2 rfl⟩
  have before := (within there).1
  exact ⟨⟨_, before⟩, fun is => is ▸ before⟩

/-- A change to a thread that no queue sees. -/
theorem SchedInv.setThread
    (queued : (∃ k, t ∈ q k) → th.priority = (s.threads t).priority ∧ th.state = .ready)
    (mark : epochs → th.isExpired = true → 0 ≤ th.priority) :
    SchedInv epochs (s.setThread t th) q := by
  refine ⟨⟨inv.queues.rep, inv.queues.bits⟩, fun array i x member => ?_, fun up x => ?_⟩
  · have before := inv.place array i x member
    by_cases same : x = t
    · subst same
      have kept := queued ⟨_, member⟩
      rw [setThread_threads_self, kept.1]
      exact ⟨before.1, kept.2, before.2.2⟩
    · rw [setThread_threads_other s th same]
      exact before
  · by_cases same : x = t
    · subst same
      rw [setThread_threads_self]
      exact mark up
    · rw [setThread_threads_other s th same]
      exact inv.marks up x

theorem SchedInv.setState_free (free : ∀ k, t ∉ q k) (state : ThreadState) :
    SchedInv epochs (s.setState t state) q :=
  inv.setThread (fun ⟨k, member⟩ => absurd member (free k)) fun up => inv.marks up t

theorem SchedInv.enqueue
    (free : ∀ k, t ∉ q k) (ready : (s.threads t).state = .ready) (notIdle : ¬ IsIdle s t)
    (same : ∀ th, (mark th).priority = th.priority ∧ (mark th).state = th.state)
    (upper : epochs → array = .expired → 0 ≤ (s.threads t).priority)
    (marks : epochs → (mark (s.threads t)).isExpired = true → 0 ≤ (s.threads t).priority) :
    ∃ q', SchedInv epochs (enqueue array mark s t) q' := by
  rw [inv.queues.enqueue_fresh free (.inl ready)]
  have threads : ∀ x, (linkLast array mark s t).threads x = if x = t then mark (s.threads t)
      else s.threads x := by
    intro x
    unfold linkLast
    by_cases eq : x = t
    · subst eq
      simp
    · simp [eq]
  have kept : ∀ x, ((linkLast array mark s t).threads x).priority = (s.threads x).priority ∧
      ((linkLast array mark s t).threads x).state = (s.threads x).state := by
    intro x
    rw [threads]
    split
    · rename_i eq
      rw [eq]
      exact same _
    · exact ⟨rfl, rfl⟩
  have inside : ∀ {k x}, x ∈ update q (array, queueIndex (s.threads t).priority)
      (q (array, queueIndex (s.threads t).priority) ++ [t]) k →
        x ∈ q k ∨ x = t ∧ k = (array, queueIndex (s.threads t).priority) := by
    intro k x there
    by_cases eq : k = (array, queueIndex (s.threads t).priority)
    · subst eq
      rw [update_self, List.mem_append, List.mem_singleton] at there
      exact there.imp_right fun is => ⟨is, rfl⟩
    · rw [update_of_ne eq] at there
      exact .inl there
  refine ⟨_, inv.queues.linkLast free, fun array' i x member => ?_, fun up x => ?_⟩
  · rw [(kept x).1, (kept x).2]
    cases inside member with
    | inl before => exact inv.place array' i x before
    | inr new =>
      obtain ⟨rfl, key⟩ := new
      cases key
      exact ⟨rfl, ready, notIdle, upper⟩
  · rw [(kept x).1, threads]
    split
    · rename_i eq
      subst eq
      exact marks up
    · exact inv.marks up x

theorem SchedInv.enqueueExpired (free : ∀ k, t ∉ q k)
    (ready : (s.threads t).state = .ready) (notIdle : ¬ IsIdle s t)
    (aType : epochs → 0 ≤ (s.threads t).priority) :
    ∃ q', SchedInv epochs (enqueueExpired s t) q' :=
  inv.enqueue free ready notIdle (fun _ => ⟨rfl, rfl⟩) (fun up _ => aType up)
    (fun up _ => aType up)

theorem SchedInv.enqueueReady (free : ∀ k, t ∉ q k)
    (ready : (s.threads t).state = .ready) (notIdle : ¬ IsIdle s t) :
    ∃ q', SchedInv epochs (enqueueReady s t) q' :=
  inv.enqueue free ready notIdle (fun _ => ⟨rfl, rfl⟩) (fun _ is => absurd is (by simp))
    (fun up => inv.marks up t)

omit inv

/-! ## Parts of `Schedule` -/

def Sane (epochs : Prop) (s : Taskman n c) : Prop := ∃ q, SchedInv epochs s q

variable (sane : Sane epochs s)

include sane

theorem Sane.setThread (priority : th.priority = (s.threads t).priority)
    (state : th.state = (s.threads t).state)
    (mark : th.isExpired = true → (s.threads t).isExpired = true) :
    Sane epochs (s.setThread t th) := by
  obtain ⟨q, inv⟩ := sane
  refine ⟨q, inv.setThread (fun queued => ?_) fun up expired => ?_⟩
  · obtain ⟨⟨array, i⟩, member⟩ := queued
    exact ⟨priority, state.trans (inv.place array i t member).2.1⟩
  · rw [priority]
    exact inv.marks up t (mark expired)

/-- A thread that is in no queue afterwards may have any state. -/
theorem Sane.dequeue_setThread (priority : th.priority = (s.threads t).priority)
    (mark : th.isExpired = true → (s.threads t).isExpired = true) :
    Sane epochs ((dequeueReady s t).setThread t th) := by
  obtain ⟨q, inv⟩ := sane
  obtain ⟨q', inv', free⟩ := inv.dequeue t
  refine ⟨q', inv'.setThread (fun ⟨k, member⟩ => absurd member (free k)) fun up expired =>
    ?_⟩
  rw [priority]
  exact inv.marks up t (mark expired)

theorem Sane.dequeue_setState (t : Fin n) (state : ThreadState) :
    Sane epochs ((dequeueReady s t).setState t state) :=
  sane.dequeue_setThread (by simp) (by simp)

/-- A thread leaves its queue and becomes ready again at the end of one. -/
theorem Sane.requeueExpired (notIdle : ¬ IsIdle s t)
    (aType : epochs → 0 ≤ (s.threads t).priority) :
    Sane epochs (enqueueExpired ((dequeueReady s t).setState t .ready) t) := by
  obtain ⟨q, inv⟩ := sane
  obtain ⟨q', inv', free⟩ := inv.dequeue t
  apply (inv'.setState_free free .ready).enqueueExpired free
  · simp [setState]
  · simpa [Taskman.setState, Taskman.setThread, IsIdle] using notIdle
  · simpa [setState] using aType

theorem Sane.requeueReady (notIdle : ¬ IsIdle s t) :
    Sane epochs (enqueueReady ((dequeueReady s t).setState t .ready) t) := by
  obtain ⟨q, inv⟩ := sane
  obtain ⟨q', inv', free⟩ := inv.dequeue t
  apply (inv'.setState_free free .ready).enqueueReady free
  · simp [setState]
  · simpa [Taskman.setState, Taskman.setThread, IsIdle] using notIdle

theorem epochSwap_sane : ∃ s', epochSwap s = some s' ∧ Sane epochs s' ∧ Swapped s s' := by
  obtain ⟨q, inv⟩ := sane
  obtain ⟨s', ran, queues, swap⟩ := inv.queues.epochSwap
  have same : ∀ t, (s'.threads t).priority = (s.threads t).priority ∧
    (s'.threads t).state = (s.threads t).state ∧
        ((s'.threads t).isExpired = true → (s.threads t).isExpired = true) := by
    intro t
    cases swap.threads t with
    | inl eq => rw [eq]; exact ⟨rfl, rfl, id⟩
    | inr eq => rw [eq]; exact ⟨rfl, rfl, by simp⟩
  have from_ : ∀ {array i t}, t ∈ afterSwap s q (array, i) →
    (∃ array', t ∈ q (array', i)) ∧
      (array = .expired → t ∈ q (.expired, i)) := by
    intro array i t member
    unfold afterSwap at member
    split at member
    · cases array with
      | priority =>
        simp only [swapped] at member
        split at member
        · exact ⟨⟨_, member⟩, by simp⟩
        · exact ⟨⟨_, member⟩, by simp⟩
      | expired =>
        simp only [swapped] at member
        split at member
        · simp at member
        · exact ⟨⟨_, member⟩, fun _ => member⟩
    · exact ⟨⟨_, member⟩, fun is => is ▸ member⟩
  exact ⟨s', ran, ⟨_, inv.of_mem queues swap.idle from_ same⟩, swap⟩

omit sane in
theorem Swapped.moves (swap : Swapped s s') : Moves s s' := by
  refine ⟨fun t => ?_, swap.idle⟩
  cases swap.threads t with
  | inl eq => rw [eq]; exact .refl _
  | inr eq => rw [eq]; exact ⟨rfl, rfl, .inl rfl⟩

omit sane in
theorem dequeueReady_setState (s : Taskman n c) (t : Fin n) (state : ThreadState) :
    dequeueReady (s.setState t state) t = (dequeueReady s t).setState t state := by
  have index : ((s.setState t state).threads t).priority = (s.threads t).priority := by
    simp [setState]
  have found : foundIn (s.setState t state) (queueIndex (s.threads t).priority) t =
      foundIn s (queueIndex (s.threads t).priority) t := rfl
  unfold dequeueReady
  dsimp only
  rw [index, found]
  cases foundIn s (queueIndex (s.threads t).priority) t <;> rfl

theorem Sane.dequeue (t : Fin n) : Sane epochs (dequeueReady s t) := by
  obtain ⟨q, inv⟩ := sane
  obtain ⟨q', inv', -⟩ := inv.dequeue t
  exact ⟨q', inv'⟩

theorem switchTo_sane (core : Fin c) (old new : Fin n) :
    Sane epochs (switchTo s core old new) ∧ Moves s (switchTo s core old new) := by
  have kept : Sane epochs (s.setThread old { s.threads old with justSchedule := true }) :=
    sane.setThread rfl rfl id
  have moves : Moves s (s.setThread old { s.threads old with justSchedule := true }) :=
    .setThread ⟨rfl, rfl, .inl rfl⟩
  obtain ⟨q, inv⟩ := kept
  exact ⟨⟨q, ⟨inv.queues.rep, inv.queues.bits⟩, inv.place, inv.marks⟩, moves.threads,
    moves.idle⟩

omit sane in
/-- The new thread is out of the queues before its state is changed. -/
theorem switchStates_sane (old : Fin n) (inv : SchedInv epochs s q) (free : ∀ k, new ∉ q k) :
    Sane epochs (switchStates s old new) ∧ Moves s (switchStates s old new) := by
  -- The new thread, if it has never run.
  have begun : ∃ s₁, (if (s.threads new).state = .uninit then s.setState new .ready else s) =
    s₁ ∧
      SchedInv epochs s₁ q ∧ Moves s s₁ := by
    split
    · rename_i uninit
      refine ⟨_, rfl, inv.setState_free free .ready,
        .setThread ⟨rfl, rfl, .inr ⟨?_, .inl rfl⟩⟩⟩
      rw [uninit]
      simp
    · exact ⟨s, rfl, inv, .refl s⟩
  obtain ⟨s₁, is, inv₁, moves₁⟩ := begun
  unfold switchStates
  rw [is]
  dsimp only
  split
  · rename_i both
    have freeOld : ∀ k, old ∉ q k := fun ⟨array, i⟩ member => by
      have ready := (inv₁.place array i old member).2.1
      rw [both.1] at ready
      exact absurd ready (by simp)
    have halted : Moves s₁ (s₁.setState old .ready) :=
      .setThread ⟨rfl, rfl, .inr ⟨by rw [both.1]; simp, .inl rfl⟩⟩
    have started :
        Moves (s₁.setState old .ready) ((s₁.setState old .ready).setState new .running) := by
      refine .setThread ⟨rfl, rfl, .inr ⟨?_, .inr rfl⟩⟩
      by_cases same : new = old
      · subst same
        simp [setState]
      · rw [setState, setThread_threads_other s₁ _ same, both.2]
        simp
    exact ⟨⟨q, (inv₁.setState_free freeOld .ready).setState_free free .running⟩,
      (moves₁.trans halted).trans started⟩
  · split
    · rename_i ready
      have started : Moves s₁ (s₁.setState new .running) :=
        .setThread ⟨rfl, rfl, .inr ⟨by rw [ready]; simp, .inr rfl⟩⟩
      exact ⟨⟨q, inv₁.setState_free free .running⟩, moves₁.trans started⟩
    · exact ⟨⟨q, inv₁⟩, moves₁⟩

/-- The new thread leaves its queue, or is idle and in none. -/
theorem takeNew_sane (core : Fin c) (new : Fin n) :
    ∃ s₁ q, (if new ≠ s.idle core then dequeueReady s new else s) = s₁ ∧
      SchedInv epochs s₁ q ∧
      (∀ k, new ∉ q k) ∧ Moves s s₁ ∧ s₁.threads = s.threads ∧
      s₁.current = s.current := by
  obtain ⟨q, inv⟩ := sane
  split
  · obtain ⟨q', inv', free⟩ := inv.dequeue new
    exact ⟨_, q', rfl, inv', free, .dequeueReady s new, dequeueReady_frame s new |>.1,
      dequeueReady_current s new⟩
  · rename_i same
    simp only [not_not] at same
    exact ⟨s, q, rfl, inv, fun ⟨array, i⟩ member => (inv.place array i new member).2.2.1
      ⟨core, same.symm⟩,
      .refl s, rfl, rfl⟩

omit sane

/-! ## Cores -/

/-- Each core runs its own idle thread or one that is not idle. -/
def OwnIdle (s : Taskman n c) : Prop :=
  ∀ core, s.current core = s.idle core ∨ ¬ IsIdle s (s.current core)

theorem OwnIdle.congr (own : OwnIdle s) (current : s'.current = s.current)
    (idle : s'.idle = s.idle) : OwnIdle s' := by
  intro core
  unfold IsIdle
  rw [current, idle]
  exact own core

theorem OwnIdle.update (own : OwnIdle s)
    (current : s'.current = update s.current core new) (idle : s'.idle = s.idle)
    (fits : new = s.idle core ∨ ¬ IsIdle s new) : OwnIdle s' := by
  intro core'
  unfold IsIdle
  rw [current, idle]
  by_cases same : core' = core
  · subst same
    rw [update_self]
    exact fits
  · rw [update_of_ne same]
    exact own core'

/-- No thread is the current one of two cores. -/
def Alone (s : Taskman n c) : Prop := Injective s.current ∧ Injective s.idle

theorem Alone.congr (alone : Alone s) (current : s'.current = s.current) (idle : s'.idle = s.idle) :
    Alone s' := by
  unfold Alone
  rwa [current, idle]

/-- The core may take the thread up. -/
def Fits (s : Taskman n c) (core : Fin c) (t : Fin n) : Prop :=
  (t = s.idle core ∨ ¬ IsIdle s t) ∧ (Alone s → ∀ other ≠ core, s.current other ≠ t)

/-- The invariant of the scheduler. -/
structure Sound (epochs : Prop) (s : Taskman n c) : Prop where
  sane : Sane epochs s
  own : OwnIdle s

/-- Nobody waits in place of a core. -/
def IdleAwake (s : Taskman n c) : Prop := ∀ core, (s.threads (s.idle core)).state ≠ .pended

theorem IdleAwake.moves (awake : IdleAwake s) (moves : Moves s s') : IdleAwake s' := by
  intro core
  rw [moves.idle]
  have before := awake core
  have kept := (moves.threads (s.idle core)).state
  grind

/-- What the parts of `Schedule` do. -/
structure Advances (epochs : Prop) (s s' : Taskman n c) : Prop where
  sound : Sound epochs s'
  moves : Moves s s'
  alone : Alone s → Alone s'

theorem Advances.trans (first : Advances epochs s mid) (second : Advances epochs mid s') :
    Advances epochs s s' :=
  ⟨second.sound, first.moves.trans second.moves, fun alone => second.alone (first.alone alone)⟩

/-- The thread of the core may give it up: with `epochs`, only an A-type one. -/
def MayYield (epochs : Prop) (s : Taskman n c) (core : Fin c) : Prop :=
  epochs → s.current core ≠ s.idle core →
    (s.threads (s.current core)).state = .running ∨ (s.threads (s.current core)).state =
    .ready →
      0 ≤ (s.threads (s.current core)).priority

section Parts

variable (sound : Sound epochs s)

include sound

theorem Sound.advances (sane : Sane epochs s') (moves : Moves s s')
    (current : s'.current = s.current) :
    Advances epochs s s' :=
  ⟨⟨sane, sound.own.congr current moves.idle⟩, moves,
  fun alone => alone.congr current moves.idle⟩

theorem Sound.refl : Advances epochs s s := sound.advances sound.sane (.refl s) rfl

theorem Sound.takes (sane : Sane epochs s') (moves : Moves s s')
    (current : s'.current = update s.current core new) (fits : Fits s core new) :
    Advances epochs s s' := by
  refine ⟨⟨sane, sound.own.update current moves.idle fits.1⟩, moves,
    fun alone => ⟨?_, moves.idle ▸ alone.2⟩⟩
  have free := fits.2 alone
  rw [current]
  intro a b same
  rw [update_apply, update_apply] at same
  have apart := @alone.1 a b
  grind

theorem Sound.fits_idle (core : Fin c) : Fits s core (s.idle core) := by
  refine ⟨.inl rfl, fun alone other apart here => apart ?_⟩
  have own := (sound.own other).resolve_right (not_not.mpr ⟨core, here.symm⟩)
  exact alone.2 (own.symm.trans here)

theorem settleSwitchingOut_sound (settled : settleSwitchingOut s core = some s') :
    Advances epochs s s' ∧ s'.current = s.current ∧
      ∀ t, (s'.threads t).state = (s.threads t).state ∧
      (s'.threads t).priority = (s.threads t).priority := by
  unfold settleSwitchingOut at settled
  split at settled
  · cases settled
    exact ⟨sound.refl, rfl, fun _ => ⟨rfl, rfl⟩⟩
  rename_i x _
  obtain ⟨_, ⟨⟩⟩ := ite_none_left_eq_some.mp settled
  have kept : Sane epochs (s.setThread x { s.threads x with justSchedule := false }) :=
    sound.sane.setThread rfl rfl id
  obtain ⟨q, inv⟩ := kept
  have moves : Moves s (s.setThread x { s.threads x with justSchedule := false }) :=
    .setThread ⟨rfl, rfl, .inl rfl⟩
  refine ⟨sound.advances ⟨q, ⟨inv.queues.rep, inv.queues.bits⟩, inv.place, inv.marks⟩
    ⟨moves.threads, moves.idle⟩ rfl, rfl, fun t => ?_⟩
  by_cases same : t = x
  · subst same
    simp
  · simp [setThread_threads_other s _ same]

/-- `PickNext` returns, and what it picks is ready and free. -/
theorem pickNext_sound (affinity : Bool) (core : Fin c) :
    ∃ choice s', pickNext affinity core s = some (choice, s') ∧
    Advances epochs s s' ∧ ∀ t, choice = some t → (s'.threads t).state = .ready ∧
      Fits s' core t := by
  obtain ⟨s₁, swap, ⟨q, inv⟩, swapped⟩ := epochSwap_sane sound.sane
  obtain ⟨choice, s₂, pick, released, queued⟩ := inv.queues.pickFrom affinity core
  have ran : pickNext affinity core s = some (choice, s₂) := by
    unfold pickNext
    rw [swap]
    exact pick
  have kept : SchedInv epochs s₂ q := inv.of_mem (inv.queues.released released) released.idle
    (fun member => ⟨⟨_, member⟩, fun is => is ▸ member⟩)
    fun t => by simp [released.threads]
  refine ⟨choice, s₂, ran, sound.advances ⟨q, kept⟩
    (swapped.moves.trans ⟨fun t => by rw [released.threads]; exact .refl _, released.idle⟩)
    (released.current.trans swapped.current), fun t is => ?_⟩
  obtain ⟨⟨⟨array, i⟩, member⟩, able⟩ := queued t is
  obtain ⟨-, ready, notIdle, -⟩ := kept.place array i t member
  simp only [eligible, Bool.and_eq_true, Bool.not_eq_true', decide_eq_false_iff_not] at able
  exact ⟨ready, .inr notIdle,
    fun _ other apart here => able.2 ⟨other, apart, released.current ▸ here⟩⟩

theorem giveUp_sound (may : MayYield epochs s core) : Advances epochs s (giveUp s core) := by
  unfold giveUp
  dsimp only
  split
  · exact sound.refl
  rename_i awake
  simp only [not_or] at awake
  split
  · rename_i other
    have notIdle := (sound.own core).resolve_left other
    have moves := Moves.dequeue_setState awake.1 (.inl rfl)
    split
    · rename_i runs
      refine sound.advances (sound.sane.requeueExpired notIdle fun up => may up other runs)
        (moves.trans (.enqueueExpired _ _)) ?_
      rw [enqueueExpired, (enqueue_frame _ _ _ _).1]
      exact dequeueReady_current s _
    · exact sound.advances (sound.sane.dequeue_setState _ .ready) moves (dequeueReady_current s _)
  · rename_i same
    simp only [not_not] at same
    obtain ⟨q, inv⟩ := sound.sane
    refine sound.advances ⟨q, inv.setState_free (fun ⟨array, i⟩ member => ?_) .ready⟩
      (.setThread ⟨rfl, rfl, .inr ⟨awake.1, .inl rfl⟩⟩) rfl
    exact (inv.place array i _ member).2.2.1 ⟨core, same.symm⟩

theorem expireSlice_sound (notIdle : ¬ IsIdle s t) (runs : (s.threads t).state = .running) :
    Advances epochs s (expireSlice s t) := by
  have moves := Moves.dequeue_setState (s := s) (t := t) (by simp [runs]) (.inl rfl)
  unfold expireSlice
  dsimp only
  split
  · rename_i aType
    have requeued := sound.sane.requeueExpired notIdle fun _ => by simpa [setState] using aType
    refine sound.advances (requeued.setThread rfl rfl id)
      ((moves.trans (.enqueueExpired _ _)).trans (.setThread ⟨rfl, rfl, .inl rfl⟩)) ?_
    change (enqueueExpired _ t).current = _
    rw [enqueueExpired, (enqueue_frame _ _ _ _).1]
    exact dequeueReady_current s t
  · refine sound.advances ((sound.sane.requeueReady notIdle).setThread rfl rfl id)
      ((moves.trans (.enqueueReady _ _)).trans (.setThread ⟨rfl, rfl, .inl rfl⟩)) ?_
    change (enqueueReady _ t).current = _
    rw [enqueueReady, (enqueue_frame _ _ _ _).1]
    exact dequeueReady_current s t

theorem ifContinueProcess_sound (notIdle : ¬ IsIdle s t) :
    Advances epochs s (ifContinueProcess s t).2 := by
  unfold ifContinueProcess
  split
  · rename_i runs
    split
    · exact sound.advances (sound.sane.setThread rfl rfl id)
        (.setThread ⟨rfl, rfl, .inl rfl⟩) rfl
    · exact expireSlice_sound sound notIdle runs
  · exact sound.refl

omit sound in
theorem switchStates_current (s : Taskman n c) (old new : Fin n) :
    (switchStates s old new).current = s.current := by
  unfold switchStates
  dsimp only
  split <;> split <;> first | rfl | (split <;> rfl)

theorem scheduleTo_sound (core : Fin c) (fits : Fits s core new) :
    Advances epochs s (scheduleTo s core (s.current core) new) := by
  unfold scheduleTo
  split
  · dsimp only
    split
    · rename_i ready
      rw [dequeueReady_setState]
      exact sound.advances (sound.sane.dequeue_setState _ .running)
        (.dequeue_setState (by simp [ready]) (.inr rfl)) (dequeueReady_current ..)
    · exact sound.advances (sound.sane.dequeue _) (.dequeueReady s (s.current core))
        (dequeueReady_current ..)
  · obtain ⟨s₁, q, is, inv, free, moves, -, current⟩ := takeNew_sane sound.sane core new
    rw [is]
    have states := switchStates_sane (s.current core) inv free
    have switched := switchTo_sane states.1 core (s.current core) new
    refine sound.takes switched.1 ((moves.trans states.2).trans switched.2) ?_ fits
    change update (switchStates s₁ (s.current core) new).current core new = _
    rw [switchStates_current, current]

theorem reschedule_sound (affinity : Bool) (core : Fin c) :
    ∃ s', reschedule affinity core s = some s' ∧ Advances epochs s s' := by
  obtain ⟨choice, s₁, ran, before, picked⟩ := pickNext_sound sound affinity core
  have fits : Fits s₁ core (scheduleChoice s₁ core choice) := by
    unfold scheduleChoice
    cases choice with
    | some t => exact (picked t rfl).2
    | none =>
      dsimp only
      split
      · exact ⟨before.sound.own core, fun alone other apart here => apart (alone.1 here)⟩
      · exact before.sound.fits_idle core
  refine ⟨_, ?_, before.trans (scheduleTo_sound before.sound core fits)⟩
  unfold reschedule
  rw [ran]
  rfl

theorem schedule_sound
    (may : omitSlice = true → MayYield epochs s core)
    (ran : schedule affinity s core omitSlice = some s') :
    Advances epochs s s' := by
  unfold schedule at ran
  cases settled : settleSwitchingOut s core with
  | none => simp [settled] at ran
  | some s₁ =>
    rw [settled, Option.bind_some] at ran
    obtain ⟨first, current, same⟩ := settleSwitchingOut_sound sound settled
    have go : ∀ {s₂}, Advances epochs s₁ s₂ → reschedule affinity core s₂ = some s' →
        Advances epochs s s' := by
      intro s₂ second ran
      obtain ⟨s₃, ran', third⟩ := reschedule_sound second.sound affinity core
      cases ran.symm.trans ran'
      exact (first.trans second).trans third
    dsimp only at ran
    split at ran
    · rename_i omits
      refine go (giveUp_sound first.sound ?_) ran
      unfold MayYield
      rw [current, first.moves.idle, (same _).1, (same _).2]
      exact may omits
    · split at ran
      · split at ran
        · cases ran
          exact first
        · exact go first.sound.refl ran
      · rename_i busy
        have kept := ifContinueProcess_sound first.sound ((first.sound.own core).resolve_left busy)
        generalize ifContinueProcess s₁ (s₁.current core) = result at ran kept
        obtain ⟨continues, s₂⟩ := result
        cases continues with
        | true =>
          cases ran
          exact first.trans kept
        | false => exact go kept ran

/-- A core sleeps; the thread it takes up was ready or is its idle one. -/
theorem sleepAndRelease_sound (awake : (s.threads (s.idle core)).state ≠ .pended)
    (ran : sleepAndRelease affinity s core = some s') : Advances epochs s s' := by
  unfold sleepAndRelease at ran
  cases settled : settleSwitchingOut s core with
  | none => simp [settled] at ran
  | some s₁ =>
    rw [settled, Option.bind_some] at ran
    obtain ⟨first, -, -⟩ := settleSwitchingOut_sound sound settled
    have second : Advances epochs s (dequeueReady s₁ (s₁.current core)) := first.trans
      (first.sound.advances (first.sound.sane.dequeue _) (.dequeueReady ..)
      (dequeueReady_current ..))
    obtain ⟨choice, s₂, picked, third, ready⟩ := pickNext_sound second.sound affinity core
    have before := second.trans third
    dsimp only at ran
    rw [picked] at ran
    dsimp only [Option.map_some] at ran
    have fits : Fits s₂ core (choice.getD (s₂.idle core)) := by
      cases choice with
      | none => exact before.sound.fits_idle core
      | some t => exact (ready t rfl).2
    have up : (s₂.threads (choice.getD (s₂.idle core))).state ≠ .pended := by
      cases choice with
      | none =>
        rw [Option.getD_none, before.moves.idle]
        have kept := (before.moves.threads (s.idle core)).state
        grind
      | some t => simp [(ready t rfl).1]
    obtain ⟨s₃, q, is, inv, free, moves, threads, current⟩ :=
      takeNew_sane before.sound.sane core (choice.getD (s₂.idle core))
    rw [is] at ran
    have started : Moves s₃ (s₃.setState (choice.getD (s₂.idle core)) .running) :=
      .setThread ⟨rfl, rfl, .inr ⟨by rw [threads]; exact up, .inr rfl⟩⟩
    have switched := switchTo_sane ⟨q, inv.setState_free free .running⟩ core (s₁.current core)
      (choice.getD (s₂.idle core))
    cases ran
    refine before.trans
      (before.sound.takes switched.1 ((moves.trans started).trans switched.2) ?_ fits)
    change update s₃.current core _ = _
    rw [current]

end Parts

/-! ## Sleeping and waking -/

/-- A thread leaves its queue and changes. -/
theorem Sound.dequeue_setThread (sound : Sound epochs s)
    (priority : th.priority = (s.threads t).priority)
    (mark : th.isExpired = true → (s.threads t).isExpired = true) :
    Sound epochs ((dequeueReady s t).setThread t th) :=
  ⟨sound.sane.dequeue_setThread priority mark,
  sound.own.congr (dequeueReady_current ..) (dequeueReady_idle ..)⟩

/-- The step is about one thread and moves no core. -/
structure Touches (t : Fin n) (th : Thread) (s s' : Taskman n c) : Prop where
  threads : s'.threads = update s.threads t th
  current : s'.current = s.current
  idle : s'.idle = s.idle

theorem Touches.dequeue_setThread : Touches t th s ((dequeueReady s t).setThread t th) :=
  ⟨by simp [Taskman.setThread], dequeueReady_current .., dequeueReady_idle ..⟩

theorem Touches.enqueue (marked : mark th = th) (touches : Touches t th s s') :
    Touches t th s (enqueue array mark s' t) := by
  obtain ⟨current, idle, threads⟩ := enqueue_frame array mark s' t
  refine ⟨funext fun x => ?_, current.trans touches.current, idle.trans touches.idle⟩
  rw [← touches.threads]
  rcases threads x with same | ⟨rfl, same⟩
  · exact same
  · rw [same, touches.threads, update_self, marked]

/-- What `Block` makes of its thread. -/
def blockedThread (th : Thread) (reason : BlockReason) : Thread :=
  if th.pendingWake &&& reason ≠ 0 then
    { th with
      pendingWake := th.pendingWake &&& ~~~reason
      blockReason := th.blockReason &&& ~~~reason }
  else { th with state := .pended, blockReason := th.blockReason ||| reason }

theorem block_sound (sound : Sound epochs s) (t : Fin n) (reason : BlockReason) :
    Sound epochs (block s t reason) ∧
    Touches t (blockedThread (s.threads t) reason) s (block s t reason) := by
  have is :
      block s t reason = (dequeueReady s t).setThread t (blockedThread (s.threads t) reason) := by
    unfold block blockedThread
    dsimp only
    rw [dequeueReady_threads]
    split <;> rfl
  rw [is]
  refine ⟨sound.dequeue_setThread ?_ ?_,
    .dequeue_setThread⟩ <;> unfold blockedThread <;> split <;> simp

/-- What a wake makes of its thread. -/
def wokenThread (th : Thread) (reason : BlockReason) : Thread :=
  let th := { th with blockReason := th.blockReason &&& ~~~reason }
  if th.blockReason = 0 then
    if th.state = .running then { th with pendingWake := th.pendingWake ||| reason }
    else if th.state = .ready then th
    else { th with state := .ready }
  else th

theorem unblock_sound (sound : Sound epochs s) (notIdle : ¬ IsIdle s t) (reason : BlockReason) :
    Sound epochs (unblock s t reason) ∧
      Touches t (wokenThread (s.threads t) reason) s (unblock s t reason) := by
  have keep : ∀ th : Thread, th.priority = (s.threads t).priority →
    th.state = (s.threads t).state →
      th.isExpired = (s.threads t).isExpired → Sound epochs (s.setThread t th) ∧
          Touches t th s (s.setThread t th) := by
    intro th priority state mark
    exact ⟨⟨sound.sane.setThread priority state fun expired => mark ▸ expired,
      sound.own.congr rfl rfl⟩, rfl, rfl, rfl⟩
  unfold unblock wokenThread
  dsimp only
  split
  · split
    · exact keep _ rfl rfl rfl
    split
    · exact keep _ rfl rfl rfl
    rename_i unready
    obtain ⟨q, inv⟩ := sound.sane
    have free : ∀ k, t ∉ q k := fun ⟨array, i⟩ member =>
      unready (inv.place array i t member).2.1
    have woken : SchedInv epochs (s.setThread t { s.threads t with
        blockReason := (s.threads t).blockReason &&& ~~~reason, state := .ready }) q :=
      inv.setThread (fun ⟨k, member⟩ => absurd member (free k)) fun up => inv.marks up t
    have own {array mark s₁} (sane : Sane epochs (enqueue array mark s₁ t)) {th}
      (marked : mark th = th)
        (touches : Touches t th s s₁) : Sound epochs (enqueue array mark s₁ t) ∧
            Touches t th s (enqueue array mark s₁ t) :=
      ⟨⟨sane, sound.own.congr (touches.enqueue marked).current (touches.enqueue marked).idle⟩,
      touches.enqueue marked⟩
    split
    · rename_i expired
      refine own (woken.enqueueExpired free (by simp) notIdle fun up => ?_) (by rw [← expired])
        ⟨rfl, rfl, rfl⟩
      simpa using inv.marks up t expired
    · exact own (woken.enqueueReady free (by simp) notIdle) rfl ⟨rfl, rfl, rfl⟩
  · exact keep _ rfl rfl rfl

theorem appendThread_sound (sound : Sound epochs s) (notIdle : ¬ IsIdle s t)
    (fresh : (s.threads t).state = .uninit) : Advances epochs s (appendThread s t) := by
  obtain ⟨q, inv⟩ := sound.sane
  have free : ∀ k, t ∉ q k := fun ⟨array, i⟩ member => by
    have ready := (inv.place array i t member).2.1
    rw [fresh] at ready
    exact absurd ready (by simp)
  have moves : Moves s (s.setState t .ready) :=
    .setThread ⟨rfl, rfl, .inr ⟨by rw [fresh]; simp, .inl rfl⟩⟩
  have sane := (inv.setState_free free .ready).enqueueReady free (by simp [setState]) notIdle
  exact sound.advances sane (moves.trans (.enqueueReady _ t)) (enqueue_frame ..).1

/-! ## Steps -/

/-- What can happen on the cores.  `yield` is also what a reschedule interrupt does. -/
inductive SchedOp (n c : Nat) where
  | tick (core : Fin c)
  | yield (core : Fin c)
  | sleep (core : Fin c)
  | block (core : Fin c) (reason : BlockReason)
  | unblock (t : Fin n) (reason : BlockReason)
  | append (t : Fin n)
  | exit (core : Fin c)

/-- One step.  Idle threads neither wait nor end, and are in no chain where another could wake
them. -/
def SchedOp.exec (affinity : Bool) (s : Taskman n c) : SchedOp n c → Option (Taskman n c)
  | .tick core => schedule affinity s core false
  | .yield core => schedule affinity s core true
  | .sleep core => if IsIdle s (s.current core) then none else sleepAndRelease affinity s core
  | .block core reason =>
    if IsIdle s (s.current core) then none else some (Sched.block s (s.current core) reason)
  | .unblock t reason => if IsIdle s t then none else some (Sched.unblock s t reason)
  | .append t =>
    if IsIdle s t ∨ (s.threads t).state ≠ .uninit then none else some (appendThread s t)
  | .exit core => if IsIdle s (s.current core) then none else exitThread affinity s core

/-- With `epochs`, no B-type thread that could go on gives the core up. -/
def SchedOp.May (epochs : Prop) (s : Taskman n c) : SchedOp n c → Prop
  | .yield core => MayYield epochs s core
  | _ => True

/-- A step on a thread that is not idle leaves the idle ones awake. -/
theorem IdleAwake.other (awake : IdleAwake s) (notIdle : ¬ IsIdle s t)
    (touches : Touches t th s s') : IdleAwake s' := by
  intro core
  rw [touches.idle, touches.threads, update_of_ne fun is => notIdle ⟨core, is⟩]
  exact awake core

theorem hangThread_sound (sound : Sound epochs s) (t : Fin n) : Sound epochs (hangThread s t) ∧
    Touches t { s.threads t with state := .hanging, blockReason := 0 } s (hangThread s t) := by
  unfold hangThread
  dsimp only
  rw [dequeueReady_threads]
  exact ⟨sound.dequeue_setThread rfl id, .dequeue_setThread⟩

theorem exitThread_sound (sound : Sound epochs s) (ran : exitThread affinity s core = some s') :
    Advances epochs (hangThread s (s.current core)) s' := by
  obtain ⟨hung, touches⟩ := hangThread_sound sound (s.current core)
  refine schedule_sound hung (fun _ _ _ runs => ?_) ran
  rw [touches.current, touches.threads, update_self] at runs
  simp at runs

/-- A step that neither begins nor ends a wait. -/
def SchedOp.Quiet : SchedOp n c → Prop
  | .tick _ | .yield _ | .sleep _ | .append _ => True
  | .block .. | .unblock .. | .exit _ => False

theorem SchedOp.exec_sound (sound : Sound epochs s) (awake : IdleAwake s) (op : SchedOp n c)
    (may : op.May epochs s) (ran : op.exec affinity s = some s') :
    Sound epochs s' ∧ IdleAwake s' ∧ (op.Quiet → Moves s s') ∧ (Alone s → Alone s') := by
  cases op with
  | tick core =>
    have kept := schedule_sound sound (by simp) ran
    exact ⟨kept.sound, awake.moves kept.moves, fun _ => kept.moves, kept.alone⟩
  | yield core =>
    have kept := schedule_sound sound (fun _ => may) ran
    exact ⟨kept.sound, awake.moves kept.moves, fun _ => kept.moves, kept.alone⟩
  | sleep core =>
    obtain ⟨_, ran⟩ := ite_none_left_eq_some.mp ran
    have kept := sleepAndRelease_sound sound (awake core) ran
    exact ⟨kept.sound, awake.moves kept.moves, fun _ => kept.moves, kept.alone⟩
  | block core reason =>
    obtain ⟨notIdle, ⟨⟩⟩ := ite_none_left_eq_some.mp ran
    obtain ⟨kept, touches⟩ := block_sound sound (s.current core) reason
    exact ⟨kept, awake.other notIdle touches, False.elim,
      fun alone => alone.congr touches.current touches.idle⟩
  | unblock t reason =>
    obtain ⟨notIdle, ⟨⟩⟩ := ite_none_left_eq_some.mp ran
    obtain ⟨kept, touches⟩ := unblock_sound sound notIdle reason
    exact ⟨kept, awake.other notIdle touches, False.elim,
      fun alone => alone.congr touches.current touches.idle⟩
  | append t =>
    obtain ⟨new, ran⟩ := ite_none_left_eq_some.mp ran
    simp only [not_or, ne_eq, not_not] at new
    cases ran
    have kept := appendThread_sound sound new.1 new.2
    exact ⟨kept.sound, awake.moves kept.moves, fun _ => kept.moves, kept.alone⟩
  | exit core =>
    obtain ⟨notIdle, ran⟩ := ite_none_left_eq_some.mp ran
    have kept := exitThread_sound sound ran
    obtain ⟨-, touches⟩ := hangThread_sound sound (s.current core)
    exact ⟨kept.sound, (awake.other notIdle touches).moves kept.moves, False.elim, fun alone =>
      kept.alone (alone.congr touches.current touches.idle)⟩

/-- Threads as they are when the scheduler begins. -/
structure Fresh (threads : Fin n → Thread) (current idle : Fin c → Fin n) : Prop where
  own : ∀ core, current core = idle core ∨ ∀ core', idle core' ≠ current core
  expired : ∀ t, (threads t).isExpired = false
  reason : ∀ t, (threads t).blockReason = 0
  awake : ∀ t, (threads t).state ≠ .pended

theorem Fresh.sound {threads : Fin n → Thread} {current idle : Fin c → Fin n}
    (fresh : Fresh threads current idle) (epochs : Prop) :
    Sound epochs (start threads current idle) ∧ IdleAwake (start threads current idle) := by
  refine ⟨⟨⟨_, QueuesOk.start threads current idle, by simp, fun _ t expired => ?_⟩,
    fun core => ?_⟩,
    fun core => fresh.awake _⟩
  · exact absurd ((fresh.expired t).symm.trans expired) (by simp)
  · simpa [IsIdle, start] using fresh.own core

end Mecocoa.Sched
