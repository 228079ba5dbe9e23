import Mecocoa.Thread.Join

/-! # Futexes

What runs under one hold of the scheduler lock is one step; a wake collects its threads in one and
unblocks them in later ones.
-/

namespace Mecocoa.Thread

open List

open Lib (Run)
open Sched (wokenThread)
open Function (update update_apply)

structure Futexes (n : Nat) where
  threads : Fin n → Sched.Thread
  process : Fin n → Nat
  futexWaitAddr : Fin n → Nat
  memory : Nat → Nat → Nat
  /-- The threads that calls have collected and not yet unblocked. -/
  due : List (Fin n)

namespace Futexes

def start (process : Fin n → Nat) (memory : Nat → Nat → Nat) : Futexes n :=
  { threads := fun _ => { state := .ready }, process, futexWaitAddr := fun _ =>
  0, memory, due := [] }

/-- The threads that `FUTEX_WAKE` comes to, in the order of `thchain`. -/
def waiters (s : Futexes n) (pb addr : Nat) : List (Fin n) :=
  (finRange n).filter fun t => s.process t = pb ∧ (s.threads t).state = .pended ∧
    (s.threads t).blockReason &&& brLock ≠ 0 ∧ s.futexWaitAddr t = addr

/-- `FUTEX_WAIT` up to the call of `Schedule`. -/
def wait (s : Futexes n) (t : Fin n) (addr val : Nat) : Futexes n :=
  if s.memory (s.process t) addr ≠ val % 2 ^ 32 then s
  else { s with
    futexWaitAddr := update s.futexWaitAddr t addr
    threads := update s.threads t
      { s.threads t with state := .pended, blockReason := (s.threads t).blockReason ||| brLock } }

/-- `FUTEX_WAKE` up to the calls of `Unblock`, and what it returns. -/
def wake (s : Futexes n) (pb addr val : Nat) : Nat × Futexes n :=
  let woken := (s.waiters pb addr).take val
  (woken.length, { s with
    futexWaitAddr := fun t => if woken.contains t then 0 else s.futexWaitAddr t
    due := s.due ++ woken.take 64 })

end Futexes

inductive FutexEvent (n : Nat) where
  | wait (t : Fin n) (addr val : Nat)
  | wake (t : Fin n) (addr val : Nat)
  | unblock (t : Fin n)
  | store (pb addr value : Nat)
  | resume (t : Fin n)

namespace FutexEvent

def exec (s : Futexes n) : FutexEvent n → Option (Futexes n)
  | .wait t addr val => if (s.threads t).state = .running then some (s.wait t addr val) else none
  | .wake t addr val =>
    if (s.threads t).state = .running then some (s.wake (s.process t) addr val).2 else none
  | .unblock t =>
    if s.due.contains t then
      some { s with
        threads := update s.threads t (wokenThread (s.threads t) brLock), due := s.due.erase t }
    else none
  | .store pb addr value =>
    some { s with memory := update s.memory pb (update (s.memory pb) addr value) }
  | .resume t =>
    if (s.threads t).state = .ready then
      some { s with threads := update s.threads t { s.threads t with state := .running } }
    else none

/-- Address 0 is no futex, and no wake collects more threads than `targets` holds. -/
def Careful (s : Futexes n) : FutexEvent n → Prop
  | .wait _ addr _ => addr ≠ 0
  | .wake t addr val => addr ≠ 0 ∧ min val (s.waiters (s.process t) addr).length ≤ 64
  | _ => True

instance (s : Futexes n) (e : FutexEvent n) : Decidable (e.Careful s) := by
  cases e <;> unfold Careful <;> infer_instance

end FutexEvent

/-- A thread that sleeps is registered or about to be unblocked. -/
structure FutexInv (s : Futexes n) : Prop where
  thread : ∀ t, if (s.threads t).state = .pended then
      (s.threads t).blockReason = brLock ∧ (s.futexWaitAddr t = 0 ↔ t ∈ s.due)
    else (s.threads t).blockReason = 0 ∧ t ∉ s.due
  nodup : s.due.Nodup

namespace FutexInv

variable {s s' : Futexes n} (inv : FutexInv s)

include inv

theorem mem_waiters : t ∈ s.waiters pb addr ↔
    s.process t = pb ∧ (s.threads t).state = .pended ∧ s.futexWaitAddr t = addr := by
  have thread := inv.thread t
  have set : brLock &&& brLock ≠ 0 := by decide
  unfold Futexes.waiters
  grind

theorem due_woken (there : t ∈ s.due) :
    (wokenThread (s.threads t) brLock).state = .ready ∧
    (wokenThread (s.threads t) brLock).blockReason = 0 := by
  have thread := inv.thread t
  have cleared : brLock &&& ~~~ brLock = 0 := by decide
  unfold wokenThread
  grind

omit inv in
/-- A wake with room for all that it comes to. -/
theorem wake_due (few : min val (s.waiters pb addr).length ≤ 64) :
    (s.wake pb addr val).2.due = s.due ++ (s.waiters pb addr).take val :=
  congrArg (s.due ++ ·) (take_of_length_le (by rwa [length_take]))

theorem wake (futex : addr ≠ 0) (few : min val (s.waiters pb addr).length ≤ 64) :
    FutexInv (s.wake pb addr val).2 := by
  have waits : ∀ t ∈ (s.waiters pb addr).take val, (s.threads t).state = .pended ∧
      s.futexWaitAddr t = addr :=
    fun t there => (inv.mem_waiters.mp (mem_of_mem_take there)).2
  refine ⟨fun t => ?_, ?_⟩
  · have thread := inv.thread t
    have waits := waits t
    rw [wake_due few]
    simp only [Futexes.wake, mem_append]
    grind
  · rw [wake_due few]
    refine inv.nodup.append
      (((nodup_finRange n).filter _).sublist (take_sublist ..)) fun t old there => ?_
    have thread := inv.thread t
    have waits := waits t there
    grind

theorem step (careful : e.Careful s) (ran : FutexEvent.exec s e = some s') : FutexInv s' := by
  cases e with
  | wait t addr val =>
    obtain ⟨running, ⟨⟩⟩ := Option.ite_none_right_eq_some.mp ran
    have own := inv.thread t
    have set : 0 ||| brLock = brLock := by decide
    unfold Futexes.wait
    split
    · exact inv
    · refine ⟨fun u => ?_, inv.nodup⟩
      have thread := inv.thread u
      simp only [update_apply]
      grind [FutexEvent.Careful]
  | wake t addr val =>
    obtain ⟨-, ⟨⟩⟩ := Option.ite_none_right_eq_some.mp ran
    exact inv.wake careful.1 careful.2
  | unblock t =>
    obtain ⟨there, ⟨⟩⟩ := Option.ite_none_right_eq_some.mp ran
    have woken := inv.due_woken (contains_iff_mem.mp there)
    refine ⟨fun u => ?_, inv.nodup.erase t⟩
    have thread := inv.thread u
    simp only [update_apply, inv.nodup.mem_erase_iff]
    grind
  | store pb addr value =>
    cases ran
    exact ⟨inv.thread, inv.nodup⟩
  | resume t =>
    obtain ⟨ready, ⟨⟩⟩ := Option.ite_none_right_eq_some.mp ran
    refine ⟨fun u => ?_, inv.nodup⟩
    have thread := inv.thread u
    simp only [update_apply]
    grind

/-- A step leaves a thread that waits as it is, or collects it for its address. -/
theorem waits_on (futex : addr ≠ 0) (waits : t ∈ s.waiters pb addr) (careful : e.Careful s)
    (ran : FutexEvent.exec s e = some s') :
    t ∈ s'.waiters pb addr ∨ t ∈ s'.due ∧ ∃ u val, e = .wake u addr val ∧ s.process u =
      pb := by
  have inv' := inv.step careful ran
  have thread := inv.thread t
  rw [inv'.mem_waiters]
  obtain ⟨rfl, pended, rfl⟩ := inv.mem_waiters.mp waits
  cases e with
  | wait u addr val =>
    obtain ⟨running, ⟨⟩⟩ := Option.ite_none_right_eq_some.mp ran
    unfold Futexes.wait
    split
    · exact .inl ⟨rfl, pended, rfl⟩
    · simp only [update_apply]
      grind
  | wake u addr val =>
    obtain ⟨-, ⟨⟩⟩ := Option.ite_none_right_eq_some.mp ran
    rw [wake_due careful.2, mem_append]
    by_cases there : t ∈ (s.waiters (s.process u) addr).take val
    · obtain ⟨process, -, same⟩ := inv.mem_waiters.mp (mem_of_mem_take there)
      exact .inr ⟨.inr there, u, val, by rw [same], process.symm⟩
    · exact .inl ⟨rfl, pended, if_neg (by simpa using there)⟩
  | unblock u =>
    obtain ⟨there, ⟨⟩⟩ := Option.ite_none_right_eq_some.mp ran
    simp only [update_apply]
    grind
  | store pb addr value =>
    cases ran
    exact .inl ⟨rfl, pended, rfl⟩
  | resume u =>
    obtain ⟨ready, ⟨⟩⟩ := Option.ite_none_right_eq_some.mp ran
    simp only [update_apply]
    grind

end FutexInv

end Mecocoa.Thread
