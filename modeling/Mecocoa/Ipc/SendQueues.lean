import Mecocoa.Ipc.Steps

/-! # Send queues

The queue of a thread holds exactly the threads that wait to send to it.
-/

namespace Mecocoa.Ipc

open Lib (Run)
open Lib.LinkedQueues (chainFrom)

variable {n p : Nat}

/-- The members of the send queue of a thread, if the links come to an end. -/
def Comm.sendQueue (s : Comm n p) (t : Fin n) : Option (List (Fin n)) :=
  chainFrom s.queues.next n (s.queues.head t)

/-- The queue has each thread that waits to send to this one, and no other, once. -/
def QueueExact (s : Comm n p) (t : Fin n) : Prop :=
  ∃ members ∈ s.sendQueue t, members.Nodup ∧ ∀ x, x ∈ members ↔ s.sendTo x = some t ∧
  s.unsolved x ≠ .null

def InQueueOf (s : Comm n p) (x t : Fin n) : Prop := ∃ members ∈ s.sendQueue t, x ∈ members

def BlockedToSend (s : Comm n p) (x : Fin n) : Prop :=
  (s.control x).state = .pended ∧ s.blockedFor x brSendMsg = true

/-- The sender has no message to send any more: it was taken, or the send is given up. -/
def SendSettled (s : Comm n p) (x : Fin n) : Prop :=
  s.sendTo x = none ∧ ∀ m, s.unsolved x ≠ .message m

instance (s : Comm n p) (t : Fin n) : Decidable (QueueExact s t) :=
  inferInstanceAs (Decidable (∃ members ∈ s.sendQueue t, _ ∧ _))

instance (s : Comm n p) (x t : Fin n) : Decidable (InQueueOf s x t) :=
  inferInstanceAs (Decidable (∃ members ∈ s.sendQueue t, _))

instance (s : Comm n p) (x : Fin n) : Decidable (BlockedToSend s x) :=
  inferInstanceAs (Decidable (_ ∧ _))

/-- Steps that meet a condition. -/
def StepWhen (when : Comm n p → Event n p → Prop) (s : Comm n p) (e : Event n p)
    (s' : Comm n p) : Prop :=
  when s e ∧ e.exec s = some s'

/-- Steps that do not lose track of a sender and end no thread that senders wait for. -/
def OrderlyStep : Comm n p → Event n p → Comm n p → Prop :=
  StepWhen fun s e => Orderly s e ∧ Lasting s e

theorem Comm.start_sound (control : Fin n → Sched.Thread) (onCpu : Fin n → Bool)
    (process : Fin n → Fin p) (isMain isSystem : Fin n → Bool) :
    Sound (Comm.start control onCpu process isMain isSystem) := by
  refine ⟨⟨fun _ => [], Lib.Chains.holds_empty, ?_⟩, fun t => Mail.fits_settled nofun nofun⟩
  intro t target
  exact ⟨nofun, nofun⟩

theorem Sound.queueExact (sound : Sound s) (t : Fin n) : QueueExact s t := by
  obtain ⟨q, linked⟩ := sound.1
  refine ⟨q t, linked.holds.chainFrom (linked.enough t), linked.holds.nodup t, fun x => ?_⟩
  rw [linked.queued]
  constructor
  · intro queued
    obtain ⟨m, un, _⟩ := sound.hasMessage queued
    exact ⟨queued, by simp [un]⟩
  · exact And.left

theorem Sound.queued_or_settled (sound : Sound s)
    (takes : ∀ x t, s.sendTo x = some t → s.takesSends t = true) (x : Fin n) :
    (∃ t, s.takesSends t = true ∧ InQueueOf s x t) ∨ SendSettled s x := by
  obtain ⟨q, linked⟩ := sound.1
  cases queued : s.sendTo x with
  | some t =>
    refine .inl ⟨t, takes x t queued, q t, linked.holds.chainFrom (linked.enough t), ?_⟩
    exact (linked.queued x t).mpr queued
  | none =>
    refine .inr ⟨queued, fun m un => ?_⟩
    have := (sound.2 x).message m un
    rw [show s.mail.sendTo x = none from queued] at this
    cases this

/-- The step, if it meets the condition. -/
def execWhen (when : Comm n p → Event n p → Prop) [∀ s e, Decidable (when s e)] (s : Comm n p)
    (e : Event n p) :
    Option (Comm n p) :=
  if when s e then e.exec s else none

theorem exists_runWhen [∀ s e, Decidable (when s e)]
    [DecidablePred P]
    (ends : (events.foldlM (execWhen when) start).any (fun s => decide (P s)) = true) :
    ∃ s, Run (StepWhen when) start events s ∧ P s :=
  Run.exists_guarded ends

/-- Every thread is the main thread of a process of its own, and runs. -/
def Comm.running (n : Nat) : Comm n n :=
  .start (fun _ => { state := .running }) (fun _ => true) id (fun _ => true) fun _ => false

/-- A send whose receiver is not waiting, up to the point where the sender sleeps. -/
def sleepingSend (fo target : Fin n) : List (Event n n) :=
  [.send fo (some target) false .mapped true, .step fo, .step fo, .step fo]

/-- A receive from a thread that has nothing to send, up to the point where the receiver sleeps. -/
def sleepingRecv (receiver : Fin n) (foo : Source n) : List (Event n n) :=
  [.recv receiver foo .mapped, .step receiver, .step receiver, .step receiver, .step receiver]

end Mecocoa.Ipc
