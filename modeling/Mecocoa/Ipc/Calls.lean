import Mecocoa.Ipc.SendQueues

/-! # Runs of calls

Runs in which threads send, receive and are scheduled, but none is signalled, exits or gets
a new image.  In these no sender is ever dropped.
-/

namespace Mecocoa.Ipc

open Option List

open Lib (Run)
open Sched (BlockReason blockedThread wokenThread)
open Function (update update_self update_of_ne)

variable {s s' : Comm n p}

def LiveThread (th : Sched.Thread) : Prop :=
  (th.state ≠ .invalid ∧ th.state ≠ .exited ∧ th.state ≠ .hanging) ∧
  th.blockReason &&& brExiting = 0

/-- The call has no dropped senders to wake. -/
def Call.NoDropped : Call n → Prop
  | .drop _ dropped _ => dropped = Option.none
  | _ => True

/-- All threads are alive, and no sender was dropped. -/
structure Quiet (s : Comm n p) : Prop where
  live : ∀ t, LiveThread (s.control t)
  active : ∀ t, s.procState (s.process t) = .active
  noDropped : ∀ t, (s.call t).NoDropped
  wakers : ∀ w ∈ s.wakers, w.dropped = none

/-! ## Live threads -/

theorem and_exiting_or (one : reasons &&& brExiting = 0)
    (two : reason &&& brExiting = 0) : (reasons ||| reason) &&& brExiting = 0 := by
  rw [BitVec.and_comm, BitVec.and_or_distrib_left]
  rw [BitVec.and_comm] at one two
  rw [one, two]
  rfl

theorem and_exiting_and (one : reasons &&& brExiting = 0) (reason : BlockReason) :
    (reasons &&& ~~~reason) &&& brExiting = 0 := by
  rw [BitVec.and_assoc, BitVec.and_comm (~~~reason), ← BitVec.and_assoc, one]
  exact BitVec.zero_and

theorem LiveThread.block (live : LiveThread th)
    (other : reason &&& brExiting = 0) : LiveThread (blockedThread th reason) := by
  unfold blockedThread
  split
  · exact ⟨live.1, and_exiting_and live.2 reason⟩
  · exact ⟨by simp, and_exiting_or live.2 other⟩

theorem LiveThread.woken (live : LiveThread th) (reason : BlockReason) :
    LiveThread (wokenThread th reason) := by
  refine ⟨?_, ?_⟩
  · cases wokenThread_state th reason with
    | inl same =>
      rw [same]
      exact live.1
    | inr ready =>
      rw [ready]
      simp
  · rw [Sched.wokenThread_blockReason]
    exact and_exiting_and live.2 reason

theorem live_update (live : ∀ t, LiveThread (s.control t)) (new : LiveThread th) (x : Fin n) :
    LiveThread (update s.control t th x) := by
  cases eq_or_ne x t with
  | inl same => rwa [same, update_self]
  | inr other =>
    rw [update_of_ne other]
    exact live x

theorem noDropped_update (calls : ∀ t, (s.call t).NoDropped) (new : call.NoDropped) (x : Fin n) :
    (update s.call t call x).NoDropped := by
  cases eq_or_ne x t with
  | inl same => rwa [same, update_self]
  | inr other =>
    rw [update_of_ne other]
    exact calls x

theorem Quiet.canComm (quiet : Quiet s) (t : Fin n) : s.canCommThread t = true := by
  have live := quiet.live t
  simp [Comm.canCommThread, Comm.gone, Comm.blockedFor, live.1, live.2, quiet.active t]

namespace Quiet

variable (quiet : Quiet s)

include quiet

theorem block (other : reason &&& brExiting = 0) : Quiet (s.block t reason) :=
  { quiet with live := live_update quiet.live ((quiet.live t).block other) }

theorem unblock (t : Fin n) (reason : BlockReason) : Quiet (s.unblock t reason) :=
  { quiet with live := live_update quiet.live ((quiet.live t).woken reason) }

theorem yieldCpu (t : Fin n) : Quiet (s.yieldCpu t) := by
  refine { quiet with live := live_update quiet.live ⟨?_, (quiet.live t).2⟩ }
  split
  · simp
  · exact (quiet.live t).1

theorem setCall (new : call.NoDropped) : Quiet (s.setCall t call) :=
  { quiet with noDropped := noDropped_update quiet.noDropped new }

theorem disarm (t : Fin n) (mark : Unsolved n) : Quiet (s.disarm t mark) := by
  obtain ⟨waiters, eq⟩ := disarm_eq s t mark
  rw [eq]
  exact { quiet with }

omit quiet

/-! ## Calls -/

variable (quiet : Quiet s)

include quiet

theorem selectSender (sound : Sound s)
    (eq : s.selectSender receiver foo = some out) :
    out.1 = s ∧ out.2.1 = none := by
  have usable : ∀ x, s.sendTo x = some receiver → s.canUseSyncMsgState x = true := by
    intro x queued
    rw [sound.usable_iff queued]
    exact quiet.canComm x
  cases foo with
  | any =>
    obtain ⟨out', dropped, is⟩ := map_eq_some_iff.mp eq
    rw [Comm.dropUnusable] at dropped
    cases is
    split at dropped
    · cases dropped
      exact ⟨rfl, rfl⟩
    · rename_i sender first
      obtain ⟨q, linked⟩ := sound.1
      have queued := (linked.queued sender receiver).mp (linked.holds.mem_of_head first)
      rw [if_pos (usable sender queued)] at dropped
      cases dropped
      exact ⟨rfl, rfl⟩
  | intrupt =>
    cases eq
    exact ⟨rfl, rfl⟩
  | thread fo =>
    simp only [Comm.selectSender] at eq
    split at eq
    · cases eq
      exact ⟨rfl, rfl⟩
    rename_i queued
    obtain ⟨found, _, eq⟩ := bind_eq_some_iff.mp eq
    split at eq
    · cases eq
      exact ⟨rfl, rfl⟩
    · rw [if_pos (usable fo (by simpa using queued))] at eq
      cases eq
      exact ⟨rfl, rfl⟩

theorem takeSender (eq : s.takeSender receiver fo = some s') : Quiet s' := by
  obtain ⟨queues, _, is⟩ := map_eq_some_iff.mp eq
  cases is
  split <;> exact { quiet with }

theorem takeAsync (eq : s.takeAsync receiver foo = some s') : Quiet s' := by
  obtain ⟨m, _, is⟩ := map_eq_some_iff.mp eq
  cases is
  exact { quiet with }

theorem msgSend
    (eq : s.msgSend fo target isAsync hasMsg alloc = some s') : Quiet s' := by
  cases target with
  | none =>
    cases eq
    exact quiet
  | some target =>
    simp only [Comm.msgSend] at eq
    split at eq
    · cases eq
      exact quiet
    obtain ⟨deadlock, _, eq⟩ := bind_eq_some_iff.mp eq
    split at eq
    · cases eq
      exact quiet
    split at eq
    · cases eq
      have disarmed :=
        Quiet.disarm (s := s.copyTo target ⟨s.nextId, fo, target, isAsync⟩) { quiet with }
          target .null
      exact { disarmed with noDropped := noDropped_update disarmed.noDropped trivial }
    cases isAsync with
    | true =>
      simp only [if_true] at eq
      split at eq
      · cases eq
        exact quiet
      · cases eq
        exact { quiet with }
    | false =>
      simp only [Bool.false_eq_true, if_false] at eq
      split at eq
      · cases eq
        exact quiet
      · obtain ⟨queues, _, is⟩ := map_eq_some_iff.mp eq
        cases is
        exact { quiet with noDropped := noDropped_update quiet.noDropped trivial }

theorem msgRecv (sound : Sound s)
    (eq : s.msgRecv receiver foo hasMsg = some s') : Quiet s' := by
  unfold Comm.msgRecv at eq
  split at eq
  · cases eq
    exact quiet
  split at eq
  · cases eq
    exact { quiet with }
  obtain ⟨⟨s₁, dropped, chosen⟩, selected, eq⟩ := bind_eq_some_iff.mp eq
  obtain ⟨rfl, rfl⟩ : s₁ = s ∧ dropped = none := quiet.selectSender sound selected
  have begun : Quiet (s₁.beginRecv receiver) := { quiet with }
  cases chosen with
  | some fo =>
    obtain ⟨s₂, taken, is⟩ := map_eq_some_iff.mp eq
    cases is
    exact (begun.takeSender taken).setCall rfl
  | none =>
    dsimp only at eq
    split at eq
    · rename_i s₂ taken
      cases eq
      exact (begun.takeAsync taken).setCall rfl
    split at eq
    · cases eq
      exact begun.setCall rfl
    · cases eq
      have armed : Quiet ((s₁.beginRecv receiver).arm receiver foo) := { begun with }
      exact armed.setCall rfl

theorem giveUpSend (eq : s.giveUpSend t m = some s') : Quiet s' := by
  obtain ⟨queues, _, is⟩ := map_eq_some_iff.mp eq
  cases is
  exact { quiet with noDropped := noDropped_update quiet.noDropped trivial }

theorem sendStep (eq : s.sendStep t m stage = some s') : Quiet s' := by
  cases stage with
  | block =>
    cases eq
    exact (quiet.block (by decide)).setCall trivial
  | check =>
    simp only [Comm.sendStep] at eq
    split at eq
    · cases eq
      exact quiet.setCall trivial
    · cases eq
      exact quiet.setCall trivial
  | sleep =>
    cases eq
    exact (quiet.yieldCpu t).setCall trivial
  | woken =>
    simp only [Comm.sendStep] at eq
    split at eq
    · exact quiet.giveUpSend eq
    · cases eq
      exact quiet.setCall trivial
  | self =>
    cases eq
    exact (quiet.unblock t brSendMsg).setCall trivial
  | look =>
    simp only [Comm.sendStep] at eq
    split at eq
    · cases eq
      exact { quiet with noDropped := noDropped_update quiet.noDropped trivial }
    · cases eq
      exact quiet.setCall trivial
  | signal =>
    simp only [Comm.sendStep] at eq
    split at eq
    · exact quiet.giveUpSend eq
    · cases eq
      exact quiet.setCall trivial

theorem recvStep (sound : Sound s) (eq : s.recvStep t foo stage = some s') : Quiet s' := by
  cases stage with
  | block =>
    cases eq
    exact (quiet.block (by decide)).setCall trivial
  | check =>
    simp only [Comm.recvStep] at eq
    split at eq
    · cases eq
      exact quiet.setCall trivial
    · cases eq
      exact quiet.setCall trivial
  | sleep =>
    cases eq
    exact (quiet.yieldCpu t).setCall trivial
  | woken =>
    simp only [Comm.recvStep] at eq
    split at eq
    · cases eq
      exact (quiet.disarm t .null).setCall trivial
    · cases eq
      exact quiet.setCall trivial
  | self =>
    simp only [Comm.recvStep] at eq
    split at eq
    · cases eq
      exact quiet.setCall trivial
    · cases eq
      exact (quiet.unblock t brRecvMsg).setCall trivial
  | look =>
    simp only [Comm.recvStep] at eq
    split at eq
    · cases eq
      exact quiet.setCall trivial
    · cases eq
      exact quiet.setCall trivial
  | signal =>
    simp only [Comm.recvStep] at eq
    split at eq
    · cases eq
      exact (quiet.disarm t .null).setCall trivial
    · cases eq
      exact quiet.setCall trivial
  | sync =>
    obtain ⟨⟨s₁, dropped, chosen⟩, selected, eq⟩ := bind_eq_some_iff.mp eq
    obtain ⟨rfl, rfl⟩ : s₁ = s ∧ dropped = none := quiet.selectSender sound selected
    cases chosen with
    | some fo =>
      obtain ⟨s₂, taken, is⟩ := map_eq_some_iff.mp eq
      cases is
      exact ((quiet.takeSender taken).disarm t .null).setCall rfl
    | none =>
      cases eq
      exact quiet.setCall rfl
  | async =>
    simp only [Comm.recvStep] at eq
    split at eq
    · rename_i s₂ taken
      cases eq
      exact ((quiet.takeAsync taken).disarm t .null).setCall trivial
    · cases eq
      exact quiet.setCall trivial

theorem dropStep (foo : Source n) (after : After n) : Quiet (s.dropStep t foo none after) := by
  cases after with
  | done => exact quiet.setCall trivial
  | wake fo => exact (quiet.unblock fo brSendMsg).setCall trivial
  | block => exact quiet.setCall trivial
  | async => exact quiet.setCall trivial

theorem callStep (sound : Sound s) (eq : s.callStep t = some s') : Quiet s' := by
  unfold Comm.callStep at eq
  split at eq
  · cases eq
  · exact quiet.sendStep eq
  · rename_i m _
    cases eq
    have woken := quiet.unblock m.dst brRecvMsg
    exact { woken with noDropped := noDropped_update woken.noDropped trivial }
  · exact quiet.recvStep sound eq
  · rename_i foo dropped after is
    have none := quiet.noDropped t
    rw [is] at none
    cases (show dropped = .none from none)
    cases eq
    exact quiet.dropStep foo after

theorem wakeStep (eq : s.wakeStep i = some s') : Quiet s' := by
  obtain ⟨w, there, is⟩ := map_eq_some_iff.mp eq
  cases is
  have none := quiet.wakers w (mem_of_getElem? there)
  have rest : Quiet { s with wakers := s.wakers.eraseIdx i } :=
    { quiet with wakers := fun w there => quiet.wakers w (mem_of_mem_eraseIdx there) }
  cases w.wakes with
  | cons wake later =>
    have less : Quiet { s with wakers := s.wakers.set i { w with wakes := later } } := by
      refine { quiet with wakers := fun w' there => ?_ }
      cases mem_or_eq_of_mem_set there with
      | inl old => exact quiet.wakers w' old
      | inr new =>
        rw [new]
        exact none
    simp only [none] at less ⊢
    exact less.unblock wake.1 wake.2
  | nil =>
    simp only [none]
    cases w.signalled with
    | some t => exact rest.unblock t _
    | none => exact rest

theorem exec (sound : Sound s) {e : Event n p} (call : e.IsCall) (eq : e.exec s = some s') :
    Quiet s' := by
  cases e with
  | send fo target isAsync buffer alloc =>
    obtain ⟨_, eq⟩ := ite_none_right_eq_some.mp eq
    obtain ⟨s₁, called, ⟨⟩⟩ := map_eq_some_iff.mp eq
    exact { quiet.msgSend called with }
  | recv receiver foo buffer =>
    obtain ⟨_, eq⟩ := ite_none_right_eq_some.mp eq
    obtain ⟨s₁, called, ⟨⟩⟩ := map_eq_some_iff.mp eq
    exact { quiet.msgRecv sound called with }
  | step t =>
    obtain ⟨_, eq⟩ := ite_none_right_eq_some.mp eq
    exact quiet.callStep sound eq
  | preempt t =>
    obtain ⟨_, ⟨⟩⟩ := ite_none_right_eq_some.mp eq
    exact quiet.yieldCpu t
  | resume t =>
    obtain ⟨_, ⟨⟩⟩ := ite_none_right_eq_some.mp eq
    exact { quiet with live := live_update quiet.live ⟨by simp, (quiet.live t).2⟩ }
  | pend t reason =>
    obtain ⟨_, ⟨⟩⟩ := ite_none_right_eq_some.mp eq
    exact (quiet.block call).yieldCpu t
  | unblock t reason =>
    cases eq
    exact quiet.unblock t reason
  | rupt t ruptNo =>
    cases eq
    unfold Comm.ruptProc
    split
    · refine { quiet with wakers := fun w there => ?_ }
      cases mem_append.mp there with
      | inl old => exact quiet.wakers w old
      | inr new => rw [mem_singleton.mp new]
    · exact { quiet with }
  | wake i => exact quiet.wakeStep eq
  | signal | cleanup | exitThread | expire | severSend | severRecv | exitSenders | zombie
  | invalidate | exet =>
    exact call.elim

theorem drops_none (sound : Sound s) (receiver : Fin n) (foo : Source n) (x : Fin n) :
    ¬ s.Drops receiver foo x := by
  rintro ⟨out, selected, queued, none⟩
  rw [(quiet.selectSender sound selected).1, queued] at none
  cases none

/-- No call loses track of a sender. -/
theorem orderly (sound : Sound s) (call : e.IsCall) : Orderly s e := by
  have none := quiet.drops_none sound
  cases e with
  | send => exact call
  | recv => exact fun _ x drops => (none _ _ x drops).elim
  | step t =>
    simp only [Orderly]
    have empty := quiet.noDropped t
    cases is : s.call t with
    | none | send | sendWake => trivial
    | recv stage foo =>
      cases stage with
      | sync => exact fun x drops => (none _ _ x drops).elim
      | block | check | sleep | woken | self | look | signal | async => trivial
    | drop foo dropped after =>
      rw [is] at empty
      cases (show dropped = .none from empty)
      trivial
  | wake i =>
    intro w there sender dropped
    rw [quiet.wakers w (mem_of_getElem? there)] at dropped
    cases dropped
  | preempt | resume | pend | unblock | rupt => trivial
  | signal | cleanup | exitThread | expire | severSend | severRecv | exitSenders | zombie
  | invalidate | exet =>
    exact call.elim

omit quiet

end Quiet

/-! ## Runs -/

/-- Calls that meet a condition. -/
def CallStep (when : Comm n p → Event n p → Prop) :
    Comm n p → Event n p → Comm n p → Prop :=
  StepWhen fun s e => e.IsCall ∧ when s e

theorem Comm.start_quiet {control} (live : ∀ t, LiveThread (control t)) (onCpu : Fin n → Bool)
    (process : Fin n → Fin p) (isMain isSystem : Fin n → Bool) :
    Quiet (Comm.start control onCpu process isMain isSystem) where
  live := live
  active := fun _ => rfl
  noDropped := fun _ => trivial
  wakers := nofun

/-- What every edit of the mail keeps holds wherever a run of calls ends. -/
theorem calls_keep (rules : Rules) {P : Mail n → Prop}
    (keeps : ∀ s e, e.IsCall → when s e → Keeps rules s e)
    (edit : ∀ a b, P a → a.Ok → Mail.Edit rules a b → P b)
    (quiet : Quiet start) (sound : Sound start) (holds : P start.mail)
    (run : Run (CallStep when) start events s) :
    Sound s ∧ P s.mail := by
  have all : Quiet s ∧ Sound s ∧ P s.mail := by
    apply run.preserves _ ⟨quiet, sound, holds⟩
    intro s e s' ⟨quiet, sound, holds⟩ step
    have refines : Refines rules s s' :=
      sound.exec e (quiet.orderly sound step.1.1) (keeps s e step.1.1 step.1.2) step.2
    exact ⟨quiet.exec sound step.1.1 step.2, refines.sound sound,
      (refines.2.keep edit sound.2 holds).1⟩
  exact all.2

theorem running_live (n : Nat) (t : Fin n) : LiveThread ((Comm.running n).control t) :=
  ⟨⟨nofun, nofun, nofun⟩, BitVec.zero_and⟩

end Mecocoa.Ipc
