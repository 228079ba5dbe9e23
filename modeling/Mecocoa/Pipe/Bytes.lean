import Mecocoa.Pipe.Channel

/-! # The bytes in a pipe

Every byte that entered a channel has left it once, in order, or is still in it; and each
read has returned the bytes that left the channel for it.  Nothing here depends on the
wait lists.
-/

namespace Mecocoa.Pipe

open Pipes Option List

open Lib (Run)
open Function (update update_self update_of_ne)

/-- One event. -/
def Steps (s : Pipes m n) (e : Event m n) (s' : Pipes m n) : Prop := e.exec s = some s'

/-! ## What a step does to the bytes -/

section Frames

variable {s s' : Pipes m n}

theorem cancelPipeWait_eq (ran : s.cancelPipeWait t = some s') :
    ∃ waiters, s' = { s with waiters } := by
  unfold cancelPipeWait at ran
  split at ran
  · cases ran
    exact ⟨s.waiters, rfl⟩
  · obtain ⟨w, -, rest⟩ := bind_eq_some_iff.mp ran
    obtain ⟨waiters, -, rfl⟩ := map_eq_some_iff.mp rest
    exact ⟨waiters, rfl⟩

theorem takeWaiters_eq {call}
    (ran : s.takeWaiters key call t = some s') :
    ∃ waiters head, s' = { s with waiters }.setCall t (call head) := by
  obtain ⟨⟨waiters, head⟩, -, rfl⟩ := map_eq_some_iff.mp ran
  exact ⟨waiters, head, rfl⟩

end Frames

/-- Neither bytes nor the work of a call changed; calls may have ended. -/
structure Quiet (s s' : Pipes m n) : Prop where
  buffer : ∀ c, (s'.channels c).buffer = (s.channels c).buffer
  accepted : s'.accepted = s.accepted
  taken : s'.taken = s.taken
  returned : s'.returned = s.returned
  nextId : s'.nextId = s.nextId
  calls : ∀ t job stage, s'.call t = .io job stage → ∃ before, s.call t = .io job before

/-- What a call may return at the head of its loop. -/
def Finishes (s : Pipes m n) (job : Job m) : Outcome → Prop
  | .read bytes => ∃ count, job.transfer = .read count bytes ∧
      (count ≤ bytes.length ∨ (s.channels job.chan).buffer = [] ∧
      (s.channels job.chan).writerCount = 0)
  | .wrote count => ∃ src, job.transfer = .write src count
  | .broken => ∃ src written, job.transfer = .write src written
  | .interrupted => False

/-- What one step does to the bytes of the pipes. -/
inductive ByteStep (s s' : Pipes m n) : Prop where
  | quiet (same : Quiet s s')
  | start (t : Fin n) (c : Fin m) (transfer : Transfer)
    (empty : transfer.interrupted = .interrupted)
      (is : s' = s.beginCall t c transfer)
  | finish (t : Fin n) (job : Job m) (stage : Stage n) (outcome : Outcome)
    (inCall : s.call t = .io job stage)
      (allowed : outcome = job.transfer.interrupted ∨ Finishes s job outcome)
      (rest : Quiet s { s' with returned := s.returned })
      (gone : ∀ job stage, s'.call t ≠ .io job stage)
      (noted : s'.returned = s.returned ++ [(job, outcome)])
  | take (t : Fin n) (job : Job m) (count : Nat) (dst : List UInt8) (stage stage' : Stage n)
      (inCall : s.call t = .io job stage) (reads : job.transfer = .read count dst) (k : Nat)
      (waiters : Waiters m n)
      (is : s' = { s.takeBytes job.chan job.id k with waiters }.setCall t
        (.io { job with transfer := .read count (dst ++ (s.channels job.chan).buffer.take k) }
        stage'))
  | put (t : Fin n) (job : Job m) (src : List UInt8) (written : Nat) (stage stage' : Stage n)
      (inCall : s.call t = .io job stage) (writes : job.transfer = .write src written) (k : Nat)
      (waiters : Waiters m n)
      (is : s' = { s.putBytes job.chan job.id ((src.drop written).take k) with waiters }.setCall t
        (.io { job with transfer := .write src (written + ((src.drop written).take k).length) }
        stage'))

section Steps

variable {s s' : Pipes m n}

/-- Calls stay, but for one that ends or goes on to another stage. -/
theorem quiet_setCall {call}
    (goes : ∀ job stage, call = .io job stage → ∃ before, s.call t = .io job before)
    {channels} (buffer : ∀ c, (channels c).buffer = (s.channels c).buffer) (waiters : Waiters m n)
    (control : Fin n → Sched.Thread) (onCpu : Fin n → Bool) :
    Quiet s ({ s with waiters, control, onCpu, channels }.setCall t call) where
  buffer := buffer
  accepted := rfl
  taken := rfl
  returned := rfl
  nextId := rfl
  calls := by
    intro x other stage is
    by_cases same : x = t
    · subst same
      simp only [setCall, update_self] at is
      exact goes other stage is
    · simp only [setCall, update_of_ne same] at is
      exact ⟨stage, is⟩

theorem ByteStep.moves (inCall : s.call t = .io job before) (stage : Stage n)
    (waiters : Waiters m n) (control : Fin n → Sched.Thread) (onCpu : Fin n → Bool) :
    ByteStep s ({ s with waiters, control, onCpu }.setCall t (.io job stage)) := by
  refine .quiet (quiet_setCall ?_ (fun _ => rfl) waiters control onCpu)
  rintro _ _ ⟨⟩
  exact ⟨before, inCall⟩

theorem Quiet.of_calls (call : s'.call = s.call)
    (buffer : ∀ c, (s'.channels c).buffer = (s.channels c).buffer)
    (accepted : s'.accepted = s.accepted) (taken : s'.taken = s.taken)
    (returned : s'.returned = s.returned) (nextId : s'.nextId = s.nextId) : Quiet s s' :=
  ⟨buffer, accepted, taken, returned, nextId, fun _ _ stage is => ⟨stage, call ▸ is⟩⟩

theorem ByteStep.ret (inCall : s.call t = .io job stage)
    (waiters : Waiters m n) (control : Fin n → Sched.Thread)
    (allowed : outcome = job.transfer.interrupted ∨ Finishes s job outcome) :
    ByteStep s ({ s with waiters, control }.ret t job outcome) := by
  apply ByteStep.finish t job stage outcome inCall allowed
  · exact quiet_setCall (t := t) (by nofun) (fun _ => rfl) waiters control s.onCpu
  · simp [Pipes.ret]
  · rfl

theorem readSection_bytes {count} (inCall : s.call t = .io job .enter)
    (reads : job.transfer = .read count dst) (ran : s.readSection t job count dst = some s') :
    ByteStep s s' := by
  unfold readSection at ran
  dsimp only at ran
  split at ran
  · split at ran
    · rename_i more empty
      split at ran
      · rename_i ended
        cases ran
        exact .ret inCall s.waiters s.control (.inr ⟨count, reads, .inr ⟨empty, ended⟩⟩)
      · cases ran
        exact .moves inCall _ _ s.control s.onCpu
    · obtain ⟨waiters, head, rfl⟩ := takeWaiters_eq ran
      exact .take t job count dst .enter _ inCall reads _ waiters rfl
  · rename_i full
    cases ran
    exact .ret inCall s.waiters s.control (.inr ⟨count, reads, .inl (Nat.le_of_not_lt full)⟩)

theorem writeSection_bytes (inCall : s.call t = .io job .enter)
    (writes : job.transfer = .write src written)
    (ran : s.writeSection t job src written = some s') :
    ByteStep s s' := by
  unfold writeSection at ran
  dsimp only at ran
  split at ran
  · split at ran
    · cases ran
      exact .ret inCall s.waiters s.control (.inr ⟨src, written, writes⟩)
    split at ran
    · cases ran
      exact .moves inCall _ _ s.control s.onCpu
    · obtain ⟨waiters, head, rfl⟩ := takeWaiters_eq ran
      exact .put t job src written .enter _ inCall writes _ waiters rfl
  · cases ran
    exact .ret inCall s.waiters s.control (.inr ⟨src, writes⟩)

theorem ioStep_bytes (inCall : s.call t = .io job stage)
    (ran : s.ioStep t job stage = some s') : ByteStep s s' := by
  cases stage with
  | enter =>
    cases transfer : job.transfer with
    | read count dst =>
      simp only [ioStep, transfer] at ran
      exact readSection_bytes inCall transfer ran
    | write src written =>
      simp only [ioStep, transfer] at ran
      exact writeSection_bytes inCall transfer ran
  | added | check | look | block | sleep =>
    simp only [ioStep, some.injEq] at ran
    subst ran
    exact .moves inCall _ s.waiters _ _
  | cancel =>
    obtain ⟨s₁, cancelled, rfl⟩ := map_eq_some_iff.mp ran
    obtain ⟨waiters, rfl⟩ := cancelPipeWait_eq cancelled
    exact .ret inCall waiters s.control (.inl rfl)
  | cancelBlocked =>
    obtain ⟨s₁, cancelled, rfl⟩ := map_eq_some_iff.mp ran
    obtain ⟨waiters, rfl⟩ := cancelPipeWait_eq cancelled
    exact .moves inCall _ waiters s.control s.onCpu
  | unblockSelf =>
    cases ran
    exact .ret inCall s.waiters _ (.inl rfl)
  | woken =>
    simp only [ioStep] at ran
    split at ran
    · cases ran
      exact .ret inCall s.waiters s.control (.inl rfl)
    · cases ran
      exact .moves inCall _ s.waiters s.control s.onCpu
  | wake head =>
    cases head with
    | none | some first =>
      cases ran
      exact .moves inCall _ _ _ s.onCpu

theorem setCount_buffer (chan : Channel) (side : Side) (count : Nat) :
    (chan.setCount side count).buffer = chan.buffer := by
  cases side <;> rfl

theorem setCount_buffers (s : Pipes m n) (c : Fin m) (side : Side) (count : Nat) (c' : Fin m) :
    (update s.channels c ((s.channels c).setCount side count) c').buffer =
    (s.channels c').buffer := by
  by_cases same : c' = c
  · subst same
    rw [update_self, setCount_buffer]
  · rw [update_of_ne same]

theorem callStep_bytes (ran : s.callStep t = some s') : ByteStep s s' := by
  unfold callStep at ran
  split at ran
  · cases ran
  · rename_i job stage inCall
    exact ioStep_bytes inCall ran
  · cases ran
    exact .quiet (quiet_setCall (by nofun) (fun _ => rfl) s.waiters s.control s.onCpu)
  · cases ran
    exact .quiet (quiet_setCall (by nofun) (fun _ => rfl) _ _ s.onCpu)

theorem closePipe_bytes {c} {side} (ran : s.closePipe t c side = some s') : ByteStep s s' := by
  unfold closePipe at ran
  dsimp only at ran
  split at ran
  · obtain ⟨waiters, head, rfl⟩ := takeWaiters_eq ran
    exact .quiet (quiet_setCall (by nofun) (setCount_buffers s c side _) waiters s.control s.onCpu)
  · cases ran
    exact .quiet
      (quiet_setCall (by nofun) (setCount_buffers s c side _) s.waiters s.control s.onCpu)

theorem signalStep_bytes (ran : s.signalStep i = some s') : ByteStep s s' := by
  obtain ⟨signaller, -, rest⟩ := bind_eq_some_iff.mp ran
  cases signaller with
  | cancel t =>
    obtain ⟨s₁, cancelled, rfl⟩ := map_eq_some_iff.mp rest
    obtain ⟨waiters, rfl⟩ := cancelPipeWait_eq cancelled
    exact .quiet (.of_calls rfl (fun _ => rfl) rfl rfl rfl rfl)
  | unblock t =>
    cases rest
    exact .quiet (.of_calls rfl (fun _ => rfl) rfl rfl rfl rfl)

theorem exec_bytes {e : Event m n} (ran : e.exec s = some s') : ByteStep s s' := by
  cases e with
  | readPipe t c count =>
    simp only [Event.exec, ite_none_right_eq_some] at ran
    exact .start t c _ rfl (some.inj ran.2).symm
  | writePipe t c src =>
    simp only [Event.exec, ite_none_right_eq_some] at ran
    exact .start t c _ rfl (some.inj ran.2).symm
  | closePipe t c side =>
    simp only [Event.exec, ite_none_right_eq_some] at ran
    exact closePipe_bytes ran.2
  | clone c side =>
    simp only [Event.exec, ite_none_right_eq_some] at ran
    obtain ⟨-, is⟩ := ran
    cases is
    exact .quiet (.of_calls rfl (setCount_buffers s c side _) rfl rfl rfl rfl)
  | step t =>
    simp only [Event.exec, ite_none_right_eq_some] at ran
    exact callStep_bytes ran.2
  | signalStep i => exact signalStep_bytes ran
  | die t =>
    obtain ⟨s₁, cancelled, rfl⟩ := map_eq_some_iff.mp ran
    obtain ⟨waiters, rfl⟩ := cancelPipeWait_eq cancelled
    exact .quiet
      (quiet_setCall (s := s) (t := t) (by nofun) (fun _ => rfl) (waiters.pipeClearWaiter t)
      (update s.control t { s.control t with state := .invalid, blockReason := 0 })
      (update s.onCpu t false))
  | signal t =>
    cases ran
    exact .quiet (.of_calls rfl (fun _ => rfl) rfl rfl rfl rfl)
  | preempt t | resume t | pend t reason | unblock t reason | handled t | wakeup t =>
    simp only [Event.exec, ite_none_right_eq_some] at ran
    obtain ⟨-, is⟩ := ran
    cases is
    exact .quiet (.of_calls rfl (fun _ => rfl) rfl rfl rfl rfl)

end Steps

/-! ## The invariant -/

/-- The bytes of one call. -/
def bytesOf (id : Nat) (log : List (Nat × UInt8)) : List UInt8 :=
  (log.filter (·.1 = id)).map (·.2)

section BytesOf

variable {id : Nat}

theorem bytesOf_append (more : List (Nat × UInt8)) :
    bytesOf id (log ++ more) = bytesOf id log ++ bytesOf id more := by
  simp [bytesOf]

theorem bytesOf_own (bytes : List UInt8) : bytesOf id (bytes.map (id, ·)) = bytes := by
  induction bytes with
  | nil => rfl
  | cons b rest ih => simpa [bytesOf] using ih

theorem bytesOf_foreign (apart : other ≠ id) (bytes : List UInt8) :
    bytesOf id (bytes.map (other, ·)) = [] := by
  simp [bytesOf, apart]

theorem bytesOf_unknown (unknown : ∀ e ∈ log, e.1 ≠ id) : bytesOf id log = [] := by
  simp only [bytesOf, map_eq_nil_iff, filter_eq_nil_iff, decide_eq_true_eq]
  exact unknown

end BytesOf

/-- A read has in its buffer the bytes that left the channel for it; of a write those that are
sent entered it. -/
def Carries (s : Pipes m n) (job : Job m) : Prop :=
  match job.transfer with
  | .read _ dst => bytesOf job.id (s.taken job.chan) = dst
  | .write src written => bytesOf job.id (s.accepted job.chan) = src.take written

/-- The call returned what it has done. -/
def Reports (job : Job m) : Outcome → Prop
  | .read bytes => ∃ count, job.transfer = .read count bytes
  | .wrote count => ∃ src, job.transfer = .write src count
  | .interrupted => (∃ count, job.transfer = .read count []) ∨
    ∃ src, job.transfer = .write src 0
  | .broken => ∃ src written, job.transfer = .write src written

theorem Reports.interrupted (job : Job m) : Reports job job.transfer.interrupted := by
  cases transfer : job.transfer with
  | read count dst =>
    simp only [Transfer.interrupted]
    split
    · rename_i none
      exact .inl ⟨count, none ▸ transfer⟩
    · exact ⟨count, transfer⟩
  | write src written =>
    simp only [Transfer.interrupted]
    split
    · rename_i none
      exact .inr ⟨src, none ▸ transfer⟩
    · exact ⟨src, transfer⟩

theorem Finishes.reports (ends : Finishes s job outcome) : Reports job outcome := by
  cases outcome with
  | read bytes =>
    obtain ⟨count, is, -⟩ := ends
    exact ⟨count, is⟩
  | wrote count => exact ends
  | broken => exact ends
  | interrupted => exact ends.elim

structure BytesInv (s : Pipes m n) : Prop where
  flow : ∀ c, (s.accepted c).map (·.2) = (s.taken c).map (·.2) ++ (s.channels c).buffer
  entered : ∀ c, ∀ e ∈ s.accepted c, e.1 < s.nextId
  left : ∀ c, ∀ e ∈ s.taken c, e.1 < s.nextId
  calls : ∀ t job stage, s.call t = .io job stage → job.id < s.nextId ∧ Carries s job
  alone : ∀ t t' job job' stage stage', s.call t = .io job stage →
    s.call t' = .io job' stage' →
    job.id = job'.id → t = t'
  done : ∀ job outcome, (job, outcome) ∈ s.returned → job.id < s.nextId ∧ Carries s job ∧
    Reports job outcome
  ended : ∀ job outcome, (job, outcome) ∈ s.returned →
    ∀ t job' stage, s.call t = .io job' stage → job'.id ≠ job.id

namespace BytesInv

variable {s s' : Pipes m n}

theorem start (capacity : Nat) (control : Fin n → Sched.Thread) (onCpu : Fin n → Bool) :
    BytesInv (Pipes.start capacity control onCpu : Pipes m n) := by
  constructor <;> simp [Pipes.start, Channel.fresh]

variable (inv : BytesInv s)

include inv

theorem quiet (same : Quiet s s') : BytesInv s' := by
  have carries : ∀ job, Carries s' job ↔ Carries s job := by
    intro job
    unfold Carries
    rw [same.accepted, same.taken]
  refine ⟨fun c => ?_, ?_, ?_, ?_, ?_, ?_, ?_⟩
  · rw [same.accepted, same.taken, same.buffer]
    exact inv.flow c
  · rw [same.accepted, same.nextId]
    exact inv.entered
  · rw [same.taken, same.nextId]
    exact inv.left
  · intro t job stage is
    obtain ⟨before, was⟩ := same.calls t job stage is
    rw [same.nextId, carries]
    exact inv.calls t job before was
  · intro t t' job job' stage stage' is is'
    obtain ⟨before, was⟩ := same.calls t job stage is
    obtain ⟨before', was'⟩ := same.calls t' job' stage' is'
    exact inv.alone t t' job job' before before' was was'
  · intro job outcome there
    rw [same.returned] at there
    rw [same.nextId, carries]
    exact inv.done job outcome there
  · intro job outcome there t job' stage is
    rw [same.returned] at there
    obtain ⟨before, was⟩ := same.calls t job' stage is
    exact inv.ended job outcome there t job' before was

theorem finish
    (inCall : s.call t = .io job stage) (reports : Reports job outcome)
    (rest : Quiet s { s' with returned:= s.returned })
    (gone : ∀ job stage, s'.call t ≠ .io job stage)
    (noted : s'.returned = s.returned ++ [(job, outcome)]) : BytesInv s' := by
  have kept := inv.quiet rest
  refine ⟨kept.flow, kept.entered, kept.left, kept.calls, kept.alone, ?_, ?_⟩
  · intro job' outcome' there
    rw [noted, mem_append, mem_singleton] at there
    rcases there with old | new
    · exact kept.done job' outcome' old
    · obtain ⟨rfl, rfl⟩ := Prod.mk.inj new
      obtain ⟨known, carries⟩ := inv.calls t job' stage inCall
      refine ⟨rest.nextId.symm ▸ known, ?_, reports⟩
      unfold Carries
      rw [show s'.accepted = s.accepted from rest.accepted, show s'.taken = s.taken from rest.taken]
      exact carries
  · intro job' outcome' there x other stage' is
    rw [noted, mem_append, mem_singleton] at there
    rcases there with old | new
    · exact kept.ended job' outcome' old x other stage' is
    · obtain ⟨rfl, -⟩ := Prod.mk.inj new
      obtain ⟨before, was⟩ := rest.calls x other stage' is
      intro equal
      have same := inv.alone x t other job' before stage was inCall equal
      exact gone other stage' (same ▸ is)

/-- One call begins or goes on: the logs grow by bytes of its own. -/
theorem advance (call : s'.call = update s.call t (.io job stage))
    (own : ∀ x ≠ t, ∀ other stage, s.call x = .io other stage → other.id ≠ job.id)
    (ended : ∀ job' outcome, (job', outcome) ∈ s.returned → job.id ≠ job'.id)
    (known : job.id < s'.nextId) (more : s.nextId ≤ s'.nextId) (entered left : List UInt8)
    (flow : ∀ c, (s'.accepted c).map (·.2) = (s'.taken c).map (·.2) ++ (s'.channels c).buffer)
    (accepted : s'.accepted =
      update s.accepted job.chan (s.accepted job.chan ++ entered.map (job.id, ·)))
    (taken : s'.taken = update s.taken job.chan (s.taken job.chan ++ left.map (job.id, ·)))
    (returned : s'.returned = s.returned) (carries : Carries s' job) : BytesInv s' := by
  have grown : ∀ (log : Fin m → List (Nat × UInt8)) (bytes : List UInt8),
    (∀ c, ∀ e ∈ log c, e.1 < s.nextId) →
      ∀ c, ∀ e ∈ update log job.chan (log job.chan ++ bytes.map (job.id, ·)) c,
          e.1 < s'.nextId := by
    intro log bytes old c e there
    by_cases same : c = job.chan
    · subst same
      rw [update_self, mem_append] at there
      rcases there with before | new
      · exact (old _ e before).trans_le more
      · obtain ⟨b, -, rfl⟩ := mem_map.mp new
        exact known
    · rw [update_of_ne same] at there
      exact (old c e there).trans_le more
  have elsewhere : ∀ id, id ≠ job.id →
    ∀ (log : Fin m → List (Nat × UInt8)) (bytes : List UInt8) c,
      bytesOf id (update log job.chan (log job.chan ++ bytes.map (job.id, ·)) c) =
          bytesOf id (log c) := by
    intro id apart log bytes c
    by_cases same : c = job.chan
    · subst same
      rw [update_self, bytesOf_append, bytesOf_foreign (Ne.symm apart), append_nil]
    · rw [update_of_ne same]
  have others : ∀ job', job'.id ≠ job.id → Carries s job' → Carries s' job' := by
    intro job' apart before
    unfold Carries at before ⊢
    rw [accepted, taken]
    simpa only [elsewhere _ apart] using before
  have split : ∀ x other stage', s'.call x = .io other stage' →
      x = t ∧ other = job ∨ s.call x = .io other stage' ∧ other.id ≠ job.id := by
    intro x other stage' is
    rw [call] at is
    by_cases same : x = t
    · subst same
      rw [update_self] at is
      cases is
      exact .inl ⟨rfl, rfl⟩
    · rw [update_of_ne same] at is
      exact .inr ⟨is, own x same other stage' is⟩
  refine ⟨flow, ?_, ?_, ?_, ?_, ?_, ?_⟩
  · rw [accepted]
    exact grown s.accepted entered inv.entered
  · rw [taken]
    exact grown s.taken left inv.left
  · intro x other stage' is
    rcases split x other stage' is with ⟨-, rfl⟩ | ⟨was, apart⟩
    · exact ⟨known, carries⟩
    · obtain ⟨old, before⟩ := inv.calls x other stage' was
      exact ⟨old.trans_le more, others other apart before⟩
  · intro x x' other other' stage₁ stage₂ is is' equal
    rcases split x other stage₁ is with ⟨rfl, rfl⟩ | ⟨was, apart⟩
    · rcases split x' other' stage₂ is' with ⟨rfl, -⟩ | ⟨-, apart'⟩
      · rfl
      · exact absurd equal.symm apart'
    · rcases split x' other' stage₂ is' with ⟨-, rfl⟩ | ⟨was', -⟩
      · exact absurd equal apart
      · exact inv.alone x x' other other' _ _ was was' equal
  · intro job' outcome there
    rw [returned] at there
    obtain ⟨old, before, reports⟩ := inv.done job' outcome there
    exact ⟨old.trans_le more, others job' (ended job' outcome there).symm before, reports⟩
  · intro job' outcome there x other stage' is
    rw [returned] at there
    rcases split x other stage' is with ⟨-, rfl⟩ | ⟨was, -⟩
    · exact ended job' outcome there
    · exact inv.ended job' outcome there x other stage' was

theorem own (inCall : s.call t = .io job stage) {x} (apart : x ≠ t) (other stage')
    (is : s.call x = .io other stage') : other.id ≠ job.id :=
  fun equal => apart (inv.alone x t other job _ _ is inCall equal)

theorem begin (t : Fin n) (c : Fin m)
    (empty : transfer.interrupted = .interrupted) : BytesInv (s.beginCall t c transfer) := by
  have unknown : Carries s ⟨s.nextId, c, transfer⟩ := by
    cases transfer with
    | read count dst =>
      have none : dst = [] := by
        by_contra some
        simp [Transfer.interrupted, some] at empty
      rw [none]
      exact bytesOf_unknown fun e there => Nat.ne_of_lt (inv.left c e there)
    | write src written =>
      have none : written = 0 := by
        by_contra some
        simp [Transfer.interrupted, some] at empty
      rw [none]
      exact bytesOf_unknown fun e there => Nat.ne_of_lt (inv.entered c e there)
  refine inv.advance rfl (fun x _ other stage is => Nat.ne_of_lt (inv.calls x other stage is).1)
    (fun job outcome there => Nat.ne_of_gt (inv.done job outcome there).1) (Nat.lt_succ_self _)
    (Nat.le_succ _) [] []
    inv.flow ?_ ?_ rfl unknown
  · simp [beginCall]
  · simp [beginCall]

theorem take {count}
    (inCall : s.call t = .io job stage) (reads : job.transfer = .read count dst) (k : Nat)
    (waiters : Waiters m n) (stage' : Stage n) :
    BytesInv ({ s.takeBytes job.chan job.id k with waiters }.setCall t
      (.io { job with transfer := .read count (dst ++ (s.channels job.chan).buffer.take k) }
        stage')) := by
  obtain ⟨known, before⟩ := inv.calls t job stage inCall
  simp only [Carries, reads] at before
  refine inv.advance rfl (fun _ => inv.own inCall)
    (fun _ _ there => inv.ended _ _ there t job stage inCall) known le_rfl []
    ((s.channels job.chan).buffer.take k) ?_ ?_ rfl rfl ?_
  · intro c
    by_cases same : c = job.chan
    · subst same
      simp [setCall, takeBytes, inv.flow, Function.comp_def]
    · simpa [setCall, takeBytes, same] using inv.flow c
  · simp [setCall, takeBytes]
  · simp only [Carries, setCall, takeBytes, update_self, bytesOf_append, bytesOf_own, before]

theorem put
    (inCall : s.call t = .io job stage) (writes : job.transfer = .write src written) (k : Nat)
    (waiters : Waiters m n) (stage' : Stage n) :
    BytesInv ({ s.putBytes job.chan job.id ((src.drop written).take k) with waiters }.setCall t
      (.io { job with transfer := .write src (written + ((src.drop written).take k).length) }
        stage')) := by
  obtain ⟨known, before⟩ := inv.calls t job stage inCall
  simp only [Carries, writes] at before
  refine inv.advance rfl (fun _ => inv.own inCall)
    (fun _ _ there => inv.ended _ _ there t job stage inCall) known le_rfl
    ((src.drop written).take k) [] ?_ rfl ?_ rfl ?_
  · intro c
    by_cases same : c = job.chan
    · subst same
      simp [setCall, putBytes, inv.flow, Function.comp_def]
    · simpa [setCall, putBytes, same] using inv.flow c
  · simp [setCall, putBytes]
  · simp only [Carries, setCall, putBytes, update_self, bytesOf_append, bytesOf_own, before]
    rw [take_add]
    congr 1
    rw [length_take, take_eq_take_iff]
    omega

theorem step (ran : Steps s e s') : BytesInv s' := by
  cases exec_bytes ran with
  | quiet same => exact inv.quiet same
  | start t c transfer empty is => exact is ▸ inv.begin t c empty
  | finish t job stage outcome inCall allowed rest gone noted =>
    have reports : Reports job outcome :=
      allowed.elim (fun is => is ▸ .interrupted job) Finishes.reports
    exact inv.finish inCall reports rest gone noted
  | take t job count dst stage stage' inCall reads k waiters is =>
    exact is ▸ inv.take inCall reads k waiters stage'
  | put t job src written stage stage' inCall writes k waiters is =>
    exact is ▸ inv.put inCall writes k waiters stage'

omit inv

end BytesInv

/-! ## Runs -/

/-- The read returned the end of the file: nothing, although it was asked for something. -/
def EndOfFile (job : Job m) (outcome : Outcome) : Prop :=
  outcome = .read [] ∧ ∃ count dst, job.transfer = .read count dst ∧ 0 < count

/-- A call ends as the end of the file only if there is no writer and no byte. -/
theorem end_of_file_step (ran : Steps s e s')
    (noted : s'.returned = s.returned ++ [(job, outcome)]) (eof : EndOfFile job outcome) :
    (s.channels job.chan).buffer = [] ∧ (s.channels job.chan).writerCount = 0 := by
  obtain ⟨rfl, count, dst, reads, some⟩ := eof
  have grows : s'.returned ≠ s.returned := by simp [noted]
  cases exec_bytes ran with
  | quiet same => exact absurd same.returned grows
  | start t c transfer empty is => exact absurd (is ▸ rfl) grows
  | take t job count dst stage stage' inCall reads k waiters is => exact absurd (is ▸ rfl) grows
  | put t job src written stage stage' inCall writes k waiters is => exact absurd (is ▸ rfl) grows
  | finish t job' stage outcome' inCall allowed rest gone noted' =>
    have same := append_cancel_left (noted.symm.trans noted')
    obtain ⟨rfl, rfl⟩ := same
    cases allowed with
    | inl interrupted =>
      simp only [reads, Transfer.interrupted] at interrupted
      split at interrupted
      · cases interrupted
      · rename_i nonempty
        exact absurd (Outcome.read.inj interrupted).symm nonempty
    | inr ends =>
      obtain ⟨count', reads', enough⟩ := ends
      rw [reads] at reads'
      cases reads'
      exact enough.resolve_left (by simpa using Nat.ne_of_gt some)

/-- In any run of any number of threads on any number of pipes, the bytes that left a channel are
a prefix of those that entered it, and the rest is in the channel.  Each call reports what it
did: a read the bytes that left the channel for it, a write how many of its bytes entered.  And
a read returns the end of the file only if no writer is left and the channel is empty. -/
theorem pipe_bytes_in_order {capacity : Nat} {control : Fin n → Sched.Thread}
    {onCpu : Fin n → Bool} {events : List (Event m n)} {s : Pipes m n}
    (run : Run Steps (Pipes.start capacity control onCpu) events s) :
    (∀ c, (s.accepted c).map (·.2) = (s.taken c).map (·.2) ++ (s.channels c).buffer) ∧
      (∀ t job stage, s.call t = .io job stage → Carries s job) ∧
      (∀ job outcome, (job, outcome) ∈ s.returned → Carries s job ∧ Reports job outcome) ∧
      ∀ e s' job outcome, Steps s e s' → s'.returned = s.returned ++ [(job, outcome)] →
      EndOfFile job outcome →
        (s.channels job.chan).buffer = [] ∧ (s.channels job.chan).writerCount = 0 := by
  have inv : BytesInv s :=
    run.preserves (fun _ _ _ inv ran => inv.step ran) (.start capacity control onCpu)
  exact ⟨inv.flow, fun t job stage is => (inv.calls t job stage is).2,
    fun job outcome there => (inv.done job outcome there).2,
    fun e s' job outcome ran noted eof => end_of_file_step ran noted eof⟩

/-- All threads run. -/
def Pipes.running (capacity m n : Nat) : Pipes m n :=
  .start capacity (fun _ => { state := .running }) fun _ => true

/-- The channel takes two of three bytes, and a read returns them. -/
theorem pipe_bytes_in_order_read :
    ∃ s : Pipes 1 2, s.returned = [(⟨1, 0, .read 2 [1, 2]⟩, .read [1, 2])] ∧
      (s.accepted 0).map (·.2) = (s.taken 0).map (·.2) ++ (s.channels 0).buffer ∧
      ∀ job outcome, (job, outcome) ∈ s.returned → Carries s job ∧ Reports job outcome := by
  obtain ⟨s, run, returned⟩ : ∃ s, Run Steps (running 2 1 2)
      [.writePipe 0 0 [1, 2, 3], .step 0, .readPipe 1 0 2, .step 1, .step 1, .step 1] s ∧
        decide (s.returned = [(⟨1, 0, .read 2 [1, 2]⟩, .read [1, 2])]) = true :=
    Run.exists_of_any (by decide +kernel)
  obtain ⟨flow, -, done, -⟩ := pipe_bytes_in_order run
  exact ⟨s, of_decide_eq_true returned, flow 0, done⟩

end Mecocoa.Pipe
