import Mecocoa.Ipc.Calls

/-! # Asynchronous messages in order

What a thread has received from a sender, followed by what is still in its queue from that
sender, is what the sender has sent to it.
-/

namespace Mecocoa.Ipc

open List

open Lib (Run)
open Function (update update_self update_of_ne update_apply)

/-- The asynchronous messages that were copied, in order. -/
def asyncCopies (copied : List (Copy n)) : List (Copy n) := copied.filter fun c => c.message.isAsync

/-- The asynchronous messages of one sender that a thread has received. -/
def received (copied : List (Copy n)) (fo receiver : Fin n) : List (Message n) :=
  ((asyncCopies copied).filter fun c => c.taker = receiver ∧ c.message.src = fo).map (·.message)

def fromSender (fo : Fin n) (messages : List (Message n)) : List (Message n) :=
  messages.filter (·.src = fo)

/-- The asynchronous messages that one thread has sent to another. -/
def accepted (sent : List (Message n)) (fo receiver : Fin n) : List (Message n) :=
  sent.filter fun m => m.src = fo ∧ m.dst = receiver

/-! ## Taking from the middle of the queue -/

theorem Source.picks_congr (foo : Source n) (same : m.src = m'.src) :
    foo.picks m = foo.picks m' := by
  cases foo with
  | any | intrupt => rfl
  | thread fo => simp [Source.picks, same]

theorem fromSender_take {foo : Source n}
    (found : messages.find? foo.picks = some m) (fo : Fin n) :
    fromSender fo messages = fromSender fo [m] ++ fromSender fo (messages.eraseP foo.picks) := by
  obtain ⟨picked, before, after, is, first⟩ := find?_eq_some_iff_append.mp found
  have erased : messages.eraseP foo.picks = before ++ after := by
    rw [is, eraseP_append_right, eraseP_cons_of_pos picked]
    intro m' there
    simpa using first m' there
  rw [erased, is]
  cases eq_or_ne m.src fo with
  | inr other => simp [fromSender, other]
  | inl own =>
    have none : before.filter (·.src = fo) = [] := by
      rw [filter_eq_nil_iff]
      intro m' there same
      have skipped := first m' there
      rw [foo.picks_congr ((of_decide_eq_true same).trans own.symm), picked] at skipped
      cases skipped
    simp [fromSender, own, none]

theorem received_append (copied : List (Copy n)) (c : Copy n) (isAsync : c.message.isAsync = true)
    (fo receiver : Fin n) :
    received (copied ++ [c]) fo receiver =
      received copied fo receiver ++ if c.taker = receiver then fromSender fo [c.message]
      else [] := by
  simp only [received, asyncCopies, filter_append, map_append, filter_singleton, isAsync,
    fromSender]
  by_cases taker : c.taker = receiver
  · by_cases own : c.message.src = fo <;> simp [taker, own]
  · simp [taker]

theorem asyncCopies_append (sync : c.message.isAsync = false) :
    asyncCopies (copied ++ [c]) = asyncCopies copied := by
  simp [asyncCopies, filter_append, sync]

namespace Mail

structure InOrder (a : Mail n) : Prop where
  sync : ∀ t m, a.unsolved t = .message m → m.isAsync = false
  async : ∀ t, ∀ m ∈ a.async t, m.isAsync = true
  -- A thread that waits has no message that it waits for.
  armed : ∀ t foo, a.recvFrom t = some foo → ∀ m ∈ a.async t, foo.picks m = false
  order : ∀ fo r, received a.copied fo r ++ fromSender fo (a.async r) = accepted a.sent fo r
  taken : ∀ c ∈ asyncCopies a.copied, c.message.dst = c.taker
  fresh : ∀ m ∈ a.sent, m.id < a.nextId
  nodup : a.sent.Nodup

variable {a b : Mail n}

/-- No asynchronous message was sent or taken. -/
theorem InOrder.of_less (inOrder : InOrder a)
    (unsolved : ∀ t m, b.unsolved t = .message m → a.unsolved t = .message m ∨
      m.isAsync = false)
    (recvFrom : ∀ t foo, b.recvFrom t = some foo → a.recvFrom t = some foo ∨
      ∀ m ∈ a.async t, foo.picks m = false)
    (async : b.async = a.async) (copied : asyncCopies b.copied = asyncCopies a.copied)
    (sent : b.sent = a.sent) (more : a.nextId ≤ b.nextId) : InOrder b where
  sync := fun t m is => (unsolved t m is).elim (inOrder.sync t m) id
  async := by rw [async]; exact inOrder.async
  armed := by
    intro t foo armed
    rw [async]
    exact (recvFrom t foo armed).elim (inOrder.armed t foo) id
  order := by
    intro fo r
    rw [received, copied, async, sent]
    exact inOrder.order fo r
  taken := by rw [copied]; exact inOrder.taken
  fresh := by
    intro m there
    rw [sent] at there
    exact lt_of_lt_of_le (inOrder.fresh m there) more
  nodup := sent ▸ inOrder.nodup

theorem unmark {unsolved : Fin n → Unsolved n} (is : update unsolved r mark t = .message m)
    (noMessage : ∀ m, mark ≠ .message m) : unsolved t = .message m := by
  rw [update_apply] at is
  split at is
  · exact absurd is (noMessage m)
  · exact is

theorem unarm {recvFrom : Fin n → Option (Source n)} (is : update recvFrom r none t = some foo) :
    recvFrom t = some foo := by
  rw [update_apply] at is
  split at is
  · cases is
  · exact is

theorem into_message {fresh : Bool} (is : (a.into fresh r m).unsolved x = .message m') :
    a.unsolved x = .message m' := by
  cases fresh with
  | true => exact is
  | false => exact unmark is (by simp)

theorem into_armed {fresh} (is : (a.into fresh r m).recvFrom x = some foo) :
    a.recvFrom x = some foo := by
  cases fresh with
  | true => exact is
  | false => exact unarm is

/-- A sender whom the receiver waits for has nothing in its queue. -/
theorem InOrder.none_from (inOrder : InOrder a)
    (armed : a.recvFrom r = some (.thread t) ∨ a.recvFrom r = some .any) :
    fromSender t (a.async r) = [] := by
  rw [fromSender, filter_eq_nil_iff]
  intro m there own
  cases armed with
  | inl thread =>
    have := inOrder.armed r _ thread m there
    simp [Source.picks, of_decide_eq_true own] at this
  | inr any =>
    have := inOrder.armed r _ any m there
    cases this

theorem InOrder.dst (inOrder : InOrder a) (there : m ∈ a.async r) : m.dst = r := by
  have here : m ∈ accepted a.sent m.src r := by
    rw [← inOrder.order]
    simp [fromSender, there]
  simp only [accepted, mem_filter, decide_eq_true_eq] at here
  exact here.2.2

theorem InOrder.nodup_append (inOrder : InOrder a) (new : m.id = a.nextId) :
    (a.sent ++ [m]).Nodup := by
  rw [nodup_append_comm, singleton_append, nodup_cons]
  refine ⟨fun there => ?_, inOrder.nodup⟩
  have := inOrder.fresh m there
  omega

theorem InOrder.fresh_append (inOrder : InOrder a) (new : m.id = a.nextId) :
    ∀ m' ∈ a.sent ++ [m], m'.id < a.nextId + 1 := by
  intro m' there
  cases mem_append.mp there with
  | inl old =>
    have := inOrder.fresh m' old
    omega
  | inr last =>
    rw [mem_singleton.mp last]
    omega

theorem accepted_append (sent : List (Message n)) (m : Message n) (fo r : Fin n) :
    accepted (sent ++ [m]) fo r = accepted sent fo r ++ if m.dst = r then fromSender fo [m]
      else [] := by
  simp only [accepted, filter_append, fromSender, filter_singleton]
  by_cases dst : m.dst = r
  · simp [dst]
  · simp [dst]

theorem InOrder.taken_append (inOrder : InOrder a) (dst : m.dst = r) :
    ∀ c ∈ asyncCopies (a.copied ++ [⟨m, r, k⟩]), c.message.dst = c.taker := by
  intro c there
  simp only [asyncCopies, filter_append, mem_append, mem_filter, mem_singleton] at there
  cases there with
  | inl old => exact inOrder.taken c (mem_filter.mpr old)
  | inr last =>
    rw [last.1]
    exact dst

theorem InOrder.deliver (inOrder : InOrder a) (new : m.id = a.nextId)
    (armed : a.recvFrom m.dst = some (.thread m.src) ∨ a.recvFrom m.dst = some .any) :
    InOrder { a.into false m.dst m with
      call := update a.call m.src (.sendWake m)
      sent := if m.isAsync then a.sent ++ [m] else a.sent
      nextId := a.nextId + 1 } := by
  have unsolved : ∀ t m', (a.into false m.dst m).unsolved t = .message m' →
      a.unsolved t = .message m' :=
    fun _ _ => into_message
  have recvFrom : ∀ t foo, (a.into false m.dst m).recvFrom t = some foo →
      a.recvFrom t = some foo :=
    fun _ _ => into_armed
  cases isAsync : m.isAsync with
  | false =>
    apply inOrder.of_less
    · exact fun t m' is => .inl (unsolved t m' is)
    · exact fun t foo is => .inl (recvFrom t foo is)
    · rfl
    · exact asyncCopies_append isAsync
    · rfl
    · exact Nat.le_succ a.nextId
  | true =>
    refine ⟨?_, inOrder.async, ?_, ?_, ?_, ?_, ?_⟩
    · exact fun t m' is => inOrder.sync t m' (unsolved t m' is)
    · exact fun t foo is => inOrder.armed t foo (recvFrom t foo is)
    · intro fo r
      have before := inOrder.order fo r
      simp only [into_copied, into_async, if_true, accepted_append]
      rw [received_append _ _ isAsync, ← before]
      by_cases dst : m.dst = r
      · cases eq_or_ne m.src fo with
        | inl own =>
          have none := inOrder.none_from armed
          rw [dst, own] at none
          simp [none]
        | inr other => simp [fromSender, other]
      · simp [dst]
    · exact inOrder.taken_append rfl
    · exact inOrder.fresh_append new
    · exact inOrder.nodup_append new

theorem InOrder.post (inOrder : InOrder a) (new : m.id = a.nextId) (isAsync : m.isAsync = true)
    (notArmed : ¬ (a.recvFrom m.dst = some (.thread m.src) ∨ a.recvFrom m.dst = some .any)) :
    InOrder { a with
      async := update a.async m.dst (a.async m.dst ++ [m])
      sent := a.sent ++ [m]
      returned := a.returned ++ [m]
      nextId := a.nextId + 1 } where
  sync := inOrder.sync
  async := by
    intro t m' there
    dsimp only at there
    rw [update_apply] at there
    split at there
    · cases mem_append.mp there with
      | inl old => exact inOrder.async m.dst m' old
      | inr last =>
        rw [mem_singleton.mp last]
        exact isAsync
    · exact inOrder.async t m' there
  armed := by
    intro t foo armed m' there
    dsimp only at armed there
    rw [update_apply] at there
    split at there
    · rename_i same
      rw [same] at armed
      cases mem_append.mp there with
      | inl old => exact inOrder.armed m.dst foo armed m' old
      | inr last =>
        rw [mem_singleton.mp last]
        cases foo with
        | any => exact absurd (.inr armed) notArmed
        | intrupt => rfl
        | thread fo =>
          apply decide_eq_false
          rintro rfl
          exact notArmed (.inl armed)
    · exact inOrder.armed t foo armed m' there
  order := by
    intro fo r
    have before := inOrder.order fo r
    dsimp only
    rw [accepted_append, ← before]
    cases eq_or_ne r m.dst with
    | inl same =>
      rw [same, update_self]
      simp [fromSender, filter_append]
    | inr other =>
      rw [update_of_ne other, if_neg other.symm, append_nil]
  taken := inOrder.taken
  fresh := inOrder.fresh_append new
  nodup := inOrder.nodup_append new

theorem InOrder.takeAsync (inOrder : InOrder a) {fresh : Bool} {foo : Source n}
    (found : (a.async r).find? foo.picks = some m) :
    InOrder
      ({ a with async := update a.async r ((a.async r).eraseP foo.picks) }.into fresh r m) := by
  have member := mem_of_find?_eq_some found
  have isAsync := inOrder.async r m member
  have less : ∀ t m', m' ∈ update a.async r ((a.async r).eraseP foo.picks) t →
      m' ∈ a.async t := by
    intro t m' there
    rw [update_apply] at there
    split at there
    · rename_i same
      exact same ▸ mem_of_mem_eraseP there
    · exact there
  refine ⟨?_, ?_, ?_, ?_, ?_, ?_, ?_⟩
  · intro t m' is
    have message := into_message is
    exact inOrder.sync t m' message
  · intro t m' there
    rw [into_async] at there
    exact inOrder.async t m' (less t m' there)
  · intro t foo' waits m' there
    rw [into_async] at there
    have armed := into_armed waits
    exact inOrder.armed t foo' armed m' (less t m' there)
  · intro fo r'
    have before := inOrder.order fo r'
    rw [into_copied, into_async, into_sent, received_append _ _ isAsync]
    dsimp only
    cases eq_or_ne r' r with
    | inl same =>
      rw [same, update_self, if_pos rfl, append_assoc, ← fromSender_take found]
      exact same ▸ before
    | inr other =>
      rw [update_of_ne other, if_neg other.symm, append_nil]
      exact before
  · rw [into_copied]
    exact inOrder.taken_append (inOrder.dst member)
  · rw [into_sent, into_nextId]
    exact inOrder.fresh
  · rw [into_sent]
    exact inOrder.nodup

theorem Edit.inOrder (calm : rules.calm) (inOrder : InOrder a) (edit : Edit rules a b) :
    InOrder b := by
  cases edit with
  | stage | finish | move | beginRecv | recordRupt | takeRupt | buffers | status =>
    exact ⟨inOrder.sync, inOrder.async,
      inOrder.armed, inOrder.order, inOrder.taken, inOrder.fresh, inOrder.nodup⟩
  | giveUp | release =>
    exact inOrder.of_less (fun _ _ is => .inl (unmark is (by simp)))
      (fun _ _ => .inl) rfl rfl rfl le_rfl
  | fail =>
    exact inOrder.of_less (fun _ _ is => .inl (unmark is (by simp)))
      (fun _ _ => .inl) rfl rfl rfl le_rfl
  | disarm mark free marked =>
    have noMessage : ∀ m, mark ≠ .message m := by
      rcases marked with rfl | ⟨rfl, _⟩ <;> exact nofun
    exact inOrder.of_less (fun _ _ is => .inl (unmark is noMessage)) (fun _ _ is => .inl (unarm is))
      rfl rfl rfl le_rfl
  | reset =>
    exact inOrder.of_less (fun _ _ is => .inl (unmark is (by simp))) (fun _ _ is => .inl (unarm is))
      rfl rfl rfl le_rfl
  | deliver new idle armed => exact inOrder.deliver new armed
  | post new idle isAsync notArmed => exact inOrder.post new isAsync notArmed
  | @queue m new idle sync takes checked apart =>
    refine inOrder.of_less ?_ (fun _ _ => .inl) rfl rfl rfl ?_
    · intro t m' is
      dsimp only at is
      rw [update_apply] at is
      split at is
      · cases is
        exact .inr sync
      · exact .inl is
    · exact Nat.le_succ a.nextId
  | @take fo r m fresh queued is may =>
    apply inOrder.of_less
    · intro t m' is'
      have message := into_message is'
      exact .inl (unmark message (by simp))
    · intro t foo is'
      have armed := into_armed is'
      exact .inl armed
    · exact into_async ..
    · rw [into_copied]
      exact asyncCopies_append (inOrder.sync fo m is)
    · exact into_sent ..
    · rw [into_nextId]
  | takeAsync fresh found may => exact inOrder.takeAsync found
  | @arm r foo dropped idle notArmed nothing noRupt =>
    refine inOrder.of_less (fun _ _ is => .inl (unmark is (by simp))) ?_ rfl rfl rfl le_rfl
    intro t foo' is
    dsimp only at is
    rw [update_apply] at is
    split at is
    · rename_i same
      cases is
      exact .inr (same ▸ nothing)
    · exact .inl is
  | clearAsync t lossy wild => exact absurd calm wild

end Mail

/-- In every state of a run of calls, what a thread has received from a sender is what the sender
sent to it first, in the order in which it was sent; no message was sent twice, and none was
received that was not sent to the thread. -/
theorem async_received_in_order {control : Fin n → Sched.Thread} {onCpu : Fin n → Bool}
    {process : Fin n → Fin p} {isMain isSystem : Fin n → Bool} {events : List (Event n p)}
    {s : Comm n p} (live : ∀ t, LiveThread (control t))
    (run : Run (CallStep fun _ _ => True) (Comm.start control onCpu process isMain isSystem) events
      s) :
    (∀ fo receiver, received s.copied fo receiver ++ fromSender fo (s.async receiver) =
      accepted s.sent fo receiver) ∧
      s.sent.Nodup ∧ ∀ c ∈ asyncCopies s.copied, c.message ∈ s.sent ∧
      c.message.dst = c.taker := by
  have start : (Comm.start control onCpu process isMain isSystem).mail.InOrder := by
    refine ⟨nofun, fun _ => nofun, nofun, fun _ _ => rfl, fun _ => nofun, fun _ => nofun,
      nodup_nil⟩
  have holds : Sound s ∧ s.mail.InOrder := by
    apply calls_keep ⟨False, False, False, False, True⟩ _ _
      (Comm.start_quiet live onCpu process isMain isSystem)
      (Comm.start_sound control onCpu process isMain isSystem)
      start run
    · exact fun s e call _ => ⟨False.elim, False.elim, False.elim, False.elim, fun _ => call⟩
    · exact fun a b inOrder _ edit => edit.inOrder trivial inOrder
  refine ⟨holds.2.order, holds.2.nodup, fun c there => ?_⟩
  have dst : c.message.dst = c.taker := holds.2.taken c there
  have got : c.message ∈ accepted s.sent c.message.src c.taker := by
    rw [← show _ = accepted s.sent _ _ from holds.2.order c.message.src c.taker]
    refine mem_append_left _ (mem_map.mpr ⟨c, mem_filter.mpr ⟨there, ?_⟩, rfl⟩)
    simp
  exact ⟨(mem_filter.mp got).1, dst⟩

/-- Thread 0 sends two messages to thread 1, which waits; thread 1 receives the first and then the
second. -/
theorem async_received_in_order_two :
    ∃ s : Comm 2 2, received s.copied 0 1 = [⟨0, 0, 1, true⟩, ⟨1, 0, 1, true⟩] ∧
      (∀ fo receiver, received s.copied fo receiver ++ fromSender fo (s.async receiver) =
        accepted s.sent fo receiver) ∧
        s.sent.Nodup ∧ ∀ c ∈ asyncCopies s.copied, c.message ∈ s.sent ∧
        c.message.dst = c.taker := by
  obtain ⟨s, run, both⟩ :
    ∃ s, Run (CallStep fun _ _ => True) (Comm.running 2) (sleepingRecv 1 .any ++
      [.send 0 (some 1) true .mapped true, .step 0, .send 0 (some 1) true .mapped true, .resume 1,
      .step 1, .step 1,
        .recv 1 (.thread 0) .mapped]) s ∧ received s.copied 0 1 = [⟨0, 0, 1, true⟩,
        ⟨1, 0, 1, true⟩] :=
    exists_runWhen (by decide +kernel)
  exact ⟨s, both, async_received_in_order (running_live 2) run⟩

end Mecocoa.Ipc
