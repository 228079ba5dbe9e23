import Mecocoa.Ipc.Mail

/-! # Queue links

The links of the send queues agree with the senders' own fields through every critical
section, and what such a section does to the messages is a series of changes of the mail.
-/

namespace Mecocoa.Ipc

open Comm Option

open Lib (Chains)
open Lib.LinkedQueues (firstFrom chainFrom)
open Sched (BlockReason blockedThread wokenThread)
open Function (update update_self update_of_ne)

structure Linked (s : Comm n p) (q : Fin n → List (Fin n)) : Prop where
  holds : s.queues.Holds q
  queued : ∀ t target, t ∈ q target ↔ s.sendTo t = some target

def Sound (s : Comm n p) : Prop := (∃ q, Linked s q) ∧ s.mail.Ok

/-- The links are right again, and the mail changed step by step. -/
def Refines (rules : Rules) (s s' : Comm n p) : Prop :=
  (∃ q, Linked s' q) ∧ Mail.Edits rules s.mail s'.mail

variable {s s' s'' : Comm n p}

theorem Refines.sound (sound : Sound s) (refines : Refines rules s s') : Sound s' :=
  ⟨refines.1, refines.2.ok sound.2⟩

theorem Refines.trans (first : Refines rules s s') (second : Refines rules s' s'') :
    Refines rules s s'' :=
  ⟨second.1, Relation.ReflTransGen.trans first.2 second.2⟩

theorem Refines.andThen (first : Refines rules s s') (sound : Sound s)
    (second : Sound s' → Refines rules s' s'') :
    Refines rules s s'' :=
  first.trans (second (first.sound sound))

theorem Sound.refl (sound : Sound s) : Refines rules s s := ⟨sound.1, .refl⟩

/-- The buffer of the call is noted. -/
theorem Refines.noted (refines : Refines rules s s') {sendMapped : Nat → Bool}
    {recvMapped : Fin n → Nat → Bool}
    (mapped : rules.careful → (∀ id, s'.sendMapped id = true → sendMapped id = true) ∧
      ∀ t call, s'.recvMapped t call = true → recvMapped t call = true) :
    Refines rules s { s' with sendMapped, recvMapped } := by
  obtain ⟨⟨q, linked⟩, edits⟩ := refines
  exact ⟨⟨q, linked.holds, linked.queued⟩,
    edits.tail (.buffers sendMapped recvMapped mapped)⟩

/-! ## Steps that leave the queues alone -/

theorem Linked.frame (linked : Linked s q) (queues : s'.queues = s.queues)
    (sendTo : s'.sendTo = s.sendTo) :
    Linked s' q where
  holds := queues ▸ linked.holds
  queued := sendTo ▸ linked.queued

variable (sound : Sound s)

include sound

/-- One change of the mail that does not concern the queues. -/
theorem Sound.edit (edit : Mail.Edit rules s.mail s'.mail) (queues : s'.queues = s.queues)
    (sendTo : s'.sendTo = s.sendTo) : Refines rules s s' := by
  obtain ⟨q, linked⟩ := sound.1
  exact ⟨⟨q, linked.frame queues sendTo⟩, .single edit⟩

omit sound in
theorem takesSends_of_state (takes : s.takesSends t = true) (process : s'.process = s.process)
    (procState : s'.procState = s.procState)
    (state : (s'.control t).state = (s.control t).state ∨ (s'.control t).state = .ready ∨
      (s'.control t).state = .running ∨ (s'.control t).state = .pended) :
    s'.takesSends t = true := by
  simp only [takesSends, gone, Bool.and_eq_true, Bool.not_eq_true', decide_eq_false_iff_not,
    not_or, process, procState] at takes ⊢
  refine ⟨?_, takes.2⟩
  rcases state with same | is | is | is
  · simpa [same] using takes.1
  all_goals simp [is]

theorem Sound.schedule {control} {onCpu}
    (states : ∀ t, (control t).state = (s.control t).state ∨ (control t).state = .ready ∨
      (control t).state = .running ∨ (control t).state = .pended) :
    Refines rules s { s with control, onCpu } := by
  refine sound.edit (.status _ _ (fun _ => id) fun _ t target _ takes => ?_) rfl rfl
  exact takesSends_of_state takes rfl rfl (states target)

omit sound in
theorem wokenThread_state (th : Sched.Thread) (reason : BlockReason) :
    (wokenThread th reason).state = th.state ∨ (wokenThread th reason).state = .ready := by
  unfold wokenThread
  dsimp only
  split
  · split
    · exact .inl rfl
    split
    · exact .inl rfl
    · exact .inr rfl
  · exact .inl rfl

omit sound in
theorem states_update
    (state : th.state = (s.control t).state ∨ th.state = .ready ∨ th.state = .running ∨
      th.state = .pended)
    (x : Fin n) :
    (update s.control t th x).state = (s.control x).state ∨
    (update s.control t th x).state = .ready ∨
      (update s.control t th x).state = .running ∨ (update s.control t th x).state = .pended := by
  cases eq_or_ne x t with
  | inl same =>
    rw [same, update_self]
    exact state
  | inr other =>
    rw [update_of_ne other]
    exact .inl rfl

theorem Sound.block (t : Fin n) (reason : BlockReason) : Refines rules s (s.block t reason) := by
  apply sound.schedule
  apply states_update
  unfold blockedThread
  split
  · exact .inl rfl
  · exact .inr (.inr (.inr rfl))

theorem Sound.unblock (t : Fin n) (reason : BlockReason) :
    Refines rules s (s.unblock t reason) := by
  apply sound.schedule
  apply states_update
  cases wokenThread_state (s.control t) reason with
  | inl same => exact .inl same
  | inr ready => exact .inr (.inl ready)

theorem Sound.yieldCpu (t : Fin n) : Refines rules s (s.yieldCpu t) := by
  apply sound.schedule
  apply states_update
  split
  · exact .inr (.inl rfl)
  · exact .inl rfl

/-- The threads that are to be woken, and pending signals. -/
theorem Sound.wakers (wakers : List (Waker n)) (signalled : Fin n → Bool) :
    Refines rules s { s with wakers, signalled } := by
  obtain ⟨q, linked⟩ := sound.1
  exact ⟨⟨q, linked.frame rfl rfl⟩, .refl⟩

omit sound in
theorem unlinkWaitEntry_eq (s : Comm n p) (t : Fin n) :
    ∃ waiters, s.unlinkWaitEntry t = { s with waiters } := by
  unfold unlinkWaitEntry
  split
  · exact ⟨_, rfl⟩
  · exact ⟨s.waiters, rfl⟩

omit sound in
theorem disarm_eq (s : Comm n p) (t : Fin n) (mark : Unsolved n) : ∃ waiters, s.disarm t mark =
    { s with
      waiters, unsolved := update s.unsolved t mark, recvFrom := update s.recvFrom t none } := by
  obtain ⟨waiters, eq⟩ := unlinkWaitEntry_eq s t
  exact ⟨waiters, by rw [disarm, eq]⟩

theorem Sound.disarm (free : s.sendTo t = none)
    (marked : mark = .dead ∨ mark = .null ∧ ¬ (s.call t).IsSend) : Refines rules s
    (s.disarm t mark) := by
  obtain ⟨waiters, eq⟩ := disarm_eq s t mark
  rw [eq]
  exact sound.edit (.disarm mark free marked) rfl rfl

theorem Sound.disarm_recv (other : ¬ (s.call t).IsSend) : Refines rules s (s.disarm t .null) :=
  sound.disarm ((sound.2 t).free_of_not_send other) (.inr ⟨rfl, other⟩)

theorem Sound.move (call : Call n) (before : ¬ (s.call t).IsSend) (after : ¬ call.IsSend)
    (waits : ∀ foo, s.recvFrom t = some foo → call.Waits foo) :
    Refines rules s (s.setCall t call) :=
  sound.edit (.move call before after waits) rfl rfl

theorem Sound.stage {stage} (stage' : SendStage)
    (is : s.call t = .send stage m) : Refines rules s (s.setCall t (.send stage' m)) :=
  sound.edit (.stage stage' is) rfl rfl

omit sound

/-! ## Leaving a queue -/

theorem Linked.enough (linked : Linked s q) (k : Fin n) : (q k).length ≤ n :=
  (linked.holds.length_le k).trans_eq (Fintype.card_fin n)

theorem Linked.absent (linked : Linked s q) (free : s.sendTo t = none) (k : Fin n) : t ∉ q k := by
  rw [linked.queued, free]
  exact nofun

/-- The sender is unlinked; its own link may then be used for something else. -/
theorem Linked.leave (linked : Linked s q) (queued : s.sendTo t = some target) :
    ∃ queues, s.queues.unlink n target t = some queues ∧
      ∀ link, ∃ q', (queues.setNext t link).Holds q' ∧
      ∀ x k, x ∈ q' k ↔ update s.sendTo t none x = some k := by
  obtain ⟨queues, unlinked, holds⟩ :=
    linked.holds.unlink ((linked.queued t target).mpr queued) (linked.enough target)
  have mem : ∀ x k, x ∈ update q target ((q target).erase t) k ↔
      update s.sendTo t none x = some k := by
    intro x k
    cases eq_or_ne k target with
    | inl same =>
      rw [same, update_self, (linked.holds.nodup target).mem_erase_iff, linked.queued]
      cases eq_or_ne x t with
      | inl is => simp [is]
      | inr other => simp [other]
    | inr other =>
      rw [update_of_ne other, linked.queued]
      cases eq_or_ne x t with
      | inl is => simp [is, queued, other.symm]
      | inr apart => simp [apart]
  refine ⟨queues, unlinked, fun link => ⟨_, holds.setNext ?_ link, mem⟩⟩
  intro k
  rw [mem, update_self]
  exact nofun

theorem update_none_free {sendTo : Fin n → Option (Fin n)} (free : sendTo t = none) :
    update sendTo t none = sendTo :=
  Function.update_eq_iff.mpr ⟨free.symm, fun _ _ => rfl⟩

/-- A sender left its queue, with a change of the mail. -/
theorem linked_left {queues}
    (holds : queues.Holds q') (mem : ∀ x k, x ∈ q' k ↔ update s.sendTo t none x = some k)
    (is : s'.queues = queues) (sendTo : s'.sendTo = update s.sendTo t none) : Linked s' q' where
  holds := is ▸ holds
  queued := sendTo ▸ mem

theorem Sound.withdraw (sound : Sound s) (queued : s.sendTo t = some target)
    (marked : mark = .dead ∨ mark = .null ∧ ¬ rules.careful)
    (eq : s.withdraw t target mark = some s') :
    Refines rules s s' := by
  obtain ⟨q, linked⟩ := sound.1
  obtain ⟨queues, unlinked, after⟩ := linked.leave queued
  obtain ⟨q', holds, mem⟩ := after none
  rw [Comm.withdraw, unlinked] at eq
  cases eq
  refine ⟨⟨q', linked_left holds mem rfl rfl⟩, .single ?_⟩
  have some' : s.sendTo t ≠ none := by simp [queued]
  rcases marked with rfl | ⟨rfl, lossy⟩
  · exact .fail some'
  · exact .release some' lossy

theorem Sound.giveUpSend (sound : Sound s) {stage : SendStage} (is : s.call t = .send stage m)
    (eq : s.giveUpSend t m = some s') : Refines rules s s' := by
  obtain ⟨q, linked⟩ := sound.1
  unfold Comm.giveUpSend at eq
  split at eq
  · rename_i queued
    obtain ⟨queues, unlinked, after⟩ := linked.leave queued
    obtain ⟨q', holds, mem⟩ := after none
    rw [unlinked] at eq
    cases eq
    exact ⟨⟨q', linked_left holds mem rfl rfl⟩, .single (.giveUp is)⟩
  · rename_i other
    have free : s.sendTo t = none := by
      cases queued : s.sendTo t with
      | none => rfl
      | some target =>
        obtain ⟨stage', m', is', dst, _⟩ := (sound.2 t).sending target queued
        cases is.symm.trans is'
        exact absurd (queued.trans (congrArg some dst.symm)) other
    cases eq
    refine ⟨⟨q, linked_left (linked.holds.setNext (linked.absent free) none) ?_ rfl rfl⟩,
      .single (.giveUp is)⟩
    intro x k
    rw [linked.queued, update_none_free free]

/-! ## Sending -/

theorem Sound.queueSend (sound : Sound s) (new : m.id = s.nextId) (idle : s.call m.src = .none)
    (sync : m.isAsync = false) (takes : s.takesSends m.dst = true)
    (checked : s.msgSendWillDeadlock m.src m.dst = some false) (apart : rules.apart →
      m.src ≠ m.dst)
    (eq : s.queueSend m true = some s') : Refines rules s s' := by
  obtain ⟨q, linked⟩ := sound.1
  have free : s.sendTo m.src = none := (sound.2 m.src).free fun stage m' is => by
    cases (show Call.none = .send stage m' from idle.symm.trans is)
  obtain ⟨queues, pushed, holds⟩ := linked.holds.push (linked.absent free) (linked.enough m.dst)
  rw [Comm.queueSend, pushed] at eq
  cases eq
  refine ⟨⟨_, holds, ?_⟩, .single (.queue new idle sync takes checked apart)⟩
  · intro x k
    dsimp only
    cases eq_or_ne x m.src with
    | inl same =>
      rw [same, update_self]
      cases eq_or_ne k m.dst with
      | inl is => simp [is]
      | inr other => simp [other, other.symm, linked.absent free k]
    | inr other =>
      rw [update_of_ne other]
      cases eq_or_ne k m.dst with
      | inl is => simp [is, other, linked.queued]
      | inr apart => simp [apart, linked.queued]

theorem Sound.deliver (sound : Sound s) (new : m.id = s.nextId) (idle : s.call m.src = .none)
    (armed : s.armedFor m.dst m.src = true) : Refines rules s (s.deliver m) := by
  obtain ⟨waiters, eq⟩ := disarm_eq (s.copyTo m.dst m) m.dst .null
  rw [Comm.deliver, eq]
  refine sound.edit (.deliver new idle ?_) rfl rfl
  simp only [armedFor, decide_eq_true_eq] at armed
  exact armed.2

/-- A receiver that waits has a buffer, so that a sender whom it waits for finds it armed. -/
theorem Sound.notArmed (sound : Sound s) (notArmed : s.armedFor receiver fo = false) :
    ¬ (s.recvFrom receiver = some (.thread fo) ∨ s.recvFrom receiver = some .any) := by
  intro waits
  simp only [armedFor, decide_eq_false_iff_not, not_and] at notArmed
  refine notArmed ?_ waits
  intro null
  have : ∃ foo, s.mail.recvFrom receiver = some foo := by
    rcases waits with is | is <;> exact ⟨_, is⟩
  obtain ⟨foo, is⟩ := this
  have buffer : s.unsolved receiver = .buffer := ((sound.2 receiver).armed foo is).1
  rw [null] at buffer
  cases buffer

theorem takesSends_of_canComm (can : s.canCommThread t = true) : s.takesSends t = true := by
  simp only [canCommThread, Bool.and_eq_true, Bool.not_eq_true', decide_eq_true_eq] at can
  simp [takesSends, can.1.1, can.2]

theorem Sound.msgSend (sound : Sound s) {target}
    (idle : s.call fo = .none) (msg : isAsync = false → hasMsg = true)
    (apart : rules.apart → isAsync = false → target ≠ some fo)
    (eq : s.msgSend fo target isAsync hasMsg alloc = some s') :
    Refines rules s s' := by
  cases target with
  | none =>
    cases eq
    exact sound.refl
  | some target =>
    simp only [Comm.msgSend] at eq
    split at eq
    · cases eq
      exact sound.refl
    rename_i can
    obtain ⟨deadlock, checked, eq⟩ := bind_eq_some_iff.mp eq
    split at eq
    · cases eq
      exact sound.refl
    rename_i free
    split at eq
    · rename_i armed
      cases eq
      exact sound.deliver rfl idle armed
    rename_i notArmed
    cases isAsync with
    | true =>
      simp only [if_true] at eq
      split at eq
      · cases eq
        exact sound.refl
      · cases eq
        exact sound.edit (.post rfl idle rfl (sound.notArmed (by simpa using notArmed))) rfl rfl
    | false =>
      simp only [Bool.false_eq_true, if_false] at eq checked
      split at eq
      · cases eq
        exact sound.refl
      · rw [msg rfl] at eq
        refine sound.queueSend rfl idle rfl ?_ ?_ ?_ eq
        · apply takesSends_of_canComm
          simp only [not_or, Bool.not_eq_false] at can
          exact can.2
        · rw [checked]
          simpa using free
        · intro rule same
          exact apart rule rfl (congrArg some same.symm)

/-! ## Taking messages -/

/-- What is left alone when senders are taken out of a queue. -/
structure SameReceivers (s s' : Comm n p) : Prop where
  call : s'.call = s.call
  recvFrom : s'.recvFrom = s.recvFrom
  async : s'.async = s.async
  waitRupt : s'.waitRupt = s.waitRupt
  control : s'.control = s.control
  process : s'.process = s.process
  procState : s'.procState = s.procState
  sends : ∀ x k, s'.sendTo x = some k → s.sendTo x = some k

theorem SameReceivers.refl (s : Comm n p) : SameReceivers s s :=
  ⟨rfl, rfl, rfl, rfl, rfl, rfl, rfl, fun _ _ => id⟩

theorem SameReceivers.trans (first : SameReceivers s s') (second : SameReceivers s' s'') :
    SameReceivers s s'' :=
  ⟨second.call.trans first.call, second.recvFrom.trans first.recvFrom,
  second.async.trans first.async,
    second.waitRupt.trans first.waitRupt, second.control.trans first.control,
    second.process.trans first.process,
    second.procState.trans first.procState, fun x k queued =>
    first.sends x k (second.sends x k queued)⟩

theorem SameReceivers.canCommThread (same : SameReceivers s s') (t : Fin n) :
    s'.canCommThread t = s.canCommThread t := by
  simp only [Comm.canCommThread, Comm.gone, Comm.blockedFor, same.control, same.process,
    same.procState]

theorem SameReceivers.blockedFor (same : SameReceivers s s') (t : Fin n) (reason : BlockReason) :
    s'.blockedFor t reason = s.blockedFor t reason := by
  simp only [Comm.blockedFor, same.control]

/-- A receive from the source drops the sender from the queue of the receiver. -/
def Comm.Drops (s : Comm n p) (receiver : Fin n) (foo : Source n) (x : Fin n) : Prop :=
  ∃ out ∈ s.selectSender receiver foo, s.sendTo x = some receiver ∧ out.1.sendTo x = none

/-- The senders that are dropped are blocked by now; and where no message is to be lost they are
told that their message was not taken. -/
structure SendersOk (rules : Rules) (s : Comm n p) (receiver : Fin n) (foo : Source n) : Prop where
  blocked : ∀ x, s.Drops receiver foo x → s.blockedFor x brSendMsg = true
  told : rules.careful → ∀ x, s.Drops receiver foo x → foo ≠ .any ∧ s.gone x = false

theorem Sound.hasMessage (sound : Sound s) (queued : s.sendTo t = some target) :
    ∃ m, s.unsolved t = .message m ∧ m.dst = target ∧ m.src = t := by
  obtain ⟨stage, m, is, dst, un⟩ := (sound.2 t).sending target queued
  exact ⟨m, un, dst, (sound.2 t).own m (.inl ⟨stage, is⟩)⟩

theorem Sound.usable_iff (sound : Sound s) (queued : s.sendTo t = some target) :
    s.canUseSyncMsgState t = s.canCommThread t := by
  obtain ⟨m, un, _⟩ := sound.hasMessage queued
  simp [canUseSyncMsgState, un]

theorem Sound.dropQueuedSender (sound : Sound s) (queued : s.sendTo sender = some receiver)
    (blocked : s.blockedFor sender brSendMsg = true)
    (told : rules.careful → stale = true ∧ s.gone sender = false)
    (eq : s.dropQueuedSender receiver sender dropped stale = some out) :
    Refines rules s out.1 ∧ SameReceivers s out.1 ∧
      out.1.sendTo = update s.sendTo sender none := by
  obtain ⟨q, linked⟩ := sound.1
  obtain ⟨queues, unlinked, after⟩ := linked.leave queued
  obtain ⟨q', holds, mem⟩ := after (if s.gone sender then none else dropped)
  rw [Comm.dropQueuedSender, unlinked] at eq
  simp only [map_some, blocked, if_true, some.injEq] at eq
  have some' : s.sendTo sender ≠ none := by simp [queued]
  rw [← eq]
  refine ⟨⟨⟨q', linked_left holds mem rfl rfl⟩, .single ?_⟩,
    ⟨rfl, rfl, rfl, rfl, rfl, rfl, rfl, fun _ _ => update_none_some⟩, rfl⟩
  dsimp only [mail]
  split
  · exact .fail some'
  · rename_i silent
    exact .release some' fun careful => silent (told careful)

/-- A sender that is out of the queue stays out of it. -/
theorem dropUnusable_sendTo : ∀ {fuel : Nat} {s : Comm n p} {dropped : Option (Fin n)},
    dropUnusable receiver fuel s dropped = some out → s.sendTo x = none →
      out.1.sendTo x = none := by
  intro fuel
  induction fuel with
  | zero => intro s dropped eq; cases eq
  | succ fuel ih =>
    intro s dropped eq free
    rw [Comm.dropUnusable] at eq
    split at eq
    · cases eq
      exact free
    split at eq
    · cases eq
      exact free
    obtain ⟨mid, drop, rest⟩ := bind_eq_some_iff.mp eq
    obtain ⟨queues, _, is⟩ := map_eq_some_iff.mp drop
    refine ih rest ?_
    cases is
    simp [Function.update_apply, free]

theorem Sound.dropUnusable : ∀ {fuel : Nat} {s : Comm n p} {dropped : Option (Fin n)}, Sound s →
    dropUnusable receiver fuel s dropped = some out →
    (∀ x, s.sendTo x = some receiver → out.1.sendTo x = none →
      s.blockedFor x brSendMsg = true ∧ ¬ rules.careful) →
    Refines rules s out.1 ∧ SameReceivers s out.1 := by
  intro fuel
  induction fuel with
  | zero => intro s dropped _ eq; cases eq
  | succ fuel ih =>
    intro s dropped sound eq drops
    rw [Comm.dropUnusable] at eq
    split at eq
    · cases eq
      exact ⟨sound.refl, .refl s⟩
    rename_i sender first
    split at eq
    · cases eq
      exact ⟨sound.refl, .refl s⟩
    obtain ⟨mid, drop, rest⟩ := bind_eq_some_iff.mp eq
    obtain ⟨q, linked⟩ := sound.1
    have queued := (linked.queued sender receiver).mp (linked.holds.mem_of_head first)
    have out : mid.1.sendTo sender = none := by
      obtain ⟨queues, _, is⟩ := map_eq_some_iff.mp drop
      cases is
      exact update_self ..
    obtain ⟨blocked, lossy⟩ := drops sender queued (dropUnusable_sendTo rest out)
    obtain ⟨refines, same, left⟩ := sound.dropQueuedSender queued blocked
      (fun careful : rules.careful => absurd careful lossy) drop
    have drops' : ∀ x, mid.1.sendTo x = some receiver → _ := fun x queued' none =>
      drops x (same.sends x receiver queued') none
    obtain ⟨refines', same'⟩ :=
      ih (refines.sound sound) rest (by simpa only [same.blockedFor] using drops')
    exact ⟨refines.trans refines', same.trans same'⟩

theorem Sound.selectSender (sound : Sound s) (senders : SendersOk rules s receiver foo)
    (eq : s.selectSender receiver foo = some out) :
    Refines rules s out.1 ∧ SameReceivers s out.1 ∧
      ∀ fo, out.2.2 = some fo → out.1.sendTo fo = some receiver := by
  have drops : ∀ x, s.sendTo x = some receiver → out.1.sendTo x = none →
      s.Drops receiver foo x :=
    fun x queued none => ⟨out, eq, queued, none⟩
  cases foo with
  | any =>
    obtain ⟨out', dropped, is⟩ := map_eq_some_iff.mp eq
    cases is
    obtain ⟨refines, same⟩ := sound.dropUnusable dropped fun x queued none =>
      ⟨senders.blocked x (drops x queued none),
        fun careful : rules.careful => (senders.told careful x (drops x queued none)).1 rfl⟩
    obtain ⟨q, linked⟩ := refines.1
    exact ⟨refines, same, fun fo first => (linked.queued fo receiver).mp
      (linked.holds.mem_of_head first)⟩
  | intrupt =>
    cases eq
    exact ⟨sound.refl, .refl s, nofun⟩
  | thread fo =>
    simp only [Comm.selectSender] at eq
    split at eq
    · cases eq
      exact ⟨sound.refl, .refl s, nofun⟩
    rename_i queued
    simp only [ne_eq, not_not] at queued
    obtain ⟨found, _, eq⟩ := bind_eq_some_iff.mp eq
    split at eq
    · cases eq
      exact ⟨sound.refl, .refl s, nofun⟩
    split at eq
    · cases eq
      refine ⟨sound.refl, .refl s, ?_⟩
      intro fo' is
      cases is
      exact queued
    · obtain ⟨out', drop, is⟩ := map_eq_some_iff.mp eq
      have out : out'.1.sendTo fo = none := by
        obtain ⟨queues, _, is⟩ := map_eq_some_iff.mp drop
        cases is
        exact update_self ..
      cases is
      have dropped := drops fo queued out
      obtain ⟨refines, same, _⟩ := sound.dropQueuedSender queued (senders.blocked fo dropped)
        (fun careful => ⟨rfl, (senders.told careful fo dropped).2⟩) drop
      exact ⟨refines, same, nofun⟩

theorem Linked.takeSender (linked : Linked s q)
    (queued : s.sendTo fo = some receiver) (un : s.unsolved fo = .message m) :
    ∃ queues q', queues.Holds q' ∧
      (∀ x k, x ∈ q' k ↔ update s.sendTo fo none x = some k) ∧
      s.takeSender receiver fo = some { s.copyTo receiver m with
        queues, unsolved := update s.unsolved fo .null, sendTo := update s.sendTo fo none } := by
  obtain ⟨queues, unlinked, after⟩ := linked.leave queued
  obtain ⟨q', holds, mem⟩ := after none
  refine ⟨_, q', holds, mem, ?_⟩
  rw [Comm.takeSender, unlinked, un]
  rfl

theorem Sound.takeFresh (sound : Sound s) (queued : s.sendTo fo = some receiver)
    (other : ¬ (s.call receiver).IsSend) (notArmed : s.recvFrom receiver = none)
    (eq : (s.beginRecv receiver).takeSender receiver fo = some s') :
    Refines rules s s' ∧ s'.call = s.call ∧ s'.recvFrom = s.recvFrom := by
  obtain ⟨q, linked⟩ := sound.1
  obtain ⟨m, un, _⟩ := sound.hasMessage queued
  have linked' : Linked (s.beginRecv receiver) q := linked.frame rfl rfl
  obtain ⟨queues, q', holds, mem, taken⟩ := linked'.takeSender queued un
  cases taken.symm.trans eq
  refine ⟨⟨⟨q', linked_left holds mem rfl rfl⟩, .single ?_⟩, rfl, rfl⟩
  have edit : Mail.Edit rules s.mail _ := .take true queued un ⟨other, notArmed⟩
  simpa [Mail.into, mail, takesSends, gone, copyTo, beginRecv] using edit

theorem Sound.takeArmed (sound : Sound s) (queued : s.sendTo fo = some receiver)
    (other : ¬ (s.call receiver).IsSend) (armed : rules.careful → s.recvFrom receiver ≠ none)
    (eq : s.takeSender receiver fo = some s') :
    Refines rules s (s'.disarm receiver .null) ∧ s'.call = s.call := by
  obtain ⟨q, linked⟩ := sound.1
  obtain ⟨m, un, _⟩ := sound.hasMessage queued
  obtain ⟨queues, q', holds, mem, taken⟩ := linked.takeSender queued un
  cases taken.symm.trans eq
  obtain ⟨waiters, disarmed⟩ := disarm_eq { s.copyTo receiver m with
    queues, unsolved := update s.unsolved fo .null, sendTo :=
    update s.sendTo fo none } receiver .null
  rw [disarmed]
  exact ⟨⟨⟨q', linked_left holds mem rfl rfl⟩, .single
    (.take false queued un ⟨other, armed⟩)⟩, rfl⟩

end Mecocoa.Ipc
