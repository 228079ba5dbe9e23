import Mecocoa.Ipc.Links

/-! # Steps of message passing

Every step keeps the links of the queues and changes the mail step by step, as long as it
is none of those that lose track of a sender.
-/

namespace Mecocoa.Ipc

open Comm Option

open Lib (Chains)
open Lib.LinkedQueues (firstFrom chainFrom)
open Sched (BlockReason)
open Function (update update_self update_of_ne update_apply)

variable {s s' : Comm n p}

/-! ## Conditions -/

/-- The receive comes to look at the queue of the receiver. -/
def Comm.looks (s : Comm n p) (receiver : Fin n) (foo : Source n) : Bool :=
  s.canCommThread receiver ∧ s.canReceiveFrom foo ∧
    ¬ (s.waitRupt receiver ≠ 0 ∧ (foo = .any ∨ foo = .intrupt))

/-- A receive that looks at the queue again drops only senders that are blocked, and a dropped
sender is woken before it is queued again. -/
def OrderlyCall (s : Comm n p) (t : Fin n) : Call n → Prop
  | .recv .sync foo => ∀ x, s.Drops t foo x → s.blockedFor x brSendMsg = true
  | .drop _ (some sender) _ => s.sendTo sender = none
  | _ => True

/-- The step does not lose track of a sender: one whose message is a null pointer, one that is
dropped before it is blocked, one that is queued again before the party that dropped it has
woken it, or one in the queue of a thread that gets a new image. -/
def Orderly (s : Comm n p) : Event n p → Prop
  | .send _ _ isAsync buffer _ => isAsync = false → buffer ≠ .null
  | .recv receiver foo _ =>
    s.looks receiver foo = true → ∀ x, s.Drops receiver foo x →
    s.blockedFor x brSendMsg = true
  | .step t => OrderlyCall s t (s.call t)
  | .wake i => ∀ w ∈ s.wakers[i]?, ∀ sender ∈ w.dropped, s.sendTo sender = none
  | .cleanup t _ => ∀ x, s.sendTo x = some t → s.blockedFor x brSendMsg = true
  | .exet t => (∀ x, s.sendTo x ≠ some t) ∧ s.sendTo t = none
  | _ => True

/-- A receive that looks at the queues again still waits, and a sender that it drops is told so. -/
def CarefulCall (s : Comm n p) (t : Fin n) : Call n → Prop
  | .recv .sync foo =>
    (∀ x, s.Drops t foo x → foo ≠ .any ∧ s.gone x = false) ∧ s.recvFrom t ≠ none
  | .recv .async _ => s.recvFrom t ≠ none
  | _ => True

/-- The step does not lose a message: no queued sender is let go without its message, no
asynchronous messages are thrown away on a signal, a receive that looks at the queues
again still waits, and the buffers of the calls are mapped. -/
def Careful (s : Comm n p) : Event n p → Prop
  | .send _ _ _ buffer _ => buffer = .mapped
  | .recv receiver foo buffer => buffer = .mapped ∧
    (s.looks receiver foo = true → ∀ x, s.Drops receiver foo x → foo ≠ .any ∧
    s.gone x = false)
  | .step t => CarefulCall s t (s.call t)
  | .cleanup t dying => (∀ x, s.sendTo x ≠ some t) ∧ (dying = false → s.async t = [])
  | .severSend t q =>
    ∀ target, s.sendTo t = some target → s.blockedFor t brSendMsg = true →
    s.process target ≠ q
  | .exitSenders t => ∀ x, s.sendTo x ≠ some t
  | _ => True

/-- No interrupt comes to a thread that waits for one but is not blocked yet. -/
def Prompt (s : Comm n p) : Event n p → Prop
  | .rupt t _ => s.recvFrom t = some .any ∨ s.recvFrom t = some .intrupt →
    s.blockedFor t brRecvMsg = true
  | _ => True

/-- No thread ends, and no process becomes a zombie, while senders wait for it. -/
def Lasting (s : Comm n p) : Event n p → Prop
  | .exitThread t => ∀ x, s.sendTo x ≠ some t
  | .zombie q => ∀ x target, s.sendTo x = some target → s.process target ≠ q
  | _ => True

/-- No thread sends a message to itself and waits. -/
def Apart : Event n p → Prop
  | .send fo target isAsync _ _ => isAsync = false → target ≠ some fo
  | _ => True

/-- Sending with a message, receiving and scheduling. -/
def Event.IsCall : Event n p → Prop
  | .send _ _ isAsync buffer _ => isAsync = false → buffer ≠ .null
  | .pend _ reason => reason &&& brExiting = 0
  | .recv _ _ _ | .step _ | .preempt _ | .resume _ | .unblock _ _ | .rupt _ _ | .wake _ => True
  | .signal _ | .cleanup _ _ | .exitThread _ | .expire _ | .severSend _ _
    | .severRecv _ _ | .exitSenders _
  | .zombie _ | .invalidate _ | .exet _ => False

instance (s : Comm n p) (receiver : Fin n) (foo : Source n) (x : Fin n) :
    Decidable (s.Drops receiver foo x) :=
  inferInstanceAs (Decidable (∃ out ∈ s.selectSender receiver foo, _ ∧ _))

instance (s : Comm n p) (t : Fin n) (call : Call n) : Decidable (OrderlyCall s t call) := by
  unfold OrderlyCall
  split <;> infer_instance

instance (s : Comm n p) (e : Event n p) : Decidable (Orderly s e) := by
  unfold Orderly
  split <;> infer_instance

instance (s : Comm n p) (e : Event n p) : Decidable (Lasting s e) := by
  unfold Lasting
  split <;> infer_instance

instance (s : Comm n p) (t : Fin n) (call : Call n) : Decidable (CarefulCall s t call) := by
  unfold CarefulCall
  split <;> infer_instance

instance (s : Comm n p) (e : Event n p) : Decidable (Careful s e) := by
  unfold Careful
  split <;> infer_instance

instance (s : Comm n p) (e : Event n p) : Decidable (Prompt s e) := by
  unfold Prompt
  split <;> infer_instance

instance (e : Event n p) : Decidable (Apart e) := by
  unfold Apart
  split <;> infer_instance

instance (e : Event n p) : Decidable e.IsCall := by
  unfold Event.IsCall
  split <;> infer_instance

structure Keeps (rules : Rules) (s : Comm n p) (e : Event n p) : Prop where
  careful : rules.careful → Careful s e
  prompt : rules.prompt → Prompt s e
  lasting : rules.lasting → Lasting s e
  apart : rules.apart → Apart e
  calm : rules.calm → e.IsCall

/-! ## Receiving -/

variable (sound : Sound s)

include sound

theorem Sound.takeAsync_fresh (other : ¬ (s.call r).IsSend)
    (notArmed : s.recvFrom r = none) (eq : (s.beginRecv r).takeAsync r foo = some s') :
    Refines rules s s' ∧ s'.call = s.call ∧ s'.recvFrom = s.recvFrom := by
  obtain ⟨m, found, is⟩ := map_eq_some_iff.mp eq
  cases is
  have edit : Mail.Edit rules s.mail _ := .takeAsync true found ⟨other, notArmed⟩
  refine ⟨sound.edit ?_ rfl rfl, rfl, rfl⟩
  simpa [Mail.into, mail, takesSends, gone, copyTo, beginRecv] using edit

theorem Sound.takeAsync_armed (other : ¬ (s.call r).IsSend)
    (armed : rules.careful → s.recvFrom r ≠ none) (eq : s.takeAsync r foo = some s') :
    Refines rules s (s'.disarm r .null) ∧ s'.call = s.call := by
  obtain ⟨m, found, is⟩ := map_eq_some_iff.mp eq
  cases is
  obtain ⟨waiters, disarmed⟩ := disarm_eq
    { s.copyTo r m with async := update s.async r ((s.async r).eraseP foo.picks) } r .null
  rw [disarmed]
  exact ⟨sound.edit (.takeAsync false found ⟨other, armed⟩) rfl rfl, rfl⟩

theorem Sound.beginRecv (notArmed : s.recvFrom r = none) : Refines rules s (s.beginRecv r) :=
  sound.edit (.beginRecv r notArmed) rfl rfl

theorem Sound.msgRecv
    (idle : s.call receiver = .none)
    (senders : s.looks receiver foo = true → SendersOk rules s receiver foo)
    (eq : s.msgRecv receiver foo hasMsg = some s') : Refines rules s s' := by
  unfold Comm.msgRecv at eq
  split at eq
  · cases eq
    exact sound.refl
  rename_i can
  split at eq
  · cases eq
    exact sound.edit (.takeRupt receiver) rfl rfl
  rename_i noRupt
  have senders := senders (by simp_all [Comm.looks])
  obtain ⟨⟨s₁, dropped, chosen⟩, selected, eq⟩ := bind_eq_some_iff.mp eq
  obtain ⟨refines, same, queued⟩ := sound.selectSender senders selected
  have sound₁ : Sound s₁ := refines.sound sound
  have idle₁ : s₁.call receiver = .none := by rw [same.call, idle]
  have notSend : ¬ (s₁.call receiver).IsSend := by rw [idle₁]; exact id
  have notArmed : s₁.recvFrom receiver = none :=
      (sound₁.2 receiver).notArmed fun foo waits => by
    rw [show s₁.mail.call receiver = .none from idle₁] at waits
    exact waits
  refine refines.trans ?_
  cases chosen with
  | some fo =>
    obtain ⟨s₂, taken, is⟩ := map_eq_some_iff.mp eq
    cases is
    obtain ⟨refines₂, call, recvFrom⟩ :=
      sound₁.takeFresh (queued fo rfl) notSend notArmed taken
    refine refines₂.andThen sound₁ fun sound => sound.move _ (by rwa [call]) id ?_
    rw [recvFrom, notArmed]
    exact nofun
  | none =>
    dsimp only at eq
    split at eq
    · rename_i s₂ taken
      cases eq
      obtain ⟨refines₂, call, recvFrom⟩ := sound₁.takeAsync_fresh notSend notArmed taken
      refine refines₂.andThen sound₁ fun sound => sound.move _ (by rwa [call]) id ?_
      rw [recvFrom, notArmed]
      exact nofun
    rename_i nothing
    split at eq
    · cases eq
      refine (sound₁.beginRecv notArmed).andThen sound₁ fun sound => sound.move _ notSend id ?_
      rw [show (s₁.beginRecv receiver).recvFrom receiver = none from notArmed]
      exact nofun
    · cases eq
      refine sound₁.edit (.arm dropped notSend notArmed ?_ ?_) rfl rfl
      · intro m there
        have none := List.find?_eq_none.mp (map_eq_none_iff.mp nothing) m there
        simpa using none
      · intro forRupt
        rw [show s₁.mail.waitRupt = s.waitRupt from same.waitRupt]
        by_contra pending
        apply noRupt
        refine ⟨pending, ?_⟩
        rcases forRupt with is | is
        · exact .inl (some.inj is)
        · exact .inr (some.inj is)

theorem Sound.clearLink (free : s.sendTo sender = none) (wakers : List (Waker n)) :
    Refines rules s { s with queues := s.queues.setNext sender none, wakers } := by
  obtain ⟨q, linked⟩ := sound.1
  exact ⟨⟨q, linked.holds.setNext (linked.absent free) none, linked.queued⟩, .refl⟩

theorem Sound.dropStep
    (is : s.call t = .drop foo dropped after)
    (free : ∀ sender ∈ dropped, s.sendTo sender = none) :
    Refines rules s (s.dropStep t foo dropped after) := by
  have notSend : ¬ (s.call t).IsSend := by rw [is]; exact id
  have waits : ∀ foo', s.recvFrom t = some foo' → (Call.drop foo dropped after).Waits foo' := by
    intro foo' armed
    have := ((sound.2 t).armed foo' armed).2
    rwa [show s.mail.call t = _ from is] at this
  cases dropped with
  | some sender =>
    have cleared : Refines rules s { s with queues := s.queues.setNext sender none } :=
      sound.clearLink (free sender rfl) s.wakers
    refine cleared.andThen sound fun sound =>
        (sound.unblock sender brSendMsg).andThen sound fun sound =>
      sound.move _ notSend id ?_
    intro foo' armed
    have := waits foo' armed
    cases after <;> exact this
  | none =>
    cases after with
    | done =>
      exact sound.move _ notSend id fun foo' armed => (waits foo' armed).elim
    | wake fo =>
      exact (sound.unblock fo brSendMsg).andThen sound fun sound =>
        sound.move _ notSend id fun foo' armed => (waits foo' armed).elim
    | block => exact sound.move _ notSend id waits
    | async => exact sound.move _ notSend id waits

theorem Sound.recvStep {stage} (is : s.call t = .recv stage foo)
    (senders : stage = .sync → SendersOk rules s t foo)
    (armed : rules.careful → stage = .sync ∨ stage = .async → s.recvFrom t ≠ none)
    (eq : s.recvStep t foo stage = some s') : Refines rules s s' := by
  have notSend : ¬ (s.call t).IsSend := by rw [is]; exact id
  have waits : ∀ foo', s.recvFrom t = some foo' → foo = foo' := by
    intro foo' armed
    have := ((sound.2 t).armed foo' armed).2
    rwa [show s.mail.call t = _ from is] at this
  -- A receive with nothing unsolved does not wait.
  have settled : s.unsolved t = .null → s.recvFrom t = none := by
    intro null
    cases armed : s.recvFrom t with
    | none => rfl
    | some foo' =>
      have : s.unsolved t = .buffer := ((sound.2 t).armed foo' armed).1
      rw [null] at this
      cases this
  have leave : Refines rules s ((s.disarm t .null).setCall t .none) := by
    obtain ⟨waiters, same⟩ := disarm_eq s t .null
    refine (sound.disarm_recv notSend).andThen sound fun sound => sound.move _ ?_ id ?_
    · rwa [same]
    · simp [same]
  cases stage with
  | block =>
    cases eq
    exact (sound.block t brRecvMsg).andThen sound fun sound => sound.move _ notSend id waits
  | check =>
    simp only [Comm.recvStep] at eq
    split at eq
    · cases eq
      exact sound.move _ notSend id waits
    · cases eq
      exact sound.move _ notSend id waits
  | sleep =>
    cases eq
    exact (sound.yieldCpu t).andThen sound fun sound => sound.move _ notSend id waits
  | woken =>
    simp only [Comm.recvStep] at eq
    split at eq
    · cases eq
      exact leave
    · cases eq
      exact sound.move _ notSend id waits
  | self =>
    simp only [Comm.recvStep] at eq
    split at eq
    · cases eq
      exact sound.move _ notSend id waits
    · cases eq
      exact (sound.unblock t brRecvMsg).andThen sound fun sound => sound.move _ notSend id waits
  | look =>
    simp only [Comm.recvStep] at eq
    split at eq
    · rename_i null
      cases eq
      refine sound.move _ notSend id ?_
      rw [settled null]
      exact nofun
    · cases eq
      exact sound.move _ notSend id waits
  | signal =>
    simp only [Comm.recvStep] at eq
    split at eq
    · cases eq
      exact leave
    · cases eq
      exact sound.move _ notSend id waits
  | sync =>
    obtain ⟨⟨s₁, dropped, chosen⟩, selected, eq⟩ := bind_eq_some_iff.mp eq
    obtain ⟨refines, same, queued⟩ := sound.selectSender (senders rfl) selected
    have sound₁ : Sound s₁ := refines.sound sound
    have notSend₁ : ¬ (s₁.call t).IsSend := by rwa [same.call]
    refine refines.trans ?_
    cases chosen with
    | some fo =>
      obtain ⟨s₂, taken, done⟩ := map_eq_some_iff.mp eq
      cases done
      have armed₁ : rules.careful → s₁.recvFrom t ≠ none := by
        rw [same.recvFrom]
        exact fun careful => armed careful (.inl rfl)
      obtain ⟨refines₂, call⟩ := sound₁.takeArmed (queued fo rfl) notSend₁ armed₁ taken
      obtain ⟨waiters, disarmed⟩ := disarm_eq s₂ t .null
      refine refines₂.andThen sound₁ fun sound => sound.move _ ?_ id ?_
      · rw [disarmed]
        rwa [call]
      · simp [disarmed]
    | none =>
      cases eq
      refine sound₁.move _ notSend₁ id ?_
      rw [same.recvFrom]
      exact waits
  | async =>
    simp only [Comm.recvStep] at eq
    split at eq
    · rename_i s₂ taken
      cases eq
      obtain ⟨refines₂, call⟩ :=
        sound.takeAsync_armed notSend (fun careful => armed careful (.inr rfl)) taken
      obtain ⟨waiters, disarmed⟩ := disarm_eq s₂ t .null
      refine refines₂.andThen sound fun sound => sound.move _ ?_ id ?_
      · rw [disarmed]
        rwa [call]
      · simp [disarmed]
    · cases eq
      exact sound.move _ notSend id waits

omit sound

/-! ## Sending -/

theorem Sound.sendStep (sound : Sound s) {stage} (is : s.call t = .send stage m)
    (eq : s.sendStep t m stage = some s') : Refines rules s s' := by
  cases stage with
  | block =>
    cases eq
    exact (sound.block t brSendMsg).andThen sound fun sound => sound.stage .check is
  | check =>
    simp only [Comm.sendStep] at eq
    split at eq
    · cases eq
      exact sound.stage .self is
    · cases eq
      exact sound.stage .sleep is
  | sleep =>
    cases eq
    exact (sound.yieldCpu t).andThen sound fun sound => sound.stage .woken is
  | woken =>
    simp only [Comm.sendStep] at eq
    split at eq
    · exact sound.giveUpSend is eq
    · cases eq
      exact sound.stage .look is
  | self =>
    cases eq
    exact (sound.unblock t brSendMsg).andThen sound fun sound => sound.stage .look is
  | look =>
    simp only [Comm.sendStep] at eq
    split at eq
    · rename_i null
      cases eq
      exact sound.edit (.finish (.inl ⟨is, null⟩)) rfl rfl
    · cases eq
      exact sound.stage .signal is
  | signal =>
    simp only [Comm.sendStep] at eq
    split at eq
    · exact sound.giveUpSend is eq
    · cases eq
      exact sound.stage .block is

theorem Sound.callStep (sound : Sound s) (orderly : Orderly s (.step t))
    (careful : rules.careful → Careful s (.step t)) (eq : s.callStep t = some s') :
    Refines rules s s' := by
  unfold Comm.callStep at eq
  simp only [Orderly] at orderly
  simp only [Careful] at careful
  split at eq
  · cases eq
  · rename_i is
    exact sound.sendStep is eq
  · rename_i m is
    cases eq
    exact (sound.unblock m.dst brRecvMsg).andThen sound fun sound =>
      sound.edit (.finish (.inr is)) rfl rfl
  · rename_i stage foo is
    rw [is] at orderly careful
    apply sound.recvStep is _ _ eq
    · rintro rfl
      exact ⟨orderly, fun rule => (careful rule).1⟩
    · rintro rule (rfl | rfl)
      · exact (careful rule).2
      · exact careful rule
  · rename_i foo dropped after is
    rw [is] at orderly
    cases eq
    apply sound.dropStep is
    rintro sender ⟨⟩
    exact orderly

/-! ## Interrupts -/

theorem Sound.ruptProc (sound : Sound s) (prompt : rules.prompt → Prompt s (.rupt t ruptNo)) :
    Refines rules s (s.ruptProc t ruptNo) := by
  unfold Comm.ruptProc
  split
  · rename_i waits
    have armed : ∃ foo, s.mail.recvFrom t = some foo := by
      rcases waits.2.2 with is | is <;> exact ⟨_, is⟩
    obtain ⟨foo, armed⟩ := armed
    have notSend : ¬ (s.call t).IsSend := Mail.waits_not_send ((sound.2 t).armed foo armed).2
    have free : s.sendTo t = none := (sound.2 t).free_of_not_send notSend
    have cleared : Refines rules s { s with waitRupt := update s.waitRupt t 0 } :=
      sound.edit (.takeRupt t) rfl rfl
    refine cleared.andThen sound fun sound => ?_
    have disarmed : Refines rules _ { s with
        waitRupt := update s.waitRupt t 0
        unsolved := update s.unsolved t .null
        recvFrom := update s.recvFrom t none } :=
      sound.edit (.disarm .null free (.inr ⟨rfl, notSend⟩)) rfl rfl
    exact disarmed.andThen sound fun sound => sound.wakers _ s.signalled
  · rename_i other
    refine sound.edit (.recordRupt ruptNo ?_) rfl rfl
    intro rule forRupt
    have blocked := prompt rule forRupt
    apply other
    refine ⟨blocked, ?_, forRupt⟩
    intro null
    have armed : ∃ foo, s.mail.recvFrom t = some foo := by
      rcases forRupt with is | is <;> exact ⟨_, is⟩
    obtain ⟨foo, armed⟩ := armed
    have buffer : s.unsolved t = .buffer := ((sound.2 t).armed foo armed).1
    rw [null] at buffer
    cases buffer

/-! ## Cleaning up -/

theorem Sound.dropWaiters (sound : Sound s) (t : Fin n) : Refines rules s (s.dropWaiters t) := by
  obtain ⟨q, linked⟩ := sound.1
  refine ⟨⟨q, linked.frame rfl rfl⟩, Mail.Edits.disarmAll (s.orphans t) ?_⟩
  intro w there
  have waits : s.recvFrom w = some (.thread t) := by
    have := (List.mem_filter.mp there).2
    simp only [decide_eq_true_eq] at this
    exact this.1
  exact (sound.2 w).free_of_not_send (Mail.waits_not_send ((sound.2 w).armed _ waits).2)

/-- A walk that sets the links of the senders, whatever to. -/
theorem foldl_setNext_frame (queues : α → Chains (Fin n) (Fin n)) (step : α → Fin n → α)
    (sets : ∀ a sender, ∃ next, queues (step a sender) = (queues a).setNext sender next)
    (senders : List (Fin n)) :
    ∀ a, (queues (senders.foldl step a)).head = (queues a).head ∧
      ∀ b ∉ senders, (queues (senders.foldl step a)).next b = (queues a).next b := by
  induction senders with
  | nil => exact fun a => ⟨rfl, fun _ _ => rfl⟩
  | cons sender senders ih =>
    intro a
    obtain ⟨next, set⟩ := sets a sender
    obtain ⟨heads, links⟩ := ih (step a sender)
    rw [set] at heads links
    refine ⟨heads, fun b absent => ?_⟩
    rw [List.mem_cons, not_or] at absent
    exact (links b absent.2).trans (update_of_ne absent.1 _ _)

theorem Linked.releaseAll (linked : Linked s q) {queues : Chains (Fin n) (Fin n)}
    (heads : queues.head = s.queues.head) (links : ∀ b ∉ q t, queues.next b = s.queues.next b)
    (lossy : rules.careful → ∀ x, s.sendTo x ≠ some t) (is : s'.queues = queues.clear t)
    (mail : s'.mail = { s.mail with
      sendTo := fun w => if (q t).contains w then none else s.sendTo w
      unsolved := fun w => if (q t).contains w then .null else s.unsolved w }) :
    Refines rules s s' := by
  have sendTo : s'.sendTo = fun w => if (q t).contains w then none else s.sendTo w :=
    congrArg Mail.sendTo mail
  refine ⟨⟨update q t [], ?_, ?_⟩, ?_⟩
  · rw [is]
    exact linked.holds.clear heads links
  · intro x k
    rw [sendTo]
    simp only [List.contains_iff_mem]
    by_cases here : x ∈ q t
    · rw [if_pos here]
      cases eq_or_ne k t with
      | inl same => simp [same]
      | inr other =>
        rw [update_of_ne other]
        exact ⟨fun there => absurd (linked.holds.apart k t x there here) other, nofun⟩
    · rw [if_neg here]
      cases eq_or_ne k t with
      | inl same => simpa [same, linked.queued] using here
      | inr other => rw [update_of_ne other, linked.queued]
  · rw [mail]
    apply Mail.Edits.releaseAll (q t) (linked.holds.nodup t)
    · intro w there
      rw [show s.mail.sendTo w = some t from (linked.queued w t).mp there]
      simp
    · intro some careful
      obtain ⟨x, there⟩ := List.exists_mem_of_ne_nil _ some
      exact lossy careful x ((linked.queued x t).mp there)

theorem Linked.dropSenders (linked : Linked s q)
    (blocked : ∀ x, s.sendTo x = some t → s.blockedFor x brSendMsg = true)
    (lossy : rules.careful → ∀ x, s.sendTo x ≠ some t) :
    Refines rules s (s.dropSenders t (q t)) := by
  obtain ⟨heads, links⟩ :=
    foldl_setNext_frame Prod.fst (fun acc sender => (acc.1.setNext sender acc.2, some sender))
    (fun acc _ => ⟨acc.2, rfl⟩) (q t) (s.queues, none)
  refine linked.releaseAll heads links lossy rfl ?_
  have same : ∀ w, ((q t).contains w = true ∧ s.blockedFor w brSendMsg = true) =
      ((q t).contains w = true) := by
    intro w
    refine propext ⟨And.left, fun there => ⟨there, blocked w ((linked.queued w t).mp ?_)⟩⟩
    exact List.contains_iff_mem.mp there
  simp only [Comm.dropSenders, Comm.mail, same]
  rfl

variable (sound : Sound s)

include sound

theorem Sound.exitSenders (lossy : rules.careful → ∀ x, s.sendTo x ≠ some t)
    (eq : s.exitSenders t = some s') : Refines rules s s' := by
  obtain ⟨q, linked⟩ := sound.1
  rw [Comm.exitSenders, linked.holds.chainFrom (linked.enough t)] at eq
  cases eq
  obtain ⟨heads, links⟩ := foldl_setNext_frame id _ (fun _ _ => ⟨none, rfl⟩) (q t) s.queues
  exact linked.releaseAll heads links lossy rfl rfl

theorem Sound.leaveQueue (eq : s.leaveQueue t = some s') :
    Refines rules s s' ∧ s'.sendTo t = none := by
  unfold Comm.leaveQueue at eq
  split at eq
  · rename_i target queued
    refine ⟨sound.withdraw queued (.inl rfl) eq, ?_⟩
    obtain ⟨queues, _, is⟩ := map_eq_some_iff.mp eq
    cases is
    exact update_self _ _ _
  · rename_i free
    cases eq
    exact ⟨sound.refl, free⟩

theorem Sound.clearAsync (wakers : List (Waker n))
    (lossy : rules.careful → s.async t = [] ∨ s.procState (s.process t) = .invalid)
    (wild : ¬ rules.calm) :
    Refines rules s { s with async := update s.async t [], wakers } := by
  have cleared : Refines rules s { s with async := update s.async t [] } := by
    cases eq_or_ne (s.async t) [] with
    | inl empty =>
      have same : update s.async t [] = s.async :=
        Function.update_eq_iff.mpr ⟨empty.symm, fun _ _ => rfl⟩
      rw [same]
      exact sound.refl
    | inr some =>
      refine sound.edit (.clearAsync t (fun careful => ?_) wild) rfl rfl
      simpa [mail] using (lossy careful).resolve_left some
  exact cleared.andThen sound fun sound => sound.wakers wakers s.signalled

theorem Sound.msgCleanupThread (orderly : Orderly s (.cleanup t dying))
    (careful : rules.careful → Careful s (.cleanup t dying)) (wild : ¬ rules.calm)
    (invalid : dying = true → s.procState (s.process t) = .invalid)
    (eq : s.msgCleanupThread t dying = some s') : Refines rules s s' := by
  obtain ⟨q, linked⟩ := sound.1
  rw [Comm.msgCleanupThread, linked.holds.chainFrom (linked.enough t)] at eq
  obtain ⟨s₃, left, is⟩ := map_eq_some_iff.mp eq
  -- The receivers that wait for the thread.
  obtain ⟨s₁, is₁⟩ : ∃ s₁, s₁ = if dying then s.dropWaiters t else s := ⟨_, rfl⟩
  rw [← is₁] at left
  have first : Refines rules s s₁ := by
    rw [is₁]
    cases dying with
    | true => exact sound.dropWaiters t
    | false => exact sound.refl
  have same : s₁.sendTo = s.sendTo ∧ s₁.queues = s.queues ∧ s₁.control = s.control ∧
    s₁.async = s.async ∧
      s₁.procState = s.procState ∧ s₁.process = s.process := by
    rw [is₁]
    cases dying <;> exact ⟨rfl, rfl, rfl, rfl, rfl, rfl⟩
  have linked₁ : Linked s₁ q := linked.frame same.2.1 same.1
  have sound₁ : Sound s₁ := first.sound sound
  -- The senders in its queue.
  have second : Refines rules s₁ (s₁.dropSenders t (q t)) := by
    apply linked₁.dropSenders
    · intro x queued
      rw [same.1] at queued
      have := orderly x queued
      rwa [blockedFor, same.2.2.1]
    · intro rule
      rw [same.1]
      exact (careful rule).1
  have sound₂ := second.sound sound₁
  obtain ⟨third, free⟩ : Refines rules _ s₃ ∧ s₃.sendTo t = none :=
    sound₂.leaveQueue left
  have sound₃ := third.sound sound₂
  have kept : s₃.async = s.async ∧ s₃.procState = s.procState ∧
      s₃.process = s.process := by
    unfold Comm.leaveQueue at left
    split at left
    · obtain ⟨queues, _, done⟩ := map_eq_some_iff.mp left
      cases done
      exact same.2.2.2
    · cases left
      exact same.2.2.2
  have lossy : rules.careful → s₃.async t = [] ∨
      s₃.procState (s₃.process t) = .invalid := by
    intro rule
    rw [kept.1, kept.2.1, kept.2.2]
    cases dying with
    | true => exact .inr (invalid rfl)
    | false => exact .inl ((careful rule).2 rfl)
  refine first.trans (second.trans (third.trans ?_))
  rw [← is]
  split
  · obtain ⟨waiters, disarmed⟩ := disarm_eq s₃ t .dead
    refine (sound₃.disarm free (.inl rfl)).andThen sound₃ fun sound => ?_
    rw [disarmed] at sound ⊢
    exact sound.clearAsync _ lossy wild
  · exact sound₃.clearAsync _ lossy wild

theorem Sound.wakeStep (orderly : Orderly s (.wake i)) (eq : s.wakeStep i = some s') :
    Refines rules s s' := by
  obtain ⟨w, there, is⟩ := map_eq_some_iff.mp eq
  cases is
  cases dropped : w.dropped with
  | some sender =>
    have cleared : Refines rules s _ := sound.clearLink (orderly w there sender dropped)
      (s.wakers.set i { w with dropped := s.queues.next sender })
    exact cleared.andThen sound fun sound => sound.unblock sender brSendMsg
  | none =>
    have rest : ∀ wakers, Refines rules s { s with wakers } :=
      fun wakers => sound.wakers wakers s.signalled
    cases wakes : w.wakes with
    | cons wake wakes => exact (rest _).andThen sound fun sound => sound.unblock wake.1 wake.2
    | nil =>
      cases w.signalled with
      | some t => exact (rest _).andThen sound fun sound => sound.unblock t _
      | none => exact rest _

omit sound

/-! ## Exit and image replacement -/

variable (sound : Sound s)

include sound

theorem Sound.severSend {q} (careful : rules.careful → Careful s (.severSend t q))
    (eq : s.severSend t q = some s') : Refines rules s s' := by
  unfold Comm.severSend at eq
  split at eq
  · rename_i target queued
    split at eq
    · rename_i both
      obtain ⟨s₁, withdrawn, is⟩ := map_eq_some_iff.mp eq
      cases is
      have lossy : ¬ rules.careful := fun rule => careful rule target queued both.1 both.2
      exact (sound.withdraw queued (.inr ⟨rfl, lossy⟩) withdrawn).andThen sound fun sound =>
        sound.wakers _ s₁.signalled
    · cases eq
      exact sound.refl
  · cases eq
    exact sound.refl

theorem Sound.severRecv (q : Fin p) : Refines rules s (s.severRecv t q) := by
  unfold Comm.severRecv
  split
  · rename_i fo armed
    split
    · have notSend : ¬ (s.call t).IsSend := Mail.waits_not_send ((sound.2 t).armed _ armed).2
      exact (sound.disarm_recv notSend).andThen sound fun sound =>
        sound.wakers _ (s.disarm t .null).signalled
    · exact sound.refl
  · exact sound.refl

theorem Sound.exet (orderly : Orderly s (.exet t)) : Refines rules s (s.exet t) := by
  obtain ⟨q, linked⟩ := sound.1
  obtain ⟨waiters, disarmed⟩ := disarm_eq s t .null
  have empty : q t = [] := by
    apply List.eq_nil_iff_forall_not_mem.mpr
    intro x there
    exact orderly.1 x ((linked.queued x t).mp there)
  have holds : ((s.queues.clear t).setNext t none).Holds q := by
    have cleared := linked.holds.clear (k := t) rfl fun _ _ => rfl
    rw [Function.update_eq_iff.mpr ⟨empty.symm, fun _ _ => rfl⟩] at cleared
    exact cleared.setNext (linked.absent orderly.2) none
  have reset : Refines rules s { s with
      waiters
      unsolved := update s.unsolved t .null
      recvFrom := update s.recvFrom t none
      queues := (s.queues.clear t).setNext t none
      call := update s.call t .none } :=
      ⟨⟨q, holds, linked.queued⟩, .single (.reset orderly.2)⟩
  rw [Comm.exet, disarmed]
  rw [update_none_free orderly.2]
  exact reset.andThen sound fun sound => sound.schedule (states_update (.inr (.inl rfl)))

theorem Sound.setProc (q : Fin p) (dead : s.procState q = .invalid → state = .invalid)
    (takes : rules.lasting → state = .hanging → ∀ x k, s.sendTo x = some k →
      s.process k ≠ q) :
    Refines rules s { s with procState := update s.procState q state } := by
  refine sound.edit (.status _ _ ?_ ?_) rfl rfl
  · intro k was
    simp only [mail, decide_eq_true_eq, Function.update_apply] at was ⊢
    grind
  · intro rule x k queued yes
    have := takes rule
    simp only [mail, takesSends, Bool.and_eq_true, decide_eq_true_eq,
      Function.update_apply] at queued yes ⊢
    refine ⟨yes.1, ?_⟩
    grind

theorem Sound.exitThread (lasting : rules.lasting → ∀ x, s.sendTo x ≠ some t)
    (th : Sched.Thread) (onCpu : Fin n → Bool) :
    Refines rules s { s with control := update s.control t th, onCpu } := by
  refine sound.edit (.status _ _ (fun _ => id) ?_) rfl rfl
  intro rule x k queued yes
  have other : k ≠ t := fun same => lasting rule x (same ▸ queued)
  exact takesSends_of_state yes rfl rfl
    (.inl (congrArg Sched.Thread.state (update_of_ne other _ _)))

omit sound

/-! ## All steps -/

theorem Sound.exec (sound : Sound s) (e : Event n p) (orderly : Orderly s e)
    (keeps : Keeps rules s e) (eq : e.exec s = some s') : Refines rules s s' := by
  obtain ⟨careful, prompt, lasting, apart, calm⟩ := keeps
  cases e with
  | send fo target isAsync buffer alloc =>
    simp only [Event.exec, mayCall, Bool.and_eq_true, decide_eq_true_eq] at eq
    obtain ⟨may, eq⟩ := ite_none_right_eq_some.mp eq
    obtain ⟨s₁, called, ⟨⟩⟩ := map_eq_some_iff.mp eq
    have orderly : isAsync = false → buffer ≠ .null := orderly
    refine (sound.msgSend may.2 (by simpa using orderly) apart called).noted fun rule => ?_
    have good : buffer = .mapped := careful rule
    exact ⟨fun id => by simp +contextual [update_apply, good], fun _ _ => id⟩
  | recv receiver foo buffer =>
    simp only [Event.exec, mayCall, Bool.and_eq_true, decide_eq_true_eq] at eq
    obtain ⟨may, eq⟩ := ite_none_right_eq_some.mp eq
    obtain ⟨s₁, called, ⟨⟩⟩ := map_eq_some_iff.mp eq
    have senders : s.looks receiver foo = true → SendersOk rules s receiver foo := fun looks =>
      ⟨orderly looks, fun rule => (careful rule).2 looks⟩
    refine (sound.msgRecv may.2 senders called).noted fun rule => ?_
    have good : buffer = .mapped := (careful rule).1
    refine ⟨fun _ => id, fun t call yes => ?_⟩
    rw [update_apply]
    split <;> simp_all [update_apply]
  | step t =>
    obtain ⟨_, eq⟩ := ite_none_right_eq_some.mp eq
    exact sound.callStep orderly careful eq
  | preempt t =>
    obtain ⟨_, ⟨⟩⟩ := ite_none_right_eq_some.mp eq
    exact sound.yieldCpu t
  | resume t =>
    obtain ⟨_, ⟨⟩⟩ := ite_none_right_eq_some.mp eq
    exact sound.schedule (states_update (.inr (.inr (.inl rfl))))
  | pend t reason =>
    obtain ⟨_, ⟨⟩⟩ := ite_none_right_eq_some.mp eq
    exact (sound.block t reason).andThen sound fun sound => sound.yieldCpu t
  | unblock t reason =>
    cases eq
    exact sound.unblock t reason
  | rupt t ruptNo =>
    cases eq
    exact sound.ruptProc prompt
  | signal t =>
    cases eq
    exact sound.wakers s.wakers _
  | cleanup t dying =>
    obtain ⟨may, eq⟩ := ite_none_left_eq_some.mp eq
    refine sound.msgCleanupThread orderly careful calm (fun is => ?_) eq
    by_contra other
    exact may ⟨is, other⟩
  | wake i => exact sound.wakeStep orderly eq
  | exitThread t =>
    obtain ⟨_, ⟨⟩⟩ := ite_none_right_eq_some.mp eq
    exact sound.exitThread lasting _ _
  | expire q =>
    obtain ⟨active, ⟨⟩⟩ := ite_none_right_eq_some.mp eq
    exact sound.setProc q (by simp [active]) fun _ => nofun
  | severSend t q =>
    obtain ⟨_, eq⟩ := ite_none_right_eq_some.mp eq
    exact sound.severSend careful eq
  | severRecv t q =>
    obtain ⟨_, ⟨⟩⟩ := ite_none_right_eq_some.mp eq
    exact sound.severRecv q
  | exitSenders t =>
    obtain ⟨_, eq⟩ := ite_none_right_eq_some.mp eq
    exact sound.exitSenders careful eq
  | zombie q =>
    obtain ⟨expiring, ⟨⟩⟩ := ite_none_right_eq_some.mp eq
    exact sound.setProc q (by simp [expiring]) fun rule _ => lasting rule
  | invalidate q =>
    obtain ⟨_, ⟨⟩⟩ := ite_none_right_eq_some.mp eq
    exact sound.setProc q (fun _ => rfl) fun _ => nofun
  | exet t =>
    obtain ⟨_, ⟨⟩⟩ := ite_none_right_eq_some.mp eq
    exact sound.exet orderly

end Mecocoa.Ipc
